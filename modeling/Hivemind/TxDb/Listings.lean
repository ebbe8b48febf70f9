import Hivemind.TxDb.ListingsBasic

/-!
# Market index listings: main results

Whatever sequence of batches and bookkeeping writes the market database has seen, its readers
return the abstract index: every listing returns the last objects written whose key fields match,
in id order and each once, and a lookup finds an object exactly when one was written.

The module before this one ties the bytes of the database to the abstract index, class by class
and front part by front part.  Here the front parts are read as what they stand for, the id of a
branch, a decision or a market, and the height of a vote; a listing by a field is then the
objects with that field, and the sixteen readers are stated side by side.

* `hasPrefix_idPrefix`, `hasPrefix_heightPrefix`: a listing prefix says which key fields match.
* `listed`: the objects of an abstract index, in id order.
* `lastWrite_filter`: the last object under an id, with a condition on it.
* `readers_return_written`: **the sixteen readers** against the abstract index.
* `getRevealVotes_eq_iff`: the votes of two heights are the same if there are none for either.
-/

namespace Hivemind

open Codecs Ordered

/-! ## Prefixes and key fields -/

theorem idPrefix_inj {tag : UInt8} {id id' : Uint256} (h : idPrefix tag id = idPrefix tag id') :
    id = id' :=
  Subtype.ext (List.cons.inj h).2

theorem heightPrefix_inj {tag : UInt8} {id id' : Uint256} {height height' : UInt32}
    (h : heightPrefix tag id height = heightPrefix tag id' height') :
    id = id' ∧ height = height' := by
  obtain ⟨hid, hh⟩ := List.append_inj (List.cons.inj h).2 (by rw [id.property, id'.property])
  exact ⟨Subtype.ext hid, Codec.eq_of_ser_eq (Codec.fits_u32 _) (Codec.fits_u32 _) hh⟩

theorem hasPrefix_of_long {op : MarketOp} {p : Bytes} (hlen : 1 < p.length) (o : MarketObj op) :
    HasPrefix p o = decide (p ∈ listPrefixes o) := by
  have hne : p ≠ [op.byte] := by
    rintro rfl
    simp at hlen
  simp [HasPrefix, prefixes, hne]

/-- Matching an id prefix, for a class listed by one id. -/
theorem hasPrefix_idPrefix {op : MarketOp} {tag : UInt8} {ids : MarketObj op → List Uint256}
    (hids : ∀ o : MarketObj op, listPrefixes o = (ids o).map (idPrefix tag)) (id : Uint256) :
    (HasPrefix (idPrefix tag id) : MarketObj op → Bool) = fun o => decide (id ∈ ids o) := by
  funext o
  rw [hasPrefix_of_long (by rw [length_idPrefix]; decide), hids, decide_eq_decide, List.mem_map]
  constructor
  · rintro ⟨id', hmem, heq⟩
    exact idPrefix_inj heq ▸ hmem
  · intro hmem
    exact ⟨id, hmem, rfl⟩

/-- Matching an id and height prefix, for the votes. -/
theorem hasPrefix_heightPrefix {op : MarketOp} {tag : UInt8} {branchid : MarketObj op → Uint256}
    {height : MarketObj op → UInt32}
    (hkey : ∀ o : MarketObj op, listPrefixes o = [heightPrefix tag (branchid o) (height o)])
    (id : Uint256) (h : UInt32) :
    (HasPrefix (heightPrefix tag id h) : MarketObj op → Bool) =
      fun o => decide (branchid o = id ∧ height o = h) := by
  funext o
  rw [hasPrefix_of_long (by rw [length_heightPrefix]; decide), hkey, decide_eq_decide,
    List.mem_singleton]
  constructor
  · intro heq
    obtain ⟨hid, hh⟩ := heightPrefix_inj heq
    exact ⟨hid.symm, hh.symm⟩
  · rintro ⟨rfl, rfl⟩
    rfl

/-! ## The listings by class -/

section Readers

variable {ws : List (Uint256 × AnyMarketObj)} {db : LevelDB}

/-- The objects of an abstract index, in id order. -/
def listed (op : MarketOp) (P : MarketObj op → Bool) (ws : List (Uint256 × AnyMarketObj)) :
    List (MarketObj op) :=
  (writtenMap op P ws).entries.map fun e => e.2.persisted

theorem listById_eq (h : Indexed ws db) (hws : AllSizesOk ws) (op : MarketOp)
    (ids : MarketObj op → List Uint256) (hop : op ≠ .branch) (hlen : op.prefixLength = 33)
    (hids : ∀ o : MarketObj op, listPrefixes o = (ids o).map (idPrefix op.listingByte))
    (id : Uint256) :
    listById op op.listingByte id db = listed op (fun o => decide (id ∈ ids o)) ws := by
  rw [listById, h.listObjs_seek hws (listPrefix_idPrefix hop hlen id) (fun _ => keyPair_de)
    Blob.null_le, hasPrefix_idPrefix hids]
  rfl

theorem listByHeight_eq (h : Indexed ws db) (hws : AllSizesOk ws) (op : MarketOp)
    (branchid : MarketObj op → Uint256) (height : MarketObj op → UInt32) (hop : op ≠ .branch)
    (hlen : op.prefixLength = 37)
    (hkey : ∀ o : MarketObj op,
      listPrefixes o = [heightPrefix op.listingByte (branchid o) (height o)])
    (id : Uint256) (ht : UInt32) :
    listByHeight op op.listingByte id ht db =
      listed op (fun o => decide (branchid o = id ∧ height o = ht)) ws := by
  rw [listByHeight, h.listObjs_seek hws (listPrefix_heightPrefix hop hlen id ht)
    (fun _ => keyTriple_de) Blob.null_le, hasPrefix_heightPrefix hkey]
  rfl

theorem getBranches_eq (h : Indexed ws db) (hws : AllSizesOk ws) :
    getBranches db = listed .branch (fun _ => true) ws := by
  have hseek := h.listObjs_seek hws listPrefix_branch (fun _ => keyByte_de) (z := [])
    (fun objid => by simpa using prefix_le_append [] objid.val)
  rw [List.append_nil] at hseek
  rw [getBranches, hseek, listed, ← hasPrefix_byte]
  rfl

end Readers

/-! ## Main result -/

theorem lastWrite_isSome_iff {op : MarketOp} {objid : Uint256}
    {ws : List (Uint256 × AnyMarketObj)} :
    (lastWrite op objid (fun _ => true) ws).isSome ↔ ∃ o, (objid, ⟨op, o⟩) ∈ ws := by
  constructor
  · intro h
    obtain ⟨o, ho⟩ := Option.isSome_iff_exists.mp h
    exact ⟨o, (mem_of_lastWrite ho).1⟩
  · rintro ⟨o, hmem⟩
    rw [lastWrite, List.findSome?_isSome_iff]
    exact ⟨_, List.mem_reverse.mpr hmem, by simp [matchWrite]⟩

/-- An object of a listing was written, and its fields match. -/
theorem of_mem_listed {op : MarketOp} {P : MarketObj op → Bool}
    {ws : List (Uint256 × AnyMarketObj)} {o : MarketObj op} (h : o ∈ listed op P ws) :
    ∃ objid o', (objid, ⟨op, o'⟩) ∈ ws ∧ P o' = true ∧ o = o'.persisted := by
  obtain ⟨⟨objid, o'⟩, hmem, rfl⟩ := List.mem_map.mp h
  have hfind := OrdMap.find_eq_some.mpr hmem
  rw [find_writtenMap] at hfind
  exact ⟨objid, o', (mem_of_lastWrite hfind).1, (mem_of_lastWrite hfind).2, rfl⟩

/-- A listing is empty when no object whose fields match was written. -/
theorem listed_eq_nil_iff {op : MarketOp} {P : MarketObj op → Bool}
    {ws : List (Uint256 × AnyMarketObj)} :
    listed op P ws = [] ↔ ∀ objid o, (objid, ⟨op, o⟩) ∈ ws → P o = false := by
  refine ⟨fun h objid o hmem => ?_, fun h => ?_⟩
  · by_contra hP
    have hsome : (lastWrite op objid P ws).isSome := by
      rw [lastWrite, List.findSome?_isSome_iff]
      exact ⟨_, List.mem_reverse.mpr hmem, by simp [matchWrite, Option.filter, hP]⟩
    obtain ⟨o', ho'⟩ := Option.isSome_iff_exists.mp hsome
    rw [← find_writtenMap] at ho'
    have hlisted := List.mem_map_of_mem (f := fun e : Uint256 × MarketObj op => e.2.persisted)
      (OrdMap.find_eq_some.mp ho')
    have hnil : (writtenMap op P ws).entries.map (fun e => e.2.persisted) = [] := h
    rw [hnil] at hlisted
    cases hlisted
  · refine List.eq_nil_iff_forall_not_mem.mpr fun o ho => ?_
    obtain ⟨objid, o', hmem, hP, -⟩ := of_mem_listed ho
    rw [h objid o' hmem] at hP
    cases hP

/-- The votes of two heights are the same if there are none for either height. -/
theorem getRevealVotes_eq_iff {steps : List DbStep} (hsizes : AllSizesOk (writtenObjs steps))
    (branchid : Uint256) {height height' : UInt32} (hne : height ≠ height') :
    getRevealVotes branchid height (runDb steps) = getRevealVotes branchid height' (runDb steps) ↔
      ∀ objid (o : MarketObj .revealVote), (objid, ⟨.revealVote, o⟩) ∈ writtenObjs steps →
        o.data.branchid = branchid → o.data.height ≠ height ∧ o.data.height ≠ height' := by
  have hlisted : ∀ ht, getRevealVotes branchid ht (runDb steps) =
      listed .revealVote (fun o => decide (o.data.branchid = branchid ∧ o.data.height = ht))
        (writtenObjs steps) := fun ht =>
    listByHeight_eq (indexed_run steps) hsizes .revealVote (fun o => o.data.branchid)
      (fun o => o.data.height) (by decide) rfl (fun _ => rfl) branchid ht
  -- every vote that is listed carries the height it is listed under
  have hheight : ∀ ht, ∀ o ∈ getRevealVotes branchid ht (runDb steps), o.data.height = ht := by
    intro ht o ho
    rw [hlisted] at ho
    obtain ⟨objid, o', -, hP, rfl⟩ := of_mem_listed ho
    exact (of_decide_eq_true hP).2
  have hempty : ∀ ht, getRevealVotes branchid ht (runDb steps) = [] ↔
      ∀ objid (o : MarketObj .revealVote), (objid, ⟨.revealVote, o⟩) ∈ writtenObjs steps →
        o.data.branchid = branchid → o.data.height ≠ ht := by
    intro ht
    rw [hlisted, listed_eq_nil_iff]
    simp only [decide_eq_false_iff_not, not_and, ne_eq]
  constructor
  · intro heq objid o hmem hid
    have hnil : getRevealVotes branchid height (runDb steps) = [] := by
      refine List.eq_nil_iff_forall_not_mem.mpr fun v hv => ?_
      exact hne ((hheight height v hv).symm.trans (hheight height' v (heq ▸ hv)))
    exact ⟨(hempty height).mp hnil objid o hmem hid,
      (hempty height').mp (heq ▸ hnil) objid o hmem hid⟩
  · intro h
    rw [(hempty height).mpr fun objid o hmem hid => (h objid o hmem hid).1,
      (hempty height').mpr fun objid o hmem hid => (h objid o hmem hid).2]

theorem findSome?_congr_mem {α β : Type} {f g : α → Option β} {l : List α}
    (h : ∀ a ∈ l, f a = g a) : l.findSome? f = l.findSome? g := by
  induction l with
  | nil => rfl
  | cons a l ih =>
      rw [List.findSome?_cons, List.findSome?_cons, h a (List.mem_cons_self ..),
        ih (fun b hb => h b (List.mem_cons_of_mem _ hb))]

/-- When the condition depends on the id only, the last object that satisfies it
is the last object of the id, if that one does. -/
theorem lastWrite_filter {op : MarketOp} {P : MarketObj op → Bool}
    {ws : List (Uint256 × AnyMarketObj)}
    (hP : ∀ objid o o', (objid, ⟨op, o⟩) ∈ ws → (objid, ⟨op, o'⟩) ∈ ws → P o = P o')
    (objid : Uint256) :
    lastWrite op objid P ws = (lastWrite op objid (fun _ => true) ws).filter P := by
  cases hl : lastWrite op objid (fun _ => true) ws with
  | none =>
      cases hl' : lastWrite op objid P ws with
      | none => rfl
      | some o =>
          have hsome := lastWrite_isSome_iff.mpr ⟨o, (mem_of_lastWrite hl').1⟩
          rw [hl] at hsome
          cases hsome
  | some o =>
      have hmem := (mem_of_lastWrite hl).1
      have hmatch : ∀ w ∈ ws.reverse, matchWrite op objid P w =
          if P o then matchWrite op objid (fun _ => true) w else none := by
        rintro ⟨id, op', o'⟩ hw
        by_cases hid : id = objid
        · by_cases hop : op' = op
          · subst hid hop
            have heq := hP id o o' hmem (List.mem_reverse.mp hw)
            cases hPo : P o <;> simp [matchWrite, Option.filter, ← heq, hPo]
          · simp [matchWrite, asOp_of_ne hop]
        · simp [matchWrite, hid]
      cases hPo : P o with
      | true =>
          rw [Option.filter_some_pos hPo, ← hl, lastWrite, lastWrite]
          refine findSome?_congr_mem ?_
          intro w hw
          rw [hmatch w hw, hPo, if_pos rfl]
      | false =>
          rw [Option.filter_some_neg (by simp [hPo]), lastWrite, List.findSome?_eq_none_iff]
          intro w hw
          rw [hmatch w hw, hPo, if_neg Bool.false_ne_true]

theorem listed_eq_filter {op : MarketOp} {P : MarketObj op → Bool}
    {ws : List (Uint256 × AnyMarketObj)}
    (hP : ∀ objid o o', (objid, ⟨op, o⟩) ∈ ws → (objid, ⟨op, o'⟩) ∈ ws → P o = P o') :
    listed op P ws = ((writtenMap op (fun _ => true) ws).entries.filter fun e => P e.2).map
      fun e => e.2.persisted := by
  have hmap : writtenMap op P ws = ⟨(writtenMap op (fun _ => true) ws).entries.filter
      (fun e => P e.2), (writtenMap op (fun _ => true) ws).sorted.filter _⟩ := by
    refine OrdMap.ext_find ?_
    intro objid
    ext o
    rw [find_writtenMap, lastWrite_filter hP, OrdMap.find_eq_some, List.mem_filter,
      ← OrdMap.find_eq_some, find_writtenMap, Option.filter_eq_some_iff]
  rw [listed, hmap]

theorem mem_singleton_eq {a b : Uint256} : decide (a ∈ [b]) = decide (b = a) := by
  simp [eq_comm]

/-- **Market index listings.**  After any sequence of writes whose objects can be
stored, each listing returns the last objects written under their ids whose key
fields match its argument, in id order and each id once; a lookup returns the
last object written under the id and finds one exactly when one was written.
Where the writes under one id agree on the key fields, as they do for ids that
are hashes, a listing is the last object of every id, kept if its fields match;
and objects that came from a script are returned unchanged. -/
theorem readers_return_written (steps : List DbStep) (hsizes : AllSizesOk (writtenObjs steps)) :
    (getBranches (runDb steps) = listed .branch (fun _ => true) (writtenObjs steps)) ∧
    (∀ branchid, getDecisions branchid (runDb steps) =
      listed .decision (fun o => o.data.branchid = branchid) (writtenObjs steps)) ∧
    (∀ decisionid, getMarkets decisionid (runDb steps) =
      listed .market (fun o => decisionid ∈ o.data.decisionIDs) (writtenObjs steps)) ∧
    (∀ branchid, getOutcomes branchid (runDb steps) =
      listed .outcome (fun o => o.data.branchid = branchid) (writtenObjs steps)) ∧
    (∀ branchid height, getRevealVotes branchid height (runDb steps) =
      listed .revealVote (fun o => o.data.branchid = branchid ∧ o.data.height = height)
        (writtenObjs steps)) ∧
    (∀ branchid height, getSealedVotes branchid height (runDb steps) =
      listed .sealedVote (fun o => o.data.branchid = branchid ∧ o.data.height = height)
        (writtenObjs steps)) ∧
    (∀ branchid height, getStealVotes branchid height (runDb steps) =
      listed .stealVote (fun o => o.data.branchid = branchid ∧ o.data.height = height)
        (writtenObjs steps)) ∧
    (∀ marketid, getTrades marketid (runDb steps) =
      listed .trade (fun o => o.data.marketid = marketid) (writtenObjs steps)) ∧
    (∀ op objid, getObj op objid (runDb steps) =
      ((writtenMap op (fun _ => true) (writtenObjs steps)).find objid).map MarketObj.persisted) ∧
    (∀ op objid, (getObj op objid (runDb steps)).isSome ↔
      ∃ o, (objid, ⟨op, o⟩) ∈ writtenObjs steps) ∧
    (∀ op P, (∀ objid o o', (objid, ⟨op, o⟩) ∈ writtenObjs steps →
        (objid, ⟨op, o'⟩) ∈ writtenObjs steps → P o = P o') →
      listed op P (writtenObjs steps) =
        ((writtenMap op (fun _ => true) (writtenObjs steps)).entries.filter fun e => P e.2).map
          fun e => e.2.persisted) ∧
    (∀ script op (o : MarketObj op) (txid : Uint256), marketObjCtr script = .ok (some ⟨op, o⟩) →
      MarketObj.persisted { o with txid } = { o with txid }) := by
  have h := indexed_run steps
  refine ⟨getBranches_eq h hsizes, fun b => ?_, fun d => ?_, fun b => ?_, fun b ht => ?_,
    fun b ht => ?_, fun b ht => ?_, fun m => ?_, fun op objid => ?_, fun op objid => ?_,
    fun op P hP => listed_eq_filter hP, ?_⟩
  · have := listById_eq h hsizes .decision (fun o => [o.data.branchid]) (by decide) rfl
      (fun _ => rfl) b
    simp only [mem_singleton_eq] at this
    exact this
  · exact listById_eq h hsizes .market (fun o => o.data.decisionIDs) (by decide) rfl
      (fun _ => rfl) d
  · have := listById_eq h hsizes .outcome (fun o => [o.data.branchid]) (by decide) rfl
      (fun _ => rfl) b
    simp only [mem_singleton_eq] at this
    exact this
  · exact listByHeight_eq h hsizes .revealVote (fun o => o.data.branchid) (fun o => o.data.height)
      (by decide) rfl (fun _ => rfl) b ht
  · exact listByHeight_eq h hsizes .sealedVote (fun o => o.data.branchid) (fun o => o.data.height)
      (by decide) rfl (fun _ => rfl) b ht
  · exact listByHeight_eq h hsizes .stealVote (fun o => o.data.branchid) (fun o => o.data.height)
      (by decide) rfl (fun _ => rfl) b ht
  · have := listById_eq h hsizes .trade (fun o => [o.data.marketid]) (by decide) rfl
      (fun _ => rfl) m
    simp only [mem_singleton_eq] at this
    exact this
  · rw [getObj_eq h hsizes, find_writtenMap]
  · rw [getObj_eq h hsizes, Option.isSome_map, lastWrite_isSome_iff]
  · intro script op o txid hctr
    obtain ⟨data, r, -, hun⟩ := marketObjCtr_eq_some.mp hctr
    exact persisted_of_unserialize hun txid

/-- A decision posted in the branch with the null id. -/
def exampleDecision : MarketObj .decision where
  data := { keyID := Blob.null, branchid := Blob.null, prompt := [], eventOverBy := 1, isScaled := 0,
            min := 0, max := 1, answerOptionality := 0 }

/-- The listings on a database with a decision, a flag and the reindexing mark. -/
theorem readers_return_written_decision :
    AllSizesOk (writtenObjs [.flag [0x6d] true, .index [(Blob.fill 7, ⟨.decision, exampleDecision⟩)],
      .reindexing true]) ∧
    getDecisions Blob.null (runDb [.flag [0x6d] true,
      .index [(Blob.fill 7, ⟨.decision, exampleDecision⟩)], .reindexing true]) =
        [exampleDecision] := by
  have hsizes : AllSizesOk (writtenObjs [.flag [0x6d] true,
      .index [(Blob.fill 7, ⟨.decision, exampleDecision⟩)], .reindexing true]) := by
    intro w hw
    obtain rfl : w = (Blob.fill 7, ⟨.decision, exampleDecision⟩) := by
      simpa [writtenObjs, DbStep.objs] using hw
    exact Nat.zero_le _
  refine ⟨hsizes, ?_⟩
  rw [(readers_return_written _ hsizes).2.1 Blob.null]
  decide

end Hivemind
