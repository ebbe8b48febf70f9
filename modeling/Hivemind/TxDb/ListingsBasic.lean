import Hivemind.TxDb.MarketTree

/-!
# Runs of the market index database

A run is any sequence of writes to `CMarketTreeDB`: batches of market objects and the bookkeeping
writes of the same database.  The abstract index is a family of finite maps from object ids to
the last object written (`writtenMap`), and `Indexed` ties the byte-level database to it.

A key of the database is a key of an object or one of the bookkeeping, and the two are apart by
their first bytes and lengths; that is what lets a batch of one kind leave the other alone.  A
reader seeks to a front part and walks on as long as it stays the same, so a listing is complete
because the keys with one front part form an interval of the order, which is a fact of the
library.  An object that is too large to be read back would stop a walk, and `AllSizesOk` says
that there is none.

* `indexed_run`: **every run keeps the database tied to the objects written.**
* `persisted_of_unserialize`: objects as `ConnectBlock` writes them come back unchanged.
* `getObj_eq`, `listObjs_eq`: what a lookup and a walk return on such a database.
* `listObjs_seek`: a listing is complete.
-/

namespace Hivemind

open Codecs Ordered

/-! ## Steps -/

/-- A write to the market index database. -/
inductive DbStep where
  | index (vect : List (Uint256 × AnyMarketObj))
  | reindexing (fReindexing : Bool)
  | batchSync (fileInfo : List (Int32 × Bytes)) (nLastFile : Int32)
  | flag (name : Bytes) (fValue : Bool)

namespace DbStep

def apply : DbStep → LevelDB → LevelDB
  | index vect => writeMarketIndex vect
  | reindexing fReindexing => writeReindexing fReindexing
  | batchSync fileInfo nLastFile => writeBatchSync fileInfo nLastFile
  | flag name fValue => writeFlag name fValue

/-- The market objects a step writes. -/
def objs : DbStep → List (Uint256 × AnyMarketObj)
  | index vect => vect
  | reindexing _ => []
  | batchSync _ _ => []
  | flag _ _ => []

end DbStep

/-- A run of writes, from an empty database. -/
def runDb (steps : List DbStep) : LevelDB := steps.foldl (fun db s => s.apply db) OrdMap.empty

/-- All objects a run writes, in order. -/
def writtenObjs (steps : List DbStep) : List (Uint256 × AnyMarketObj) := steps.flatMap DbStep.objs

/-! ## The abstract index -/

/-- For one class and one key condition: the finite map from object ids to the
last object written under the id. -/
def writtenMap (op : MarketOp) (P : MarketObj op → Bool) (ws : List (Uint256 × AnyMarketObj)) :
    OrdMap Uint256 (MarketObj op) :=
  OrdMap.empty.putAll (ws.filterMap fun w => ((asOp op w.2).filter P).map (w.1, ·))

theorem find_writtenMap (op : MarketOp) (P : MarketObj op → Bool)
    (ws : List (Uint256 × AnyMarketObj)) (objid : Uint256) :
    (writtenMap op P ws).find objid = lastWrite op objid P ws := by
  rw [writtenMap, OrdMap.find_putAll, OrdMap.find_empty, Option.or_none]
  induction ws with
  | nil => rfl
  | cons w ws ih =>
      rw [← List.singleton_append (l := ws), List.filterMap_append, OrdMap.lastPut_append, ih,
        lastWrite_append, lastWrite_singleton]
      congr 1
      obtain ⟨id, o⟩ := w
      cases hf : (asOp op o).filter P with
      | none => by_cases hid : id = objid <;> simp [matchWrite, hf, hid, OrdMap.lastPut]
      | some o' =>
          have hsingle : [(id, o)].filterMap (fun w => ((asOp op w.2).filter P).map (w.1, ·)) =
              [(id, o')] := by simp [hf]
          rw [hsingle, OrdMap.lastPut_singleton]
          by_cases hid : id = objid <;> simp [matchWrite, hf, hid]

/-! ## The invariant of a run -/

/-- The bookkeeping keys: `'R'`, `'l'`, `('f', n)` and `('F', name)`. -/
def BookKey (k : Bytes) : Prop :=
  k = [0x52] ∨ k = [0x6c] ∨ k.head? = some 0x66 ∨ k.head? = some 0x46

/-- The database holds, under every index key, the last object written there,
and apart from that only bookkeeping keys. -/
structure Indexed (ws : List (Uint256 × AnyMarketObj)) (db : LevelDB) : Prop where
  find : ∀ {op p} (objid : Uint256), ValidPrefix op p →
    db.find (p ++ objid.val) = (lastWrite op objid (HasPrefix p) ws).map objValue
  keys : ∀ e ∈ db.entries, BookKey e.1 ∨ ∃ op p, ∃ objid : Uint256, ValidPrefix op p ∧ e.1 = p ++ objid.val

theorem head_validPrefix_ne {op : MarketOp} {p : Bytes} (hp : ValidPrefix op p) :
    p.head? ≠ some 0x66 ∧ p.head? ≠ some 0x46 := by
  rcases hp with rfl | ⟨-, hb, -⟩
  · cases op <;> decide
  · rw [hb]
    cases op <;> decide

/-- No bookkeeping key starts with an index key, nor with the front part of one
that is longer than a byte. -/
theorem bookKey_ne_indexed {op : MarketOp} {p q k : Bytes} (hp : ValidPrefix op p)
    (hlen : 1 < (p ++ q).length) (hk : BookKey k) : ¬ p ++ q <+: k := by
  rintro ⟨t, rfl⟩
  have hhd : (p ++ q ++ t).head? = p.head? := by
    rw [List.append_assoc, List.head?_append_of_ne_nil _ (validPrefix_ne_nil hp)]
  have hlong : 1 < (p ++ q ++ t).length := by
    rw [List.length_append]
    omega
  have hhead := head_validPrefix_ne hp
  rcases hk with hb | hb | hb | hb
  · rw [hb] at hlong
    simp at hlong
  · rw [hb] at hlong
    simp at hlong
  · exact hhead.1 (hhd ▸ hb)
  · exact hhead.2 (hhd ▸ hb)

theorem one_lt_length_indexKey (p : Bytes) (objid : Uint256) : 1 < (p ++ objid.val).length := by
  rw [List.length_append, objid.property]
  omega

/-- A bookkeeping key is no index key. -/
theorem bookKey_ne {op : MarketOp} {p k : Bytes} {objid : Uint256} (hp : ValidPrefix op p)
    (hk : BookKey k) : p ++ objid.val ≠ k := by
  rintro rfl
  exact bookKey_ne_indexed hp (one_lt_length_indexKey p objid) hk (List.prefix_refl _)

namespace Indexed

variable {ws : List (Uint256 × AnyMarketObj)} {db : LevelDB}

theorem empty : Indexed [] OrdMap.empty :=
  ⟨fun _ _ => rfl, fun _ he => absurd he List.not_mem_nil⟩

theorem writeMarketIndex (h : Indexed ws db) (vect : List (Uint256 × AnyMarketObj)) :
    Indexed (ws ++ vect) (writeMarketIndex vect db) where
  find := by
    intro op p objid hp
    rw [find_writeMarketIndex op hp, h.find objid hp, lastWrite_append]
    cases lastWrite op objid (HasPrefix p) vect <;> rfl
  keys := by
    intro e he
    rcases OrdMap.mem_putAll he with hnew | hold
    · obtain ⟨w, -, hw⟩ := List.mem_flatMap.mp hnew
      obtain ⟨p, hp, rfl⟩ := List.mem_map.mp hw
      exact Or.inr ⟨w.2.1, p, w.1, validPrefix_of_mem hp, rfl⟩
    · exact h.keys e hold

/-- A batch of bookkeeping writes keeps the index. -/
theorem putAll_book (h : Indexed ws db) (kvs : List (Bytes × Bytes))
    (hkvs : ∀ e ∈ kvs, BookKey e.1) : Indexed ws (db.putAll kvs) where
  find := by
    intro op p objid hp
    have hnone : OrdMap.lastPut (p ++ objid.val) kvs = none :=
      OrdMap.lastPut_eq_none.mpr fun e he heq => bookKey_ne hp (hkvs e he) heq.symm
    rw [OrdMap.find_putAll, hnone, Option.none_or, h.find objid hp]
  keys := by
    intro e he
    rcases OrdMap.mem_putAll he with hnew | hold
    · exact Or.inl (hkvs e hnew)
    · exact h.keys e hold

theorem erase_book (h : Indexed ws db) {k : Bytes} (hk : BookKey k) :
    Indexed ws (db.erase k) where
  find := by
    intro op p objid hp
    rw [OrdMap.find_erase, if_neg (bookKey_ne hp hk), h.find objid hp]
  keys := fun e he => h.keys e (OrdMap.mem_erase.mp he).2

/-- One step keeps the index, with the objects of the step added. -/
theorem step (h : Indexed ws db) (s : DbStep) : Indexed (ws ++ s.objs) (s.apply db) := by
  cases s with
  | index vect => exact h.writeMarketIndex vect
  | reindexing fReindexing =>
      rw [DbStep.objs, List.append_nil]
      cases fReindexing with
      | true => exact h.putAll_book [([0x52], [0x31])] (by simp [BookKey])
      | false => exact h.erase_book (Or.inl rfl)
  | batchSync fileInfo nLastFile =>
      rw [DbStep.objs, List.append_nil]
      refine h.putAll_book _ ?_
      intro e he
      rcases List.mem_append.mp he with he | he
      · obtain ⟨f, -, rfl⟩ := List.mem_map.mp he
        exact Or.inr (Or.inr (Or.inl rfl))
      · obtain rfl := List.mem_singleton.mp he
        exact Or.inr (Or.inl rfl)
  | flag name fValue =>
      rw [DbStep.objs, List.append_nil]
      exact h.putAll_book [(0x46 :: stringCodec.ser name, _)] (by simp [BookKey])

end Indexed

/-- **Every run keeps the database tied to the objects written.** -/
theorem indexed_run (steps : List DbStep) : Indexed (writtenObjs steps) (runDb steps) := by
  have hgen : ∀ steps ws db, Indexed ws db →
      Indexed (ws ++ writtenObjs steps) (steps.foldl (fun db s => DbStep.apply s db) db) := by
    intro steps
    induction steps with
    | nil =>
        intro ws db h
        simpa [writtenObjs] using h
    | cons s steps ih =>
        intro ws db h
        have hstep := ih _ _ (h.step s)
        rwa [List.append_assoc] at hstep
  exact hgen steps [] _ Indexed.empty

/-! ## Values -/

/-- What comes back when an object is read from its value: the stored form with
its origin transaction. -/
def MarketObj.persisted {op : MarketOp} (o : MarketObj op) : MarketObj op :=
  { o.stored with txid := o.txid }

theorem readValue_objValue {op : MarketOp} {o : MarketObj op} (h : op.SizesOk o.data) :
    readValue op (objValue o) = .ok o.persisted := by
  have htxid : (Blob.codec : Codec Uint256).de o.txid.val = .ok (o.txid, []) := by
    have := Codec.de_ser (c := (Blob.codec : Codec Uint256)) (Blob.fits_codec o.txid) []
    rwa [List.append_nil] at this
  rw [readValue, objValue, MarketObj.unserialize_ser h]
  simp only [htxid]
  rfl

/-- The objects as `ConnectBlock` writes them, read by `marketObjCtr` and given
their transaction, come back unchanged. -/
theorem persisted_of_unserialize {op : MarketOp} {s r : Bytes} {o : MarketObj op}
    (h : MarketObj.unserialize op s = .ok (o, r)) (txid : Uint256) :
    MarketObj.persisted { o with txid } = { o with txid } := by
  have hst := MarketObj.stored_of_unserialize h
  show { MarketObj.stored { o with txid } with txid } = { o with txid }
  rw [show MarketObj.stored { o with txid } = o.stored from rfl, hst]

/-! ## Reading one object -/

/-- The front of a key that reads as `(tag, id)`. -/
theorem keyPair_de {k : Bytes} {tag : UInt8} {id : Uint256} :
    (∃ r, keyPair.de k = .ok ((tag, id), r)) ↔ idPrefix tag id <+: k := by
  constructor
  · rintro ⟨r, h⟩
    obtain ⟨e, rfl, e₁, e₂, rfl, he₁, he₂⟩ := keyPair.de_ok.mp h
    have h₁ : e₁ = [tag] := he₁
    have h₂ : e₂ = id.val := he₂
    subst h₁ h₂
    exact ⟨r, rfl⟩
  · rintro ⟨r, rfl⟩
    exact ⟨r, keyPair.de_ok.mpr ⟨idPrefix tag id, rfl, [tag], id.val, rfl, rfl, rfl⟩⟩

theorem keyTriple_de {k : Bytes} {tag : UInt8} {id : Uint256} {height : UInt32} :
    (∃ r, keyTriple.de k = .ok (((tag, id), height), r)) ↔ heightPrefix tag id height <+: k := by
  constructor
  · rintro ⟨r, h⟩
    obtain ⟨e, rfl, e₁, e₂, rfl, ⟨e₁₁, e₁₂, rfl, he₁₁, he₁₂⟩, he₂⟩ := keyTriple.de_ok.mp h
    have h₁ : e₁₁ = [tag] := he₁₁
    have h₂ : e₁₂ = id.val := he₁₂
    have h₃ : e₂ = Codec.u32.ser height := he₂
    subst h₁ h₂ h₃
    exact ⟨r, rfl⟩
  · rintro ⟨r, rfl⟩
    exact ⟨r, keyTriple.de_ok.mpr ⟨heightPrefix tag id height, rfl, idPrefix tag id,
      Codec.u32.ser height, rfl, ⟨[tag], id.val, rfl, rfl, rfl⟩, rfl⟩⟩

theorem keyByte_de {k : Bytes} {tag : UInt8} :
    (∃ r, Codec.u8.de k = .ok (tag, r)) ↔ [tag] <+: k := by
  constructor
  · rintro ⟨r, h⟩
    obtain ⟨e, rfl, he⟩ := Codec.u8.de_ok.mp h
    have he' : e = [tag] := he
    subst he'
    exact ⟨r, rfl⟩
  · rintro ⟨r, rfl⟩
    exact ⟨r, Codec.u8.de_ok.mpr ⟨[tag], rfl, rfl⟩⟩

/-- Every object a run writes can be read back. -/
def AllSizesOk (ws : List (Uint256 × AnyMarketObj)) : Prop :=
  ∀ w ∈ ws, w.2.1.SizesOk w.2.2.data

theorem mem_of_lastWrite {op : MarketOp} {objid : Uint256} {P : MarketObj op → Bool}
    {ws : List (Uint256 × AnyMarketObj)} {o : MarketObj op}
    (h : lastWrite op objid P ws = some o) : (objid, ⟨op, o⟩) ∈ ws ∧ P o = true := by
  obtain ⟨⟨id, op', o'⟩, hmem, hw⟩ := List.exists_of_findSome?_eq_some h
  by_cases hid : id = objid
  · subst hid
    by_cases hop : op' = op
    · subst hop
      simp only [matchWrite, if_true, asOp_self, Option.filter_eq_some_iff, Option.some.injEq] at hw
      obtain ⟨rfl, hP⟩ := hw
      exact ⟨List.mem_reverse.mp hmem, hP⟩
    · simp [matchWrite, asOp_of_ne hop] at hw
  · simp [matchWrite, hid] at hw

theorem AllSizesOk.lastWrite {ws : List (Uint256 × AnyMarketObj)} (hws : AllSizesOk ws)
    {op : MarketOp} {objid : Uint256} {P : MarketObj op → Bool} {o : MarketObj op}
    (h : lastWrite op objid P ws = some o) : op.SizesOk o.data :=
  hws _ (mem_of_lastWrite h).1

theorem hasPrefix_byte {op : MarketOp} : (HasPrefix [op.byte] : MarketObj op → Bool) = fun _ => true := by
  funext o
  simp [HasPrefix, prefixes]

/-- A key of the database that starts with the key of an object is that key. -/
theorem Indexed.key_eq_of_prefix {ws : List (Uint256 × AnyMarketObj)} {db : LevelDB}
    (h : Indexed ws db) {op : MarketOp} {p k v : Bytes} (id : Uint256) (hp : ValidPrefix op p)
    (hk : (k, v) ∈ db.entries) (hpre : p ++ id.val <+: k) : k = p ++ id.val := by
  obtain ⟨t, rfl⟩ := hpre
  rcases h.keys _ hk with hbook | ⟨op', p', id', hp', hkey⟩
  · exact absurd (List.prefix_append ..) (bookKey_ne_indexed hp (one_lt_length_indexKey p id) hbook)
  · have hhd : p.head? = p'.head? := by
      have := congrArg List.head? hkey
      simp only [List.append_assoc] at this
      rwa [List.head?_append_of_ne_nil _ (validPrefix_ne_nil hp),
        List.head?_append_of_ne_nil _ (validPrefix_ne_nil hp')] at this
    obtain ⟨rfl, hlen⟩ := validPrefix_head hp hp' hhd
    have hlens := congrArg List.length hkey
    simp only [List.length_append, id.property, id'.property] at hlens
    have ht : t = [] := List.length_eq_zero_iff.mp (by omega)
    rw [ht, List.append_nil]

theorem getObj_of_find {op : MarketOp} {objid : Uint256} {db : LevelDB} {v : Bytes}
    (h : db.find (objKey op objid) = some v) : getObj op objid db = (readValue op v).toOption := by
  obtain ⟨r, hr⟩ := keyPair_de.mpr (List.prefix_refl (idPrefix op.byte objid))
  rw [getObj, OrdMap.head_seek_of_find h]
  simp only [objKey]
  rw [show op.byte :: objid.val = idPrefix op.byte objid from rfl, hr]
  simp only [if_true]
  cases readValue op v <;> rfl

theorem getObj_writeMarketIndex {op : MarketOp} (objid : Uint256) (db : LevelDB)
    (o : MarketObj op) :
    getObj op objid (writeMarketIndex [(objid, ⟨op, o⟩)] db) =
      (readValue op (objValue o)).toOption := by
  refine getObj_of_find ?_
  have hfind := find_writeMarketIndex op (p := [op.byte]) (Or.inl rfl) objid
    [(objid, ⟨op, o⟩)] db
  rw [hasPrefix_byte, lastWrite_singleton] at hfind
  simpa [matchWrite, objKey, Option.filter] using hfind

/-- **A lookup returns the last object written under the id.** -/
theorem getObj_eq {ws : List (Uint256 × AnyMarketObj)} {db : LevelDB} (h : Indexed ws db)
    (hws : AllSizesOk ws) (op : MarketOp) (objid : Uint256) :
    getObj op objid db = (lastWrite op objid (fun _ => true) ws).map MarketObj.persisted := by
  have hvalid : ValidPrefix op [op.byte] := Or.inl rfl
  have hfind : db.find (objKey op objid) = (lastWrite op objid (fun _ => true) ws).map objValue := by
    have := h.find objid hvalid
    rwa [hasPrefix_byte] at this
  cases hl : lastWrite op objid (fun _ => true) ws with
  | some o =>
      rw [hl, Option.map_some] at hfind
      rw [getObj_of_find hfind, readValue_objValue (hws.lastWrite hl)]
      rfl
  | none =>
      rw [hl, Option.map_none] at hfind
      rw [getObj]
      cases hs : (db.seek (objKey op objid)).head? with
      | none => rfl
      | some e =>
          obtain ⟨k, v⟩ := e
          have hmem := OrdMap.mem_of_head_seek hs
          simp only
          cases hk : keyPair.de k with
          | error e => rfl
          | ok q =>
              obtain ⟨key, r⟩ := q
              simp only
              by_cases hkey : key = (op.byte, objid)
              · -- the key found would be the key sought, which is not there
                subst hkey
                have hpre : idPrefix op.byte objid <+: k := keyPair_de.mp ⟨r, hk⟩
                have heq := h.key_eq_of_prefix objid hvalid hmem hpre
                rw [heq] at hmem
                exact absurd hmem (OrdMap.find_eq_none.mp hfind v)
              · rw [if_neg hkey]
                rfl

/-! ## Walking a prefix -/

/-- The loop of a listing takes the entries with the wanted front part, when
their values can be read. -/
theorem listObjs_eq {op : MarketOp} {κ : Type} [DecidableEq κ] {c : Codec κ} {key : κ} {p : Bytes}
    (hc : ∀ k, (∃ r, c.de k = .ok (key, r)) ↔ p <+: k) (l : List (Bytes × Bytes))
    (hread : ∀ e ∈ l, p <+: e.1 → ∃ o, readValue op e.2 = .ok o) :
    listObjs op c key l =
      (l.takeWhile fun e => p <+: e.1).filterMap fun e => (readValue op e.2).toOption := by
  induction l with
  | nil => rfl
  | cons e l ih =>
      obtain ⟨k, v⟩ := e
      by_cases hpk : p <+: k
      · obtain ⟨r, hr⟩ := (hc k).mpr hpk
        obtain ⟨o, ho⟩ := hread (k, v) (List.mem_cons_self ..) hpk
        rw [listObjs, hr, List.takeWhile_cons_of_pos (by simpa using hpk),
          List.filterMap_cons_some (b := o) (by simp [ho, Except.toOption]),
          ← ih (fun e he => hread e (List.mem_cons_of_mem _ he))]
        simp only [if_true, ho]
      · rw [List.takeWhile_cons_of_neg (by simpa using hpk), List.filterMap_nil, listObjs]
        cases hk : c.de k with
        | error e => rfl
        | ok q =>
            obtain ⟨key', r⟩ := q
            have hne : key' ≠ key := by
              rintro rfl
              exact hpk ((hc k).mp ⟨r, hk⟩)
            simp only [if_neg hne]

/-- The front parts that a listing walks: no bookkeeping key starts with one. -/
def ListPrefix (op : MarketOp) (p : Bytes) : Prop :=
  ValidPrefix op p ∧ ∀ k, BookKey k → ¬ p <+: k

theorem listPrefix_branch : ListPrefix .branch [0x42] := by
  refine ⟨Or.inl rfl, ?_⟩
  rintro k hk ⟨t, rfl⟩
  rcases hk with h | h | h | h <;> simp at h

theorem listPrefix_idPrefix {op : MarketOp} (hop : op ≠ .branch) (hlen : op.prefixLength = 33)
    (id : Uint256) : ListPrefix op (idPrefix op.listingByte id) := by
  have hvalid : ValidPrefix op (idPrefix op.listingByte id) :=
    Or.inr ⟨hop, rfl, by rw [length_idPrefix, hlen]⟩
  refine ⟨hvalid, ?_⟩
  intro k hk
  have := bookKey_ne_indexed (q := []) hvalid (by simp [length_idPrefix]) hk
  rwa [List.append_nil] at this

theorem listPrefix_heightPrefix {op : MarketOp} (hop : op ≠ .branch) (hlen : op.prefixLength = 37)
    (id : Uint256) (height : UInt32) : ListPrefix op (heightPrefix op.listingByte id height) := by
  have hvalid : ValidPrefix op (heightPrefix op.listingByte id height) :=
    Or.inr ⟨hop, rfl, by rw [length_heightPrefix, hlen]⟩
  refine ⟨hvalid, ?_⟩
  intro k hk
  have := bookKey_ne_indexed (q := []) hvalid (by simp [length_heightPrefix]) hk
  rwa [List.append_nil] at this

namespace Indexed

variable {ws : List (Uint256 × AnyMarketObj)} {db : LevelDB} {op : MarketOp} {p : Bytes}

/-- The entries with a listing prefix are the written objects with that prefix. -/
theorem mem_prefix_iff (h : Indexed ws db) (hp : ListPrefix op p) {e : Bytes × Bytes} :
    (e ∈ db.entries ∧ p <+: e.1) ↔
      ∃ objid o, lastWrite op objid (HasPrefix p) ws = some o ∧ e = (p ++ objid.val, objValue o) := by
  obtain ⟨k, v⟩ := e
  constructor
  · rintro ⟨hmem, hpre⟩
    rcases h.keys _ hmem with hbook | ⟨op', p', objid, hp', hkey⟩
    · exact absurd hpre (hp.2 k hbook)
    · simp only at hkey hpre
      subst hkey
      have hhd : p.head? = p'.head? := by
        obtain ⟨t, ht⟩ := hpre
        have := congrArg List.head? ht
        rwa [List.head?_append_of_ne_nil _ (validPrefix_ne_nil hp.1),
          List.head?_append_of_ne_nil _ (validPrefix_ne_nil hp')] at this
      obtain ⟨rfl, hlen⟩ := validPrefix_head hp.1 hp' hhd
      have hpp : p = p' :=
        List.IsPrefix.eq_of_length (List.prefix_of_prefix_length_le hpre (List.prefix_append ..)
          hlen.le) hlen
      subst hpp
      have hfind := h.find objid hp.1
      rw [OrdMap.find_eq_some.mpr hmem] at hfind
      obtain ⟨o, ho, hv⟩ := Option.map_eq_some_iff.mp hfind.symm
      exact ⟨objid, o, ho, by rw [hv]⟩
  · rintro ⟨objid, o, ho, heq⟩
    obtain ⟨rfl, rfl⟩ := Prod.mk.inj heq
    have hfind := h.find objid hp.1
    rw [ho, Option.map_some] at hfind
    exact ⟨OrdMap.find_eq_some.mp hfind, List.prefix_append ..⟩

/-- The entries with a listing prefix, in order, are the abstract index. -/
theorem filter_prefix (h : Indexed ws db) (hp : ListPrefix op p) :
    db.entries.filter (fun e => p <+: e.1) =
      (writtenMap op (HasPrefix p) ws).entries.map fun e => (p ++ e.1.val, objValue e.2) := by
  let A : LevelDB := ⟨db.entries.filter (fun e => p <+: e.1), db.sorted.filter _⟩
  let B : LevelDB := ⟨(writtenMap op (HasPrefix p) ws).entries.map
      fun e => (p ++ e.1.val, objValue e.2), by
    rw [List.pairwise_map]
    refine (writtenMap op (HasPrefix p) ws).sorted.imp ?_
    intro a b hab
    refine lt_of_le_of_ne ((append_le_append_iff p).mpr hab.le) ?_
    intro heq
    exact hab.ne (Subtype.ext (List.append_cancel_left heq))⟩
  have hmem : ∀ e, e ∈ A.entries ↔ e ∈ B.entries := by
    intro e
    show e ∈ db.entries.filter _ ↔ e ∈ List.map _ _
    rw [List.mem_filter, decide_eq_true_eq, h.mem_prefix_iff hp, List.mem_map]
    constructor
    · rintro ⟨objid, o, ho, rfl⟩
      rw [← find_writtenMap] at ho
      exact ⟨(objid, o), OrdMap.find_eq_some.mp ho, rfl⟩
    · rintro ⟨⟨objid, o⟩, ho, rfl⟩
      refine ⟨objid, o, ?_, rfl⟩
      rw [← find_writtenMap]
      exact OrdMap.find_eq_some.mpr ho
  have hAB : A = B := by
    refine OrdMap.ext_find ?_
    intro k
    ext v
    rw [OrdMap.find_eq_some, OrdMap.find_eq_some, hmem]
  exact congrArg OrdMap.entries hAB

/-- **A listing is complete**: walking a prefix returns, in id order and each
once, the last objects written with that prefix. -/
theorem listObjs_seek (h : Indexed ws db) (hws : AllSizesOk ws) (hp : ListPrefix op p) {κ : Type}
    [DecidableEq κ] {c : Codec κ} {key : κ} (hc : ∀ k, (∃ r, c.de k = .ok (key, r)) ↔ p <+: k)
    {z : Bytes} (hz : ∀ objid : Uint256, z ≤ objid.val) :
    listObjs op c key (db.seek (p ++ z)) =
      (writtenMap op (HasPrefix p) ws).entries.map fun e => e.2.persisted := by
  have hok : ∀ objid o, lastWrite op objid (HasPrefix p) ws = some o →
      readValue op (objValue o) = .ok o.persisted :=
    fun objid o ho => readValue_objValue (hws.lastWrite ho)
  have hscan : (db.seek (p ++ z)).takeWhile (fun e => p <+: e.1) =
      db.entries.filter (fun e => p <+: e.1) := by
    refine OrdMap.scan_eq_filter db (p ++ z) (fun k => p <+: k) ?_ ?_
    · intro e he hpre
      obtain ⟨objid, o, -, rfl⟩ := (h.mem_prefix_iff hp).mp ⟨he, by simpa using hpre⟩
      exact (append_le_append_iff p).mpr (hz objid)
    · intro e _ e' _ hge hle hpre
      have hpe : p ≤ e.1 := le_trans (prefix_le_append p z) hge
      simpa using prefix_convex hpe hle (by simpa using hpre)
  rw [listObjs_eq hc, hscan, h.filter_prefix hp, List.filterMap_map]
  · rw [← List.filterMap_eq_map]
    refine List.filterMap_congr ?_
    rintro ⟨objid, o⟩ he
    have ho := OrdMap.find_eq_some.mpr he
    rw [find_writtenMap] at ho
    simp [hok objid o ho, Except.toOption]
  · intro e he hpre
    have hmem : e ∈ db.entries := (List.dropWhile_sublist _).subset he
    obtain ⟨objid, o, ho, rfl⟩ := (h.mem_prefix_iff hp).mp ⟨hmem, hpre⟩
    exact ⟨_, hok objid o ho⟩

end Indexed

end Hivemind
