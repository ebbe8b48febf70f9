import Hivemind.Lib.ByteBits
import Hivemind.Lib.Outcome
import Hivemind.Script.Standard

/-!
# Bloom filters of peers

A peer loads a filter, and is told of the transactions that match it.  Matching may itself insert
keys, and two flags that are set when the filter is loaded cut all operations short.

The filter comes from the network and may be anything: no bytes, no hash functions, or too many
of either.  A filter without bytes would divide by zero in every hash; it is taken for a full one
when it is loaded, and the flag `isFull` is looked at first in every operation.  Bits are only
ever set, so a key that was inserted stays contained, whatever comes after it.

With `BLOOM_UPDATE_ALL` a matched output is inserted by its outpoint, and with the other flag
only where `Solver` says that the script pays to a key; what spends such an output then matches.
`Solver` may raise an exception, with the filter as it is at that moment.

* `insert_spec`, `contains_spec`: a key that is inserted is contained.
* `isRelevantAndUpdate_spec`: the filter only grows, and each matched output is in it.
* `filter_of_run`: **all of it after any operations.**
* `filter_of_run_watched`: bytes are watched, and an output with them comes.
-/

namespace Hivemind

open Codecs Outcomes ByteBits

/-- What must not happen. -/
inductive FilterFault where
  | remainderByZero
  | outOfRange
  deriving DecidableEq

/-- `CBloomFilter`. -/
structure CBloomFilter where
  vData : Bytes := []
  isFull : Bool := true
  isEmpty : Bool := false
  nHashFuncs : UInt32 := 0
  nTweak : UInt32 := 0
  nFlags : UInt8 := 0

def bloomUpdateAll : UInt8 := 1
def bloomUpdateP2PubkeyOnly : UInt8 := 2
def bloomUpdateMask : UInt8 := 3

/-- The elements of a script up to where `GetOp` fails, in at most so many steps. -/
def scriptElements : Nat → CScript → List Bytes
  | 0, _ => []
  | fuel + 1, script => match getOp script with
    | none => []
    | some i => i.data :: scriptElements fuel i.rest

/-- What a filter depends on: `MurmurHash3`, the hash of transactions and the settings of
`Solver`. -/
structure FilterEnv where
  murmurHash3 : UInt32 → Bytes → UInt32
  hash : Bytes → Uint256
  carrier : DataCarrier := {}

namespace CBloomFilter

variable (env : FilterEnv) (s : CBloomFilter)

/-- `Hash`. -/
def hash (nHashNum : UInt32) (vDataToHash : Bytes) : Except FilterFault Nat :=
  if s.vData.length * 8 = 0 then .error .remainderByZero
  else .ok ((env.murmurHash3 (nHashNum * 0xFBA4C795 + s.nTweak) vDataToHash).toNat %
    (s.vData.length * 8))

/-- A turn of the loop of `insert`. -/
def insertTurn (vKey : Bytes) (i : Nat) (vData : Bytes) : Except FilterFault Bytes := do
  let nIndex ← hash env { s with vData } (UInt32.ofNat i) vKey
  match vData[nIndex / 8]? with
  | none => .error .outOfRange
  | some b => .ok (vData.set (nIndex / 8) (b ||| bitMask nIndex))

/-- `insert`. -/
def insert (vKey : Bytes) : Except FilterFault CBloomFilter :=
  if s.isFull then .ok s
  else do
    let vData ← forLoop (insertTurn env s vKey) s.nHashFuncs.toNat s.vData
    .ok { s with vData, isEmpty := false }

/-- The loop of `contains`, over the hash functions from `i` on. -/
def containsLoop (vKey : Bytes) : Nat → Nat → Except FilterFault Bool
  | 0, _ => .ok true
  | n + 1, i => do
    let nIndex ← hash env s (UInt32.ofNat i) vKey
    match s.vData[nIndex / 8]? with
    | none => .error .outOfRange
    | some b => if b &&& bitMask nIndex = 0 then .ok false else containsLoop vKey n (i + 1)

/-- `contains`. -/
def contains (vKey : Bytes) : Except FilterFault Bool :=
  if s.isFull then .ok true
  else if s.isEmpty then .ok false
  else containsLoop env s vKey s.nHashFuncs.toNat 0

/-- The loop over the elements of a script: is one of them contained? -/
def containsElement : List Bytes → Except FilterFault Bool
  | [] => .ok false
  | data :: rest =>
    if data.length = 0 then containsElement rest
    else do
      if ← contains env s data then .ok true else containsElement rest

/-- Output `i` in the first loop of `IsRelevantAndUpdate`: the filter, and `fFound` unless
`Solver` raises. -/
def relevantOutput (txid : Uint256) (i : Nat) (txout : CTxOut) :
    Except FilterFault (CBloomFilter × Except ReadError Bool) := do
  if ← containsElement env s (scriptElements txout.scriptPubKey.length txout.scriptPubKey) then
    let outpoint := COutPoint.codec.ser ⟨txid, UInt32.ofNat i⟩
    if s.nFlags &&& bloomUpdateMask = bloomUpdateAll then do
      let s ← insert env s outpoint
      .ok (s, .ok true)
    else if s.nFlags &&& bloomUpdateMask = bloomUpdateP2PubkeyOnly then
      match solver env.carrier txout.scriptPubKey with
      | .error e => .ok (s, .error e)
      | .ok solution =>
        if solution.found ∧ (solution.typeRet = .pubkey ∨ solution.typeRet = .multisig) then do
          let s ← insert env s outpoint
          .ok (s, .ok true)
        else .ok (s, .ok true)
    else .ok (s, .ok true)
  else .ok (s, .ok false)

/-- The first loop of `IsRelevantAndUpdate`. -/
def relevantOutputs (txid : Uint256) (fFound : Bool) :
    Nat → List CTxOut → CBloomFilter → Except FilterFault (CBloomFilter × Except ReadError Bool)
  | _, [], s => .ok (s, .ok fFound)
  | i, txout :: vout, s => do
    match ← relevantOutput env s txid i txout with
    | (s, .error e) => .ok (s, .error e)
    | (s, .ok found) => relevantOutputs txid (fFound || found) (i + 1) vout s

/-- The second loop of `IsRelevantAndUpdate`. -/
def relevantInputs : List CTxIn → Except FilterFault Bool
  | [] => .ok false
  | txin :: vin => do
    if ← contains env s (COutPoint.codec.ser txin.prevout) then .ok true
    else if ← containsElement env s (scriptElements txin.scriptSig.length txin.scriptSig) then
      .ok true
    else relevantInputs vin

/-- `IsRelevantAndUpdate`. -/
def isRelevantAndUpdate (tx : CTransaction) :
    Except FilterFault (CBloomFilter × Except ReadError Bool) :=
  if s.isFull then .ok (s, .ok true)
  else if s.isEmpty then .ok (s, .ok false)
  else do
    let txid := tx.getHash env.hash
    let fFound ← contains env s txid.val
    match ← relevantOutputs env txid fFound 0 tx.vout s with
    | (s, .error e) => .ok (s, .error e)
    | (s, .ok true) => .ok (s, .ok true)
    | (s, .ok false) => do
      let found ← relevantInputs env s tx.vin
      .ok (s, .ok found)

/-- `UpdateEmptyFull`. -/
def updateEmptyFull : CBloomFilter :=
  { s with
    isFull := s.vData.all (· == 0xff)
    isEmpty := s.vData.all (· == 0) }

/-- A filter that has been read from a peer. -/
def load (vData : Bytes) (nHashFuncs nTweak : UInt32) (nFlags : UInt8) : CBloomFilter :=
  { vData, nHashFuncs, nTweak, nFlags }

/-! ## Growing filters -/

variable {env s} {s' s'' : CBloomFilter} {vKey : Bytes}

/-- Nothing has been taken out of the filter. -/
structure Grows (s s' : CBloomFilter) : Prop where
  length : s'.vData.length = s.vData.length
  isFull : s'.isFull = s.isFull
  isEmpty : s.isEmpty = false → s'.isEmpty = false
  nHashFuncs : s'.nHashFuncs = s.nHashFuncs
  nTweak : s'.nTweak = s.nTweak
  nFlags : s'.nFlags = s.nFlags
  bits : ∀ n, bitAt s.vData n = true → bitAt s'.vData n = true

theorem Grows.refl (s : CBloomFilter) : Grows s s :=
  ⟨rfl, rfl, id, rfl, rfl, rfl, fun _ => id⟩

theorem Grows.trans (h : Grows s s') (h' : Grows s' s'') : Grows s s'' where
  length := h'.length.trans h.length
  isFull := h'.isFull.trans h.isFull
  isEmpty := h'.isEmpty ∘ h.isEmpty
  nHashFuncs := h'.nHashFuncs.trans h.nHashFuncs
  nTweak := h'.nTweak.trans h.nTweak
  nFlags := h'.nFlags.trans h.nFlags
  bits := fun n => h'.bits n ∘ h.bits n

/-- A filter with no bytes is full. -/
def Ready (s : CBloomFilter) : Prop := s.isFull = false → s.vData ≠ []

theorem ready_updateEmptyFull (s : CBloomFilter) : Ready s.updateEmptyFull := by
  intro hfull hnil
  have hdata : s.vData = [] := hnil
  simp [updateEmptyFull, hdata] at hfull

theorem Grows.ready (h : Grows s s') (hs : Ready s) : Ready s' := by
  intro hfull hnil
  refine hs (h.isFull ▸ hfull) (List.length_eq_zero_iff.mp ?_)
  rw [← h.length, hnil, List.length_nil]

/-! ## Keys -/

/-- The bit of hash function `i` for a key. -/
def position (env : FilterEnv) (s : CBloomFilter) (vKey : Bytes) (i : Nat) : Nat :=
  (env.murmurHash3 (UInt32.ofNat i * 0xFBA4C795 + s.nTweak) vKey).toNat % (s.vData.length * 8)

/-- The key is taken to be in the filter. -/
def Holds (env : FilterEnv) (s : CBloomFilter) (vKey : Bytes) : Prop :=
  s.isFull = true ∨
    s.isEmpty = false ∧ ∀ i < s.nHashFuncs.toNat, bitAt s.vData (position env s vKey i) = true

theorem hash_eq (hs : s.vData ≠ []) (vKey : Bytes) (i : Nat) :
    hash env s (UInt32.ofNat i) vKey = .ok (position env s vKey i) := by
  have hpos : s.vData.length * 8 ≠ 0 := by
    have := List.length_pos_iff.mpr hs
    omega
  rw [hash, if_neg hpos, position]

theorem position_lt (env : FilterEnv) (hs : s.vData ≠ []) (vKey : Bytes) (i : Nat) :
    position env s vKey i < s.vData.length * 8 := by
  have := List.length_pos_iff.mpr hs
  exact Nat.mod_lt _ (by omega)

theorem Grows.position (h : Grows s s') (vKey : Bytes) (i : Nat) :
    position env s' vKey i = position env s vKey i := by
  rw [CBloomFilter.position, h.length, h.nTweak, CBloomFilter.position]

theorem Holds.mono (h : Holds env s vKey) (hgrows : Grows s s') : Holds env s' vKey := by
  rcases h with hfull | ⟨hempty, hbits⟩
  · exact Or.inl (hgrows.isFull.trans hfull)
  · refine Or.inr ⟨hgrows.isEmpty hempty, fun i hi => ?_⟩
    rw [hgrows.position]
    exact hgrows.bits _ (hbits i (hgrows.nHashFuncs ▸ hi))

theorem containsLoop_spec (env : FilterEnv) (hs : s.vData ≠ []) (vKey : Bytes) (n i : Nat) :
    ∃ b, containsLoop env s vKey n i = .ok b ∧
      (b = true ↔ ∀ j < n, bitAt s.vData (position env s vKey (i + j)) = true) := by
  induction n generalizing i with
  | zero => exact ⟨true, rfl, by simp⟩
  | succ n ih =>
      have hlt := position_lt env hs vKey i
      have hbyte : s.vData[position env s vKey i / 8]? =
          some (s.vData[position env s vKey i / 8]) := List.getElem?_eq_getElem (by omega)
      have hbit := and_bitMask_ne_zero hbyte
      have hsplit : (∀ j < n + 1, bitAt s.vData (position env s vKey (i + j)) = true) ↔
          bitAt s.vData (position env s vKey i) = true ∧
            ∀ j < n, bitAt s.vData (position env s vKey (i + 1 + j)) = true := by
        rw [Nat.forall_lt_succ_left]
        simp [Nat.add_assoc, Nat.add_comm 1]
      simp only [containsLoop, hash_eq hs, hbyte, bind, Except.bind]
      split_ifs with hzero
      · refine ⟨false, rfl, ?_⟩
        have hnot : ¬ bitAt s.vData (position env s vKey i) = true := fun h => hbit.mpr h hzero
        exact ⟨fun h => absurd h Bool.false_ne_true, fun h => absurd (hsplit.mp h).1 hnot⟩
      · obtain ⟨b, hb, hiff⟩ := ih (i + 1)
        exact ⟨b, hb, by rw [hiff, hsplit, and_iff_right (hbit.mp hzero)]⟩

/-- **What `contains` returns.** -/
theorem contains_spec (env : FilterEnv) (hs : Ready s) (vKey : Bytes) :
    ∃ b, contains env s vKey = .ok b ∧ (b = true ↔ Holds env s vKey) := by
  rw [contains]
  split_ifs with hfull hempty
  · exact ⟨true, rfl, by simp [Holds, hfull]⟩
  · exact ⟨false, rfl, by simp [Holds, hfull, hempty]⟩
  · obtain ⟨b, hb, hiff⟩ := containsLoop_spec env (hs (by simpa using hfull)) vKey
      s.nHashFuncs.toNat 0
    refine ⟨b, hb, ?_⟩
    rw [hiff, Holds]
    simp [hfull, hempty]

/-- **`insert` puts the key into the filter.** -/
theorem insert_spec (env : FilterEnv) (hs : Ready s) (vKey : Bytes) :
    ∃ s', insert env s vKey = .ok s' ∧ Grows s s' ∧ Holds env s' vKey := by
  rw [insert]
  split_ifs with hfull
  · exact ⟨s, rfl, Grows.refl s, Or.inl hfull⟩
  · have hdata := hs (by simpa using hfull)
    obtain ⟨vData, hloop, hlen, hbits, hset⟩ := @forLoop_ok _ _ (insertTurn env s vKey)
      s.nHashFuncs.toNat s.vData
      (fun i vData => vData.length = s.vData.length ∧
        (∀ n, bitAt s.vData n = true → bitAt vData n = true) ∧
        ∀ j < i, bitAt vData (position env s vKey j) = true)
      ⟨rfl, fun _ => id, by simp⟩ (by
        rintro i - vData ⟨hlen, hbits, hset⟩
        have hne : vData ≠ [] := by
          rintro rfl
          exact hdata (List.length_eq_zero_iff.mp hlen.symm)
        have hpos : position env { s with vData } vKey i = position env s vKey i := by
          simp [position, hlen]
        have hlt := position_lt env hdata vKey i
        obtain ⟨byte, hbyte⟩ : ∃ byte, vData[position env s vKey i / 8]? = some byte :=
          ⟨_, List.getElem?_eq_getElem (by omega)⟩
        have hnew : vData.set (position env s vKey i / 8)
            (byte ||| bitMask (position env s vKey i)) = setBit vData (position env s vKey i) := by
          rw [setBit, List.getD_eq_getElem?_getD, hbyte, Option.getD_some]
        have hbit := bitAt_setBit (v := vData) (n := position env s vKey i) (by omega)
        refine ⟨setBit vData (position env s vKey i), ?_, by simp [hlen], fun n hn => ?_,
          fun j hj => ?_⟩
        · simp only [insertTurn, hash_eq (s := { s with vData }) hne, hpos, hbyte, hnew, bind,
            Except.bind]
        · rw [hbit, hbits n hn, Bool.true_or]
        · rw [hbit]
          rcases Nat.lt_succ_iff_lt_or_eq.mp hj with hj | rfl
          · rw [hset j hj, Bool.true_or]
          · simp)
    refine ⟨{ s with vData, isEmpty := false }, by rw [hloop]; rfl,
      ⟨hlen, rfl, fun _ => rfl, rfl, rfl, rfl, hbits⟩, ?_⟩
    refine Or.inr ⟨rfl, fun i hi => ?_⟩
    have hpos : position env { s with vData, isEmpty := false } vKey i = position env s vKey i := by
      simp [position, hlen]
    rw [hpos]
    exact hset i hi

theorem containsElement_spec (env : FilterEnv) (hs : Ready s) (elements : List Bytes) :
    ∃ b, containsElement env s elements = .ok b ∧
      (b = true ↔ ∃ data ∈ elements, data ≠ [] ∧ Holds env s data) := by
  induction elements with
  | nil => exact ⟨false, rfl, by simp⟩
  | cons data rest ih =>
      obtain ⟨b, hrest, hiff⟩ := ih
      rw [containsElement]
      split_ifs with hlen
      · have hnil : data = [] := List.length_eq_zero_iff.mp hlen
        exact ⟨b, hrest, by simp [hiff, hnil]⟩
      · have hne : data ≠ [] := fun hnil => hlen (by rw [hnil, List.length_nil])
        obtain ⟨b', hcontains, hholds⟩ := contains_spec env hs data
        cases b' with
        | true => exact ⟨true, by simp [hcontains, bind, Except.bind], by simp [hne, hholds.mp rfl]⟩
        | false =>
            have hnot : ¬ Holds env s data := fun h => by simpa using hholds.mpr h
            exact ⟨b, by simp [hcontains, hrest, bind, Except.bind], by simp [hiff, hnot]⟩

/-! ## Transactions -/

/-- The bytes of an outpoint, which are its key. -/
def outpointKey (txid : Uint256) (i : Nat) : Bytes := COutPoint.codec.ser ⟨txid, UInt32.ofNat i⟩

/-- The data of the output matches the filter. -/
def Matches (env : FilterEnv) (s : CBloomFilter) (txout : CTxOut) : Prop :=
  ∃ data ∈ scriptElements txout.scriptPubKey.length txout.scriptPubKey,
    data ≠ [] ∧ Holds env s data

/-- One output: with `BLOOM_UPDATE_ALL` a match inserts it, and `Solver` is not called. -/
theorem relevantOutput_spec (hs : Ready s) (txid : Uint256) (i : Nat) (txout : CTxOut) :
    ∃ s' r, relevantOutput env s txid i txout = .ok (s', r) ∧ Grows s s' ∧
      (¬ Matches env s txout → s' = s ∧ r = .ok false) ∧
      (Matches env s txout → s.nFlags &&& bloomUpdateMask = bloomUpdateAll →
        r = .ok true ∧ Holds env s' (outpointKey txid i)) := by
  obtain ⟨b, helement, hiff⟩ := containsElement_spec env hs
    (scriptElements txout.scriptPubKey.length txout.scriptPubKey)
  obtain ⟨s', hinsert, hgrows, hholds⟩ := insert_spec env hs (outpointKey txid i)
  rw [outpointKey] at hinsert
  cases b with
  | false =>
      have hnot : ¬ Matches env s txout := fun h => by simpa using hiff.mpr h
      exact ⟨s, .ok false, by simp [relevantOutput, helement, bind, Except.bind], Grows.refl s,
        fun _ => ⟨rfl, rfl⟩, fun h => absurd h hnot⟩
  | true =>
      have hmatch : Matches env s txout := hiff.mp rfl
      simp only [relevantOutput, helement, bind, Except.bind, if_true]
      split_ifs with hall hpubkey
      · exact ⟨s', .ok true, by simp [hinsert], hgrows, fun h => absurd hmatch h,
          fun _ _ => ⟨rfl, hholds⟩⟩
      · cases hsolver : solver env.carrier txout.scriptPubKey with
        | error e =>
            exact ⟨s, .error e, rfl, Grows.refl s, fun h => absurd hmatch h,
              fun _ h => absurd h hall⟩
        | ok solution =>
            simp only
            split_ifs
            · exact ⟨s', .ok true, by simp [hinsert], hgrows, fun h => absurd hmatch h,
                fun _ h => absurd h hall⟩
            · exact ⟨s, .ok true, rfl, Grows.refl s, fun h => absurd hmatch h,
                fun _ h => absurd h hall⟩
      · exact ⟨s, .ok true, rfl, Grows.refl s, fun h => absurd hmatch h,
          fun _ h => absurd h hall⟩

/-- The filter when the first loop comes to output `i`. -/
def FilterAt (env : FilterEnv) (s : CBloomFilter) (tx : CTransaction) (i : Nat)
    (t : CBloomFilter) : Prop :=
  ∃ found,
    relevantOutputs env (tx.getHash env.hash) false 0 (tx.vout.take i) s = .ok (t, .ok found)

/-- The call of `IsRelevantAndUpdate` matches output `i` of the transaction. -/
def MatchesOutput (env : FilterEnv) (s : CBloomFilter) (tx : CTransaction) (i : Nat) : Prop :=
  ∃ txout t, tx.vout[i]? = some txout ∧ FilterAt env s tx i t ∧
    ∃ data ∈ scriptElements txout.scriptPubKey.length txout.scriptPubKey,
      data ≠ [] ∧ contains env t data = .ok true

theorem relevantOutputs_spec (env : FilterEnv) (hs : Ready s) (txid : Uint256) (fFound : Bool)
    (i : Nat) (vout : List CTxOut) :
    ∃ s' r, relevantOutputs env txid fFound i vout s = .ok (s', r) ∧ Grows s s' ∧
      ((∀ txout ∈ vout, ¬ Matches env s txout) → s' = s ∧ r = .ok fFound) ∧
      (s.nFlags &&& bloomUpdateMask = bloomUpdateAll →
        ∃ b, r = .ok b ∧ (fFound = true → b = true)) := by
  induction vout generalizing s fFound i with
  | nil =>
      exact ⟨s, .ok fFound, rfl, Grows.refl s, fun _ => ⟨rfl, rfl⟩, fun _ => ⟨fFound, rfl, id⟩⟩
  | cons txout vout ih =>
      obtain ⟨s', r, houtput, hgrows, hnone, hsome⟩ := relevantOutput_spec hs txid i txout
      have hflags : s.nFlags &&& bloomUpdateMask = bloomUpdateAll → ∃ b, r = .ok b := by
        intro hall
        by_cases hmatch : Matches env s txout
        · exact ⟨true, (hsome hmatch hall).1⟩
        · exact ⟨false, (hnone hmatch).2⟩
      cases r with
      | error e =>
          refine ⟨s', .error e, by simp [relevantOutputs, houtput, bind, Except.bind], hgrows,
            fun h => ?_, fun hall => ?_⟩
          · cases (hnone (h txout List.mem_cons_self)).2
          · obtain ⟨b, hb⟩ := hflags hall
            cases hb
      | ok found =>
          obtain ⟨s'', r', hloop, hgrows', hnone', hflags'⟩ :=
            ih (hgrows.ready hs) (fFound || found) (i + 1)
          refine ⟨s'', r', by simp [relevantOutputs, houtput, hloop, bind, Except.bind],
            hgrows.trans hgrows', fun h => ?_, fun hall => ?_⟩
          · obtain ⟨rfl, hfound⟩ := hnone (h txout List.mem_cons_self)
            obtain ⟨hsame, hr'⟩ := hnone' fun x hx => h x (List.mem_cons_of_mem _ hx)
            cases hfound
            exact ⟨hsame, by simpa using hr'⟩
          · obtain ⟨b, hb, hkept⟩ := hflags' (hgrows.nFlags ▸ hall)
            exact ⟨b, hb, fun hfFound => hkept (by simp [hfFound])⟩

/-- What has been found before does not change what the loop does to the filter. -/
theorem relevantOutputs_found (txid : Uint256) (fFound : Bool) (i : Nat) (vout : List CTxOut)
    {t : CBloomFilter} {found : Bool}
    (h : relevantOutputs env txid false i vout s = .ok (t, .ok found)) :
    relevantOutputs env txid fFound i vout s = .ok (t, .ok (fFound || found)) := by
  suffices hgeneral : ∀ before, relevantOutputs env txid before i vout s = .ok (t, .ok found) →
      ∀ fFound', relevantOutputs env txid (fFound' || before) i vout s =
        .ok (t, .ok (fFound' || found)) by
    simpa using hgeneral false h fFound
  clear h
  induction vout generalizing s i with
  | nil =>
      intro before h fFound'
      simp only [relevantOutputs, Except.ok.injEq, Prod.mk.injEq] at h ⊢
      exact ⟨h.1, by rw [h.2]⟩
  | cons txout vout ih =>
      intro before h fFound'
      simp only [relevantOutputs, bind_eq_ok] at h ⊢
      obtain ⟨⟨s', r⟩, houtput, h⟩ := h
      refine ⟨(s', r), houtput, ?_⟩
      cases r with
      | error e => simp at h
      | ok b => simpa only [Bool.or_assoc] using ih (i + 1) _ h fFound'

/-- The loop over the first outputs, and then over the others. -/
theorem relevantOutputs_append (txid : Uint256) {fFound found : Bool} {i : Nat}
    {vout : List CTxOut} (vout' : List CTxOut) {t : CBloomFilter}
    (h : relevantOutputs env txid fFound i vout s = .ok (t, .ok found)) :
    relevantOutputs env txid fFound i (vout ++ vout') s =
      relevantOutputs env txid found (i + vout.length) vout' t := by
  induction vout generalizing s i fFound with
  | nil =>
      simp only [relevantOutputs, Except.ok.injEq, Prod.mk.injEq] at h
      simp [h]
  | cons txout vout ih =>
      simp only [relevantOutputs, bind_eq_ok] at h
      obtain ⟨⟨s', r⟩, houtput, h⟩ := h
      simp only [List.cons_append, relevantOutputs, houtput, bind, Except.bind]
      cases r with
      | error e => simp at h
      | ok b =>
          simp only at h ⊢
          rw [ih h, List.length_cons, Nat.add_assoc, Nat.add_comm 1]

theorem relevantInputs_spec (env : FilterEnv) (hs : Ready s) (vin : List CTxIn) :
    ∃ b, relevantInputs env s vin = .ok b ∧
      ((∃ txin ∈ vin, Holds env s (COutPoint.codec.ser txin.prevout)) → b = true) := by
  induction vin with
  | nil => exact ⟨false, rfl, by simp⟩
  | cons txin vin ih =>
      obtain ⟨b, hrest, hholds⟩ := ih
      obtain ⟨b₁, hprevout, hiff⟩ := contains_spec env hs (COutPoint.codec.ser txin.prevout)
      obtain ⟨b₂, helement, -⟩ := containsElement_spec env hs
        (scriptElements txin.scriptSig.length txin.scriptSig)
      simp only [relevantInputs, hprevout, helement, hrest, bind, Except.bind]
      split_ifs with h₁ h₂
      · exact ⟨true, rfl, fun _ => rfl⟩
      · exact ⟨true, rfl, fun _ => rfl⟩
      · refine ⟨b, rfl, ?_⟩
        rintro ⟨x, hx, hx'⟩
        rcases List.mem_cons.mp hx with rfl | hx
        · exact absurd (hiff.mpr hx') h₁
        · exact hholds ⟨x, hx, hx'⟩

/-- An output that is matched is in the filter after the loop. -/
theorem MatchesOutput.holds (hs : Ready s) {tx : CTransaction} {i : Nat}
    (h : MatchesOutput env s tx i) (hall : s.nFlags &&& bloomUpdateMask = bloomUpdateAll)
    (fFound : Bool) :
    ∃ s', relevantOutputs env (tx.getHash env.hash) fFound 0 tx.vout s = .ok (s', .ok true) ∧
      Holds env s' (outpointKey (tx.getHash env.hash) i) := by
  obtain ⟨txout, t, htxout, ⟨found, hbefore⟩, data, hdata, hne, hcontains⟩ := h
  obtain ⟨t', r, hloop, hgrows, -⟩ := relevantOutputs_spec env hs (tx.getHash env.hash) false
    0 (tx.vout.take i)
  rw [hbefore] at hloop
  cases hloop
  have hready := hgrows.ready hs
  have hmatch : Matches env t txout := by
    obtain ⟨b, hb, hiff⟩ := contains_spec env hready data
    rw [hcontains] at hb
    cases hb
    exact ⟨data, hdata, hne, hiff.mp rfl⟩
  obtain ⟨s₁, r₁, houtput, hgrows₁, -, hinserted⟩ :=
    relevantOutput_spec hready (tx.getHash env.hash) i txout
  obtain ⟨rfl, hholds⟩ := hinserted hmatch (hgrows.nFlags ▸ hall)
  obtain ⟨s₂, r₂, hrest, hgrows₂, -, hflags₂⟩ := relevantOutputs_spec env
    (hgrows₁.ready hready) (tx.getHash env.hash) true (i + 1) (tx.vout.drop (i + 1))
  obtain ⟨b, rfl, hb⟩ := hflags₂ ((hgrows.trans hgrows₁).nFlags ▸ hall)
  obtain rfl := hb rfl
  refine ⟨s₂, ?_, hholds.mono hgrows₂⟩
  obtain ⟨hlt, rfl⟩ := List.getElem?_eq_some_iff.mp htxout
  have hlen : (tx.vout.take i).length = i := by
    rw [List.length_take]
    omega
  have hsplit : tx.vout = tx.vout.take i ++ tx.vout[i] :: tx.vout.drop (i + 1) := by
    rw [List.getElem_cons_drop, List.take_append_drop]
  rw [hsplit, relevantOutputs_append _ _ (relevantOutputs_found _ fFound _ _ hbefore), hlen,
    Nat.zero_add, relevantOutputs, houtput]
  simpa [bind, Except.bind] using hrest

/-- An output is matched by a call that is not cut short. -/
theorem MatchesOutput.not_empty (hs : Ready s) {tx : CTransaction} {i : Nat}
    (h : MatchesOutput env s tx i) : s.isFull = true ∨ s.isEmpty = false := by
  by_contra hcut
  obtain ⟨hfull, hempty⟩ := not_or.mp hcut
  have hnone : ∀ vKey, ¬ Holds env s vKey := by
    rintro vKey (h | ⟨h, -⟩)
    · exact hfull h
    · exact hempty h
  have hmatch : ∀ txout, ¬ Matches env s txout := fun txout ⟨data, _, _, hdata⟩ => hnone data hdata
  obtain ⟨txout, t, -, ⟨found, hbefore⟩, data, -, -, hcontains⟩ := h
  obtain ⟨t', r, hloop, -, hsame, -⟩ := relevantOutputs_spec env hs (tx.getHash env.hash)
    false 0 (tx.vout.take i)
  rw [hbefore] at hloop
  cases hloop
  obtain ⟨rfl, -⟩ := hsame fun txout _ => hmatch txout
  obtain ⟨b, hb, hiff⟩ := contains_spec env hs data
  rw [hcontains] at hb
  cases hb
  exact hnone data (hiff.mp rfl)

/-- **What `IsRelevantAndUpdate` does.** -/
theorem isRelevantAndUpdate_spec (env : FilterEnv) (hs : Ready s) (tx : CTransaction) :
    ∃ s' r, isRelevantAndUpdate env s tx = .ok (s', r) ∧ Grows s s' ∧
      (s.nFlags &&& bloomUpdateMask = bloomUpdateAll →
        ((∃ txin ∈ tx.vin, Holds env s (COutPoint.codec.ser txin.prevout)) → r = .ok true) ∧
        ∀ i, MatchesOutput env s tx i → Holds env s' (outpointKey (tx.getHash env.hash) i)) := by
  rw [isRelevantAndUpdate]
  split_ifs with hfull hempty
  · exact ⟨s, .ok true, rfl, Grows.refl s, fun _ => ⟨fun _ => rfl, fun i _ => Or.inl hfull⟩⟩
  · refine ⟨s, .ok false, rfl, Grows.refl s, fun _ => ⟨?_, fun i h => ?_⟩⟩
    · rintro ⟨txin, -, h | ⟨h, -⟩⟩
      · exact absurd h hfull
      · simp [hempty] at h
    · rcases h.not_empty hs with h | h
      · exact absurd h hfull
      · simp [hempty] at h
  · obtain ⟨fFound, hcontains, -⟩ := contains_spec env hs (tx.getHash env.hash).val
    obtain ⟨s', r, hloop, hgrows, -, hflags⟩ := relevantOutputs_spec env hs
      (tx.getHash env.hash) fFound 0 tx.vout
    have hmatched : s.nFlags &&& bloomUpdateMask = bloomUpdateAll →
        ∀ i, MatchesOutput env s tx i → Holds env s' (outpointKey (tx.getHash env.hash) i) := by
      intro hall i h
      obtain ⟨t, hloop', hholds⟩ := h.holds hs hall fFound
      rw [hloop] at hloop'
      cases hloop'
      exact hholds
    obtain ⟨found, hinputs, hspent⟩ := relevantInputs_spec env (hgrows.ready hs) tx.vin
    simp only [hcontains, hloop, bind, Except.bind]
    cases r with
    | error e =>
        refine ⟨s', .error e, rfl, hgrows, fun hall => ?_⟩
        obtain ⟨b, hb, -⟩ := hflags hall
        cases hb
    | ok b =>
        cases b with
        | true => exact ⟨s', .ok true, rfl, hgrows, fun hall => ⟨fun _ => rfl, hmatched hall⟩⟩
        | false =>
            refine ⟨s', .ok found, by simp [hinputs], hgrows, fun hall => ⟨?_, hmatched hall⟩⟩
            rintro ⟨txin, hmem, hholds⟩
            rw [hspent ⟨txin, hmem, hholds.mono hgrows⟩]

end CBloomFilter

/-! ## Runs -/

inductive FilterOp where
  | insert (vKey : Bytes)
  | relevant (tx : CTransaction)

namespace CBloomFilter

variable {env : FilterEnv} {s s' : CBloomFilter}

/-- An operation; when `Solver` raises, the filter stays as it is then. -/
def step (env : FilterEnv) (s : CBloomFilter) : FilterOp → Except FilterFault CBloomFilter
  | .insert vKey => insert env s vKey
  | .relevant tx => (isRelevantAndUpdate env s tx).map Prod.fst

def run (env : FilterEnv) (s : CBloomFilter) (ops : List FilterOp) :
    Except FilterFault CBloomFilter := ops.foldlM (step env) s

theorem step_spec (env : FilterEnv) (hs : Ready s) (op : FilterOp) :
    ∃ s', step env s op = .ok s' ∧ Grows s s' ∧
      ∀ vKey, op = .insert vKey → Holds env s' vKey := by
  cases op with
  | insert vKey =>
      obtain ⟨s', hinsert, hgrows, hholds⟩ := insert_spec env hs vKey
      refine ⟨s', hinsert, hgrows, ?_⟩
      rintro _ ⟨⟩
      exact hholds
  | relevant tx =>
      obtain ⟨s', r, hrelevant, hgrows, -⟩ := isRelevantAndUpdate_spec env hs tx
      exact ⟨s', by rw [step, hrelevant]; rfl, hgrows, fun _ h => by cases h⟩

theorem run_spec (env : FilterEnv) (hs : Ready s) (ops : List FilterOp) :
    ∃ s', run env s ops = .ok s' ∧ Grows s s' ∧
      ∀ vKey, .insert vKey ∈ ops → Holds env s' vKey := by
  induction ops generalizing s with
  | nil => exact ⟨s, rfl, Grows.refl s, by simp⟩
  | cons op ops ih =>
      obtain ⟨t, hstep, hgrows, hinserted⟩ := step_spec env hs op
      obtain ⟨s', hrun, hgrows', hinserted'⟩ := ih (hgrows.ready hs)
      refine ⟨s', ?_, hgrows.trans hgrows', fun vKey h => ?_⟩
      · rw [run] at hrun ⊢
        simp [hstep, hrun, bind, Except.bind]
      · rcases List.mem_cons.mp h with rfl | h
        · exact (hinserted vKey rfl).mono hgrows'
        · exact hinserted' vKey h

/-- **A filter from a peer, after any operations**: nothing was read outside of it, each key that
was inserted is contained, and what spends a matched output is relevant. -/
theorem filter_of_run (env : FilterEnv) (vData : Bytes) (nHashFuncs nTweak : UInt32)
    (nFlags : UInt8) (ops : List FilterOp) :
    ∃ s, run env (load vData nHashFuncs nTweak nFlags).updateEmptyFull ops = .ok s ∧
      (∀ vKey, .insert vKey ∈ ops → contains env s vKey = .ok true) ∧
      (nFlags &&& bloomUpdateMask = bloomUpdateAll →
        ∀ before tx after s₁ i, ops = before ++ .relevant tx :: after →
          run env (load vData nHashFuncs nTweak nFlags).updateEmptyFull before = .ok s₁ →
          MatchesOutput env s₁ tx i →
          ∀ tx' : CTransaction,
            (∃ txin ∈ tx'.vin, txin.prevout = ⟨tx.getHash env.hash, UInt32.ofNat i⟩) →
            ∃ s', isRelevantAndUpdate env s tx' = .ok (s', .ok true)) := by
  have hs := ready_updateEmptyFull (load vData nHashFuncs nTweak nFlags)
  obtain ⟨s, hrun, hgrows, hinserted⟩ := run_spec env hs ops
  refine ⟨s, hrun, fun vKey h => ?_, ?_⟩
  · obtain ⟨b, hb, hiff⟩ := contains_spec env (hgrows.ready hs) vKey
    rw [hb, hiff.mpr (hinserted vKey h)]
  · rintro hall before tx after s₁ i rfl hbefore hmatch tx' ⟨txin, hmem, hprevout⟩
    obtain ⟨t, hrun₁, hgrows₁, -⟩ := run_spec env hs before
    rw [hbefore] at hrun₁
    cases hrun₁
    have hready := hgrows₁.ready hs
    obtain ⟨s₂, r, hrelevant, hgrows₂, hupdate⟩ := isRelevantAndUpdate_spec env hready tx
    have hholds := (hupdate (hgrows₁.nFlags ▸ hall)).2 i hmatch
    obtain ⟨s₃, hrun₃, hgrows₃, -⟩ := run_spec env (hgrows₂.ready hready) after
    have hsame : s₃ = s := by
      have hstep : step env s₁ (.relevant tx) = .ok s₂ := by rw [step, hrelevant]; rfl
      rw [run] at hbefore hrun₃ hrun
      rw [List.foldlM_append, hbefore] at hrun
      simpa [bind, Except.bind, hstep, hrun₃] using hrun
    subst hsame
    obtain ⟨s', r', hrelevant', -, hspent⟩ :=
      isRelevantAndUpdate_spec env (hgrows.ready hs) tx'
    have hr' := (hspent (hgrows.nFlags ▸ hall)).1
      ⟨txin, hmem, by rw [hprevout]; exact hholds.mono hgrows₃⟩
    exact ⟨s', by rw [hrelevant', hr']⟩

/-- Some hash functions. -/
def watchEnv : FilterEnv where
  murmurHash3 seed bs := seed + bs.foldl (fun h b => h * 31 + b.toUInt32) 0
  hash bs := Blob.fill (UInt8.ofNat bs.length)

/-- A transaction whose second output has the watched bytes, and one that spends it. -/
def watchedTx : CTransaction where
  vout := [⟨1000, [0x51]⟩, ⟨500, [2, 7, 8]⟩]

def watchedSpender : CTransaction where
  vin := [{ prevout := ⟨watchedTx.getHash watchEnv.hash, 1⟩ }]

/-- A filter of four bytes that takes in matched outputs. -/
def watchFilter : CBloomFilter := (load [0, 0, 0, 0] 2 5 bloomUpdateAll).updateEmptyFull

/-- The filter with the watched bytes in it. -/
def watchingFilter : CBloomFilter := { watchFilter with vData := [64, 0, 0, 8], isEmpty := false }

/-- Bytes are watched, an output with them comes, and others are watched. -/
theorem filter_of_run_watched :
    ∃ s s', run watchEnv watchFilter [.insert [7, 8], .relevant watchedTx, .insert [9]] = .ok s ∧
      contains watchEnv s [9] = .ok true ∧
      isRelevantAndUpdate watchEnv s watchedSpender = .ok (s', .ok true) := by
  obtain ⟨s, hrun, hinserted, hspent⟩ := filter_of_run watchEnv [0, 0, 0, 0] 2 5 bloomUpdateAll
    [.insert [7, 8], .relevant watchedTx, .insert [9]]
  have hbefore : run watchEnv watchFilter [.insert [7, 8]] = .ok watchingFilter := by rfl
  have hmatch : MatchesOutput watchEnv watchingFilter watchedTx 1 :=
    ⟨_, watchingFilter, rfl, ⟨false, rfl⟩, [7, 8], by decide, by decide, rfl⟩
  obtain ⟨s', hrelevant⟩ := hspent (by decide) [.insert [7, 8]] watchedTx [.insert [9]]
    watchingFilter 1 rfl hbefore hmatch watchedSpender
    ⟨_, List.mem_singleton.mpr rfl, rfl⟩
  exact ⟨s, s', hrun, hinserted [9] (by simp), hrelevant⟩

end CBloomFilter
end Hivemind
