import Hivemind.Net.AddrTimes

/-!
# The address manager on disk

`CAddrMan::Serialize` and `Unserialize` of `addrman.h`, with the entries as they are written to
`peers.dat`.  The writer numbers the new entries by their order; the reader gives them these
numbers as ids, and builds the rest from the entries and the buckets of new addresses.

Of an entry the address, the source and three counters are stored.  Which bucket a tried entry
was in is not: the reader computes it again from the key, and drops the entry where the bucket is
full.  The buckets of new addresses are stored as lists of numbers, each with its length in
front; where their number is not the reader's own, each new entry gets one reference instead, in
the bucket that its source gives.  An assertion or an index outside of a vector is an
`AddrFault`, as in the rest of the manager.

* `AddrRecord`, `infoCodec`: the stored members of an entry.
* `serialize`, `unserialize`: the two directions, loop by loop.
* `writeNew_spec`, `writeTried_spec`: **the entries that are written**, and the number of each.
-/

namespace Hivemind

open Codecs Ordered Outcomes

/-! ## Entries -/

/-- The members of a `CAddrInfo` that are stored. -/
structure AddrRecord where
  service : CService
  nServices : UInt64
  nTime : UInt32
  source : CNetAddr
  nLastSuccess : Int64
  nAttempts : Int32
  deriving DecidableEq

/-- A port in network order. -/
def portCodec : Codec UInt16 :=
  Codec.fixed 2 (fun p => (leBytes 2 p.toNat).reverse) (fun b => UInt16.ofNat (leNat b.reverse))
    (fun _ => by rw [List.length_reverse, length_leBytes])
    (fun p => by
      rw [List.reverse_reverse, leNat_leBytes_of_lt (by simpa using p.toNat_lt),
        UInt16.ofNat_toNat])
    (fun b hb => by
      have hlen : b.reverse.length = 2 := by rw [List.length_reverse, hb]
      have hlt : leNat b.reverse < 65536 := by simpa [hlen] using leNat_lt b.reverse
      rw [UInt16.toNat_ofNat_of_lt' hlt, ← hlen, leBytes_leNat, List.reverse_reverse])

@[simp] theorem fits_portCodec (p : UInt16) : portCodec.Fits p := rfl

/-- `CAddrInfo::SerializationOp` on disk: the version of the stream goes before the entry. -/
def infoCodec : Codec (Int32 × AddrRecord) :=
  Codec.iso
    (Codec.i32.prod (Codec.u32.prod (Codec.u64.prod ((Blob.codec.prod portCodec).prod
      (Blob.codec.prod (Codec.i64.prod Codec.i32))))))
    (fun t => (t.1, ⟨⟨t.2.2.2.1.1, t.2.2.2.1.2⟩, t.2.2.1, t.2.1, t.2.2.2.2.1, t.2.2.2.2.2.1,
      t.2.2.2.2.2.2⟩))
    (fun r => (r.1, r.2.nTime, r.2.nServices, (r.2.service.ip, r.2.service.port), r.2.source,
      r.2.nLastSuccess, r.2.nAttempts))
    (fun _ => rfl) (fun _ => rfl)

@[simp] theorem fits_infoCodec (r : Int32 × AddrRecord) : infoCodec.Fits r := by
  simp [infoCodec]

namespace CAddrInfo

/-- What is stored of an entry; the counters are the machine integers of the source. -/
def record (info : CAddrInfo) : AddrRecord where
  service := info.service
  nServices := info.nServices
  nTime := info.nTime
  source := info.source
  nLastSuccess := Int64.ofInt info.nLastSuccess
  nAttempts := Int32.ofInt info.nAttempts

end CAddrInfo

/-- The entry after `Init` and the stored members. -/
def AddrRecord.toInfo (r : AddrRecord) : CAddrInfo where
  service := r.service
  nServices := r.nServices
  nTime := r.nTime
  source := r.source
  nLastSuccess := r.nLastSuccess.toInt
  nAttempts := r.nAttempts.toInt

/-- `CAddrInfo()`. -/
def CAddrInfo.unset : CAddrInfo where
  service := ⟨Blob.null, 0⟩
  nServices := 1
  nTime := 100000000
  source := Blob.null

namespace CAddrMan

/-! ## `Serialize` -/

/-- The loop over the new entries: their numbers, and those that are written. -/
def writeNew (nNew : Int) : OrdMap Nat Nat → Nat → List (Nat × CAddrInfo) →
    OrdMap Nat Nat × List CAddrInfo
  | mapUnkIds, _, [] => (mapUnkIds, [])
  | mapUnkIds, nIds, (id, info) :: l =>
      if (nIds : Int) = nNew then (mapUnkIds, [])
      else if info.nRefCount = 0 then writeNew nNew (mapUnkIds.put id nIds) nIds l
      else
        let r := writeNew nNew (mapUnkIds.put id nIds) (nIds + 1) l
        (r.1, info :: r.2)

/-- The loop over the tried entries. -/
def writeTried (nTried : Int) : Nat → List (Nat × CAddrInfo) → List CAddrInfo
  | _, [] => []
  | nIds, (_, info) :: l =>
      if (nIds : Int) = nTried then []
      else if info.fInTried then info :: writeTried nTried (nIds + 1) l
      else writeTried nTried nIds l

/-- Entries one after the other. -/
def serInfos (nVersion : Int32) (infos : List CAddrInfo) : Bytes :=
  infos.flatMap fun info => infoCodec.ser (nVersion, info.record)

/-- The ids of a bucket by their numbers. -/
def serBucket (mapUnkIds : OrdMap Nat Nat) (vNew : Finset Nat) : Bytes :=
  Codec.i32.ser (Int32.ofNat vNew.card) ++
    (vNew.sort (· ≤ ·)).flatMap fun id =>
      Codec.i32.ser (Int32.ofNat ((mapUnkIds.find id).getD 0))

/-- `Serialize`, to a stream of version `nVersion`. -/
def serialize (nVersion : Int32) (nKey : Bytes) (s : CAddrMan) : Bytes :=
  let new := writeNew s.nNew OrdMap.empty 0 s.mapInfo.entries
  Codec.u8.ser 0 ++ (serBytes nKey ++ (Codec.i32.ser (Int32.ofInt s.nNew) ++
    (Codec.i32.ser (Int32.ofInt s.nTried) ++ (Codec.i32.ser 256 ++ (serInfos nVersion new.2 ++
      (serInfos nVersion (writeTried s.nTried 0 s.mapInfo.entries) ++
        (List.finRange 256).flatMap fun b => serBucket new.1 (s.vvNew b)))))))

/-! ## `Unserialize` -/

/-- Why reading a manager fails. -/
inductive UnserializeFault where
  | read (e : ReadError)
  /-- a bucket that there is not, or a negative id -/
  | outOfBounds

/-- Read one value. -/
def readAs {α : Type} (c : Codec α) (stream : Bytes) : Except UnserializeFault (α × Bytes) :=
  (c.de stream).mapError .read

/-- `info` becomes the entry `id`, and is entered into the map of addresses and the vector. -/
def enter (s : CAddrMan) (id : Nat) (info : CAddrInfo) : CAddrMan :=
  { s with
    mapInfo := s.mapInfo.put id info
    mapAddr := s.mapAddr.put info.service.ip id
    vRandom := s.vRandom ++ [id] }

/-- The turn of the loop over the new entries. -/
def loadNew (env : AddrEnv) (nUBuckets : Int32) (n : Nat) (t : CAddrMan × Bytes) :
    Except UnserializeFault (CAddrMan × Bytes) := do
  let r ← readAs infoCodec t.2
  let info := { r.1.2.toInfo with nRandomPos := t.1.vRandom.length }
  if nUBuckets = 256 then .ok (t.1.enter n info, r.2)
  else
    .ok ((t.1.enter n { info with nRefCount := 1 }).insertNew
      (env.getNewBucket info.service.ip info.source) n, r.2)

/-- The turn of the loop over the tried entries, with the number of those that are lost. -/
def loadTried (env : AddrEnv) (t : (CAddrMan × Nat) × Bytes) :
    Except UnserializeFault ((CAddrMan × Nat) × Bytes) := do
  let r ← readAs infoCodec t.2
  let s := t.1.1
  let info := r.1.2.toInfo
  let b := env.getTriedBucket info.service
  if (s.vvTried b).length < bucketSize then
    let s' := s.enter s.nIdCount
      { info with nRandomPos := s.vRandom.length, fInTried := true }
    .ok (({ s' with
      nIdCount := s.nIdCount + 1
      vvTried := Function.update s.vvTried b (s.vvTried b ++ [s.nIdCount]) }, t.1.2), r.2)
  else .ok ((s, t.1.2 + 1), r.2)

/-- An id of a bucket of new addresses. -/
def loadIndex (nUBuckets : Int32) (b : Fin 256) (t : CAddrMan × Bytes) :
    Except UnserializeFault (CAddrMan × Bytes) := do
  let r ← readAs Codec.i32 t.2
  -- the source would create an entry with a negative id
  if r.1 < 0 then .error .outOfBounds
  else
    let id := r.1.toInt.toNat
    let info := (t.1.mapInfo.find id).getD CAddrInfo.unset
    if nUBuckets = 256 ∧ info.nRefCount < 4 then
      .ok ((t.1.setInfo id { info with nRefCount := info.nRefCount + 1 }).insertNew b id, r.2)
    else .ok (t.1.setInfo id info, r.2)

theorem neZero_newBuckets : NeZero (256 : Nat) := ⟨by decide⟩

/-- A bucket of new addresses. -/
def loadBucket (nUBuckets : Int32) (b : Nat) (t : CAddrMan × Bytes) :
    Except UnserializeFault (CAddrMan × Bytes) :=
  if b < 256 then do
    let r ← readAs Codec.i32 t.2
    forLoop (fun _ => loadIndex nUBuckets (@Fin.ofNat 256 neZero_newBuckets b)) r.1.toInt.toNat
      (t.1, r.2)
  else .error .outOfBounds

/-- `Unserialize`: the key, the manager and the rest of the stream. -/
def unserialize (env : AddrEnv) (stream : Bytes) :
    Except UnserializeFault ((Bytes × CAddrMan) × Bytes) := do
  let nVersion ← readAs Codec.u8 stream
  let nKey ← readAs (vectorCodec Codec.u8) nVersion.2
  let nNew ← readAs Codec.i32 nKey.2
  let nTried ← readAs Codec.i32 nNew.2
  let nUBuckets ← readAs Codec.i32 nTried.2
  let env := { env with nKey := nKey.1 }
  let new ← forLoop (loadNew env nUBuckets.1) nNew.1.toInt.toNat
    ({ nNew := nNew.1.toInt }, nUBuckets.2)
  let tried ← forLoop (fun _ => loadTried env) nTried.1.toInt.toNat
    (({ new.1 with nIdCount := nNew.1.toInt.toNat }, 0), new.2)
  let filled ← forLoop (loadBucket nUBuckets.1) nUBuckets.1.toInt.toNat
    ({ tried.1.1 with nTried := nTried.1.toInt - tried.1.2 }, tried.2)
  .ok ((nKey.1, filled.1), filled.2)

/-! ## What is written -/

/-- The writer takes the entries with references to be new. -/
def isNew (e : Nat × CAddrInfo) : Bool := e.2.nRefCount ≠ 0

/-- The new entries are written in order, and each has its place among them as its number. -/
theorem writeNew_spec {nNew : Int} {l : List (Nat × CAddrInfo)} (hnodup : (l.map Prod.fst).Nodup)
    (m : OrdMap Nat Nat) (nIds : Nat) (hcount : (nIds : Int) + (l.filter isNew).length = nNew) :
    (writeNew nNew m nIds l).2 = (l.filter isNew).map Prod.snd ∧
      (∀ k ∉ l.map Prod.fst, (writeNew nNew m nIds l).1.find k = m.find k) ∧
      ∀ k ∈ (l.filter isNew).map Prod.fst, (writeNew nNew m nIds l).1.find k =
        some (nIds + ((l.filter isNew).map Prod.fst).idxOf k) := by
  induction l generalizing m nIds with
  | nil => exact ⟨rfl, fun _ _ => rfl, fun k hk => absurd hk List.not_mem_nil⟩
  | cons e l ih =>
      obtain ⟨id, info⟩ := e
      rw [List.map_cons, List.nodup_cons] at hnodup
      rw [writeNew]
      split_ifs with hdone hzero
      · -- all new entries have been written
        have hnil : ((id, info) :: l).filter isNew = [] := by
          rw [← List.length_eq_zero_iff]
          omega
        rw [hnil]
        exact ⟨rfl, fun _ _ => rfl, fun k hk => absurd hk List.not_mem_nil⟩
      · have hfilter : ((id, info) :: l).filter isNew = l.filter isNew := by
          simp [isNew, hzero]
        rw [hfilter] at hcount ⊢
        obtain ⟨hwritten, hother, hnumber⟩ := ih hnodup.2 (m.put id nIds) nIds hcount
        refine ⟨hwritten, fun k hk => ?_, hnumber⟩
        rw [List.map_cons, List.mem_cons, not_or] at hk
        rw [hother k hk.2, OrdMap.find_put_of_ne _ _ hk.1]
      · have hfilter : ((id, info) :: l).filter isNew = (id, info) :: l.filter isNew := by
          simp [isNew, hzero]
        rw [hfilter, List.length_cons] at hcount
        obtain ⟨hwritten, hother, hnumber⟩ := ih hnodup.2 (m.put id nIds) (nIds + 1)
          (by push_cast at hcount ⊢; omega)
        rw [hfilter]
        refine ⟨by simp [hwritten], fun k hk => ?_, fun k hk => ?_⟩
        · rw [List.map_cons, List.mem_cons, not_or] at hk
          rw [hother k hk.2, OrdMap.find_put_of_ne _ _ hk.1]
        · rw [List.map_cons, List.mem_cons] at hk
          by_cases hkid : k = id
          · subst hkid
            rw [hother k hnodup.1, OrdMap.find_put_self, List.map_cons, List.idxOf_cons_self,
              Nat.add_zero]
          · rw [hnumber k (hk.resolve_left hkid), List.map_cons,
              List.idxOf_cons_ne _ (Ne.symm hkid)]
            congr 1
            omega

theorem writeTried_spec {nTried : Int} {l : List (Nat × CAddrInfo)} (nIds : Nat)
    (hcount : (nIds : Int) + (l.filter fun e => e.2.fInTried).length = nTried) :
    writeTried nTried nIds l = (l.filter fun e => e.2.fInTried).map Prod.snd := by
  induction l generalizing nIds with
  | nil => rfl
  | cons e l ih =>
      obtain ⟨id, info⟩ := e
      rw [writeTried]
      split_ifs with hdone htried
      · have hnil : ((id, info) :: l).filter (fun e => e.2.fInTried) = [] := by
          rw [← List.length_eq_zero_iff]
          omega
        rw [hnil, List.map_nil]
      · have hfilter : ((id, info) :: l).filter (fun e => e.2.fInTried) =
            (id, info) :: l.filter fun e => e.2.fInTried := by simp [htried]
        rw [hfilter, List.length_cons] at hcount
        rw [hfilter, List.map_cons, ih (nIds + 1) (by push_cast at hcount ⊢; omega)]
      · have hfilter : ((id, info) :: l).filter (fun e => e.2.fInTried) =
            l.filter fun e => e.2.fInTried := by simp [htried]
        rw [hfilter] at hcount ⊢
        exact ih nIds hcount

end CAddrMan

end Hivemind
