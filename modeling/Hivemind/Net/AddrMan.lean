import Mathlib
import Hivemind.Lib.Outcome
import Hivemind.Primitives.Basic

/-!
# The address manager

`CAddrMan` of `addrman.cpp`: the addresses of other nodes, in 256 buckets of addresses that have
not been tried and 64 buckets of addresses that have.  An entry has an id; the maps, the vector
`vRandom` and the buckets refer to it by that id.

Ids are natural numbers and do not wrap.  A random number and a reading of the clock are choices
of the environment.  Where an assertion of the source fails, an index leaves a vector, or
`mapInfo[..]` would create an entry, the model stops with an `AddrFault`.

The bucket of an address is computed as the source does, with `Hash`, `GetGroup` and `IsRoutable`
as parameters.  A turn of each loop is a function of its own, so that what it reads and writes
can be stated without the loop.

* `CAddrInfo`, `CAddrMan`: an entry, and the manager with all its parts.
* `Choices`: random numbers and the clock, in the order in which they are asked for.
* `create`, `swapRandom`, `shrinkNew`, `makeTried`: the steps that the operations are made of.
* `add`, `good`, `attempt`, `connected`, `getAddr`: the operations.
* `check`: `Check_`, with its error codes.
-/

namespace Hivemind

open Codecs Ordered Outcomes

/-! ## Addresses -/

/-- `CNetAddr`, in the order of `memcmp`. -/
abbrev CNetAddr := Blob 16

/-- `CService`. -/
structure CService where
  ip : CNetAddr
  port : UInt16
  deriving DecidableEq

/-- `GetKey`. -/
def CService.getKey (a : CService) : Bytes :=
  a.ip.val ++ [UInt8.ofNat (a.port.toNat / 256), UInt8.ofNat (a.port.toNat % 256)]

/-- `CAddress`. -/
structure CAddress where
  service : CService
  nServices : UInt64
  nTime : UInt32

/-- `CAddrInfo`, with the members of `CAddress`. -/
structure CAddrInfo where
  service : CService
  nServices : UInt64
  nTime : UInt32
  source : CNetAddr
  nLastTry : Int := 0
  nLastSuccess : Int := 0
  nAttempts : Int := 0
  nRefCount : Int := 0
  fInTried : Bool := false
  nRandomPos : Int := -1

/-- What the buckets depend on. -/
structure AddrEnv where
  hash : Bytes → Uint256
  getGroup : CNetAddr → Bytes
  isRoutable : CNetAddr → Bool
  nKey : Bytes

/-- `GetCheapHash`. -/
def cheapHash (h : Uint256) : Nat := leNat (h.val.take 8)

/-- A vector of bytes in a stream. -/
def serBytes (b : Bytes) : Bytes := (vectorCodec Codec.u8).ser b

/-- `GetTriedBucket`. -/
def AddrEnv.getTriedBucket (env : AddrEnv) (a : CService) : Fin 64 :=
  let hash1 := cheapHash (env.hash (serBytes env.nKey ++ serBytes a.getKey))
  let hash2 := cheapHash (env.hash (serBytes env.nKey ++ serBytes (env.getGroup a.ip) ++
    Codec.u64.ser (UInt64.ofNat (hash1 % 4))))
  Fin.ofNat 64 hash2

/-- `GetNewBucket`, of an address that came from `src`. -/
def AddrEnv.getNewBucket (env : AddrEnv) (a : CNetAddr) (src : CNetAddr) : Fin 256 :=
  let hash1 := cheapHash (env.hash (serBytes env.nKey ++ serBytes (env.getGroup a) ++
    serBytes (env.getGroup src)))
  let hash2 := cheapHash (env.hash (serBytes env.nKey ++ serBytes (env.getGroup src) ++
    Codec.u64.ser (UInt64.ofNat (hash1 % 32))))
  Fin.ofNat 256 hash2

/-- `IsTerrible`. -/
def CAddrInfo.isTerrible (info : CAddrInfo) (nNow : Int) : Bool :=
  if info.nLastTry ≠ 0 ∧ info.nLastTry ≥ nNow - 60 then false
  else if (info.nTime.toNat : Int) > nNow + 10 * 60 then true
  else if info.nTime = 0 ∨ nNow - info.nTime.toNat > 30 * 24 * 60 * 60 then true
  else if info.nLastSuccess = 0 ∧ info.nAttempts ≥ 3 then true
  else if nNow - info.nLastSuccess > 7 * 24 * 60 * 60 ∧ info.nAttempts ≥ 10 then true
  else false

/-! ## The manager -/

/-- What is not up to the manager: random numbers and the clock, in the order in which
they are asked for. -/
structure Choices where
  rand : Nat → Nat
  clock : Nat → Int

/-- `GetRandInt(nMax)`, the `k`-th time. -/
def Choices.getRandInt (c : Choices) (k nMax : Nat) : Nat :=
  if nMax = 0 then 0 else c.rand k % nMax

/-- What must not happen. -/
inductive AddrFault where
  | assertion
  | missing
  | outOfBounds
  deriving DecidableEq

/-- `CAddrMan`. -/
structure CAddrMan where
  nIdCount : Nat := 0
  mapInfo : OrdMap Nat CAddrInfo := OrdMap.empty
  mapAddr : OrdMap CNetAddr Nat := OrdMap.empty
  vRandom : List Nat := []
  nTried : Int := 0
  vvTried : Fin 64 → List Nat := fun _ => []
  nNew : Int := 0
  vvNew : Fin 256 → Finset Nat := fun _ => ∅

/-- `ADDRMAN_NEW_BUCKET_SIZE` and `ADDRMAN_TRIED_BUCKET_SIZE`. -/
abbrev bucketSize : Nat := 64

/-- `assert`. -/
def assertThat (p : Prop) [Decidable p] : Except AddrFault Unit :=
  if p then .ok () else .error .assertion

/-- `v[i]`. -/
def vectorAt (v : List Nat) (i : Nat) : Except AddrFault Nat :=
  match v[i]? with
  | none => .error .outOfBounds
  | some x => .ok x

/-- A position as `unsigned int`. -/
def toPosition (x : Int) : Nat := if x < 0 then (x + 2 ^ 32).toNat else x.toNat

/-- A time as `unsigned int`. -/
def toTime (x : Int) : UInt32 := UInt32.ofNat (x % 2 ^ 32).toNat

namespace CAddrMan

variable (s : CAddrMan)

/-- `mapInfo[id]`. -/
def getInfo (id : Nat) : Except AddrFault CAddrInfo :=
  match s.mapInfo.find id with
  | none => .error .missing
  | some info => .ok info

/-- `mapInfo[id] = info`. -/
def setInfo (id : Nat) (info : CAddrInfo) : CAddrMan := { s with mapInfo := s.mapInfo.put id info }

/-- `mapInfo.count(id) == 1`. -/
def hasInfo (id : Nat) : Prop := (s.mapInfo.find id).isSome = true

instance instDecidableHasInfo (id : Nat) : Decidable (s.hasInfo id) := by
  unfold hasInfo
  infer_instance

/-- `Find`, with the id. -/
def findAddr (a : CNetAddr) : Option (Nat × CAddrInfo) := do
  let id ← s.mapAddr.find a
  let info ← s.mapInfo.find id
  some (id, info)

/-- `Create`. -/
def create (addr : CAddress) (source : CNetAddr) : CAddrMan :=
  { s with
    nIdCount := s.nIdCount + 1
    mapInfo := s.mapInfo.put s.nIdCount
      { service := addr.service, nServices := addr.nServices, nTime := addr.nTime, source
        nRandomPos := s.vRandom.length }
    mapAddr := s.mapAddr.put addr.service.ip s.nIdCount
    vRandom := s.vRandom ++ [s.nIdCount] }

/-- `SwapRandom`. -/
def swapRandom (p q : Nat) : Except AddrFault CAddrMan :=
  if p = q then .ok s
  else do
    assertThat (p < s.vRandom.length ∧ q < s.vRandom.length)
    let id1 ← vectorAt s.vRandom p
    let id2 ← vectorAt s.vRandom q
    assertThat (s.hasInfo id1)
    assertThat (s.hasInfo id2)
    let info1 ← s.getInfo id1
    let s := s.setInfo id1 { info1 with nRandomPos := q }
    let info2 ← s.getInfo id2
    let s := s.setInfo id2 { info2 with nRandomPos := p }
    .ok { s with vRandom := (s.vRandom.set p id2).set q id1 }

/-- Put an entry into a bucket of new addresses. -/
def insertNew (b : Fin 256) (id : Nat) : CAddrMan :=
  { s with vvNew := Function.update s.vvNew b (insert id (s.vvNew b)) }

/-- Take an entry out of a bucket of new addresses. -/
def eraseNew (b : Fin 256) (id : Nat) : CAddrMan :=
  { s with vvNew := Function.update s.vvNew b ((s.vvNew b).erase id) }

/-! ## `ShrinkNew` -/

/-- What `ShrinkNew` does to the entry that leaves a bucket: it loses a reference, and
with the last one it is deleted. -/
def unref (id : Nat) : Except AddrFault CAddrMan := do
  let info ← s.getInfo id
  let info := { info with nRefCount := info.nRefCount - 1 }
  let s := s.setInfo id info
  if info.nRefCount = 0 then do
    let s ← s.swapRandom (toPosition info.nRandomPos) (s.vRandom.length - 1)
    .ok { s with
      vRandom := s.vRandom.dropLast
      mapAddr := s.mapAddr.erase info.service.ip
      mapInfo := s.mapInfo.erase id
      nNew := s.nNew - 1 }
  else .ok s

/-- The first entry that can be deleted. -/
def firstTerrible (c : Choices) : Nat → List Nat → Except AddrFault (Option Nat)
  | _, [] => .ok none
  | k, id :: ids => do
    assertThat (s.hasInfo id)
    let info ← s.getInfo id
    if info.isTerrible (c.clock (k + 1)) then .ok (some id) else firstTerrible c (k + 1) ids

/-- The oldest of the entries at the positions that were drawn. -/
def oldestDrawn (drawn : List Nat) : Nat → Option Nat → List Nat → Except AddrFault (Option Nat)
  | _, nOldest, [] => .ok nOldest
  | nI, nOldest, id :: ids =>
    if nI ∈ drawn then do
      assertThat (nOldest = none ∨ s.hasInfo id)
      match nOldest with
      | none => oldestDrawn drawn (nI + 1) (some id) ids
      | some old => do
        let info ← s.getInfo id
        let infoOld ← s.getInfo old
        oldestDrawn drawn (nI + 1) (some (if info.nTime < infoOld.nTime then id else old)) ids
    else oldestDrawn drawn (nI + 1) nOldest ids

/-- `ShrinkNew`. -/
def shrinkNew (c : Choices) (b : Fin 256) : Except AddrFault CAddrMan := do
  let ids := (s.vvNew b).sort (· ≤ ·)
  match ← s.firstTerrible c 0 ids with
  | some id => do
    let s ← s.unref id
    .ok (s.eraseNew b id)
  | none => do
    let n := (s.vvNew b).card
    let drawn := [c.getRandInt 1 n, c.getRandInt 2 n, c.getRandInt 3 n, c.getRandInt 4 n]
    match ← s.oldestDrawn drawn 0 none ids with
    -- the id is -1 in the source
    | none => .error .assertion
    | some nOldest => do
      assertThat (s.hasInfo nOldest)
      let s ← s.unref nOldest
      .ok (s.eraseNew b nOldest)

/-! ## `MakeTried` -/

/-- The turn of the loop of `SelectTried`: the vector, the id that is the oldest so far, and
the position it was found at. -/
def selectTurn (c : Choices) (i : Nat) (t : List Nat × Option (Nat × Nat)) :
    Except AddrFault (List Nat × Option (Nat × Nat)) := do
  let nPos := c.getRandInt (i + 1) (t.1.length - i) + i
  let nTemp ← vectorAt t.1 nPos
  let x ← vectorAt t.1 i
  let vTried := (t.1.set nPos x).set i nTemp
  assertThat (t.2 = none ∨ s.hasInfo nTemp)
  match t.2 with
  | none => .ok (vTried, some (nTemp, nPos))
  | some (nOldest, nOldestPos) => do
    let info ← s.getInfo nTemp
    let infoOld ← s.getInfo nOldest
    if info.nLastSuccess < infoOld.nLastSuccess then .ok (vTried, some (nTemp, nPos))
    else .ok (vTried, some (nOldest, nOldestPos))

/-- `SelectTried`: the vector as it is left, and the position. -/
def selectTried (c : Choices) (b : Fin 64) : Except AddrFault (List Nat × Option Nat) := do
  let t ← forLoop (s.selectTurn c) (min 4 (s.vvTried b).length) (s.vvTried b, none)
  .ok (t.1, t.2.map Prod.snd)

/-- The loop that removes an entry from all new buckets, and counts its references down. -/
def removeLoop (id : Nat) :
    List (Fin 256) → (Fin 256 → Finset Nat) × Int → (Fin 256 → Finset Nat) × Int
  | [], t => t
  | b :: bs, t =>
    if id ∈ t.1 b then removeLoop id bs (Function.update t.1 b ((t.1 b).erase id), t.2 - 1)
    else removeLoop id bs t

/-- The entry that takes the place of another in a bucket that is full. -/
def replaceTried (env : AddrEnv) (id : Nat) (nOrigin : Fin 256) (b : Fin 64) (nPos : Nat) :
    Except AddrFault CAddrMan := do
  let idOld ← vectorAt (s.vvTried b) nPos
  assertThat (s.hasInfo idOld)
  let infoOld ← s.getInfo idOld
  let nUBucket := env.getNewBucket infoOld.service.ip infoOld.source
  let s := s.setInfo idOld { infoOld with fInTried := false, nRefCount := 1 }
  let s := if (s.vvNew nUBucket).card < bucketSize then s.insertNew nUBucket idOld
    else s.insertNew nOrigin idOld
  let info ← s.getInfo id
  let s := s.setInfo id { info with fInTried := true }
  .ok { s with
    nNew := s.nNew + 1
    vvTried := Function.update s.vvTried b ((s.vvTried b).set nPos id) }

/-- `MakeTried`. -/
def makeTried (env : AddrEnv) (c : Choices) (id : Nat) (nOrigin : Fin 256) :
    Except AddrFault CAddrMan := do
  assertThat (id ∈ s.vvNew nOrigin)
  let info ← s.getInfo id
  let (vvNew, nRefCount) := removeLoop id (List.finRange 256) (s.vvNew, info.nRefCount)
  let info := { info with nRefCount }
  let s := { s.setInfo id info with vvNew, nNew := s.nNew - 1 }
  assertThat (nRefCount = 0)
  let b := env.getTriedBucket info.service
  if (s.vvTried b).length < bucketSize then
    let s := s.setInfo id { info with fInTried := true }
    .ok { s with
      nTried := s.nTried + 1
      vvTried := Function.update s.vvTried b (s.vvTried b ++ [id]) }
  else do
    match ← s.selectTried c b with
    | (_, none) => .error .outOfBounds
    | (vTried, some nPos) =>
      replaceTried { s with vvTried := Function.update s.vvTried b vTried } env id nOrigin b nPos

/-! ## The operations -/

/-- The search of `Good_` for a bucket of the entry, from a random one on. -/
def findBucket (nRnd : Nat) (id : Nat) : Option (Fin 256) :=
  ((List.range 256).map fun n => Fin.ofNat 256 (n + nRnd)).find? fun b => id ∈ s.vvNew b

/-- `Good_`. -/
def good (env : AddrEnv) (c : Choices) (addr : CService) (nTime : Int) :
    Except AddrFault CAddrMan :=
  match s.findAddr addr.ip with
  | none => .ok s
  | some (id, info) =>
    if info.service ≠ addr then .ok s
    else
      let info := { info with
        nLastSuccess := nTime, nLastTry := nTime, nTime := toTime nTime
        nAttempts := 0 }
      let s := s.setInfo id info
      if info.fInTried then .ok s
      else match s.findBucket (c.getRandInt 0 256) id with
        | none => .ok s
        | some nUBucket => s.makeTried env c id nUBucket

/-- The end of `Add_`: the entry goes into the bucket of its source. -/
def addToNew (env : AddrEnv) (c : Choices) (id : Nat) (source : CNetAddr) :
    Except AddrFault CAddrMan := do
  let info ← s.getInfo id
  let b := env.getNewBucket info.service.ip source
  if id ∈ s.vvNew b then .ok s
  else do
    let s := s.setInfo id { info with nRefCount := info.nRefCount + 1 }
    let s ← if (s.vvNew b).card = bucketSize then s.shrinkNew c b else .ok s
    .ok (s.insertNew b id)

/-- What `Add_` notes of an address that is known. -/
def refresh (c : Choices) (addr : CAddress) (nTimePenalty : Int) (info : CAddrInfo) : CAddrInfo :=
  let fCurrentlyOnline := c.clock 0 - addr.nTime.toNat < 24 * 60 * 60
  let nUpdateInterval : Int := if fCurrentlyOnline then 60 * 60 else 24 * 60 * 60
  let info := if addr.nTime ≠ 0 ∧ (info.nTime = 0 ∨
      (info.nTime.toNat : Int) < addr.nTime.toNat - nUpdateInterval - nTimePenalty) then
    { info with nTime := toTime (max 0 (addr.nTime.toNat - nTimePenalty)) }
    else info
  { info with nServices := info.nServices ||| addr.nServices }

/-- `Add_`. -/
def add (env : AddrEnv) (c : Choices) (addr : CAddress) (source : CNetAddr) (nTimePenalty : Int) :
    Except AddrFault (CAddrMan × Bool) :=
  if !env.isRoutable addr.service.ip then .ok (s, false)
  else match s.findAddr addr.service.ip with
  | some (id, info) =>
    let info := refresh c addr nTimePenalty info
    let s := s.setInfo id info
    if addr.nTime = 0 ∨ (info.nTime ≠ 0 ∧ addr.nTime ≤ info.nTime) then .ok (s, false)
    else if info.fInTried then .ok (s, false)
    else if info.nRefCount = 4 then .ok (s, false)
    else
      let nFactor := 2 ^ info.nRefCount.toNat
      if nFactor > 1 ∧ c.getRandInt 0 nFactor ≠ 0 then .ok (s, false)
      else (s.addToNew env c id source).map fun s => (s, false)
  | none => do
    let id := s.nIdCount
    let s := s.create addr source
    let info ← s.getInfo id
    let s := s.setInfo id
      { info with nTime := toTime (max 0 (info.nTime.toNat - nTimePenalty)) }
    let s := { s with nNew := s.nNew + 1 }
    (s.addToNew env c id source).map fun s => (s, true)

/-- `Attempt_`. -/
def attempt (addr : CService) (nTime : Int) : CAddrMan :=
  match s.findAddr addr.ip with
  | none => s
  | some (id, info) =>
    if info.service ≠ addr then s
    else s.setInfo id { info with nLastTry := nTime, nAttempts := info.nAttempts + 1 }

/-- `Connected_`. -/
def connected (addr : CService) (nTime : Int) : CAddrMan :=
  match s.findAddr addr.ip with
  | none => s
  | some (id, info) =>
    if info.service ≠ addr then s
    else if nTime - info.nTime.toNat > 20 * 60 then
      s.setInfo id { info with nTime := toTime nTime }
    else s

/-- The turn of the loop of `GetAddr_`; the loop is left when there are enough addresses. -/
def getAddrTurn (c : Choices) (nNodes : Nat) (n : Nat) (t : CAddrMan × List CAddrInfo) :
    Except AddrFault (CAddrMan × List CAddrInfo) :=
  if nNodes ≤ t.2.length then .ok t
  else do
    let nRndPos := c.getRandInt n (t.1.vRandom.length - n) + n
    let s ← t.1.swapRandom n nRndPos
    let id ← vectorAt s.vRandom n
    assertThat (s.hasInfo id)
    let ai ← s.getInfo id
    .ok (s, if ai.isTerrible (c.clock n) then t.2 else t.2 ++ [ai])

/-- `GetAddr_`. -/
def getAddr (c : Choices) : Except AddrFault (CAddrMan × List CAddrInfo) :=
  let nNodes := min (23 * s.vRandom.length / 100) 2500
  forLoop (getAddrTurn c nNodes) s.vRandom.length (s, [])

end CAddrMan

/-! ## `Check_` -/

/-- The ids that `Check_` has still to find in the buckets. -/
structure CheckState where
  setTried : List Nat := []
  mapNew : OrdMap Nat Int := OrdMap.empty

namespace CAddrMan

variable (s : CAddrMan)

/-- The turn of the first loop of `Check_`, or the code it returns. -/
def checkInfo (n : Nat) (info : CAddrInfo) (t : CheckState) : Except Int CheckState := do
  let t ← if info.fInTried then
      if info.nLastSuccess = 0 then .error (-1)
      else if info.nRefCount ≠ 0 then .error (-2)
      else .ok { t with setTried := t.setTried ++ [n] }
    else if info.nRefCount < 0 ∨ info.nRefCount > 4 then .error (-3)
    else if info.nRefCount = 0 then .error (-4)
    else .ok { t with mapNew := t.mapNew.put n info.nRefCount }
  -- `mapAddr[info]` of the source would make an address that is not there point to 0
  if s.mapAddr.find info.service.ip ≠ some n then .error (-5)
  else if info.nRandomPos < 0 ∨ s.vRandom[info.nRandomPos.toNat]? ≠ some n then .error (-14)
  else if info.nLastTry < 0 then .error (-6)
  else if info.nLastSuccess < 0 then .error (-8)
  else .ok t

/-- An id of a tried bucket. -/
def checkTried (t : CheckState) (id : Nat) : Except Int CheckState :=
  if id ∈ t.setTried then .ok { t with setTried := t.setTried.erase id } else .error (-11)

/-- An id of a new bucket. -/
def checkNew (t : CheckState) (id : Nat) : Except Int CheckState :=
  match t.mapNew.find id with
  | none => .error (-12)
  | some n => if n - 1 = 0 then .ok { t with mapNew := t.mapNew.erase id }
    else .ok { t with mapNew := t.mapNew.put id (n - 1) }

/-- `Check_`, with its error code. -/
def check : Except Int Unit := do
  if (s.vRandom.length : Int) ≠ s.nTried + s.nNew then .error (-7)
  else do
    let t ← s.mapInfo.entries.foldlM (fun t e => s.checkInfo e.1 e.2 t) {}
    if (t.setTried.length : Int) ≠ s.nTried then .error (-9)
    else if (t.mapNew.entries.length : Int) ≠ s.nNew then .error (-10)
    else do
      let t ← ((List.finRange 64).flatMap s.vvTried).foldlM checkTried t
      let t ← ((List.finRange 256).flatMap fun b => (s.vvNew b).sort (· ≤ ·)).foldlM checkNew t
      if t.setTried ≠ [] then .error (-13)
      else if t.mapNew.entries ≠ [] then .error (-15)
      else .ok ()

end CAddrMan

end Hivemind
