import Hivemind.Lib.Buckets
import Hivemind.Net.AddrMan

/-!
# What holds between the parts of the address manager

`Inv` says how `vRandom`, `mapAddr`, the two kinds of buckets and the counters agree with
`mapInfo`.  Each part needs one thing of an entry: its position, its address, its bucket of tried
addresses or its number of references.  `view` is that thing as a function of the id, so that a
change of an entry is a change of that function at one place.

With the views, the parts are instances of the three relations of the library between elements
and the places that hold them, and the lemmas of the library say what putting, moving and taking
out does to each of them.  An operation may have raised the references of an entry before it puts
it into a bucket; that entry is `pending`.

* `view`: what the entries say, by id; `view_put_eq` and `view_eq_of_core` are the changes that a
  view does not see.
* `CAddrMan.Linked`: the vector and the map of addresses agree with the entries.
* `CAddrMan.Inv`: **the parts of the manager agree.**
* `Inv.touch`: an entry may change in what no other part depends on.
* `Inv.setRefs`: the change of the number of references.
-/

namespace Hivemind

open Ordered Outcomes Buckets

/-! ## What an entry says -/

namespace CAddrInfo

def pos (info : CAddrInfo) : Option Int := some info.nRandomPos

def addr (info : CAddrInfo) : Option CNetAddr := some info.service.ip

/-- The bucket of an entry that has been tried. -/
def place (env : AddrEnv) (info : CAddrInfo) : Option (Fin 64) :=
  if info.fInTried then some (env.getTriedBucket info.service) else none

/-- The references of an entry that has not been tried. -/
def refs (info : CAddrInfo) : Option Int := if info.fInTried then none else some info.nRefCount

/-- What `Check_` asks of an entry alone. -/
structure Ok (info : CAddrInfo) : Prop where
  lastTry : 0 ≤ info.nLastTry
  lastSuccess : 0 ≤ info.nLastSuccess
  of_tried : info.fInTried = true → info.nLastSuccess ≠ 0 ∧ info.nRefCount = 0
  of_new : info.fInTried = false → 1 ≤ info.nRefCount ∧ info.nRefCount ≤ 4

/-- An entry without its position. -/
def core (info : CAddrInfo) : CAddrInfo := { info with nRandomPos := 0 }

theorem Ok.of_core {info info' : CAddrInfo} (h : info.Ok) (hcore : info'.core = info.core) :
    info'.Ok := by
  have hok : info.core.Ok := ⟨h.lastTry, h.lastSuccess, h.of_tried, h.of_new⟩
  rw [← hcore] at hok
  exact ⟨hok.lastTry, hok.lastSuccess, hok.of_tried, hok.of_new⟩

end CAddrInfo

/-- What the entries say, by id. -/
def view {γ : Type} (f : CAddrInfo → Option γ) (m : OrdMap Nat CAddrInfo) (id : Nat) : Option γ :=
  (m.find id).bind f

section view

variable {γ : Type} {f : CAddrInfo → Option γ} {m m' : OrdMap Nat CAddrInfo} {id : Nat}
  {info info' : CAddrInfo}

theorem view_of_find (h : m.find id = some info) : view f m id = f info := by
  simp [view, h]

theorem view_of_find_none (h : m.find id = none) : view f m id = none := by
  simp [view, h]

theorem find_of_view {x : γ} (h : view f m id = some x) :
    ∃ info, m.find id = some info ∧ f info = some x := by
  simpa [view, Option.bind_eq_some_iff] using h

theorem view_put : view f (m.put id info) = Function.update (view f m) id (f info) := by
  funext id'
  by_cases hid : id' = id
  · subst hid
    simp [view]
  · simp [view, hid, OrdMap.find_put_of_ne m info hid]

theorem view_erase : view f (m.erase id) = Function.update (view f m) id none := by
  funext id'
  by_cases hid : id' = id
  · subst hid
    simp [view, OrdMap.find_erase]
  · simp [view, hid, OrdMap.find_erase]

/-- A change that does not concern `f`. -/
theorem view_put_eq (h : m.find id = some info) (hf : f info' = f info) :
    view f (m.put id info') = view f m := by
  rw [view_put, hf, ← view_of_find (f := f) h, Function.update_eq_self]

/-- A change of positions does not concern `f`. -/
theorem view_eq_of_core (h : ∀ id, (m'.find id).map CAddrInfo.core = (m.find id).map CAddrInfo.core)
    (hf : ∀ info, f info.core = f info) : view f m' = view f m := by
  funext id
  have hview : ∀ m : OrdMap Nat CAddrInfo,
      view f m id = ((m.find id).map CAddrInfo.core).bind f := by
    intro m
    cases hm : m.find id with
    | none => simp [view, hm]
    | some info => simp [view, hm, hf]
  rw [hview m', hview m, h]

end view

/-! ## The invariant -/

/-- The vector and the map of addresses agree with the entries. -/
structure CAddrMan.Linked (s : CAddrMan) : Prop where
  random : Indexes (view CAddrInfo.pos s.mapInfo) s.vRandom
  addr : ∀ a id, s.mapAddr.find a = some id ↔ view CAddrInfo.addr s.mapInfo id = some a
  fresh : ∀ id, s.nIdCount ≤ id → s.mapInfo.find id = none

/-- The parts of the manager agree. -/
structure CAddrMan.Inv (env : AddrEnv) (pending : Option Nat) (s : CAddrMan) : Prop
    extends CAddrMan.Linked s where
  infos : ∀ id info, s.mapInfo.find id = some info → info.Ok
  tried : Filed (view (CAddrInfo.place env) s.mapInfo) s.vvTried
  triedSize : ∀ b, (s.vvTried b).length ≤ bucketSize
  new : Counted (view CAddrInfo.refs s.mapInfo) s.vvNew pending
  newSize : ∀ b, (s.vvNew b).card ≤ bucketSize
  pendingKnown : ∀ id, pending = some id → (view CAddrInfo.refs s.mapInfo id).isSome
  nTried : (totalLength s.vvTried : Int) = s.nTried
  size : s.nTried + s.nNew = s.vRandom.length

namespace CAddrMan

variable {env : AddrEnv} {s s' : CAddrMan} {pending : Option Nat} {id : Nat} {info info' : CAddrInfo}

theorem inv_empty : Inv env none {} where
  random := ⟨by simp [view]⟩
  addr := by simp [view]
  fresh := by simp
  infos := by simp
  tried := ⟨by simp [view], by simp⟩
  triedSize := by simp
  new := ⟨by simp, by simp [view]⟩
  newSize := by simp
  pendingKnown := by simp
  nTried := by simp
  size := by simp

/-- An entry may change in all but its address and its position. -/
theorem Linked.put (h : Linked s) (hfind : s.mapInfo.find id = some info)
    (hpos : info'.nRandomPos = info.nRandomPos) (hservice : info'.service = info.service) :
    Linked (s.setInfo id info') := by
  have hp : view CAddrInfo.pos (s.mapInfo.put id info') = view CAddrInfo.pos s.mapInfo :=
    view_put_eq hfind (by simp [CAddrInfo.pos, hpos])
  have ha : view CAddrInfo.addr (s.mapInfo.put id info') = view CAddrInfo.addr s.mapInfo :=
    view_put_eq hfind (by simp [CAddrInfo.addr, hservice])
  constructor
  case random => simpa [setInfo, hp] using h.random
  case addr => simpa [setInfo, ha] using h.addr
  case fresh =>
    intro id' hle
    have hne : id' ≠ id := by
      rintro rfl
      simp [h.fresh id' hle] at hfind
    simpa [setInfo, OrdMap.find_put_of_ne _ _ hne] using h.fresh id' hle

theorem infos_put {m : OrdMap Nat CAddrInfo} (h : ∀ id info, m.find id = some info → info.Ok)
    (hok : info'.Ok) : ∀ i x, (m.put id info').find i = some x → x.Ok := by
  intro i x hx
  rw [OrdMap.find_put] at hx
  split_ifs at hx
  · cases hx
    exact hok
  · exact h i x hx

/-- An entry of a bucket of new addresses. -/
theorem Inv.find_of_mem (h : Inv env pending s) {b : Fin 256} (hmem : id ∈ s.vvNew b) :
    ∃ info, s.mapInfo.find id = some info ∧ info.fInTried = false := by
  obtain ⟨n, hn⟩ := Option.isSome_iff_exists.mp (h.new.known b id hmem)
  obtain ⟨info, hfind, hrefs⟩ := find_of_view hn
  refine ⟨info, hfind, ?_⟩
  by_contra htried
  simp [CAddrInfo.refs, htried] at hrefs

/-- An entry of a bucket of tried addresses. -/
theorem Inv.find_of_mem_tried (h : Inv env pending s) {b : Fin 64} (hmem : id ∈ s.vvTried b) :
    ∃ info, s.mapInfo.find id = some info ∧ info.fInTried = true ∧
      env.getTriedBucket info.service = b := by
  rw [h.tried.mem_iff] at hmem
  obtain ⟨info, hfind, hplace⟩ := find_of_view hmem
  refine ⟨info, hfind, ?_⟩
  by_cases htried : info.fInTried = true
  · simpa [CAddrInfo.place, htried] using hplace
  · simp [CAddrInfo.place, htried] at hplace

/-- An entry may change in what no other part depends on. -/
theorem Inv.touch (h : Inv env pending s) (hfind : s.mapInfo.find id = some info)
    (hpos : info'.nRandomPos = info.nRandomPos) (hservice : info'.service = info.service)
    (htried : info'.fInTried = info.fInTried) (hrefs : info'.nRefCount = info.nRefCount)
    (hok : info'.Ok) : Inv env pending (s.setInfo id info') := by
  have ht : view (CAddrInfo.place env) (s.mapInfo.put id info') =
      view (CAddrInfo.place env) s.mapInfo :=
    view_put_eq hfind (by simp [CAddrInfo.place, hservice, htried])
  have hr : view CAddrInfo.refs (s.mapInfo.put id info') = view CAddrInfo.refs s.mapInfo :=
    view_put_eq hfind (by simp [CAddrInfo.refs, hrefs, htried])
  exact
    { toLinked := h.toLinked.put hfind hpos hservice
      infos := infos_put h.infos hok
      tried := by simpa [setInfo, ht] using h.tried
      triedSize := h.triedSize
      new := by simpa [setInfo, hr] using h.new
      newSize := h.newSize
      pendingKnown := by simpa [setInfo, hr] using h.pendingKnown
      nTried := h.nTried
      size := h.size }

/-! ## References -/

/-- The change of the number of references, on which the other parts do not depend. -/
theorem Inv.setRefs {n : Int} {pending' : Option Nat} {vvNew : Fin 256 → Finset Nat}
    (h : Inv env pending s) (hfind : s.mapInfo.find id = some info)
    (hnew : info.fInTried = false) (hn : 1 ≤ n ∧ n ≤ 4)
    (hcounted : Counted (Function.update (view CAddrInfo.refs s.mapInfo) id (some n)) vvNew pending')
    (hsize : ∀ b, (vvNew b).card ≤ bucketSize)
    (hpending : ∀ id', pending' = some id' → id' = id ∨ pending = some id') :
    Inv env pending' { s.setInfo id { info with nRefCount := n } with vvNew } := by
  have hok := h.infos id info hfind
  have ht : view (CAddrInfo.place env) (s.mapInfo.put id { info with nRefCount := n }) =
      view (CAddrInfo.place env) s.mapInfo := view_put_eq hfind rfl
  have hr : view CAddrInfo.refs (s.mapInfo.put id { info with nRefCount := n }) =
      Function.update (view CAddrInfo.refs s.mapInfo) id (some n) := by
    rw [view_put]
    simp [CAddrInfo.refs, hnew]
  have hlinked : Linked (s.setInfo id { info with nRefCount := n }) :=
    h.toLinked.put hfind rfl rfl
  constructor
  case toLinked => exact ⟨hlinked.random, hlinked.addr, hlinked.fresh⟩
  case infos =>
    refine infos_put h.infos ⟨hok.lastTry, hok.lastSuccess, ?_, fun _ => hn⟩
    intro htried
    simp [hnew] at htried
  case tried => simpa [setInfo, ht] using h.tried
  case triedSize => exact h.triedSize
  case new => simpa [setInfo, hr] using hcounted
  case newSize => exact hsize
  case pendingKnown =>
    intro id' hid'
    simp only [setInfo, hr]
    by_cases hid : id' = id
    · simp [hid]
    · rw [Function.update_of_ne hid]
      exact h.pendingKnown id' ((hpending id' hid').resolve_left hid)
  case nTried => exact h.nTried
  case size => exact h.size

end CAddrMan

end Hivemind
