import Hivemind.Net.AddrBook

/-!
# What the operations of the address manager keep

For each operation: it succeeds on a manager whose parts agree, and they agree afterwards.
`SwapRandom` and the removal of a reference are the two steps that everything is made of.

`SwapRandom` changes two positions, and the vector with them; all other parts are about the
entries without their positions and do not see it, so it is dealt with once, as a manager that
has `Moved`.  A reference is removed from one bucket, and with the last one the entry is deleted:
it is swapped to the end of the vector, dropped there and taken out of both maps.  `ShrinkNew`
removes one reference, of an entry that is terrible or of the oldest of four that are drawn;
which one it is does not matter for the invariant.

* `Moved.find`, `Moved.inv`: the invariant does not depend on positions.
* `Inv.delete`: an entry that was in one bucket only leaves the manager.
* `oldestDrawn_spec`: the oldest of those that were drawn, when one was.
* `Inv.settle`: the entry that has been announced goes into a bucket with place.
-/

namespace Hivemind

open Ordered Outcomes Buckets

namespace CAddrMan

variable {env : AddrEnv} {c : Choices} {s s' s'' : CAddrMan} {pending : Option Nat}
  {id id' : Nat} {info info' : CAddrInfo} {b : Fin 256}

theorem getInfo_of_find (h : s.mapInfo.find id = some info) : s.getInfo id = .ok info := by
  simp [getInfo, h]

theorem hasInfo_of_find (h : s.mapInfo.find id = some info) : s.hasInfo id := by
  simp [hasInfo, h]

theorem assertThat_of {p : Prop} [Decidable p] (h : p) : assertThat p = .ok () := by
  simp [assertThat, h]

theorem vectorAt_of {v : List Nat} {i x : Nat} (h : v[i]? = some x) : vectorAt v i = .ok x := by
  simp [vectorAt, h]

/-! ## `SwapRandom` -/

/-- Only positions have changed. -/
structure Moved (s s' : CAddrMan) : Prop where
  nIdCount : s'.nIdCount = s.nIdCount
  mapAddr : s'.mapAddr = s.mapAddr
  nTried : s'.nTried = s.nTried
  nNew : s'.nNew = s.nNew
  vvTried : s'.vvTried = s.vvTried
  vvNew : s'.vvNew = s.vvNew
  core : ∀ id, (s'.mapInfo.find id).map CAddrInfo.core = (s.mapInfo.find id).map CAddrInfo.core
  length : s'.vRandom.length = s.vRandom.length

namespace Moved

theorem refl (s : CAddrMan) : Moved s s := ⟨rfl, rfl, rfl, rfl, rfl, rfl, fun _ => rfl, rfl⟩

theorem trans (h : Moved s s') (h' : Moved s' s'') : Moved s s'' where
  nIdCount := h'.nIdCount.trans h.nIdCount
  mapAddr := h'.mapAddr.trans h.mapAddr
  nTried := h'.nTried.trans h.nTried
  nNew := h'.nNew.trans h.nNew
  vvTried := h'.vvTried.trans h.vvTried
  vvNew := h'.vvNew.trans h.vvNew
  core := fun id => (h'.core id).trans (h.core id)
  length := h'.length.trans h.length

theorem view_addr (h : Moved s s') :
    view CAddrInfo.addr s'.mapInfo = view CAddrInfo.addr s.mapInfo :=
  view_eq_of_core h.core fun _ => rfl

theorem view_place (h : Moved s s') :
    view (CAddrInfo.place env) s'.mapInfo = view (CAddrInfo.place env) s.mapInfo :=
  view_eq_of_core h.core fun _ => rfl

theorem view_refs (h : Moved s s') :
    view CAddrInfo.refs s'.mapInfo = view CAddrInfo.refs s.mapInfo :=
  view_eq_of_core h.core fun _ => rfl

/-- An entry is there before when it is there after. -/
theorem find (h : Moved s s') (hfind : s'.mapInfo.find id = some info') :
    ∃ info, s.mapInfo.find id = some info ∧ info'.core = info.core := by
  have hcore := h.core id
  rw [hfind, Option.map_some] at hcore
  obtain ⟨info, hinfo, heq⟩ := Option.map_eq_some_iff.mp hcore.symm
  exact ⟨info, hinfo, heq.symm⟩

theorem find_none (h : Moved s s') (hnone : s.mapInfo.find id = none) :
    s'.mapInfo.find id = none := by
  have hcore := h.core id
  rw [hnone, Option.map_none, Option.map_eq_none_iff] at hcore
  exact hcore

/-- The invariant does not depend on which positions the entries have. -/
theorem inv (h : Moved s s') (hidx : Indexes (view CAddrInfo.pos s'.mapInfo) s'.vRandom)
    (hinv : Inv env pending s) : Inv env pending s' where
  random := hidx
  addr := by simpa [h.mapAddr, h.view_addr] using hinv.addr
  fresh := fun id hle => h.find_none (hinv.fresh id (h.nIdCount ▸ hle))
  infos := by
    intro id info' hfind
    obtain ⟨info, hinfo, hcore⟩ := h.find hfind
    exact (hinv.infos id info hinfo).of_core hcore
  tried := by simpa [h.vvTried, h.view_place] using hinv.tried
  triedSize := by simpa [h.vvTried] using hinv.triedSize
  new := by simpa [h.vvNew, h.view_refs] using hinv.new
  newSize := by simpa [h.vvNew] using hinv.newSize
  pendingKnown := by simpa [h.view_refs] using hinv.pendingKnown
  nTried := by simpa [h.vvTried, h.nTried] using hinv.nTried
  size := by simpa [h.nTried, h.nNew, h.length] using hinv.size

end Moved

theorem find_of_pos (hidx : Indexes (view CAddrInfo.pos s.mapInfo) s.vRandom) {p : Nat}
    (hp : s.vRandom[p]? = some id) :
    ∃ info, s.mapInfo.find id = some info ∧ info.nRandomPos = p := by
  obtain ⟨info, hfind, hpos⟩ := find_of_view (hidx.of_at hp)
  exact ⟨info, hfind, Option.some.inj hpos⟩

theorem swapRandom_spec (hidx : Indexes (view CAddrInfo.pos s.mapInfo) s.vRandom) {p q : Nat}
    (hp : s.vRandom[p]? = some id) (hq : s.vRandom[q]? = some id') :
    ∃ s', s.swapRandom p q = .ok s' ∧ Moved s s' ∧
      Indexes (view CAddrInfo.pos s'.mapInfo) s'.vRandom ∧ s'.vRandom[q]? = some id ∧
      s'.vRandom[p]? = some id' := by
  by_cases hpq : p = q
  · subst hpq
    have hid : id = id' := Option.some.inj (hp.symm.trans hq)
    exact ⟨s, by simp [swapRandom], Moved.refl s, hidx, hp, hid ▸ hp⟩
  · have hne : id' ≠ id := by
      rintro rfl
      exact hpq (hidx.unique hp hq)
    obtain ⟨info1, hfind1, -⟩ := find_of_pos hidx hp
    obtain ⟨info2, hfind2, -⟩ := find_of_pos hidx hq
    have hplt := (List.getElem?_eq_some_iff.mp hp).1
    have hqlt := (List.getElem?_eq_some_iff.mp hq).1
    have hfind2' : (s.setInfo id { info1 with nRandomPos := q }).mapInfo.find id' = some info2 := by
      rw [setInfo, OrdMap.find_put_of_ne _ _ hne, hfind2]
    refine ⟨{ (s.setInfo id { info1 with nRandomPos := q }).setInfo id'
        { info2 with nRandomPos := p } with
      vRandom := (s.vRandom.set p id').set q id }, ?_, ?_, ?_, ?_, ?_⟩
    · simp [swapRandom, hpq, assertThat_of (And.intro hplt hqlt), vectorAt_of hp, vectorAt_of hq,
        assertThat_of (hasInfo_of_find hfind1), assertThat_of (hasInfo_of_find hfind2),
        getInfo_of_find hfind1, getInfo_of_find hfind2', bind, Except.bind]
      rfl
    · refine ⟨rfl, rfl, rfl, rfl, rfl, rfl, ?_, by simp⟩
      intro i
      simp only [setInfo, OrdMap.find_put]
      split_ifs with h2 h1
      · simp [h2, hfind2, CAddrInfo.core]
      · simp [h1, hfind1, CAddrInfo.core]
      · rfl
    · simp only [setInfo, view_put]
      exact hidx.swap hp hq hpq
    · simp [hqlt]
    · simp [hplt, Ne.symm hpq]

/-! ## The removal of a reference -/

theorem toPosition_natCast (p : Nat) : toPosition p = p := by
  simp [toPosition]

theorem card_erase_le {b' : Fin 256} (h : ∀ b, (s.vvNew b).card ≤ bucketSize) :
    (Function.update s.vvNew b ((s.vvNew b).erase id) b').card ≤ bucketSize := by
  by_cases hb : b' = b
  · subst hb
    rw [Function.update_self]
    exact Finset.card_erase_le.trans (h b')
  · rw [Function.update_of_ne hb]
    exact h b'

theorem view_refs_of_new (hfind : s.mapInfo.find id = some info) (hnew : info.fInTried = false) :
    view CAddrInfo.refs s.mapInfo id = some info.nRefCount := by
  simp [view_of_find hfind, CAddrInfo.refs, hnew]

/-- An entry that was in one bucket only leaves the manager. -/
theorem Inv.delete (h : Inv env pending s) (hmem : id ∈ s.vvNew b)
    (hfind : s.mapInfo.find id = some info) (hnew : info.fInTried = false)
    (hrefs : info.nRefCount - 1 = 0) (hpending : pending ≠ some id)
    (hmoved : Moved (s.setInfo id { info with nRefCount := info.nRefCount - 1 }) s')
    (hidx : Indexes (view CAddrInfo.pos s'.mapInfo) s'.vRandom)
    (hlast : s'.vRandom[s'.vRandom.length - 1]? = some id) :
    Inv env pending { s' with
      vRandom := s'.vRandom.dropLast
      mapAddr := s'.mapAddr.erase info.service.ip
      mapInfo := s'.mapInfo.erase id
      nNew := s'.nNew - 1
      vvNew := Function.update s'.vvNew b ((s'.vvNew b).erase id) } := by
  have ha : view CAddrInfo.addr s'.mapInfo = view CAddrInfo.addr s.mapInfo := by
    rw [hmoved.view_addr]
    exact view_put_eq hfind rfl
  have ht : view (CAddrInfo.place env) s'.mapInfo = view (CAddrInfo.place env) s.mapInfo := by
    rw [hmoved.view_place]
    exact view_put_eq hfind rfl
  have hr : view CAddrInfo.refs s'.mapInfo =
      Function.update (view CAddrInfo.refs s.mapInfo) id (some (info.nRefCount - 1)) := by
    rw [hmoved.view_refs, setInfo, view_put]
    simp [CAddrInfo.refs, hnew]
  have hvvNew : s'.vvNew = s.vvNew := hmoved.vvNew
  have hvvTried : s'.vvTried = s.vvTried := hmoved.vvTried
  have hmapAddr : s'.mapAddr = s.mapAddr := hmoved.mapAddr
  have hid : view CAddrInfo.addr s.mapInfo id = some info.service.ip := by
    simp [view_of_find hfind, CAddrInfo.addr]
  have hplace : view (CAddrInfo.place env) s.mapInfo id = none := by
    simp [view_of_find hfind, CAddrInfo.place, hnew]
  -- the entry was in no other bucket
  have hlower := h.new.lower (view_refs_of_new hfind hnew) hmem
  have hnone : ∀ b', id ∉ Function.update s.vvNew b ((s.vvNew b).erase id) b' := by
    have hcount := hlower.count id (info.nRefCount - 1) (by simp)
    rw [if_neg hpending, hrefs] at hcount
    exact occurrences_eq_zero.mp (by omega)
  have hlen : 0 < s'.vRandom.length := by
    have := (List.getElem?_eq_some_iff.mp hlast).1
    omega
  constructor
  case toLinked =>
    constructor
    case random =>
      rw [view_erase]
      exact hidx.pop hlast
    case addr =>
      intro a id'
      simp only [OrdMap.find_erase, view_erase, ha, hmapAddr]
      by_cases hid' : id' = id
      · subst hid'
        rw [Function.update_self]
        split_ifs with heq
        · simp
        · simp only [iff_false, h.addr, hid, Option.some.injEq]
          exact fun h' => heq h'.symm
      · rw [Function.update_of_ne hid']
        split_ifs with heq
        · simp only [false_iff, ← h.addr, heq, (h.addr _ _).mpr hid, Option.some.injEq]
          exact fun h' => hid' h'.symm
        · exact h.addr a id'
    case fresh =>
      intro id' hle
      have hnone' : (s.setInfo id { info with nRefCount := info.nRefCount - 1 }).mapInfo.find id'
          = none := by
        have hold := h.fresh id' (hmoved.nIdCount ▸ hle)
        have hne : id' ≠ id := by
          rintro rfl
          simp [hold] at hfind
        rw [setInfo, OrdMap.find_put_of_ne _ _ hne, hold]
      simp [OrdMap.find_erase, hmoved.find_none hnone']
  case infos =>
    intro id' x hx
    simp only [OrdMap.find_erase] at hx
    split_ifs at hx with hid'
    obtain ⟨y, hy, hcore⟩ := hmoved.find hx
    rw [setInfo, OrdMap.find_put_of_ne _ _ hid'] at hy
    exact (h.infos id' y hy).of_core hcore
  case tried =>
    simp only [view_erase, ht, hvvTried]
    rw [← hplace, Function.update_eq_self]
    exact h.tried
  case triedSize => simpa [hvvTried] using h.triedSize
  case new =>
    have hforget := hlower.forget hnone
    rw [Function.update_idem] at hforget
    simpa [view_erase, hr, hvvNew] using hforget
  case newSize =>
    intro b'
    simp only [hvvNew]
    exact card_erase_le h.newSize
  case pendingKnown =>
    intro id' hid'
    have hne : id' ≠ id := by
      rintro rfl
      exact hpending hid'
    simp only [view_erase, hr]
    rw [Function.update_of_ne hne, Function.update_of_ne hne]
    exact h.pendingKnown id' hid'
  case nTried =>
    have hT : s'.nTried = s.nTried := hmoved.nTried
    simpa [hvvTried, hT] using h.nTried
  case size =>
    have hsize := h.size
    have hlength : s'.vRandom.length = s.vRandom.length := hmoved.length
    have hT : s'.nTried = s.nTried := hmoved.nTried
    have hN : s'.nNew = s.nNew := hmoved.nNew
    simp only [List.length_dropLast]
    omega

theorem unref_spec (h : Inv env pending s) (hmem : id ∈ s.vvNew b) (hpending : pending ≠ some id) :
    ∃ s', s.unref id = .ok s' ∧ Inv env pending (s'.eraseNew b id) ∧ s'.vvNew = s.vvNew := by
  obtain ⟨info, hfind, hnew⟩ := h.find_of_mem hmem
  have hcount := (h.infos id info hfind).of_new hnew
  by_cases hrefs : info.nRefCount - 1 = 0
  · obtain ⟨p, hp, hat⟩ := (h.random.at_iff id info.nRandomPos).mp
      (by simp [view_of_find hfind, CAddrInfo.pos])
    have hidx : Indexes (view CAddrInfo.pos (s.setInfo id
        { info with nRefCount := info.nRefCount - 1 }).mapInfo) s.vRandom := by
      have hlinked : Linked (s.setInfo id { info with nRefCount := info.nRefCount - 1 }) :=
        h.toLinked.put hfind rfl rfl
      exact hlinked.random
    have hlen := (List.getElem?_eq_some_iff.mp hat).1
    have hend : s.vRandom[s.vRandom.length - 1]? = some (s.vRandom[s.vRandom.length - 1]) :=
      List.getElem?_eq_getElem (by omega)
    obtain ⟨s', hswap, hmoved, hidx', hlast, -⟩ := swapRandom_spec
      (s := s.setInfo id { info with nRefCount := info.nRefCount - 1 }) hidx hat hend
    have hlength : s'.vRandom.length = s.vRandom.length := hmoved.length
    have hvvNew : s'.vvNew = s.vvNew := hmoved.vvNew
    refine ⟨{ s' with
      vRandom := s'.vRandom.dropLast
      mapAddr := s'.mapAddr.erase info.service.ip
      mapInfo := s'.mapInfo.erase id
      nNew := s'.nNew - 1 }, ?_, ?_, hvvNew⟩
    · have hpos : toPosition info.nRandomPos = p := by rw [hp, toPosition_natCast]
      have hswap' : (s.setInfo id { info with nRefCount := info.nRefCount - 1 }).swapRandom p
          ((s.setInfo id { info with nRefCount := info.nRefCount - 1 }).vRandom.length - 1) =
          .ok s' := hswap
      simp only [unref, getInfo_of_find hfind, bind, Except.bind, hrefs, if_true, hpos]
      rw [← hrefs, hswap']
    · exact h.delete hmem hfind hnew hrefs hpending hmoved hidx' (hlength ▸ hlast)
  · refine ⟨s.setInfo id { info with nRefCount := info.nRefCount - 1 }, ?_, ?_, rfl⟩
    · simp [unref, getInfo_of_find hfind, hrefs, bind, Except.bind]
    · refine h.setRefs hfind hnew (by omega) (h.new.lower (view_refs_of_new hfind hnew) hmem)
        (fun b' => card_erase_le h.newSize) fun id' hid' => Or.inr hid'

/-! ## `ShrinkNew` -/

theorem firstTerrible_spec (c : Choices) {ids : List Nat} (h : ∀ id ∈ ids, s.hasInfo id) (k : Nat) :
    ∃ r, s.firstTerrible c k ids = .ok r ∧ ∀ id, r = some id → id ∈ ids := by
  induction ids generalizing k with
  | nil => exact ⟨none, rfl, by simp⟩
  | cons id ids ih =>
      have hid := h id List.mem_cons_self
      obtain ⟨info, hfind⟩ := Option.isSome_iff_exists.mp hid
      obtain ⟨r, hr, hmem⟩ := ih (fun i hi => h i (List.mem_cons_of_mem _ hi)) (k + 1)
      simp only [firstTerrible, assertThat_of hid, getInfo_of_find hfind, bind, Except.bind]
      split_ifs
      · exact ⟨some id, rfl, by simp⟩
      · exact ⟨r, hr, fun i hi => List.mem_cons_of_mem _ (hmem i hi)⟩

/-- The oldest of those that were drawn, when one was. -/
theorem oldestDrawn_spec (drawn : List Nat) {ids : List Nat} (h : ∀ id ∈ ids, s.hasInfo id)
    (nI : Nat) {nOldest : Option Nat} (hold : ∀ id, nOldest = some id → s.hasInfo id) :
    ∃ r, s.oldestDrawn drawn nI nOldest ids = .ok r ∧
      (∀ id, r = some id → id ∈ ids ∨ nOldest = some id) ∧
      ((nOldest.isSome ∨ ∃ k < ids.length, nI + k ∈ drawn) → r.isSome) := by
  induction ids generalizing nI nOldest with
  | nil => exact ⟨nOldest, rfl, by simp, by simp⟩
  | cons id ids ih =>
      have hid := h id List.mem_cons_self
      have htail : ∀ i ∈ ids, s.hasInfo i := fun i hi => h i (List.mem_cons_of_mem _ hi)
      obtain ⟨info, hfind⟩ := Option.isSome_iff_exists.mp hid
      by_cases hdrawn : nI ∈ drawn
      · cases nOldest with
        | none =>
            have hold' : ∀ i, some id = some i → s.hasInfo i := by
              rintro i ⟨⟩
              exact hid
            obtain ⟨r, hr, hmem, hsome⟩ := ih htail (nI + 1) hold'
            refine ⟨r, ?_, ?_, fun _ => hsome (Or.inl rfl)⟩
            · simp [oldestDrawn, hdrawn, hr, bind, Except.bind, assertThat]
            · intro i hi
              rcases hmem i hi with hi' | ⟨⟨⟩⟩
              · exact Or.inl (List.mem_cons_of_mem _ hi')
              · exact Or.inl List.mem_cons_self
        | some old =>
            have hold' := hold old rfl
            obtain ⟨infoOld, hfindOld⟩ := Option.isSome_iff_exists.mp hold'
            have hnext : ∀ i, some (if info.nTime < infoOld.nTime then id else old) = some i →
                s.hasInfo i := by
              rintro i ⟨⟩
              split_ifs
              · exact hid
              · exact hold'
            obtain ⟨r, hr, hmem, hsome⟩ := ih htail (nI + 1) hnext
            refine ⟨r, ?_, ?_, fun _ => hsome (Or.inl rfl)⟩
            · simp [oldestDrawn, hdrawn, assertThat_of hid, getInfo_of_find hfind,
                getInfo_of_find hfindOld, hr, bind, Except.bind]
            · intro i hi
              rcases hmem i hi with hi' | hi'
              · exact Or.inl (List.mem_cons_of_mem _ hi')
              · split_ifs at hi'
                · exact Or.inl (by simp [Option.some.inj hi'])
                · exact Or.inr hi'
      · obtain ⟨r, hr, hmem, hsome⟩ := ih htail (nI + 1) hold
        refine ⟨r, by simp [oldestDrawn, hdrawn, hr], ?_, ?_⟩
        · intro i hi
          exact (hmem i hi).imp_left (List.mem_cons_of_mem _)
        · rintro (hsome' | ⟨k, hk, hkdrawn⟩)
          · exact hsome (Or.inl hsome')
          · cases k with
            | zero => exact absurd hkdrawn hdrawn
            | succ k =>
                refine hsome (Or.inr ⟨k, ?_, ?_⟩)
                · simpa using hk
                · rwa [Nat.add_right_comm, Nat.add_assoc]

theorem getRandInt_lt (c : Choices) (k : Nat) {n : Nat} (hn : 0 < n) : c.getRandInt k n < n := by
  have hne : n ≠ 0 := by omega
  simp only [Choices.getRandInt, hne, if_false]
  exact Nat.mod_lt _ hn

theorem shrinkNew_spec (h : Inv env pending s) (c : Choices) (hfull : 0 < (s.vvNew b).card)
    (hpending : ∀ id ∈ s.vvNew b, pending ≠ some id) :
    ∃ s' id, s.shrinkNew c b = .ok s' ∧ Inv env pending s' ∧ id ∈ s.vvNew b ∧
      s'.vvNew b = (s.vvNew b).erase id := by
  have hknown : ∀ id ∈ (s.vvNew b).sort (· ≤ ·), s.hasInfo id := by
    intro id hid
    obtain ⟨info, hfind, -⟩ := h.find_of_mem ((Finset.mem_sort _).mp hid)
    exact hasInfo_of_find hfind
  -- an entry of the bucket leaves it
  have hleave : ∀ id ∈ s.vvNew b, ∃ s', s.unref id = .ok s' ∧ Inv env pending (s'.eraseNew b id) ∧
      (s'.eraseNew b id).vvNew b = (s.vvNew b).erase id := by
    intro id hid
    obtain ⟨s', hunref, hinv, hvv⟩ := unref_spec h hid (hpending id hid)
    exact ⟨s', hunref, hinv, by simp [eraseNew, hvv]⟩
  obtain ⟨r, hfirst, hmem⟩ := firstTerrible_spec c hknown 0
  cases r with
  | some id =>
      have hid := (Finset.mem_sort _).mp (hmem id rfl)
      obtain ⟨s', hunref, hinv, hvv⟩ := hleave id hid
      exact ⟨s'.eraseNew b id, id, by simp [shrinkNew, hfirst, hunref, bind, Except.bind], hinv, hid,
        hvv⟩
  | none =>
      obtain ⟨r, hdrawn, hmem', hsome⟩ := oldestDrawn_spec
        [c.getRandInt 1 (s.vvNew b).card, c.getRandInt 2 (s.vvNew b).card,
          c.getRandInt 3 (s.vvNew b).card, c.getRandInt 4 (s.vvNew b).card]
        hknown 0 (show ∀ i, (none : Option Nat) = some i → s.hasInfo i by simp)
      have hr : r.isSome := by
        refine hsome (Or.inr ⟨c.getRandInt 1 (s.vvNew b).card, ?_, by simp⟩)
        simpa using getRandInt_lt c 1 hfull
      obtain ⟨id, rfl⟩ := Option.isSome_iff_exists.mp hr
      have hid := (hmem' id rfl).resolve_right (by simp)
      have hinfo := hknown id hid
      rw [Finset.mem_sort] at hid
      obtain ⟨s', hunref, hinv, hvv⟩ := hleave id hid
      refine ⟨s'.eraseNew b id, id, ?_, hinv, hid, hvv⟩
      simp only [shrinkNew, hfirst, bind, Except.bind, hdrawn, assertThat_of hinfo, hunref]

/-! ## `Add_` -/

/-- The entry that has been announced goes into a bucket with place. -/
theorem Inv.settle (h : Inv env (some id) s) (hnot : id ∉ s.vvNew b)
    (hroom : (s.vvNew b).card < bucketSize) : Inv env none (s.insertNew b id) where
  toLinked := ⟨h.random, h.addr, h.fresh⟩
  infos := h.infos
  tried := h.tried
  triedSize := h.triedSize
  new := h.new.settle (h.pendingKnown id rfl) hnot
  newSize := by
    intro b'
    simp only [insertNew]
    by_cases hb : b' = b
    · subst hb
      rw [Function.update_self, Finset.card_insert_of_notMem hnot]
      omega
    · rw [Function.update_of_ne hb]
      exact h.newSize b'
  pendingKnown := by simp
  nTried := h.nTried
  size := h.size

theorem addToNew_spec (c : Choices) {source : CNetAddr} (hfind : s.mapInfo.find id = some info)
    (hin : id ∈ s.vvNew (env.getNewBucket info.service.ip source) → Inv env none s)
    (hout : id ∉ s.vvNew (env.getNewBucket info.service.ip source) →
      Inv env (some id) (s.setInfo id { info with nRefCount := info.nRefCount + 1 })) :
    ∃ s', s.addToNew env c id source = .ok s' ∧ Inv env none s' := by
  by_cases hmem : id ∈ s.vvNew (env.getNewBucket info.service.ip source)
  · exact ⟨s, by simp [addToNew, getInfo_of_find hfind, hmem, bind, Except.bind], hin hmem⟩
  · have hinv := hout hmem
    set s1 := s.setInfo id { info with nRefCount := info.nRefCount + 1 } with hs1
    set b := env.getNewBucket info.service.ip source with hb
    have hvv : s1.vvNew = s.vvNew := rfl
    by_cases hfull : (s.vvNew b).card = bucketSize
    · obtain ⟨s2, x, hshrink, hinv2, hx, hvv2⟩ := shrinkNew_spec hinv c (b := b)
        (by rw [hvv, hfull]; decide) (by
          rintro y hy ⟨⟩
          exact hmem hy)
      refine ⟨s2.insertNew b id, ?_, hinv2.settle ?_ ?_⟩
      · simp only [addToNew, getInfo_of_find hfind, bind, Except.bind, ← hb, hmem, if_false, ← hs1,
          hvv, hfull, if_true, hshrink]
      · rw [hvv2]
        exact fun hmem' => hmem (Finset.mem_of_mem_erase hmem')
      · rw [hvv2, Finset.card_erase_of_mem hx, hvv, hfull]
        decide
    · refine ⟨s1.insertNew b id, ?_, hinv.settle hmem ?_⟩
      · simp only [addToNew, getInfo_of_find hfind, bind, Except.bind, ← hb, hmem, if_false, ← hs1,
          hvv, hfull]
      · have := hinv.newSize b
        rw [hvv] at this ⊢
        omega

end CAddrMan

end Hivemind
