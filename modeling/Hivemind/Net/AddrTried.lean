import Hivemind.Net.AddrSpec

/-!
# An address that has been tried

`MakeTried` takes an entry out of all buckets of new addresses and puts it into the bucket of its
address.  When that bucket is full, one of its entries goes back to a bucket of new addresses,
and the bucket the entry came from has room for it in any case.

The loop that removes the entry counts its references down to zero and goes on over all buckets
from the one it was found in, around the end; that it finds every reference, and that the
assertion behind it holds, is a count over all buckets.  Between the removal and the end of the
function the entry is in no bucket at all, so the rest is stated for the manager without it,
`withoutNew`, in which a place is looked for.

* `removeLoop_all`: the loop over all buckets removes the entry and counts its occurrences.
* `selectTried_spec`: the vector is shuffled, and the position is one of it.
* `Inv.place`, `Inv.replace`: the bucket of tried addresses has room, or is full.
* `makeTried_full`: **what `MakeTried` does to a full bucket.**
-/

namespace Hivemind

open Ordered Outcomes Buckets

namespace CAddrMan

variable {env : AddrEnv} {c : Choices} {s s' : CAddrMan} {id idOld : Nat}
  {info infoOld : CAddrInfo} {b : Fin 64}

/-! ## The loop over the new buckets -/

theorem removeLoop_spec (id : Nat) {bs : List (Fin 256)} (hbs : bs.Nodup)
    (t : (Fin 256 → Finset Nat) × Int) :
    removeLoop id bs t = (fun b => if b ∈ bs then (t.1 b).erase id else t.1 b,
      t.2 - ((bs.map fun b => if id ∈ t.1 b then 1 else 0).sum : Nat)) := by
  induction bs generalizing t with
  | nil => simp [removeLoop]
  | cons b bs ih =>
      obtain ⟨hb, hbs⟩ := List.nodup_cons.mp hbs
      have hother : ∀ b' ∈ bs, b' ≠ b := by
        rintro b' hb' rfl
        exact hb hb'
      by_cases hmem : id ∈ t.1 b
      · simp only [removeLoop, hmem, if_true, ih hbs]
        have hmap : (bs.map fun b' =>
            if id ∈ Function.update t.1 b ((t.1 b).erase id) b' then 1 else 0) =
            bs.map fun b' => if id ∈ t.1 b' then 1 else 0 := by
          refine List.map_congr_left ?_
          intro b' hb'
          rw [Function.update_of_ne (hother b' hb')]
        rw [hmap]
        refine Prod.ext ?_ ?_
        · funext b'
          by_cases hb' : b' = b
          · subst hb'
            simp [hb]
          · simp [hb']
        · simp [hmem]
          omega
      · simp only [removeLoop, hmem, if_false, ih hbs]
        refine Prod.ext ?_ ?_
        · funext b'
          by_cases hb' : b' = b
          · subst hb'
            simp [hb, Finset.erase_eq_of_notMem hmem]
          · simp [hb']
        · simp [hmem]

/-- The loop over all buckets removes the entry and counts its occurrences. -/
theorem removeLoop_all (id : Nat) (vvNew : Fin 256 → Finset Nat) (n : Int) :
    removeLoop id (List.finRange 256) (vvNew, n) =
      (fun b => (vvNew b).erase id, n - occurrences vvNew id) := by
  rw [removeLoop_spec id (List.nodup_finRange 256), occurrences, Fin.sum_univ_def]
  simp only [List.mem_finRange, if_true]

/-! ## `SelectTried` -/

/-- The vector is shuffled, and the position is one of it. -/
theorem selectTried_spec (c : Choices) (h : ∀ id ∈ s.vvTried b, s.hasInfo id)
    (hpos : 0 < (s.vvTried b).length) :
    ∃ vTried nPos, s.selectTried c b = .ok (vTried, some nPos) ∧
      vTried.Perm (s.vvTried b) ∧ nPos < (s.vvTried b).length := by
  obtain ⟨t, hloop, hperm, hold, hsome⟩ := @forLoop_ok _ _ (s.selectTurn c)
    (min 4 (s.vvTried b).length) (s.vvTried b, none)
    (fun i t => t.1.Perm (s.vvTried b) ∧
      (∀ x, t.2 = some x → x.1 ∈ s.vvTried b ∧ x.2 < (s.vvTried b).length) ∧
      (0 < i → t.2.isSome))
    ⟨List.Perm.refl _, by simp, by simp⟩ (by
      rintro i hi ⟨v, old⟩ ⟨hperm, hold, -⟩
      simp only at hperm hold
      have hlen := hperm.length_eq
      have hi' : i < v.length := by omega
      have hn := getRandInt_lt c (i + 1) (n := v.length - i) (by omega)
      set nPos := c.getRandInt (i + 1) (v.length - i) + i with hnPos
      have hnPos' : nPos < v.length := by omega
      have hmem : v[nPos] ∈ s.vvTried b := hperm.mem_iff.mp (List.getElem_mem _)
      obtain ⟨infoTemp, hfind⟩ := Option.isSome_iff_exists.mp (h _ hmem)
      have hswap : ((v.set nPos v[i]).set i v[nPos]).Perm (s.vvTried b) :=
        (List.set_set_perm hnPos' hi').trans hperm
      have hat : vectorAt v nPos = .ok v[nPos] := vectorAt_of (List.getElem?_eq_getElem hnPos')
      have hat' : vectorAt v i = .ok v[i] := vectorAt_of (List.getElem?_eq_getElem hi')
      have hassert := assertThat_of (show old = none ∨ s.hasInfo v[nPos] from Or.inr (h _ hmem))
      have hnew : v[nPos] ∈ s.vvTried b ∧ nPos < (s.vvTried b).length := ⟨hmem, hlen ▸ hnPos'⟩
      simp only [selectTurn, ← hnPos, hat, hat', hassert, bind, Except.bind]
      cases old with
      | none => exact ⟨_, rfl, hswap, by rintro x ⟨⟩; exact hnew, fun _ => rfl⟩
      | some old =>
          have hold' := hold old rfl
          obtain ⟨infoOld, hfindOld⟩ := Option.isSome_iff_exists.mp (h _ hold'.1)
          simp only [getInfo_of_find hfind, getInfo_of_find hfindOld]
          split_ifs
          · exact ⟨_, rfl, hswap, by rintro x ⟨⟩; exact hnew, fun _ => rfl⟩
          · exact ⟨_, rfl, hswap, by rintro x ⟨⟩; exact hold', fun _ => rfl⟩)
  obtain ⟨x, hx⟩ := Option.isSome_iff_exists.mp (hsome (by omega))
  exact ⟨t.1, x.2, by simp [selectTried, hloop, hx, bind, Except.bind], hperm, (hold x hx).2⟩

/-! ## `MakeTried` -/

theorem insertNew_insertNew_card {vvNew : Fin 256 → Finset Nat} {b' : Fin 256}
    (h : ∀ b, (vvNew b).card ≤ bucketSize) (hroom : (vvNew b').card < bucketSize) (b : Fin 256) :
    (Function.update vvNew b' (insert id (vvNew b')) b).card ≤ bucketSize := by
  by_cases hb : b = b'
  · subst hb
    rw [Function.update_self]
    exact (Finset.card_insert_le _ _).trans hroom
  · rw [Function.update_of_ne hb]
    exact h b

/-- The entry that goes back finds a bucket with room, and all else is as the source says. -/
theorem replaceTried_eq {nOrigin : Fin 256} {nPos : Nat} (hat : (s.vvTried b)[nPos]? = some idOld)
    (hfindOld : s.mapInfo.find idOld = some infoOld) (hfind : s.mapInfo.find id = some info)
    (hne : id ≠ idOld) (hroom : (s.vvNew nOrigin).card < bucketSize) :
    ∃ b', (s.vvNew b').card < bucketSize ∧ s.replaceTried env id nOrigin b nPos = .ok { s with
      mapInfo := (s.mapInfo.put idOld { infoOld with fInTried := false, nRefCount := 1 }).put id
        { info with fInTried := true }
      vvNew := Function.update s.vvNew b' (insert idOld (s.vvNew b'))
      nNew := s.nNew + 1
      vvTried := Function.update s.vvTried b ((s.vvTried b).set nPos id) } := by
  have hfind' : ∀ b', ((s.setInfo idOld { infoOld with fInTried := false, nRefCount := 1 }).insertNew
      b' idOld).getInfo id = .ok info := by
    intro b'
    refine getInfo_of_find ?_
    simp [setInfo, insertNew, OrdMap.find_put_of_ne _ _ hne, hfind]
  have hvvNew : (s.setInfo idOld { infoOld with fInTried := false, nRefCount := 1 }).vvNew =
      s.vvNew := rfl
  by_cases hfits : (s.vvNew (env.getNewBucket infoOld.service.ip infoOld.source)).card < bucketSize
  · refine ⟨_, hfits, ?_⟩
    simp only [replaceTried, vectorAt_of hat, assertThat_of (hasInfo_of_find hfindOld),
      getInfo_of_find hfindOld, hvvNew, hfits, hfind', if_true, bind, Except.bind]
    rfl
  · refine ⟨_, hroom, ?_⟩
    simp only [replaceTried, vectorAt_of hat, assertThat_of (hasInfo_of_find hfindOld),
      getInfo_of_find hfindOld, hvvNew, hfits, hfind', if_false, bind, Except.bind]
    rfl

/-- The bucket of tried addresses has room. -/
theorem Inv.place (h : Inv env none s) (hfind : s.mapInfo.find id = some info)
    (hnew : info.fInTried = false) (hsuccess : info.nLastSuccess ≠ 0)
    (hb : env.getTriedBucket info.service = b) (hroom : (s.vvTried b).length < bucketSize) :
    Inv env none { s with
      mapInfo := (s.mapInfo.put id { info with nRefCount := 0 }).put id
        { info with nRefCount := 0, fInTried := true }
      vvNew := fun b => (s.vvNew b).erase id
      nNew := s.nNew - 1
      nTried := s.nTried + 1
      vvTried := Function.update s.vvTried b (s.vvTried b ++ [id]) } := by
  have hok := h.infos id info hfind
  have hplace : view (CAddrInfo.place env) s.mapInfo id = none := by
    simp [view_of_find hfind, CAddrInfo.place, hnew]
  have hlinked : Linked (s.setInfo id { info with nRefCount := 0 }) :=
    h.toLinked.put hfind rfl rfl
  have hlinked' : Linked ((s.setInfo id { info with nRefCount := 0 }).setInfo id
      { info with nRefCount := 0, fInTried := true }) :=
    hlinked.put (show _ = some { info with nRefCount := 0 } by simp [setInfo]) rfl rfl
  constructor
  case toLinked => exact ⟨hlinked'.random, hlinked'.addr, hlinked'.fresh⟩
  case infos =>
    intro i x hx
    simp only [OrdMap.find_put] at hx
    split_ifs at hx with hi
    · cases hx
      exact ⟨hok.lastTry, hok.lastSuccess, fun _ => ⟨hsuccess, rfl⟩, fun hfalse => by simp at hfalse⟩
    · exact h.infos i x hx
  case tried =>
    have hfiled := (h.tried.insert hplace (b := b)).reorder (b := b) (l := s.vvTried b ++ [id])
      (by simp)
    rw [Function.update_idem] at hfiled
    simpa [view_put, CAddrInfo.place, hb] using hfiled
  case triedSize =>
    intro b'
    by_cases hb' : b' = b
    · subst hb'
      simpa using Nat.succ_le_of_lt hroom
    · simpa [hb'] using h.triedSize b'
  case new => simpa [view_put, CAddrInfo.refs] using h.new.clear id
  case newSize => exact fun b' => Finset.card_erase_le.trans (h.newSize b')
  case pendingKnown => simp
  case nTried =>
    have hsum := totalLength_update s.vvTried b (s.vvTried b ++ [id])
    have := h.nTried
    simp only [List.length_append, List.length_singleton] at hsum
    simp only
    omega
  case size =>
    have := h.size
    simp only
    omega

/-- The bucket of tried addresses is full, and an entry of it goes back. -/
theorem Inv.replace (h : Inv env none s) (hfind : s.mapInfo.find id = some info)
    (hnew : info.fInTried = false) (hsuccess : info.nLastSuccess ≠ 0)
    (hb : env.getTriedBucket info.service = b) {vTried : List Nat} {nPos : Nat}
    (hperm : vTried.Perm (s.vvTried b)) (hat : vTried[nPos]? = some idOld)
    (hfindOld : s.mapInfo.find idOld = some infoOld) (hold : infoOld.fInTried = true)
    {b' : Fin 256} (hroom : ((s.vvNew b').erase id).card < bucketSize) :
    Inv env none { s with
      mapInfo := ((s.mapInfo.put id { info with nRefCount := 0 }).put idOld
        { infoOld with fInTried := false, nRefCount := 1 }).put id
        { info with nRefCount := 0, fInTried := true }
      vvNew := Function.update (fun b => (s.vvNew b).erase id) b'
        (insert idOld ((s.vvNew b').erase id))
      vvTried := Function.update s.vvTried b (vTried.set nPos id) } := by
  have hok := h.infos id info hfind
  have hokOld := h.infos idOld infoOld hfindOld
  have hne : id ≠ idOld := by
    rintro rfl
    rw [hfind] at hfindOld
    cases hfindOld
    simp [hnew] at hold
  have hplace : view (CAddrInfo.place env) s.mapInfo id = none := by
    simp [view_of_find hfind, CAddrInfo.place, hnew]
  have hrefsOld : view CAddrInfo.refs s.mapInfo idOld = none := by
    simp [view_of_find hfindOld, CAddrInfo.refs, hold]
  have hlinked : Linked (s.setInfo id { info with nRefCount := 0 }) :=
    h.toLinked.put hfind rfl rfl
  have hlinked' : Linked ((s.setInfo id { info with nRefCount := 0 }).setInfo idOld
      { infoOld with fInTried := false, nRefCount := 1 }) :=
    hlinked.put (show _ = some infoOld by
      simpa [setInfo, OrdMap.find_put_of_ne _ _ (Ne.symm hne)] using hfindOld) rfl rfl
  have hlinked'' : Linked (((s.setInfo id { info with nRefCount := 0 }).setInfo idOld
      { infoOld with fInTried := false, nRefCount := 1 }).setInfo id
      { info with nRefCount := 0, fInTried := true }) :=
    hlinked'.put (show _ = some { info with nRefCount := 0 } by
      simp [setInfo, OrdMap.find_put_of_ne _ _ hne]) rfl rfl
  constructor
  case toLinked => exact ⟨hlinked''.random, hlinked''.addr, hlinked''.fresh⟩
  case infos =>
    intro i x hx
    simp only [OrdMap.find_put] at hx
    split_ifs at hx with hi hi'
    · cases hx
      exact ⟨hok.lastTry, hok.lastSuccess, fun _ => ⟨hsuccess, rfl⟩, fun hfalse => by simp at hfalse⟩
    · cases hx
      exact ⟨hokOld.lastTry, hokOld.lastSuccess, fun htrue => by simp at htrue, fun _ => by simp⟩
    · exact h.infos i x hx
  case tried =>
    have hlt := (List.getElem?_eq_some_iff.mp hat).1
    have helem := (List.getElem?_eq_some_iff.mp hat).2
    have hout : (s.vvTried b).Perm (idOld :: vTried.eraseIdx nPos) := by
      have := List.getElem_cons_eraseIdx_perm hlt
      rw [helem] at this
      exact hperm.symm.trans this.symm
    have hplace' : Function.update (view (CAddrInfo.place env) s.mapInfo) idOld none id = none := by
      rw [Function.update_of_ne hne, hplace]
    have hfiled := ((h.tried.remove hout).insert hplace' (b := b)).reorder (b := b)
      (l := vTried.set nPos id) (by simpa using List.set_perm_cons_eraseIdx hlt id)
    rw [Function.update_idem, Function.update_idem] at hfiled
    have hview : Function.update (view (CAddrInfo.place env) s.mapInfo) id none =
        view (CAddrInfo.place env) s.mapInfo := by
      rw [← hplace, Function.update_eq_self]
    simpa [view_put, CAddrInfo.place, hb, hnew, hview] using hfiled
  case triedSize =>
    intro b'
    by_cases hb' : b' = b
    · subst hb'
      simpa [hperm.length_eq] using h.triedSize b'
    · simpa [hb'] using h.triedSize b'
  case new =>
    have hclear := h.new.clear id
    have hnone : Function.update (view CAddrInfo.refs s.mapInfo) id none idOld = none := by
      rw [Function.update_of_ne (Ne.symm hne), hrefsOld]
    have hcounted := (hclear.announce hnone).settle (b := b') (by simp) (hclear.not_mem hnone b')
    simp only [view_put]
    rw [Function.update_comm (Ne.symm hne), Function.update_idem]
    simpa [CAddrInfo.refs] using hcounted
  case newSize =>
    exact insertNew_insertNew_card (fun b => Finset.card_erase_le.trans (h.newSize b)) hroom
  case pendingKnown => simp
  case nTried =>
    have hsum := totalLength_update s.vvTried b (vTried.set nPos id)
    have := h.nTried
    have := hperm.length_eq
    simp only [List.length_set] at hsum
    simp only
    omega
  case size => exact h.size

theorem refCount_of_new (h : Inv env none s) (hfind : s.mapInfo.find id = some info)
    (hnew : info.fInTried = false) : info.nRefCount - occurrences s.vvNew id = 0 := by
  have := h.new.count id info.nRefCount (view_refs_of_new hfind hnew)
  simp only [reduceCtorEq, if_false] at this
  omega

/-- The manager when `MakeTried` looks for a place. -/
def withoutNew (s : CAddrMan) (id : Nat) (info : CAddrInfo) : CAddrMan :=
  { s.setInfo id { info with nRefCount := 0 } with
    vvNew := fun b => (s.vvNew b).erase id, nNew := s.nNew - 1 }

/-- The entries of the tried buckets are known when a place is looked for. -/
theorem find_withoutNew (h : Inv env none s) (hfind : s.mapInfo.find id = some info)
    (hnew : info.fInTried = false) {i : Nat} (hi : i ∈ s.vvTried b) :
    ∃ x, s.mapInfo.find i = some x ∧ (s.withoutNew id info).mapInfo.find i = some x := by
  obtain ⟨x, hx, htried, -⟩ := h.find_of_mem_tried hi
  have hne : i ≠ id := by
    rintro rfl
    rw [hfind] at hx
    cases hx
    simp [hnew] at htried
  exact ⟨x, hx, by rw [withoutNew, setInfo, OrdMap.find_put_of_ne _ _ hne, hx]⟩

/-- **What `MakeTried` does to a full bucket**: the entry at the position that `SelectTried`
returns goes back to a bucket of new addresses, and the new entry takes its place. -/
theorem makeTried_full (h : Inv env none s) (c : Choices)
    (hfind : s.mapInfo.find id = some info) (hnew : info.fInTried = false) {nOrigin : Fin 256}
    (hmem : id ∈ s.vvNew nOrigin) (hb : env.getTriedBucket info.service = b)
    (hfull : ¬(s.vvTried b).length < bucketSize) :
    ∃ vTried nPos idOld infoOld b',
      (s.withoutNew id info).selectTried c b = .ok (vTried, some nPos) ∧
      vTried.Perm (s.vvTried b) ∧ vTried[nPos]? = some idOld ∧
      s.mapInfo.find idOld = some infoOld ∧ infoOld.fInTried = true ∧
      ((s.vvNew b').erase id).card < bucketSize ∧
      s.makeTried env c id nOrigin = .ok { s with
        mapInfo := ((s.mapInfo.put id { info with nRefCount := 0 }).put idOld
          { infoOld with fInTried := false, nRefCount := 1 }).put id
          { info with nRefCount := 0, fInTried := true }
        vvNew := Function.update (fun b => (s.vvNew b).erase id) b'
          (insert idOld ((s.vvNew b').erase id))
        vvTried := Function.update s.vvTried b (vTried.set nPos id) } := by
  have hcount := refCount_of_new h hfind hnew
  set s1 := s.withoutNew id info with hs1
  have hknown : ∀ i ∈ s1.vvTried b, s1.hasInfo i := by
    intro i hi
    obtain ⟨x, -, hx⟩ := find_withoutNew h hfind hnew hi
    exact hasInfo_of_find hx
  have hpos : 0 < (s.vvTried b).length := Nat.lt_of_lt_of_le (by decide) (Nat.not_lt.mp hfull)
  obtain ⟨vTried, nPos, hselect, hperm, hnPos⟩ := selectTried_spec (s := s1) c hknown hpos
  have hnPos' : nPos < vTried.length := hperm.length_eq ▸ hnPos
  have hat : vTried[nPos]? = some vTried[nPos] := List.getElem?_eq_getElem hnPos'
  have hmemOld : vTried[nPos] ∈ s.vvTried b := hperm.mem_iff.mp (List.getElem_mem _)
  obtain ⟨infoOld, hfindOld, hold, -⟩ := h.find_of_mem_tried hmemOld
  have hne : id ≠ vTried[nPos] := by
    intro heq
    rw [← heq, hfind] at hfindOld
    cases hfindOld
    simp [hnew] at hold
  have hroomOrigin : ((s.vvNew nOrigin).erase id).card < bucketSize := by
    have := h.newSize nOrigin
    have := Finset.card_pos.mpr ⟨id, hmem⟩
    rw [Finset.card_erase_of_mem hmem]
    omega
  obtain ⟨b', hroom', hreplace⟩ := @replaceTried_eq env
    { s1 with vvTried := Function.update s1.vvTried b vTried } id vTried[nPos]
    { info with nRefCount := 0 } infoOld b nOrigin nPos (by simp)
    (by simpa [hs1, withoutNew, setInfo, OrdMap.find_put_of_ne _ _ (Ne.symm hne)] using hfindOld)
    (by simp [hs1, withoutNew, setInfo]) hne hroomOrigin
  refine ⟨vTried, nPos, vTried[nPos], infoOld, b', hselect, hperm, hat, hfindOld, hold, hroom', ?_⟩
  simp only [makeTried, assertThat_of hmem, getInfo_of_find hfind, removeLoop_all, hcount, hb,
    setInfo, hfull, if_false, assertThat_of, bind, Except.bind]
  rw [withoutNew, setInfo] at hs1
  rw [← hs1, hselect]
  exact hreplace.trans (by simp [hs1, Function.update_idem])

theorem makeTried_spec (h : Inv env none s) (c : Choices) (hfind : s.mapInfo.find id = some info)
    (hnew : info.fInTried = false) (hsuccess : info.nLastSuccess ≠ 0) {nOrigin : Fin 256}
    (hmem : id ∈ s.vvNew nOrigin) :
    ∃ s', s.makeTried env c id nOrigin = .ok s' ∧ Inv env none s' := by
  have hcount := refCount_of_new h hfind hnew
  set b := env.getTriedBucket info.service with hb
  by_cases hroom : (s.vvTried b).length < bucketSize
  · refine ⟨_, ?_, h.place hfind hnew hsuccess hb.symm hroom⟩
    simp only [makeTried, assertThat_of hmem, getInfo_of_find hfind, removeLoop_all, hcount, ← hb,
      setInfo, hroom, if_true, assertThat_of, bind, Except.bind]
  · obtain ⟨vTried, nPos, idOld, infoOld, b', -, hperm, hat, hfindOld, hold, hroom', hmake⟩ :=
      makeTried_full h c hfind hnew hmem hb.symm hroom
    exact ⟨_, hmake, h.replace hfind hnew hsuccess hb.symm hperm hat hfindOld hold hroom'⟩

end CAddrMan

end Hivemind
