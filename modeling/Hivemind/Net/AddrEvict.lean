import Hivemind.Lib.Shuffle
import Hivemind.Net.AddrCheck

/-!
# Which tried address is evicted

`SelectTried` shuffles the first places of a full bucket, inspects the entries that come to them,
and returns the position at which it found the one that had its last success first.  The shuffle
has moved that entry on to its place by then.

The position is the one that was drawn from, and after the exchange another entry is there,
unless the draw exchanged nothing or a later turn brought the entry back.  So the entry that
`MakeTried` evicts, which is the one at the returned position, need not be among those that were
inspected.  The condition is on the draws alone.

* `selectTried_eq`: the bucket and the position that are returned.
* `OldestInspected`, `DrawnInPlace`: what was meant, and when the draws give it.
* `oldestInspected_iff`: when the entry at that position is the oldest that was inspected.
* `demotes_selected`: the entry at that position is the one that is demoted.
* `makeTried_demotes`: **both together.**
* `makeTried_demotes_uninspected`: a full bucket that loses an entry nobody looked at.
-/

namespace Hivemind

open Ordered Outcomes Buckets Shuffles

namespace CAddrMan

variable {env : AddrEnv} {s s' : CAddrMan} {id : Nat} {info : CAddrInfo} {b : Fin 64}

/-! ## `SelectTried` -/

/-- The position that turn `i` of `SelectTried` draws in a bucket of `n` entries. -/
def triedPos (c : Choices) (n i : Nat) : Nat := c.getRandInt (i + 1) (n - i) + i

/-- `nLastSuccess` of an entry. -/
def lastSuccess (s : CAddrMan) (id : Option Nat) : Int :=
  ((id.bind s.mapInfo.find).map CAddrInfo.nLastSuccess).getD 0

/-- The entry that turn `i` of `SelectTried` inspects. -/
def inspected (s : CAddrMan) (c : Choices) (b : Fin 64) (i : Nat) : Option Nat :=
  drawn (triedPos c (s.vvTried b).length) (s.vvTried b) i

/-- The entry is one of those that `SelectTried` inspects, and none of them is older. -/
def OldestInspected (s : CAddrMan) (c : Choices) (b : Fin 64) (id : Nat) : Prop :=
  (∃ i < 4, s.inspected c b i = some id) ∧
    ∀ i < 4, s.lastSuccess (some id) ≤ s.lastSuccess (s.inspected c b i)

theorem le_triedPos (c : Choices) (n i : Nat) : i ≤ triedPos c n i := Nat.le_add_left ..

theorem triedPos_lt (c : Choices) {n i : Nat} (hi : i < n) : triedPos c n i < n := by
  have := getRandInt_lt c (i + 1) (show 0 < n - i by omega)
  rw [triedPos]
  omega

theorem lastSuccess_of_find (h : s.mapInfo.find id = some info) :
    s.lastSuccess (some id) = info.nLastSuccess := by
  simp [lastSuccess, h]

/-- **What `SelectTried` returns**: the shuffled bucket, and the position that was drawn in
the first turn that inspected a least entry. -/
theorem selectTried_eq (c : Choices) (h : ∀ id ∈ s.vvTried b, s.hasInfo id)
    (hlen : 4 ≤ (s.vvTried b).length) :
    ∃ j, IsFirstLeast (fun i => s.lastSuccess (s.inspected c b i)) 4 j ∧
      s.selectTried c b = .ok (shuffle (triedPos c (s.vvTried b).length) (s.vvTried b) 4,
        some (triedPos c (s.vvTried b).length j)) := by
  set v := s.vvTried b with hv
  set draw := triedPos c v.length with hdraw
  obtain ⟨t, hloop, hshuffled, hleast⟩ := @forLoop_ok _ _ (s.selectTurn c) 4 (v, none)
    (fun i t => t.1 = shuffle draw v i ∧ (i = 0 → t.2 = none) ∧
      (0 < i → ∃ j x, IsFirstLeast (fun i => s.lastSuccess (s.inspected c b i)) i j ∧
        s.inspected c b j = some x ∧ t.2 = some (x, draw j)))
    ⟨rfl, fun _ => rfl, fun h => absurd h (Nat.lt_irrefl 0)⟩ (by
      rintro i hi ⟨w, old⟩ ⟨hw, hnone, hsome⟩
      simp only at hw hnone hsome
      have hi' : i < v.length := by omega
      have hpos : draw i < v.length := triedPos_lt c hi'
      have hlenw : w.length = v.length := by rw [hw, length_shuffle]
      obtain ⟨nTemp, hat⟩ : ∃ nTemp, w[draw i]? = some nTemp :=
        ⟨_, List.getElem?_eq_getElem (by omega)⟩
      obtain ⟨x, hat'⟩ : ∃ x, w[i]? = some x := ⟨_, List.getElem?_eq_getElem (by omega)⟩
      have hinspected : s.inspected c b i = some nTemp := by
        rw [inspected, ← hv, ← hdraw, drawn_eq hpos hi', ← hw, hat]
      have hmem : nTemp ∈ v :=
        (shuffle_perm draw v i).mem_iff.mp (hw ▸ List.mem_of_getElem? hat)
      have hknown := h nTemp hmem
      obtain ⟨infoTemp, hfind⟩ := Option.isSome_iff_exists.mp hknown
      have hturn : (w.set (draw i) x).set i nTemp = shuffle draw v (i + 1) := by
        rw [shuffle, ← hw, exchange_eq hat hat']
      have hnPos : c.getRandInt (i + 1) (w.length - i) + i = draw i := by rw [hlenw]; rfl
      simp only [selectTurn, hnPos, vectorAt_of hat, vectorAt_of hat',
        assertThat_of (show old = none ∨ s.hasInfo nTemp from Or.inr hknown), bind, Except.bind]
      rcases Nat.eq_zero_or_pos i with rfl | hlater
      · rw [hnone rfl]
        exact ⟨_, rfl, hturn, fun h => (by cases h),
          fun _ => ⟨0, nTemp, isFirstLeast_one _, hinspected, rfl⟩⟩
      · obtain ⟨j, nOldest, hfirst, hoj, rfl⟩ := hsome hlater
        have hmemOld : nOldest ∈ v := by
          rw [inspected, drawn] at hoj
          exact (shuffle_perm _ _ _).mem_iff.mp (List.mem_of_getElem? hoj)
        obtain ⟨infoOld, hfindOld⟩ := Option.isSome_iff_exists.mp (h nOldest hmemOld)
        have hsucc := hfirst.succ
        simp only [hinspected, hoj, lastSuccess_of_find hfind,
          lastSuccess_of_find hfindOld] at hsucc
        simp only [getInfo_of_find hfind, getInfo_of_find hfindOld]
        split_ifs at hsucc ⊢
        · exact ⟨_, rfl, hturn, fun h => (by cases h),
            fun _ => ⟨i, nTemp, hsucc, hinspected, rfl⟩⟩
        · exact ⟨_, rfl, hturn, fun h => (by cases h),
            fun _ => ⟨j, nOldest, hsucc, hoj, rfl⟩⟩)
  obtain ⟨j, x, hfirst, -, hold⟩ := hleast.2 (by norm_num)
  refine ⟨j, hfirst, ?_⟩
  simp only [selectTried, ← hv, Nat.min_eq_left hlen, hloop, hshuffled, hold, bind, Except.bind,
    Option.map_some]

/-! ## The entry at the returned position -/

/-- In the first turn that inspected a least entry, that entry was drawn from one of the first
places, and the entry that is at this place in the end is as old. -/
def DrawnInPlace (s : CAddrMan) (c : Choices) (b : Fin 64) : Prop :=
  ∀ j, IsFirstLeast (fun i => s.lastSuccess (s.inspected c b i)) 4 j →
    triedPos c (s.vvTried b).length j < 4 ∧
      s.lastSuccess (s.inspected c b (triedPos c (s.vvTried b).length j)) ≤
        s.lastSuccess (s.inspected c b j)

/-- The position at which the least entry was found holds an oldest one exactly when that
entry was drawn in place. -/
theorem oldestInspected_iff (c : Choices) {j victim : Nat} (hnodup : (s.vvTried b).Nodup)
    (hj : IsFirstLeast (fun i => s.lastSuccess (s.inspected c b i)) 4 j)
    (hat : (shuffle (triedPos c (s.vvTried b).length) (s.vvTried b) 4)[
      triedPos c (s.vvTried b).length j]? = some victim) :
    s.OldestInspected c b victim ↔ s.DrawnInPlace c b := by
  set draw := triedPos c (s.vvTried b).length with hdraw
  have hplace : ∀ i < 4, (shuffle draw (s.vvTried b) 4)[i]? = s.inspected c b i :=
    fun i hi => getElem?_shuffle (le_triedPos c _) _ hi
  constructor
  · rintro ⟨⟨i, hi, hvictim⟩, hleast⟩ k hk
    obtain rfl := hk.unique hj
    -- an entry of the bucket is there once, so the victim was inspected in the turn of its place
    have heq : draw k = i := by
      have hdistinct := (shuffle_perm draw (s.vvTried b) 4).nodup_iff.mpr hnodup
      have hlt := (List.getElem?_eq_some_iff.mp hat).1
      rw [← hplace i hi] at hvictim
      exact (List.getElem?_inj hlt hdistinct).mp (hat.trans hvictim.symm)
    rw [← hdraw, heq, hvictim]
    exact ⟨hi, hleast k hk.1⟩
  · intro h
    obtain ⟨hlt, hle⟩ := h j hj
    rw [← hdraw] at hlt hle
    rw [hplace _ hlt] at hat
    rw [hat] at hle
    exact ⟨⟨draw j, hlt, hat⟩, fun i hi => hle.trans (hj.2.2 i hi)⟩

/-! ## `MakeTried` -/

/-- Of the entries in tried buckets `victim` is the one that is in none afterwards, and it has
gone back to a bucket of new addresses. -/
def Demotes (s s' : CAddrMan) (victim : Nat) : Prop :=
  (∀ x, ((∃ b, x ∈ s.vvTried b) ∧ ¬∃ b, x ∈ s'.vvTried b) ↔ x = victim) ∧
    ∃ b, victim ∈ s'.vvNew b

theorem Inv.bucket_unique (h : Inv env none s) {b b' : Fin 64} (hb : id ∈ s.vvTried b)
    (hb' : id ∈ s.vvTried b') : b = b' := by
  rw [h.tried.mem_iff] at hb hb'
  exact Option.some.inj (hb.symm.trans hb')

theorem Inv.hasInfo_tried (h : Inv env none s) : ∀ i ∈ s.vvTried b, s.hasInfo i := by
  intro i hi
  obtain ⟨x, hx, -⟩ := h.find_of_mem_tried hi
  exact hasInfo_of_find hx

/-- One entry of a bucket gives its place to another. -/
theorem Inv.demotes (h : Inv env none s) {vTried : List Nat} {nPos idOld : Nat}
    (hperm : vTried.Perm (s.vvTried b)) (hat : vTried[nPos]? = some idOld) (hne : id ≠ idOld)
    (hvvTried : s'.vvTried = Function.update s.vvTried b (vTried.set nPos id))
    (hback : ∃ b, idOld ∈ s'.vvNew b) : s.Demotes s' idOld := by
  obtain ⟨hlt, rfl⟩ := List.getElem?_eq_some_iff.mp hat
  set idOld := vTried[nPos]
  set rest := vTried.eraseIdx nPos
  have hcons : (s.vvTried b).Perm (idOld :: rest) :=
    hperm.symm.trans (List.getElem_cons_eraseIdx_perm hlt).symm
  have hset : (s'.vvTried b).Perm (id :: rest) := by
    rw [hvvTried, Function.update_self]
    exact List.set_perm_cons_eraseIdx hlt id
  have hother : ∀ b', b' ≠ b → s'.vvTried b' = s.vvTried b' := by
    intro b' hb'
    rw [hvvTried, Function.update_of_ne hb']
  have hold : idOld ∈ s.vvTried b := hcons.mem_iff.mpr List.mem_cons_self
  have hgone : idOld ∉ rest :=
    (List.nodup_cons.mp (hcons.nodup_iff.mp (h.tried.nodup b))).1
  refine ⟨fun x => ⟨?_, ?_⟩, hback⟩
  · rintro ⟨⟨b', hx⟩, hnot⟩
    have hb' : b' = b := by
      by_contra hb'
      exact hnot ⟨b', hother b' hb' ▸ hx⟩
    subst hb'
    rcases List.mem_cons.mp (hcons.mem_iff.mp hx) with hx | hx
    · exact hx
    · exact absurd ⟨b', hset.mem_iff.mpr (List.mem_cons_of_mem _ hx)⟩ hnot
  · rintro rfl
    refine ⟨⟨b, hold⟩, ?_⟩
    rintro ⟨b', hx⟩
    by_cases hb' : b' = b
    · subst hb'
      rcases List.mem_cons.mp (hset.mem_iff.mp hx) with hx | hx
      · exact hne hx.symm
      · exact hgone hx
    · rw [hother b' hb'] at hx
      exact hb' (h.bucket_unique hx hold)

theorem lastSuccess_withoutNew (h : Inv env none s) (hfind : s.mapInfo.find id = some info)
    (hnew : info.fInTried = false) (c : Choices) (i : Nat) :
    (s.withoutNew id info).lastSuccess ((s.withoutNew id info).inspected c b i) =
      s.lastSuccess (s.inspected c b i) := by
  have hsame : (s.withoutNew id info).inspected c b i = s.inspected c b i := rfl
  rw [hsame]
  cases hx : s.inspected c b i with
  | none => rfl
  | some x =>
      have hmem : x ∈ s.vvTried b := by
        rw [inspected, drawn] at hx
        exact (shuffle_perm _ _ _).mem_iff.mp (List.mem_of_getElem? hx)
      obtain ⟨infoTried, hfindTried, hfindTried'⟩ := find_withoutNew h hfind hnew hmem
      rw [lastSuccess_of_find hfindTried, lastSuccess_of_find hfindTried']

/-- What `SelectTried` returns does not depend on the entry that is to be put into the bucket. -/
theorem selectTried_withoutNew (h : Inv env none s) (hfind : s.mapInfo.find id = some info)
    (hnew : info.fInTried = false) (c : Choices) (hlen : 4 ≤ (s.vvTried b).length) :
    (s.withoutNew id info).selectTried c b = s.selectTried c b := by
  have hknown' : ∀ i ∈ (s.withoutNew id info).vvTried b, (s.withoutNew id info).hasInfo i := by
    intro i hi
    obtain ⟨x, -, hx⟩ := find_withoutNew h hfind hnew hi
    exact hasInfo_of_find hx
  obtain ⟨j, hj, hselect⟩ := selectTried_eq c h.hasInfo_tried hlen
  obtain ⟨k, hk, hselect'⟩ := selectTried_eq (s := s.withoutNew id info) c hknown' hlen
  obtain rfl : k = j :=
    (hk.congr fun i _ => lastSuccess_withoutNew h hfind hnew c i).unique hj
  rw [hselect, hselect']
  rfl

/-- `MakeTried` demotes the entry at the position that `SelectTried` returns. -/
theorem demotes_selected (h : Inv env none s) (hfull : (s.vvTried b).length = bucketSize)
    {c : Choices} {vTried : List Nat} {nPos victim : Nat}
    (hselect : s.selectTried c b = .ok (vTried, some nPos)) (hat : vTried[nPos]? = some victim)
    {nOrigin : Fin 256} (hfind : s.mapInfo.find id = some info) (hnew : info.fInTried = false)
    (hmem : id ∈ s.vvNew nOrigin) (hb : env.getTriedBucket info.service = b) :
    ∃ s', s.makeTried env c id nOrigin = .ok s' ∧ s.Demotes s' victim := by
  have hlen : 4 ≤ (s.vvTried b).length := by rw [hfull]; norm_num
  obtain ⟨vTried', nPos', idOld, infoOld, b', hselect', hperm, hatOld, hfindOld, hold, -, hmake⟩ :=
    makeTried_full h c hfind hnew hmem hb (by rw [hfull]; exact Nat.lt_irrefl _)
  rw [selectTried_withoutNew h hfind hnew c hlen, hselect] at hselect'
  cases hselect'
  rw [hat] at hatOld
  cases hatOld
  have hne : id ≠ victim := by
    rintro rfl
    rw [hfind] at hfindOld
    cases hfindOld
    simp [hnew] at hold
  exact ⟨_, hmake, h.demotes hperm hat hne rfl ⟨b', by simp⟩⟩

/-- **The eviction demotes the oldest of the inspected entries, and no other, exactly when
that entry was drawn in place**; otherwise the position is that of another entry by then. -/
theorem makeTried_demotes (h : Inv env none s) (hfull : (s.vvTried b).length = bucketSize)
    (c : Choices) :
    ∃ vTried nPos, s.selectTried c b = .ok (vTried, some nPos) ∧
      ((∃ victim, vTried[nPos]? = some victim ∧ s.OldestInspected c b victim ∧
        ∀ id info nOrigin, s.mapInfo.find id = some info → info.fInTried = false →
          id ∈ s.vvNew nOrigin → env.getTriedBucket info.service = b →
          ∃ s', s.makeTried env c id nOrigin = .ok s' ∧ s.Demotes s' victim) ↔
        s.DrawnInPlace c b) := by
  have hlen : 4 ≤ (s.vvTried b).length := by rw [hfull]; norm_num
  obtain ⟨j, hj, hselect⟩ := selectTried_eq c h.hasInfo_tried hlen
  refine ⟨_, _, hselect, ?_⟩
  constructor
  · rintro ⟨victim, hat, holdest, -⟩
    exact (oldestInspected_iff c (h.tried.nodup b) hj hat).mp holdest
  · intro hplace
    have hlt : triedPos c (s.vvTried b).length j <
        (shuffle (triedPos c (s.vvTried b).length) (s.vvTried b) 4).length := by
      have := hj.1
      rw [length_shuffle]
      exact triedPos_lt c (by omega)
    obtain ⟨victim, hat⟩ : ∃ victim, (shuffle (triedPos c (s.vvTried b).length) (s.vvTried b) 4)[
        triedPos c (s.vvTried b).length j]? = some victim := ⟨_, List.getElem?_eq_getElem hlt⟩
    refine ⟨victim, hat, (oldestInspected_iff c (h.tried.nodup b) hj hat).mpr hplace, ?_⟩
    intro id info nOrigin hfind hnew hmem hb
    exact demotes_selected h hfull hselect hat hfind hnew hmem hb

/-! ## A full bucket -/

def numberedAddr (n : Nat) : CAddress := ⟨⟨Blob.fill (UInt8.ofNat n), 8333⟩, 1, 1000⟩

/-- Entry `n`, that had its last success in second `n + 1`. -/
def triedInfo (n : Nat) : CAddrInfo where
  service := (numberedAddr n).service
  nServices := 1
  nTime := 1000
  source := Blob.null
  nLastSuccess := n + 1
  fInTried := true
  nRandomPos := n

@[simp] theorem getTriedBucket_oneBucket (a : CService) : oneBucket.getTriedBucket a = 0 := rfl

@[simp] theorem getNewBucket_oneBucket (a src : CNetAddr) : oneBucket.getNewBucket a src = 0 := rfl

/-- One entry more in its tried bucket. -/
def pushTried (s : CAddrMan) : CAddrMan :=
  let b := oneBucket.getTriedBucket (triedInfo s.nIdCount).service
  { s.create (numberedAddr s.nIdCount) Blob.null with
    mapInfo := s.mapInfo.put s.nIdCount (triedInfo s.nIdCount)
    nTried := s.nTried + 1
    vvTried := Function.update s.vvTried b (s.vvTried b ++ [s.nIdCount]) }

def triedManager : Nat → CAddrMan
  | 0 => {}
  | n + 1 => (triedManager n).pushTried

theorem numberedAddr_inj {n m : Nat} (hn : n < 256) (hm : m < 256)
    (h : (numberedAddr n).service.ip = (numberedAddr m).service.ip) : n = m := by
  have hbyte : UInt8.ofNat n = UInt8.ofNat m := by
    have hval := congrArg Subtype.val h
    simpa [numberedAddr, Blob.fill, List.replicate_succ] using hval
  have := congrArg UInt8.toNat hbyte
  simp only [UInt8.toNat_ofNat'] at this
  omega

/-- What is in the manager. -/
structure Numbered (n : Nat) (s : CAddrMan) : Prop where
  nIdCount : s.nIdCount = n
  vRandom : s.vRandom.length = n
  vvTried : s.vvTried 0 = List.range n
  vvNew : s.vvNew = fun _ => ∅
  find : ∀ i, s.mapInfo.find i = if i < n then some (triedInfo i) else none

theorem numbered_triedManager (n : Nat) : Numbered n (triedManager n) := by
  induction n with
  | zero => exact ⟨rfl, rfl, rfl, rfl, fun i => rfl⟩
  | succ n ih =>
      constructor
      case nIdCount => simp [triedManager, pushTried, create, ih.nIdCount]
      case vRandom => simp [triedManager, pushTried, create, ih.vRandom]
      case vvTried =>
        simp [triedManager, pushTried, create, ih.vvTried, ih.nIdCount, List.range_succ]
      case vvNew => exact ih.vvNew
      case find =>
        intro i
        simp only [triedManager, pushTried, OrdMap.find_put, ih.nIdCount, ih.find]
        split_ifs with heq <;> first | rw [heq] | omega | rfl

/-- The address of the next entry is not there yet. -/
theorem Numbered.find_addr {n : Nat} (hnum : Numbered n s) (h : Linked s) (hn : n < 256) :
    s.mapAddr.find (numberedAddr s.nIdCount).service.ip = none := by
  cases hfound : s.mapAddr.find (numberedAddr s.nIdCount).service.ip with
  | none => rfl
  | some i =>
      obtain ⟨info, hinfo, haddr⟩ := find_of_view ((h.addr _ _).mp hfound)
      rw [hnum.find] at hinfo
      split_ifs at hinfo with hi
      cases hinfo
      rw [hnum.nIdCount] at haddr
      have := numberedAddr_inj (hi.trans hn) hn (Option.some.inj haddr)
      omega

theorem inv_triedManager {n : Nat} (hn : n ≤ bucketSize) : Inv oneBucket none (triedManager n) := by
  induction n with
  | zero => exact inv_empty
  | succ n ih =>
      have h := ih (by omega)
      have hnum := numbered_triedManager n
      set s := triedManager n with hs
      have hfresh : s.mapInfo.find s.nIdCount = none := h.fresh _ (le_refl _)
      have hnone := hnum.find_addr h.toLinked (hn.trans (by decide))
      have hpos : (triedInfo s.nIdCount).nRandomPos = s.vRandom.length := by
        simp [triedInfo, hnum.nIdCount, hnum.vRandom]
      have hlinked := h.toLinked.created Blob.null hnone hpos rfl
      have hok : (triedInfo s.nIdCount).Ok :=
        ⟨le_refl _, by simp only [triedInfo]; omega,
          fun _ => ⟨by simp only [triedInfo]; omega, rfl⟩, fun hnew => by simp [triedInfo] at hnew⟩
      rw [triedManager, ← hs]
      constructor
      case toLinked => exact ⟨hlinked.random, hlinked.addr, hlinked.fresh⟩
      case infos => exact infos_put h.infos hok
      case tried =>
        have hplace : CAddrInfo.place oneBucket (triedInfo s.nIdCount) = some 0 := rfl
        have hfiled := (h.tried.insert (view_of_find_none hfresh) (b := 0)).reorder (b := 0)
          (l := s.vvTried 0 ++ [s.nIdCount]) (by simp)
        rw [Function.update_idem] at hfiled
        simpa [pushTried, view_put, hplace] using hfiled
      case triedSize =>
        intro b
        by_cases hb : b = 0
        · subst hb
          simpa [pushTried, hnum.vvTried] using hn
        · simpa [pushTried, hb] using h.triedSize b
      case new =>
        have hrefs : CAddrInfo.refs (triedInfo s.nIdCount) = none := rfl
        simp only [pushTried, view_put, hrefs]
        rw [← view_of_find_none (f := CAddrInfo.refs) hfresh, Function.update_eq_self]
        exact h.new
      case newSize => exact h.newSize
      case pendingKnown => simp
      case nTried =>
        have hsum := totalLength_update s.vvTried 0 (s.vvTried 0 ++ [s.nIdCount])
        have := h.nTried
        simp only [List.length_append, List.length_singleton] at hsum
        simp only [pushTried, getTriedBucket_oneBucket]
        omega
      case size =>
        have := h.size
        simp only [pushTried, create, List.length_append, List.length_singleton]
        omega

/-- An entry that has not been tried is in the manager as well. -/
def pushNew (s : CAddrMan) : CAddrMan :=
  { s.create (numberedAddr s.nIdCount) Blob.null with
    mapInfo := s.mapInfo.put s.nIdCount
      { triedInfo s.nIdCount with fInTried := false, nRefCount := 1 }
    nNew := s.nNew + 1 }.insertNew
      (oneBucket.getNewBucket (triedInfo s.nIdCount).service.ip Blob.null) s.nIdCount

/-- A manager whose first tried bucket is full, with an entry that may be put into it. -/
def fullManager : CAddrMan := (triedManager bucketSize).pushNew

theorem inv_fullManager : Inv oneBucket none fullManager := by
  have h := inv_triedManager (le_refl bucketSize)
  have hnum := numbered_triedManager bucketSize
  refine (h.created (hnum.find_addr h.toLinked (by decide)) ?_ rfl rfl rfl ?_).settle ?_ ?_
  · simp [triedInfo, hnum.nIdCount, hnum.vRandom]
  · refine ⟨le_refl _, ?_, fun htried => ?_, fun _ => by simp⟩
    · simp only [triedInfo]
      omega
    · simp at htried
  · simp [create, hnum.vvNew]
  · simp [create, hnum.vvNew]

theorem vvTried_fullManager : fullManager.vvTried 0 = List.range bucketSize :=
  (numbered_triedManager bucketSize).vvTried

theorem lastSuccess_fullManager {i : Nat} (hi : i < bucketSize) :
    fullManager.lastSuccess (some i) = i + 1 := by
  have hnum := numbered_triedManager bucketSize
  have hfind : fullManager.mapInfo.find i = some (triedInfo i) := by
    simp only [fullManager, pushNew, insertNew, hnum.nIdCount]
    rw [OrdMap.find_put_of_ne _ _ hi.ne, hnum.find, if_pos hi]
  rw [lastSuccess_of_find hfind, triedInfo]

/-- Every turn draws its own place. -/
theorem makeTried_demotes_in_place :
    ∃ vTried nPos victim, fullManager.selectTried ⟨fun _ => 0, fun _ => 0⟩ 0 =
        .ok (vTried, some nPos) ∧ vTried[nPos]? = some victim ∧
      fullManager.OldestInspected ⟨fun _ => 0, fun _ => 0⟩ 0 victim ∧
      ∀ id info nOrigin, fullManager.mapInfo.find id = some info → info.fInTried = false →
        id ∈ fullManager.vvNew nOrigin → oneBucket.getTriedBucket info.service = 0 →
        ∃ s', fullManager.makeTried oneBucket ⟨fun _ => 0, fun _ => 0⟩ id nOrigin = .ok s' ∧
          fullManager.Demotes s' victim := by
  have hplace : fullManager.DrawnInPlace ⟨fun _ => 0, fun _ => 0⟩ 0 := by
    intro j hj
    have hpos : triedPos ⟨fun _ => 0, fun _ => 0⟩ (fullManager.vvTried 0).length j = j := by
      simp [triedPos, Choices.getRandInt]
    rw [hpos]
    exact ⟨hj.1, le_refl _⟩
  obtain ⟨vTried, nPos, hselect, hiff⟩ := makeTried_demotes inv_fullManager
    (by rw [vvTried_fullManager, List.length_range]) ⟨fun _ => 0, fun _ => 0⟩
  obtain ⟨victim, hvictim⟩ := hiff.mpr hplace
  exact ⟨vTried, nPos, victim, hselect, hvictim⟩

/-- The turns draw places 10, 20, 30 and 40. -/
def tenthPlaces : Choices := ⟨fun k => 9 * k + 1, fun _ => 0⟩

/-- The entries 10, 20, 30 and 40 are inspected, and entry 0 is demoted, as it is at place 10
by then. -/
theorem makeTried_demotes_uninspected :
    ∃ vTried nPos victim, fullManager.selectTried tenthPlaces 0 = .ok (vTried, some nPos) ∧
      vTried[nPos]? = some victim ∧ ¬ fullManager.OldestInspected tenthPlaces 0 victim ∧
      ∃ s', fullManager.makeTried oneBucket tenthPlaces bucketSize 0 = .ok s' ∧
        fullManager.Demotes s' victim := by
  have hinspected : ∀ i < 4, fullManager.inspected tenthPlaces 0 i = some (10 * i + 10) := by
    intro i hi
    rw [inspected, vvTried_fullManager]
    interval_cases i <;> decide +kernel
  have hfirst : IsFirstLeast
      (fun i => fullManager.lastSuccess (fullManager.inspected tenthPlaces 0 i)) 4 0 := by
    refine ⟨by norm_num, fun i hi => absurd hi (Nat.not_lt_zero i), fun i hi => ?_⟩
    simp only [hinspected i hi, hinspected 0 (by norm_num)]
    rw [lastSuccess_fullManager (by unfold bucketSize; omega),
      lastSuccess_fullManager (by unfold bucketSize; omega)]
    omega
  obtain ⟨j, hj, hselect⟩ := selectTried_eq tenthPlaces inv_fullManager.hasInfo_tried
    (by rw [vvTried_fullManager]; decide)
  obtain rfl := hj.unique hfirst
  have hat : (shuffle (triedPos tenthPlaces (fullManager.vvTried 0).length)
      (fullManager.vvTried 0) 4)[triedPos tenthPlaces (fullManager.vvTried 0).length 0]? =
      some 0 := by
    rw [vvTried_fullManager]
    decide +kernel
  refine ⟨_, _, 0, hselect, hat, ?_, ?_⟩
  · rintro ⟨⟨i, hi, hvictim⟩, -⟩
    rw [hinspected i hi] at hvictim
    cases hvictim
  · have hnum := numbered_triedManager bucketSize
    have hfind : fullManager.mapInfo.find bucketSize =
        some { triedInfo bucketSize with fInTried := false, nRefCount := 1 } := by
      simp [fullManager, pushNew, insertNew, hnum.nIdCount]
    have hmem : bucketSize ∈ fullManager.vvNew 0 := by
      simp [fullManager, pushNew, insertNew, hnum.nIdCount]
    exact demotes_selected inv_fullManager (by rw [vvTried_fullManager, List.length_range])
      hselect hat hfind rfl hmem rfl

end CAddrMan
end Hivemind
