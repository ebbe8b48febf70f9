import Hivemind.Net.AddrRun

/-!
# Times of the address manager

Where the callers pass times of 64 bits, the time of the last success of every entry is one.

The entries are written to the disk with 64-bit times, and the manager in memory has them as
integers; what is read back is what was written only if the times fit.  `Good_` is the one call
that notes a last success, with the time that it is given, and the other calls and the reader
take what is there.  So the bound is an invariant of its own, beside the one about the parts of
the manager, which does not look at times.

* `AddrOp.Timed`: the time that `Good_` notes fits into 64 bits.
* `Timed`: every last success is a time of 64 bits.
* `Timed.change`: a change of an entry in something else.
* `call_timed`: **a call keeps the times in 64 bits.**
-/

namespace Hivemind

open Ordered Outcomes

/-- The time that `Good_` notes fits into 64 bits. -/
def AddrOp.Timed : AddrOp → Prop
  | .good _ nTime => nTime < 2 ^ 63
  | _ => True

namespace CAddrMan

variable {env : AddrEnv} {c : Choices} {s s' : CAddrMan} {id : Nat} {info info' : CAddrInfo}

/-- Every last success is a time of 64 bits. -/
def Timed (s : CAddrMan) : Prop :=
  ∀ id info, s.mapInfo.find id = some info → info.nLastSuccess < 2 ^ 63

theorem find_of_getInfo (h : s.getInfo id = .ok info) : s.mapInfo.find id = some info := by
  unfold getInfo at h
  cases hfind : s.mapInfo.find id with
  | none => simp [hfind] at h
  | some x => simpa [hfind] using h

namespace Timed

theorem empty : Timed {} := fun id info h => by simp at h

theorem of_getInfo (h : Timed s) (hget : s.getInfo id = .ok info) : info.nLastSuccess < 2 ^ 63 :=
  h id info (find_of_getInfo hget)

theorem setInfo (h : Timed s) (hinfo : info.nLastSuccess < 2 ^ 63) :
    Timed (s.setInfo id info) := by
  intro i x hx
  simp only [CAddrMan.setInfo, OrdMap.find_put] at hx
  split_ifs at hx
  · obtain rfl := Option.some.inj hx
    exact hinfo
  · exact h i x hx

/-- A change of an entry in something else. -/
theorem change (h : Timed s) (hget : s.getInfo id = .ok info)
    (hsame : info'.nLastSuccess = info.nLastSuccess) : Timed (s.setInfo id info') :=
  h.setInfo (hsame ▸ h.of_getInfo hget)

theorem of_mapInfo (h : Timed s) (hmap : s'.mapInfo = s.mapInfo) : Timed s' := by
  rw [Timed, hmap]
  exact h

theorem swapRandom (h : Timed s) {p q : Nat} (hswap : s.swapRandom p q = .ok s') : Timed s' := by
  unfold CAddrMan.swapRandom at hswap
  split_ifs at hswap
  · obtain rfl := Except.ok.inj hswap
    exact h
  · simp only [bind_eq_ok] at hswap
    obtain ⟨_, _, id1, _, id2, _, _, _, _, _, info1, hinfo1, info2, hinfo2, heq⟩ := hswap
    obtain rfl := Except.ok.inj heq
    have hfirst : Timed (s.setInfo id1 { info1 with nRandomPos := q }) :=
      h.change hinfo1 rfl
    have hsecond : Timed ((s.setInfo id1 { info1 with nRandomPos := q }).setInfo id2
        { info2 with nRandomPos := p }) := hfirst.change hinfo2 rfl
    exact hsecond.of_mapInfo rfl

theorem unref (h : Timed s) (hunref : s.unref id = .ok s') : Timed s' := by
  simp only [CAddrMan.unref, bind_eq_ok] at hunref
  obtain ⟨info, hinfo, hrest⟩ := hunref
  have hset : Timed (s.setInfo id { info with nRefCount := info.nRefCount - 1 }) :=
    h.change hinfo rfl
  split_ifs at hrest
  · simp only [bind_eq_ok] at hrest
    obtain ⟨s1, hswap, heq⟩ := hrest
    obtain rfl := Except.ok.inj heq
    intro i x hx
    simp only [OrdMap.find_erase] at hx
    split_ifs at hx
    exact hset.swapRandom hswap i x hx
  · obtain rfl := Except.ok.inj hrest
    exact hset

theorem shrinkNew (h : Timed s) {b : Fin 256} (hshrink : s.shrinkNew c b = .ok s') :
    Timed s' := by
  simp only [CAddrMan.shrinkNew, bind_eq_ok] at hshrink
  obtain ⟨found, -, hrest⟩ := hshrink
  cases found with
  | some id =>
      simp only [bind_eq_ok] at hrest
      obtain ⟨s1, hunref, heq⟩ := hrest
      obtain rfl := Except.ok.inj heq
      exact (h.unref hunref).of_mapInfo rfl
  | none =>
      simp only [bind_eq_ok] at hrest
      obtain ⟨oldest, -, hrest⟩ := hrest
      cases oldest with
      | none => cases hrest
      | some id =>
          simp only [bind_eq_ok] at hrest
          obtain ⟨_, _, s1, hunref, heq⟩ := hrest
          obtain rfl := Except.ok.inj heq
          exact (h.unref hunref).of_mapInfo rfl

theorem replaceTried (h : Timed s) {nOrigin : Fin 256} {b : Fin 64} {nPos : Nat}
    (hreplace : s.replaceTried env id nOrigin b nPos = .ok s') : Timed s' := by
  simp only [CAddrMan.replaceTried, bind_eq_ok] at hreplace
  obtain ⟨idOld, _, _, _, infoOld, hinfoOld, info, hinfo, heq⟩ := hreplace
  obtain rfl := Except.ok.inj heq
  have hold : Timed (s.setInfo idOld { infoOld with fInTried := false, nRefCount := 1 }) :=
    h.change hinfoOld rfl
  refine Timed.of_mapInfo (Timed.setInfo ?_ ?_) rfl
  · split_ifs <;> exact hold.of_mapInfo rfl
  · split_ifs at hinfo <;> exact hold id info (find_of_getInfo hinfo)

theorem makeTried (h : Timed s) {nOrigin : Fin 256}
    (hmake : s.makeTried env c id nOrigin = .ok s') : Timed s' := by
  simp only [CAddrMan.makeTried, bind_eq_ok] at hmake
  obtain ⟨_, _, info, hinfo, _, _, hrest⟩ := hmake
  generalize removeLoop id (List.finRange 256) (s.vvNew, info.nRefCount) = r at hrest
  have hlast : info.nLastSuccess < 2 ^ 63 := h.of_getInfo hinfo
  have hset : Timed (s.setInfo id { info with nRefCount := r.2 }) := h.change hinfo rfl
  split_ifs at hrest
  · obtain rfl := Except.ok.inj hrest
    have htried : Timed ((s.setInfo id { info with nRefCount := r.2 }).setInfo id
        { info with nRefCount := r.2, fInTried := true }) := hset.setInfo hlast
    exact htried.of_mapInfo rfl
  · obtain ⟨selected, -, hreplace⟩ := bind_eq_ok.mp hrest
    obtain ⟨vTried, nPos⟩ := selected
    cases nPos with
    | none => cases hreplace
    | some nPos =>
        refine Timed.replaceTried ?_ hreplace
        exact hset.of_mapInfo rfl

theorem addToNew (h : Timed s) {source : CNetAddr}
    (hadd : s.addToNew env c id source = .ok s') : Timed s' := by
  simp only [CAddrMan.addToNew, bind_eq_ok] at hadd
  obtain ⟨info, hinfo, hrest⟩ := hadd
  have hset : Timed (s.setInfo id { info with nRefCount := info.nRefCount + 1 }) :=
    h.change hinfo rfl
  split_ifs at hrest
  · obtain rfl := Except.ok.inj hrest
    exact h
  · obtain ⟨s1, hshrink, heq⟩ := bind_eq_ok.mp hrest
    obtain rfl := Except.ok.inj heq
    exact (hset.shrinkNew hshrink).of_mapInfo rfl
  · obtain ⟨s1, hsame, heq⟩ := bind_eq_ok.mp hrest
    obtain rfl := Except.ok.inj heq
    obtain rfl := Except.ok.inj hsame
    exact hset.of_mapInfo rfl

theorem good (h : Timed s) {addr : CService} {nTime : Int} (htime : nTime < 2 ^ 63)
    (hgood : s.good env c addr nTime = .ok s') : Timed s' := by
  unfold CAddrMan.good at hgood
  cases hfound : s.findAddr addr.ip with
  | none =>
      simp only [hfound] at hgood
      obtain rfl := Except.ok.inj hgood
      exact h
  | some found =>
      obtain ⟨id, info⟩ := found
      simp only [hfound] at hgood
      have hset : Timed (s.setInfo id { info with
          nLastSuccess := nTime, nLastTry := nTime, nTime := toTime nTime, nAttempts := 0 }) :=
        h.setInfo htime
      split_ifs at hgood
      · obtain rfl := Except.ok.inj hgood
        exact h
      · obtain rfl := Except.ok.inj hgood
        exact hset
      · split at hgood
        · obtain rfl := Except.ok.inj hgood
          exact hset
        · exact hset.makeTried hgood

theorem add (h : Timed s) {addr : CAddress} {source : CNetAddr} {nTimePenalty : Int}
    {r : CAddrMan × Bool} (hadd : s.add env c addr source nTimePenalty = .ok r) : Timed r.1 := by
  unfold CAddrMan.add at hadd
  split_ifs at hadd
  · obtain rfl := Except.ok.inj hadd
    exact h
  · cases hfound : s.findAddr addr.service.ip with
    | some found =>
        obtain ⟨id, info⟩ := found
        obtain ⟨nTime, nServices, hrefresh⟩ := refresh_eq c addr nTimePenalty info
        simp only [hfound, hrefresh] at hadd
        have hset : Timed (s.setInfo id { info with nTime, nServices }) :=
          h.setInfo (h id info (findAddr_eq_some.mp hfound).2)
        split_ifs at hadd
        · obtain rfl := Except.ok.inj hadd
          exact hset
        · obtain rfl := Except.ok.inj hadd
          exact hset
        · obtain rfl := Except.ok.inj hadd
          exact hset
        · obtain rfl := Except.ok.inj hadd
          exact hset
        · obtain ⟨s1, hnew, rfl⟩ := map_eq_ok.mp hadd
          exact hset.addToNew hnew
    | none =>
        simp only [hfound, bind_eq_ok] at hadd
        obtain ⟨info, hinfo, hrest⟩ := hadd
        obtain ⟨s1, hnew, rfl⟩ := map_eq_ok.mp hrest
        have hcreate : Timed (s.create addr source) := by
          have hput : Timed (s.setInfo s.nIdCount
              { service := addr.service, nServices := addr.nServices, nTime := addr.nTime, source
                nRandomPos := s.vRandom.length }) := h.setInfo (by norm_num)
          exact hput.of_mapInfo rfl
        refine Timed.addToNew ?_ hnew
        have hset : Timed ((s.create addr source).setInfo s.nIdCount
            { info with nTime := toTime (max 0 (info.nTime.toNat - nTimePenalty)) }) :=
          hcreate.change hinfo rfl
        exact hset.of_mapInfo rfl

theorem attempt (h : Timed s) (addr : CService) (nTime : Int) :
    Timed (s.attempt addr nTime) := by
  unfold CAddrMan.attempt
  split
  · exact h
  · next id info hfound =>
      split_ifs
      · exact h
      · exact h.setInfo (h id info (findAddr_eq_some.mp hfound).2)

theorem connected (h : Timed s) (addr : CService) (nTime : Int) :
    Timed (s.connected addr nTime) := by
  unfold CAddrMan.connected
  split
  · exact h
  · next id info hfound =>
      split_ifs
      · exact h
      · exact h.setInfo (h id info (findAddr_eq_some.mp hfound).2)
      · exact h

theorem getAddr (h : Timed s) {r : CAddrMan × List CAddrInfo} (hget : s.getAddr c = .ok r) :
    Timed r.1 := by
  refine forLoop_inv (fun _ t => Timed t.1) hget h ?_
  intro n t t' ht hturn
  unfold getAddrTurn at hturn
  split_ifs at hturn
  · obtain rfl := Except.ok.inj hturn
    exact ht
  · simp only [bind_eq_ok] at hturn
    obtain ⟨s1, hswap, _, _, _, _, _, _, heq⟩ := hturn
    obtain rfl := Except.ok.inj heq
    exact ht.swapRandom hswap

end Timed

/-- **A call keeps the times in 64 bits.** -/
theorem call_timed {op : AddrOp × Choices} (h : Timed s) (hop : op.1.Timed)
    (hcall : call env s op = .ok s') : Timed s' := by
  obtain ⟨op, c⟩ := op
  cases op with
  | add addr source nTimePenalty =>
      obtain ⟨r, hr, rfl⟩ := map_eq_ok.mp hcall
      exact h.add hr
  | good addr nTime => exact h.good hop hcall
  | attempt addr nTime =>
      obtain rfl := Except.ok.inj hcall
      exact h.attempt addr nTime
  | connected addr nTime =>
      obtain rfl := Except.ok.inj hcall
      exact h.connected addr nTime
  | getAddr =>
      obtain ⟨r, hr, rfl⟩ := map_eq_ok.mp hcall
      exact h.getAddr hr

end CAddrMan

end Hivemind
