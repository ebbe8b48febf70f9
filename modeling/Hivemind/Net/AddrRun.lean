import Hivemind.Net.AddrTried

/-!
# The operations of the address manager

`Good_`, `Add_`, `Attempt_`, `Connected_` and `GetAddr_` succeed and keep the invariant, so that
every run of them does.

The first half of a call finds out whether the address is known, by the map of addresses and then
by its entry, and most calls on an unknown address do nothing.  `Add_` may create an entry, whose
first reference is announced before it goes into a bucket; between the two the invariant has it
as the pending entry.  `GetAddr_` shuffles the vector while it collects addresses, and changes
nothing but positions.

A call is given its random numbers and the clock; the run is over any list of calls with any such
choices, where the times that callers pass are not negative.

* `Inv.mapAddr_none`: an address that is not found is not in the map of addresses.
* `Inv.created`: a new entry, with its first reference announced.
* `AddrOp`, `run`: a call, and one call after the other from the empty manager.
* `run_spec`: **every run succeeds and keeps the invariant.**
-/

namespace Hivemind

open Ordered Outcomes Buckets

namespace CAddrMan

variable {env : AddrEnv} {s s' : CAddrMan} {id : Nat} {info : CAddrInfo}

/-! ## Known addresses -/

theorem findAddr_eq_some {a : CNetAddr} :
    s.findAddr a = some (id, info) ↔ s.mapAddr.find a = some id ∧ s.mapInfo.find id = some info := by
  simp only [findAddr, Option.bind_eq_bind, Option.bind_eq_some_iff]
  constructor
  · rintro ⟨id', hid, info', hinfo, ⟨⟩⟩
    exact ⟨hid, hinfo⟩
  · rintro ⟨hid, hinfo⟩
    exact ⟨id, hid, info, hinfo, rfl⟩

/-- An address that is not found is not in the map of addresses. -/
theorem Inv.mapAddr_none (h : Inv env none s) {a : CNetAddr} (hnone : s.findAddr a = none) :
    s.mapAddr.find a = none := by
  cases hid : s.mapAddr.find a with
  | none => rfl
  | some id =>
      obtain ⟨info, hfind, -⟩ := find_of_view ((h.addr a id).mp hid)
      have := findAddr_eq_some.mpr ⟨hid, hfind⟩
      rw [hnone] at this
      cases this

theorem mem_of_findBucket {nRnd : Nat} {b : Fin 256} (h : s.findBucket nRnd id = some b) :
    id ∈ s.vvNew b := by
  simpa using List.find?_some h

theorem good_spec (h : Inv env none s) (c : Choices) (addr : CService) {nTime : Int}
    (hTime : 0 < nTime) : ∃ s', s.good env c addr nTime = .ok s' ∧ Inv env none s' := by
  cases hfound : s.findAddr addr.ip with
  | none => exact ⟨s, by simp [good, hfound], h⟩
  | some found =>
      obtain ⟨id, info⟩ := found
      obtain ⟨-, hfind⟩ := findAddr_eq_some.mp hfound
      have hok := h.infos id info hfind
      set info' : CAddrInfo := { info with
        nLastSuccess := nTime, nLastTry := nTime, nTime := toTime nTime, nAttempts := 0 } with hinfo'
      have hinv : Inv env none (s.setInfo id info') := by
        refine h.touch hfind rfl rfl rfl rfl ⟨?_, ?_, ?_, hok.of_new⟩
        · exact hTime.le
        · exact hTime.le
        · exact fun htried => ⟨hTime.ne', (hok.of_tried htried).2⟩
      simp only [good, hfound, ← hinfo']
      split_ifs with hservice htried
      · exact ⟨s, rfl, h⟩
      · exact ⟨_, rfl, hinv⟩
      · cases hbucket : (s.setInfo id info').findBucket (c.getRandInt 0 256) id with
        | none => exact ⟨_, rfl, hinv⟩
        | some b =>
            exact makeTried_spec hinv c (show _ = some info' by simp [setInfo])
              (by simpa using htried) hTime.ne' (mem_of_findBucket hbucket)

theorem attempt_inv (h : Inv env none s) (addr : CService) {nTime : Int} (hTime : 0 ≤ nTime) :
    Inv env none (s.attempt addr nTime) := by
  cases hfound : s.findAddr addr.ip with
  | none => simpa [attempt, hfound] using h
  | some found =>
      obtain ⟨id, info⟩ := found
      obtain ⟨-, hfind⟩ := findAddr_eq_some.mp hfound
      have hok := h.infos id info hfind
      simp only [attempt, hfound]
      split_ifs
      · exact h
      · exact h.touch hfind rfl rfl rfl rfl ⟨hTime, hok.lastSuccess, hok.of_tried, hok.of_new⟩

theorem connected_inv (h : Inv env none s) (addr : CService) (nTime : Int) :
    Inv env none (s.connected addr nTime) := by
  cases hfound : s.findAddr addr.ip with
  | none => simpa [connected, hfound] using h
  | some found =>
      obtain ⟨id, info⟩ := found
      obtain ⟨-, hfind⟩ := findAddr_eq_some.mp hfound
      have hok := h.infos id info hfind
      simp only [connected, hfound]
      split_ifs
      · exact h
      · exact h.touch hfind rfl rfl rfl rfl
          ⟨hok.lastTry, hok.lastSuccess, hok.of_tried, hok.of_new⟩
      · exact h

/-! ## `Add_` -/

/-- Only the time and the services of a known address change. -/
theorem refresh_eq (c : Choices) (addr : CAddress) (nTimePenalty : Int) (info : CAddrInfo) :
    ∃ nTime nServices, refresh c addr nTimePenalty info = { info with nTime, nServices } := by
  simp only [refresh]
  split_ifs
  · exact ⟨_, _, rfl⟩
  · exact ⟨info.nTime, _, rfl⟩
  · exact ⟨_, _, rfl⟩
  · exact ⟨info.nTime, _, rfl⟩

theorem put_put (m : OrdMap Nat CAddrInfo) (id : Nat) (x y : CAddrInfo) :
    (m.put id x).put id y = m.put id y := by
  refine OrdMap.ext_find ?_
  intro k
  simp only [OrdMap.find_put]
  split_ifs <;> rfl

/-- A new entry at the end of the vector, with its address in the map. -/
theorem Linked.created (h : Linked s) {addr : CAddress} (source : CNetAddr)
    (hnone : s.mapAddr.find addr.service.ip = none) {info : CAddrInfo}
    (hpos : info.nRandomPos = s.vRandom.length) (hservice : info.service = addr.service) :
    Linked { s.create addr source with mapInfo := s.mapInfo.put s.nIdCount info } := by
  have hfresh : s.mapInfo.find s.nIdCount = none := h.fresh _ (le_refl _)
  have hid : ∀ a, s.mapAddr.find a ≠ some s.nIdCount := by
    intro a ha
    rw [h.addr, view_of_find_none hfresh] at ha
    cases ha
  constructor
  case random =>
    simp only [create, view_put, CAddrInfo.pos, hpos]
    exact h.random.push (view_of_find_none hfresh)
  case addr =>
    intro a id'
    simp only [create, view_put, CAddrInfo.addr, hservice, OrdMap.find_put]
    by_cases hid' : id' = s.nIdCount
    · subst hid'
      rw [Function.update_self]
      split_ifs with ha
      · simp [ha]
      · simp only [hid, Option.some.injEq, false_iff]
        exact fun heq => ha heq.symm
    · rw [Function.update_of_ne hid']
      split_ifs with ha
      · simp only [← h.addr, ha, hnone, Option.some.injEq, reduceCtorEq, iff_false]
        exact fun heq => hid' heq.symm
      · exact h.addr a id'
  case fresh =>
    intro id' hle
    simp only [create] at hle
    have hne : id' ≠ s.nIdCount := by omega
    simp only [OrdMap.find_put_of_ne _ _ hne]
    exact h.fresh id' (by omega)

/-- A new entry, with its first reference announced. -/
theorem Inv.created (h : Inv env none s) {addr : CAddress} {source : CNetAddr}
    (hnone : s.mapAddr.find addr.service.ip = none) {info : CAddrInfo}
    (hpos : info.nRandomPos = s.vRandom.length) (hservice : info.service = addr.service)
    (hnew : info.fInTried = false) (hrefs : info.nRefCount = 1) (hok : info.Ok) :
    Inv env (some s.nIdCount) { s.create addr source with
      mapInfo := s.mapInfo.put s.nIdCount info, nNew := s.nNew + 1 } := by
  have hfresh : s.mapInfo.find s.nIdCount = none := h.fresh _ (le_refl _)
  have hlinked := h.toLinked.created source hnone hpos hservice
  constructor
  case toLinked => exact ⟨hlinked.random, hlinked.addr, hlinked.fresh⟩
  case infos => exact infos_put h.infos hok
  case tried =>
    have hplace : CAddrInfo.place env info = none := by simp [CAddrInfo.place, hnew]
    simp only [view_put, hplace]
    rw [← view_of_find_none (f := CAddrInfo.place env) hfresh, Function.update_eq_self]
    exact h.tried
  case triedSize => exact h.triedSize
  case new =>
    have hrefs' : CAddrInfo.refs info = some 1 := by simp [CAddrInfo.refs, hnew, hrefs]
    simp only [view_put, hrefs']
    exact h.new.announce (view_of_find_none hfresh)
  case newSize => exact h.newSize
  case pendingKnown =>
    rintro id' ⟨⟩
    simp [view, CAddrInfo.refs, hnew]
  case nTried => exact h.nTried
  case size =>
    have := h.size
    simp only [create, List.length_append, List.length_singleton]
    omega

theorem add_spec (h : Inv env none s) (c : Choices) (addr : CAddress) (source : CNetAddr)
    (nTimePenalty : Int) :
    ∃ r, s.add env c addr source nTimePenalty = .ok r ∧ Inv env none r.1 := by
  cases hroutable : env.isRoutable addr.service.ip with
  | false => exact ⟨(s, false), by simp [add, hroutable], h⟩
  | true =>
      cases hfound : s.findAddr addr.service.ip with
      | some found =>
          obtain ⟨id, info⟩ := found
          obtain ⟨-, hfind⟩ := findAddr_eq_some.mp hfound
          have hok := h.infos id info hfind
          obtain ⟨nTime, nServices, hrefresh⟩ := refresh_eq c addr nTimePenalty info
          set info' : CAddrInfo := { info with nTime, nServices } with hinfo'
          have hinv : Inv env none (s.setInfo id info') :=
            h.touch hfind rfl rfl rfl rfl ⟨hok.lastTry, hok.lastSuccess, hok.of_tried, hok.of_new⟩
          have hfind' : (s.setInfo id info').mapInfo.find id = some info' := by simp [setInfo]
          simp only [add, hroutable, hfound, hrefresh, Bool.not_true, Bool.false_eq_true, if_false]
          split_ifs with hold htried hmax hluck
          · exact ⟨_, rfl, hinv⟩
          · exact ⟨_, rfl, hinv⟩
          · exact ⟨_, rfl, hinv⟩
          · exact ⟨_, rfl, hinv⟩
          · have hnew : info'.fInTried = false := by simpa using htried
            have hcount := hok.of_new hnew
            have hless : info.nRefCount ≠ 4 := hmax
            obtain ⟨s', hadd, hinv'⟩ := @addToNew_spec env _ id info' c source hfind'
              (fun _ => hinv) fun _ => hinv.setRefs hfind' hnew (by simp only [hinfo']; omega)
                (hinv.new.raise (view_refs_of_new hfind' hnew)) hinv.newSize (by simp)
            exact ⟨(s', false), by rw [hadd]; rfl, hinv'⟩
      | none =>
          have hnone := h.mapAddr_none hfound
          have hnot := h.new.not_mem (view_of_find_none (h.fresh s.nIdCount (le_refl _)))
          -- the entry as it is created, and with the penalty on its time
          set info0 : CAddrInfo := { service := addr.service, nServices := addr.nServices
                                     nTime := addr.nTime, source := source
                                     nRandomPos := s.vRandom.length } with hinfo0
          set info1 : CAddrInfo := { info0 with
            nTime := toTime (max 0 (info0.nTime.toNat - nTimePenalty)) } with hinfo1
          set s1 : CAddrMan := { (s.create addr source).setInfo s.nIdCount info1 with
            nNew := s.nNew + 1 } with hs1
          have hget : (s.create addr source).getInfo s.nIdCount = .ok info0 :=
            getInfo_of_find (by simp [create, hinfo0])
          have hfind1 : s1.mapInfo.find s.nIdCount = some info1 := by simp [hs1, setInfo]
          obtain ⟨s', hadd, hinv'⟩ := @addToNew_spec env s1 s.nIdCount info1 c source hfind1
            (fun hmem => absurd hmem (hnot _)) (fun _ => by
              have hcreated : Inv env (some s.nIdCount) { s.create addr source with
                  mapInfo := s.mapInfo.put s.nIdCount
                    { info1 with nRefCount := info1.nRefCount + 1 }
                  nNew := s.nNew + 1 } :=
                h.created hnone rfl rfl rfl rfl ⟨le_refl _, le_refl _, by simp [hinfo1, hinfo0],
                  by simp [hinfo1, hinfo0]⟩
              have hput : (s1.setInfo s.nIdCount
                  { info1 with nRefCount := info1.nRefCount + 1 }).mapInfo =
                  s.mapInfo.put s.nIdCount { info1 with nRefCount := info1.nRefCount + 1 } := by
                simp only [hs1, setInfo, create, put_put]
              rw [← hput] at hcreated
              exact hcreated)
          have hadd' : s1.addToNew env c s.nIdCount source = .ok s' := hadd
          refine ⟨(s', true), ?_, hinv'⟩
          simp only [add, hroutable, hfound, Bool.not_true, Bool.false_eq_true, if_false, hget, bind,
            Except.bind, ← hinfo1]
          have hnNew : ((s.create addr source).setInfo s.nIdCount info1).nNew = s.nNew := rfl
          rw [hnNew, ← hs1, hadd']
          rfl

/-! ## `GetAddr_` -/

theorem getAddr_spec (h : Inv env none s) (c : Choices) :
    ∃ r, s.getAddr c = .ok r ∧ Inv env none r.1 := by
  obtain ⟨r, hloop, hmoved, hidx⟩ := @forLoop_ok _ _
    (getAddrTurn c (min (23 * s.vRandom.length / 100) 2500)) s.vRandom.length
    (s, ([] : List CAddrInfo))
    (fun _ t => Moved s t.1 ∧ Indexes (view CAddrInfo.pos t.1.mapInfo) t.1.vRandom)
    ⟨Moved.refl s, h.random⟩ (by
      rintro n hn ⟨t, found⟩ ⟨hmoved, hidx⟩
      simp only at hmoved hidx
      have hlen := hmoved.length
      simp only [getAddrTurn]
      split_ifs with henough
      · exact ⟨_, rfl, hmoved, hidx⟩
      · have hn' : n < t.vRandom.length := by omega
        have hrand := getRandInt_lt c n (show 0 < t.vRandom.length - n by omega)
        set p := c.getRandInt n (t.vRandom.length - n) + n with hp
        have hp' : p < t.vRandom.length := by omega
        obtain ⟨t', hswap, hmoved', hidx', -, hat⟩ := swapRandom_spec hidx
          (List.getElem?_eq_getElem hn') (List.getElem?_eq_getElem hp')
        obtain ⟨info, hfind, -⟩ := find_of_pos hidx' hat
        refine ⟨(t', if info.isTerrible (c.clock n) then found else found ++ [info]), ?_,
          hmoved.trans hmoved', hidx'⟩
        simp only [hswap, vectorAt_of hat, assertThat_of (hasInfo_of_find hfind),
          getInfo_of_find hfind, bind, Except.bind])
  exact ⟨r, hloop, hmoved.inv hidx h⟩

end CAddrMan

/-! ## Runs -/

/-- A call of the address manager. -/
inductive AddrOp where
  | add (addr : CAddress) (source : CNetAddr) (nTimePenalty : Int)
  | good (addr : CService) (nTime : Int)
  | attempt (addr : CService) (nTime : Int)
  | connected (addr : CService) (nTime : Int)
  | getAddr

/-- The times that the callers pass. -/
def AddrOp.Valid : AddrOp → Prop
  | .good _ nTime => 0 < nTime
  | .attempt _ nTime => 0 ≤ nTime
  | _ => True

namespace CAddrMan

variable {env : AddrEnv} {s s' : CAddrMan}

/-- A call, with what is chosen during it. -/
def call (env : AddrEnv) (s : CAddrMan) (op : AddrOp × Choices) : Except AddrFault CAddrMan :=
  match op.1 with
  | .add addr source nTimePenalty =>
      (s.add env op.2 addr source nTimePenalty).map Prod.fst
  | .good addr nTime => s.good env op.2 addr nTime
  | .attempt addr nTime => .ok (s.attempt addr nTime)
  | .connected addr nTime => .ok (s.connected addr nTime)
  | .getAddr => (s.getAddr op.2).map Prod.fst

/-- One call after the other, from the empty manager. -/
def run (env : AddrEnv) (ops : List (AddrOp × Choices)) : Except AddrFault CAddrMan :=
  ops.foldlM (call env) {}

theorem call_spec (h : Inv env none s) {op : AddrOp × Choices} (hvalid : op.1.Valid) :
    ∃ s', call env s op = .ok s' ∧ Inv env none s' := by
  obtain ⟨op, c⟩ := op
  cases op with
  | add addr source nTimePenalty =>
      obtain ⟨r, hr, hinv⟩ := add_spec h c addr source nTimePenalty
      exact ⟨r.1, by simp [call, hr], hinv⟩
  | good addr nTime => exact good_spec h c addr hvalid
  | attempt addr nTime => exact ⟨_, rfl, attempt_inv h addr hvalid⟩
  | connected addr nTime => exact ⟨_, rfl, connected_inv h addr nTime⟩
  | getAddr =>
      obtain ⟨r, hr, hinv⟩ := getAddr_spec h c
      exact ⟨r.1, by simp [call, hr], hinv⟩

/-- **Every run succeeds and keeps the invariant.** -/
theorem run_spec {ops : List (AddrOp × Choices)} (hvalid : ∀ op ∈ ops, op.1.Valid) :
    ∃ s, run env ops = .ok s ∧ Inv env none s := by
  have hfold : ∀ s, Inv env none s → ∃ s', ops.foldlM (call env) s = .ok s' ∧ Inv env none s' := by
    induction ops with
    | nil => exact fun s h => ⟨s, rfl, h⟩
    | cons op ops ih =>
        intro s h
        obtain ⟨s', hcall, hinv⟩ := call_spec h (hvalid op List.mem_cons_self)
        obtain ⟨s'', hrest, hinv'⟩ := ih (fun o ho => hvalid o (List.mem_cons_of_mem _ ho)) s' hinv
        refine ⟨s'', ?_, hinv'⟩
        rw [List.foldlM_cons, hcall]
        exact hrest
  exact hfold {} inv_empty

end CAddrMan

end Hivemind
