import Hivemind.Net.AddrRun

/-!
# `Check_` of the address manager

A manager whose parts agree passes `Check_`.  The first loop collects the ids of the entries, and
the two loops over the buckets find each of them as often as they must.

`Check_` is compiled into the node for debugging only, and is the authors' own statement of what
the parts of the manager have to do with each other: it returns a code for each thing that is
wrong.  It consumes what it has collected, so that the loops are counted down, and the counts at
the end are what finds an entry that is in no bucket.  That it returns zero after any run of
calls is therefore the invariant once more, as the source states it.

* `foldlM_checkInfo`: what the first loop has collected.
* `foldlM_checkTried`, `foldlM_checkNew`: the loops over the buckets.
* `Inv.length_entries`, `Inv.perm_tried`, `Inv.count_new`: the counts.
* `check_of_run`: **the address manager is consistent** after every run of calls.
* `check_of_add_good`: an address is learned, and a connection to it succeeds.
-/

namespace Hivemind

open Ordered Outcomes Buckets

namespace CAddrMan

variable {env : AddrEnv} {s : CAddrMan} {id : Nat} {info : CAddrInfo}

/-! ## The loop over the entries -/

theorem checkInfo_of_inv (h : Inv env none s) (hfind : s.mapInfo.find id = some info)
    (t : CheckState) :
    s.checkInfo id info t = .ok (if info.fInTried then { t with setTried := t.setTried ++ [id] }
      else { t with mapNew := t.mapNew.put id info.nRefCount }) := by
  have hok := h.infos id info hfind
  have haddr : s.mapAddr.find info.service.ip = some id :=
    (h.addr _ _).mpr (by simp [view_of_find hfind, CAddrInfo.addr])
  obtain ⟨p, hp, hat⟩ := (h.random.at_iff id info.nRandomPos).mp
    (by simp [view_of_find hfind, CAddrInfo.pos])
  have hpos : ¬ (info.nRandomPos < 0 ∨ s.vRandom[info.nRandomPos.toNat]? ≠ some id) := by
    rw [hp]
    simp [hat]
  have htry : ¬ info.nLastTry < 0 := not_lt.mpr hok.lastTry
  have hsuccess : ¬ info.nLastSuccess < 0 := not_lt.mpr hok.lastSuccess
  cases htried : info.fInTried with
  | true =>
      obtain ⟨hne, hzero⟩ := hok.of_tried htried
      simp [checkInfo, htried, hne, hzero, haddr, hpos, htry, hsuccess, bind, Except.bind]
  | false =>
      obtain ⟨hlow, hhigh⟩ := hok.of_new htried
      have hrange : ¬ (info.nRefCount < 0 ∨ info.nRefCount > 4) := by omega
      have hne : info.nRefCount ≠ 0 := by omega
      simp [checkInfo, htried, hrange, hne, haddr, hpos, htry, hsuccess, bind, Except.bind]

/-- What the first loop has collected. -/
theorem foldlM_checkInfo (h : Inv env none s) {l : List (Nat × CAddrInfo)}
    (hl : ∀ e ∈ l, s.mapInfo.find e.1 = some e.2) (t : CheckState) :
    ∃ t', l.foldlM (fun t e => s.checkInfo e.1 e.2 t) t = .ok t' ∧
      t'.setTried = t.setTried ++ (l.filter fun e => e.2.fInTried).map Prod.fst ∧
      ∀ k, t'.mapNew.find k = if k ∈ (l.filter fun e => !e.2.fInTried).map Prod.fst
        then view CAddrInfo.refs s.mapInfo k else t.mapNew.find k := by
  induction l generalizing t with
  | nil => exact ⟨t, rfl, by simp, by simp⟩
  | cons e l ih =>
      obtain ⟨id, info⟩ := e
      have hfind := hl (id, info) List.mem_cons_self
      have hrest : ∀ e ∈ l, s.mapInfo.find e.1 = some e.2 :=
        fun e he => hl e (List.mem_cons_of_mem _ he)
      simp only [List.foldlM_cons, checkInfo_of_inv h hfind, bind, Except.bind]
      cases htried : info.fInTried with
      | true =>
          obtain ⟨t', hfold, hset, hmap⟩ := ih hrest { t with setTried := t.setTried ++ [id] }
          refine ⟨t', hfold, ?_, ?_⟩
          · simpa [htried] using hset
          · have hfilter : ((id, info) :: l).filter (fun e => !e.2.fInTried) =
                l.filter fun e => !e.2.fInTried := by simp [htried]
            rw [hfilter]
            exact hmap
      | false =>
          obtain ⟨t', hfold, hset, hmap⟩ := ih hrest
            { t with mapNew := t.mapNew.put id info.nRefCount }
          refine ⟨t', hfold, ?_, ?_⟩
          · simpa [htried] using hset
          · have hfilter : ((id, info) :: l).filter (fun e => !e.2.fInTried) =
                (id, info) :: l.filter fun e => !e.2.fInTried := by simp [htried]
            intro k
            rw [hmap k, hfilter]
            by_cases hk : k = id
            · subst hk
              simp [view_refs_of_new hfind htried]
            · have hmem : k ∈ ((id, info) :: l.filter fun e => !e.2.fInTried).map Prod.fst ↔
                  k ∈ (l.filter fun e => !e.2.fInTried).map Prod.fst := by simp [hk]
              exact if_congr hmem.symm rfl (OrdMap.find_put_of_ne _ _ hk)

/-! ## The loops over the buckets -/

/-- Every id of the tried buckets is there to be found, and none is left. -/
theorem foldlM_checkTried {l : List Nat} {t : CheckState} (hl : l.Perm t.setTried) :
    l.foldlM checkTried t = .ok { t with setTried := [] } := by
  induction l generalizing t with
  | nil =>
      obtain ⟨setTried, mapNew⟩ := t
      obtain rfl : setTried = [] := List.nil_perm.mp hl
      rfl
  | cons id l ih =>
      have hmem : id ∈ t.setTried := hl.mem_iff.mp List.mem_cons_self
      have hrest : l.Perm (t.setTried.erase id) := (List.cons_perm_iff_perm_erase.mp hl).2
      simp only [List.foldlM_cons, checkTried, hmem, if_true, bind, Except.bind]
      exact ih (t := { t with setTried := t.setTried.erase id }) hrest

/-- Every id of the new buckets is there as often as it has references. -/
theorem foldlM_checkNew {l : List Nat} {t : CheckState}
    (hl : ∀ k, t.mapNew.find k = if l.count k = 0 then none else some (l.count k : Int)) :
    ∃ t', l.foldlM checkNew t = .ok t' ∧ t'.setTried = t.setTried ∧
      ∀ k, t'.mapNew.find k = none := by
  induction l generalizing t with
  | nil => exact ⟨t, rfl, rfl, by simpa using hl⟩
  | cons id l ih =>
      have hid : t.mapNew.find id = some ((l.count id : Int) + 1) := by
        rw [hl id]
        simp
      have hother : ∀ k, k ≠ id → (id :: l).count k = l.count k := by
        intro k hk
        rw [List.count_cons_of_ne (Ne.symm hk)]
      simp only [List.foldlM_cons, checkNew, hid, add_sub_cancel_right, bind, Except.bind]
      by_cases hzero : l.count id = 0
      · simp only [hzero, Nat.cast_zero, if_true]
        refine ih (t := { t with mapNew := t.mapNew.erase id }) ?_
        intro k
        simp only [OrdMap.find_erase]
        by_cases hk : k = id
        · subst hk
          simp [hzero]
        · rw [if_neg hk, hl k, hother k hk]
      · have hne : (l.count id : Int) ≠ 0 := by exact_mod_cast hzero
        simp only [hne, if_false]
        refine ih (t := { t with mapNew := t.mapNew.put id (l.count id) }) ?_
        intro k
        simp only [OrdMap.find_put]
        by_cases hk : k = id
        · subst hk
          simp [hzero]
        · rw [if_neg hk, hl k, hother k hk]

/-! ## The counts -/

theorem nodup_map_fst (m : OrdMap Nat CAddrInfo) (p : Nat × CAddrInfo → Bool) :
    ((m.entries.filter p).map Prod.fst).Nodup := by
  have hsorted := m.sorted.filter p
  rw [List.Nodup, List.pairwise_map]
  exact hsorted.imp fun hlt => hlt.ne

theorem mem_map_fst {m : OrdMap Nat CAddrInfo} {p : Nat × CAddrInfo → Bool} :
    id ∈ (m.entries.filter p).map Prod.fst ↔ ∃ info, m.find id = some info ∧ p (id, info) = true := by
  simp only [List.mem_map, List.mem_filter, Prod.exists, exists_and_right, exists_eq_right]
  constructor
  · rintro ⟨info, hmem, hp⟩
    exact ⟨info, OrdMap.find_eq_some.mpr hmem, hp⟩
  · rintro ⟨info, hfind, hp⟩
    exact ⟨info, OrdMap.find_eq_some.mp hfind, hp⟩

/-- The entries are as many as the vector is long. -/
theorem Inv.length_entries (h : Inv env none s) : s.mapInfo.entries.length = s.vRandom.length := by
  have hperm : (s.mapInfo.entries.map Prod.fst).Perm s.vRandom := by
    have hnodup := nodup_map_fst s.mapInfo fun _ => true
    rw [List.filter_true] at hnodup
    rw [List.perm_ext_iff_of_nodup hnodup h.random.nodup]
    intro id
    have hmem := @mem_map_fst id s.mapInfo fun _ => true
    rw [List.filter_true] at hmem
    rw [hmem, h.random.mem_iff]
    cases hfind : s.mapInfo.find id with
    | none => simp [view, hfind]
    | some info => simp [view, hfind, CAddrInfo.pos]
  simpa using hperm.length_eq

/-- The tried buckets hold the ids of the tried entries. -/
theorem Inv.perm_tried (h : Inv env none s) :
    ((List.finRange 64).flatMap s.vvTried).Perm
      ((s.mapInfo.entries.filter fun e => e.2.fInTried).map Prod.fst) := by
  rw [List.perm_ext_iff_of_nodup (h.tried.nodup_flatMap (List.nodup_finRange 64))
    (nodup_map_fst _ _)]
  intro id
  simp only [List.mem_flatMap, List.mem_finRange, true_and, mem_map_fst]
  constructor
  · rintro ⟨b, hmem⟩
    obtain ⟨info, hfind, htried, -⟩ := h.find_of_mem_tried hmem
    exact ⟨info, hfind, htried⟩
  · rintro ⟨info, hfind, htried⟩
    refine ⟨env.getTriedBucket info.service, (h.tried.mem_iff _ _).mpr ?_⟩
    simp [view_of_find hfind, CAddrInfo.place, htried]

theorem Inv.length_tried (h : Inv env none s) :
    (((s.mapInfo.entries.filter fun e => e.2.fInTried).map Prod.fst).length : Int) = s.nTried := by
  rw [← h.perm_tried.length_eq, List.length_flatMap, ← h.nTried, totalLength, Fin.sum_univ_def]

/-- The references of an entry, counted in the new buckets. -/
theorem Inv.count_new (h : Inv env none s) (id : Nat) :
    view CAddrInfo.refs s.mapInfo id =
      let n := ((List.finRange 256).flatMap fun b => (s.vvNew b).sort (· ≤ ·)).count id
      if n = 0 then none else some (n : Int) := by
  have hcount : ((List.finRange 256).flatMap fun b => (s.vvNew b).sort (· ≤ ·)).count id =
      occurrences s.vvNew id := by
    rw [count_flatMap, occurrences, Fin.sum_univ_def]
  simp only [hcount]
  cases hrefs : view CAddrInfo.refs s.mapInfo id with
  | none =>
      have hzero : occurrences s.vvNew id = 0 := occurrences_eq_zero.mpr (h.new.not_mem hrefs)
      simp [hzero]
  | some n =>
      have hn := h.new.count id n hrefs
      simp only [reduceCtorEq, if_false] at hn
      obtain ⟨info, hfind, hinfo⟩ := find_of_view hrefs
      have hpos : 1 ≤ n := by
        by_cases htried : info.fInTried = true
        · simp [CAddrInfo.refs, htried] at hinfo
        · have := ((h.infos id info hfind).of_new (by simpa using htried)).1
          simp only [CAddrInfo.refs, htried] at hinfo
          simpa [← Option.some.inj hinfo] using this
      have hne : occurrences s.vvNew id ≠ 0 := by omega
      simp [hne, hn]

theorem mem_new_iff : id ∈ (s.mapInfo.entries.filter fun e => !e.2.fInTried).map Prod.fst ↔
    (view CAddrInfo.refs s.mapInfo id).isSome := by
  rw [mem_map_fst]
  cases hfind : s.mapInfo.find id with
  | none => simp [view, hfind]
  | some info => cases htried : info.fInTried <;> simp [view, hfind, CAddrInfo.refs, htried]

theorem Inv.check_ok (h : Inv env none s) : s.check = .ok () := by
  obtain ⟨t, hfold, hset, hmap⟩ := foldlM_checkInfo h
    (fun e (he : e ∈ s.mapInfo.entries) => OrdMap.find_eq_some.mpr he) {}
  have hset' : t.setTried = (s.mapInfo.entries.filter fun e => e.2.fInTried).map Prod.fst := by
    simpa using hset
  -- the map of the new entries is their references
  have hmap' : ∀ k, t.mapNew.find k = view CAddrInfo.refs s.mapInfo k := by
    intro k
    rw [hmap k]
    simp only [mem_new_iff, OrdMap.find_empty]
    split_ifs with hk
    · rfl
    · exact (Option.not_isSome_iff_eq_none.mp hk).symm
  have htried : (t.setTried.length : Int) = s.nTried := by
    rw [hset']
    exact h.length_tried
  have hnew : (t.mapNew.entries.length : Int) = s.nNew := by
    have hperm : (t.mapNew.entries.map Prod.fst).Perm
        ((s.mapInfo.entries.filter fun e => !e.2.fInTried).map Prod.fst) := by
      have hnodup : (t.mapNew.entries.map Prod.fst).Nodup := by
        rw [List.Nodup, List.pairwise_map]
        exact t.mapNew.sorted.imp fun hlt => hlt.ne
      rw [List.perm_ext_iff_of_nodup hnodup (nodup_map_fst _ _)]
      intro k
      rw [mem_new_iff, ← hmap', Option.isSome_iff_exists]
      simp [OrdMap.find_eq_some]
    have hlen := hperm.length_eq
    have hentries := h.length_entries
    have hsize := h.size
    have hcount := h.length_tried
    have hsplit := List.length_eq_length_filter_add (l := s.mapInfo.entries)
      fun e => e.2.fInTried
    simp only [List.length_map] at hlen hcount
    omega
  have hsize : ¬ ((s.vRandom.length : Int) ≠ s.nTried + s.nNew) := by
    have := h.size
    omega
  have hperm : ((List.finRange 64).flatMap s.vvTried).Perm t.setTried := hset' ▸ h.perm_tried
  obtain ⟨t', hfold', hset'', hnone⟩ := foldlM_checkNew (t := { t with setTried := [] })
    (l := (List.finRange 256).flatMap fun b => (s.vvNew b).sort (· ≤ ·))
    (fun k => (hmap' k).trans (h.count_new k))
  have hempty : t'.mapNew.entries = [] := by
    refine List.eq_nil_iff_forall_not_mem.mpr ?_
    rintro ⟨k, n⟩ hmem
    exact OrdMap.find_eq_none.mp (hnone k) n hmem
  have hdone : t'.setTried = [] := hset''
  simp only [check, hsize, if_false, hfold, htried, hnew, foldlM_checkTried hperm, hfold', hempty,
    hdone, ne_eq, not_true_eq_false, bind, Except.bind]

end CAddrMan

/-- **The address manager is consistent.**  Whatever the random choices, the clock and the hash of
the buckets are, no call fails, and after every run `Check_` finds nothing, no bucket has
more than 64 entries, and every tried entry is in the bucket of its address. -/
theorem check_of_run (env : AddrEnv) (ops : List (AddrOp × Choices))
    (hvalid : ∀ op ∈ ops, op.1.Valid) :
    ∃ s, CAddrMan.run env ops = .ok s ∧ s.check = .ok () ∧
      (∀ b, (s.vvTried b).length ≤ 64) ∧ (∀ b, (s.vvNew b).card ≤ 64) ∧
      ∀ b, ∀ id ∈ s.vvTried b, ∃ info, s.mapInfo.find id = some info ∧
        env.getTriedBucket info.service = b := by
  obtain ⟨s, hrun, hinv⟩ := @CAddrMan.run_spec env ops hvalid
  refine ⟨s, hrun, hinv.check_ok, hinv.triedSize, hinv.newSize, ?_⟩
  intro b id hmem
  obtain ⟨info, hfind, -, hbucket⟩ := hinv.find_of_mem_tried hmem
  exact ⟨info, hfind, hbucket⟩

/-- A manager for which all addresses are in one bucket. -/
def oneBucket : AddrEnv where
  hash := fun _ => Blob.null
  getGroup := fun a => a.val.take 2
  isRoutable := fun _ => true
  nKey := []

/-- An address is learned, and a connection to it succeeds. -/
theorem check_of_add_good :
    ∃ s, CAddrMan.run oneBucket
        [(.add ⟨⟨Blob.fill 7, 8333⟩, 1, 1000⟩ (Blob.fill 8) 0, ⟨fun _ => 0, fun _ => 1000⟩),
          (.good ⟨Blob.fill 7, 8333⟩ 1001, ⟨fun _ => 3, fun _ => 1001⟩)] = .ok s ∧
      s.check = .ok () ∧ (∀ b, (s.vvTried b).length ≤ 64) ∧ (∀ b, (s.vvNew b).card ≤ 64) ∧
      ∀ b, ∀ id ∈ s.vvTried b, ∃ info, s.mapInfo.find id = some info ∧
        oneBucket.getTriedBucket info.service = b :=
  check_of_run oneBucket _ (by simp [AddrOp.Valid])

end Hivemind
