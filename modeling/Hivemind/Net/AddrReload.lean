import Hivemind.Net.AddrLoad

/-!
# The loops that read the address manager

The three loops of `Unserialize` against the entries and the buckets of a manager whose parts
agree: each turn finds what the writer put there, and no entry and no reference is lost.

For each loop there is a structure that says what has been read so far, how many entries or how
many places of which bucket, and what is left of the stream.  The loop over the tried entries may
lose an entry whose bucket is full; that it does not is because the entries of one bucket were in
that bucket before, and the key is the same.  The loop over the buckets adds a reference for each
place, and stays below the limit of references of an entry for the same reason.

* `LoadingNew`, `LoadingTried`, `LoadingBucket`: what has been read, during each loop.
* `forLoop_loadNew`, `forLoop_loadTried`: the loops over the entries.
* `length_vvTried_lt`: a bucket of tried addresses has room for the entries that were in it.
* `forLoop_loadBucket`: the loop over the buckets of new addresses.
-/

namespace Hivemind

open Codecs Ordered Outcomes Buckets

namespace CAddrMan

theorem readAs_ser {α : Type} {c : Codec α} {x : α} (h : c.Fits x) (r : Bytes) :
    readAs c (c.ser x ++ r) = .ok (x, r) := by
  rw [readAs, Codec.de_ser h]
  rfl

variable {env : AddrEnv} {s m : CAddrMan} {e : Nat × CAddrInfo} {k : Nat} {nVersion : Int32}
  {rest : Bytes}

/-! ## The entries -/

/-- How many entries are new. -/
def newCount (s : CAddrMan) : Nat := (s.mapInfo.entries.filter fun e => !e.2.fInTried).length

theorem serInfos_drop (hk : s.order[k]? = some e) :
    serInfos nVersion ((s.order.drop k).map Prod.snd) ++ rest =
      infoCodec.ser (nVersion, e.2.record) ++
        (serInfos nVersion ((s.order.drop (k + 1)).map Prod.snd) ++ rest) := by
  obtain ⟨hlt, rfl⟩ := List.getElem?_eq_some_iff.mp hk
  rw [List.drop_eq_getElem_cons hlt, List.map_cons, serInfos, List.flatMap_cons,
    List.append_assoc]
  rfl

theorem records_of_order (hk : s.order[k]? = some e) :
    s.records[k]? = some (e.2.record, e.2.fInTried) ∧
      s.records.take (k + 1) = s.records.take k ++ [(e.2.record, e.2.fInTried)] := by
  have hr : s.records[k]? = some (e.2.record, e.2.fInTried) := by
    rw [records, List.getElem?_map, hk, Option.map_some]
  obtain ⟨hlt, hget⟩ := List.getElem?_eq_some_iff.mp hr
  exact ⟨hr, by rw [List.take_succ_eq_append_getElem hlt, hget]⟩

/-- The new entries come first. -/
theorem fInTried_of_order (hk : s.order[k]? = some e) : e.2.fInTried = false ↔ k < s.newCount := by
  rw [order] at hk
  rcases Nat.lt_or_ge k s.newCount with hlt | hge
  · rw [List.getElem?_append_left hlt] at hk
    have hmem := (List.mem_filter.mp (List.mem_of_getElem? hk)).2
    exact iff_of_true (by simpa using hmem) hlt
  · rw [List.getElem?_append_right hge] at hk
    have hmem := (List.mem_filter.mp (List.mem_of_getElem? hk)).2
    exact iff_of_false (by simpa using hmem) (Nat.not_lt.mpr hge)

theorem newCount_le (s : CAddrMan) : s.newCount ≤ s.order.length := by
  rw [order, List.length_append]
  exact Nat.le_add_right ..

/-- What the rest of the entries is in the stream. -/
def streamFrom (nVersion : Int32) (s : CAddrMan) (k : Nat) (rest : Bytes) : Bytes :=
  serInfos nVersion ((s.order.drop k).map Prod.snd) ++ rest

/-- The first `k` entries have been read, all of them new. -/
structure LoadingNew (env : AddrEnv) (s : CAddrMan) (nVersion : Int32) (rest : Bytes) (nNew : Int)
    (k : Nat) (t : CAddrMan × Bytes) : Prop where
  loaded : Loaded env (s.records.take k) t.1
  vvNew : t.1.vvNew = fun _ => ∅
  vvTried : t.1.vvTried = fun _ => []
  nNew : t.1.nNew = nNew
  stream : t.2 = streamFrom nVersion s k rest

theorem loadNew_turn (h : Inv env none s) {nNew : Int} (hk : k < s.newCount)
    {t : CAddrMan × Bytes} (ht : LoadingNew env s nVersion rest nNew k t) :
    ∃ t', loadNew env 256 k t = .ok t' ∧ LoadingNew env s nVersion rest nNew (k + 1) t' := by
  have hlt : k < s.order.length := Nat.lt_of_lt_of_le hk (newCount_le s)
  have hat := List.getElem?_eq_getElem hlt
  obtain ⟨hr, htake⟩ := records_of_order hat
  have hfalse := (fInTried_of_order hat).mpr hk
  have hlen : (s.records.take k).length = k := by
    rw [List.length_take, length_records]
    omega
  have hunused : occurrences t.1.vvNew (s.records.take k).length = 0 := by
    rw [ht.vvNew]
    exact occurrences_eq_zero.mpr fun _ => Finset.notMem_empty _
  have hsame : ∀ b, t.1.vvTried b = t.1.vvTried b ++
      if s.order[k].2.fInTried &&
        decide (env.getTriedBucket s.order[k].2.record.service = b)
      then [(s.records.take k).length] else [] := by simp [hfalse]
  have hpush := ht.loaded.push (records_fresh h hr) hunused hsame t.1.nIdCount
  rw [← htake, hlen] at hpush
  have hinfo : ({ s.order[k].2.record.toInfo with nRandomPos := t.1.vRandom.length } :
      CAddrInfo) = loadedInfo (s.order[k].2.record, s.order[k].2.fInTried) k 0 := by
    rw [ht.loaded.random, List.length_range, hlen, loadedInfo, hfalse]
    rfl
  refine ⟨(t.1.enter k (loadedInfo (s.order[k].2.record, s.order[k].2.fInTried) k 0),
    streamFrom nVersion s (k + 1) rest), ?_, hpush, ht.vvNew, ht.vvTried, ht.nNew, rfl⟩
  rw [loadNew, ht.stream, streamFrom, serInfos_drop hat, readAs_ser (fits_infoCodec _)]
  simp only [bind, Except.bind, if_true, hinfo]
  rfl

/-- **The loop over the new entries.** -/
theorem forLoop_loadNew (h : Inv env none s) (nVersion : Int32) (rest : Bytes) (nNew : Int) :
    ∃ t, forLoop (loadNew env 256) s.newCount
        ({ nNew := nNew }, streamFrom nVersion s 0 rest) = .ok t ∧
      LoadingNew env s nVersion rest nNew s.newCount t :=
  forLoop_ok (LoadingNew env s nVersion rest nNew) ⟨Loaded.empty nNew, rfl, rfl, rfl, rfl⟩
    fun _ hk _ ht => loadNew_turn h hk ht

/-- All new entries and `j` tried ones have been read, and none was lost. -/
structure LoadingTried (env : AddrEnv) (s : CAddrMan) (nVersion : Int32) (rest : Bytes)
    (nNew : Int) (j : Nat) (t : (CAddrMan × Nat) × Bytes) : Prop where
  loaded : Loaded env (s.records.take (s.newCount + j)) t.1.1
  vvNew : t.1.1.vvNew = fun _ => ∅
  nIdCount : t.1.1.nIdCount = s.newCount + j
  nNew : t.1.1.nNew = nNew
  nLost : t.1.2 = 0
  stream : t.2 = streamFrom nVersion s (s.newCount + j) rest

/-- A bucket of tried addresses has room for the entries that were in it. -/
theorem length_vvTried_lt (h : Inv env none s) (hm : Loaded env (s.records.take k) m)
    {r : AddrRecord × Bool} (hr : s.records[k]? = some r) (htried : r.2 = true) {a : CService}
    (ha : r.1.service = a) : (m.vvTried (env.getTriedBucket a)).length < bucketSize := by
  subst ha
  have hsub : k :: m.vvTried (env.getTriedBucket r.1.service) ⊆
      (s.vvTried (env.getTriedBucket r.1.service)).map s.renumber := by
    intro i hi
    rw [mem_map_vvTried h]
    rcases List.mem_cons.mp hi with rfl | hi
    · exact ⟨r, hr, htried, rfl⟩
    · rw [hm.tried, List.mem_filter, Option.any_eq_true] at hi
      obtain ⟨hlt, r', hr', hbucket⟩ := hi
      rw [Bool.and_eq_true, decide_eq_true_eq] at hbucket
      refine ⟨r', ?_, hbucket⟩
      rw [List.mem_range, List.length_take] at hlt
      rwa [List.getElem?_take_of_lt (by omega)] at hr'
  have hnodup : (k :: m.vvTried (env.getTriedBucket r.1.service)).Nodup := by
    rw [hm.tried, List.nodup_cons]
    refine ⟨fun hmem => ?_, List.nodup_range.filter _⟩
    have hlt := (List.mem_filter.mp hmem).1
    rw [List.mem_range, List.length_take] at hlt
    omega
  have hle := (List.subperm_of_subset hnodup hsub).length_le
  have hsize := h.triedSize (env.getTriedBucket r.1.service)
  rw [List.length_cons, List.length_map] at hle
  omega

theorem loadTried_turn (h : Inv env none s) {nNew : Int} {j : Nat}
    (hat : s.order[s.newCount + j]? = some e) {t : (CAddrMan × Nat) × Bytes}
    (ht : LoadingTried env s nVersion rest nNew j t) :
    ∃ t', loadTried env t = .ok t' ∧ LoadingTried env s nVersion rest nNew (j + 1) t' := by
  obtain ⟨hr, htake⟩ := records_of_order hat
  rw [Nat.add_assoc] at htake
  have hlt := (List.getElem?_eq_some_iff.mp hat).1
  have htrue : e.2.fInTried = true := by
    have := (fInTried_of_order hat).not.mpr (by omega)
    simpa using this
  have hlen : (s.records.take (s.newCount + j)).length = s.newCount + j := by
    rw [List.length_take, length_records]
    omega
  obtain ⟨⟨m, nLost⟩, stream⟩ := t
  obtain ⟨hload, hnew, hcount, hnNew, hlost, hstream⟩ := ht
  simp only at hload hnew hcount hnNew hlost hstream
  subst hlost hstream
  have hunused : occurrences m.vvNew (s.records.take (s.newCount + j)).length = 0 := by
    rw [hnew]
    exact occurrences_eq_zero.mpr fun _ => Finset.notMem_empty _
  have hroom : (m.vvTried (env.getTriedBucket e.2.service)).length < bucketSize :=
    length_vvTried_lt h hload hr htrue rfl
  have hgrown : ∀ b, Function.update m.vvTried (env.getTriedBucket e.2.service)
      (m.vvTried (env.getTriedBucket e.2.service) ++ [m.nIdCount]) b = m.vvTried b ++
      if e.2.fInTried && decide (env.getTriedBucket e.2.record.service = b)
      then [(s.records.take (s.newCount + j)).length] else [] := by
    intro b
    rw [hlen, htrue, Bool.true_and, hcount]
    by_cases hb : env.getTriedBucket e.2.service = b
    · subst hb
      simp [CAddrInfo.record]
    · simp [hb, CAddrInfo.record, Function.update_of_ne (Ne.symm hb)]
  have hpush := hload.push (records_fresh h hr) hunused hgrown (m.nIdCount + 1)
  rw [← htake, hlen] at hpush
  have hinfo : ({ e.2.record.toInfo with
      nRandomPos := m.vRandom.length, fInTried := true } : CAddrInfo) =
      loadedInfo (e.2.record, e.2.fInTried) (s.newCount + j) 0 := by
    rw [hload.random, List.length_range, hlen, loadedInfo, htrue]
    rfl
  generalize hm : ({ m.enter (s.newCount + j) (loadedInfo (e.2.record, e.2.fInTried)
      (s.newCount + j) 0) with
    vvTried := Function.update m.vvTried (env.getTriedBucket e.2.service)
      (m.vvTried (env.getTriedBucket e.2.service) ++ [m.nIdCount])
    nIdCount := m.nIdCount + 1 } : CAddrMan) = m' at hpush
  have hstep : loadTried env ((m, 0), streamFrom nVersion s (s.newCount + j) rest) =
      .ok ((m', 0), streamFrom nVersion s (s.newCount + j + 1) rest) := by
    rw [loadTried, streamFrom, serInfos_drop hat, readAs_ser (fits_infoCodec _)]
    have hservice : e.2.record.toInfo.service = e.2.service := rfl
    simp only [bind, Except.bind, hservice]
    rw [if_pos hroom, ← hm, ← hinfo, ← hcount]
    rfl
  have hnew' : m'.vvNew = m.vvNew := by rw [← hm]; rfl
  have hcount' : m'.nIdCount = m.nIdCount + 1 := by rw [← hm]
  have hnNew' : m'.nNew = m.nNew := by rw [← hm]; rfl
  exact ⟨_, hstep, ⟨hpush, hnew'.trans hnew, by rw [hcount', hcount, Nat.add_assoc],
    hnNew'.trans hnNew, rfl, by rw [Nat.add_assoc]⟩⟩

/-- **The loop over the tried entries.** -/
theorem forLoop_loadTried (h : Inv env none s) {nNew : Int} {n : Nat}
    (hn : s.newCount + n = s.order.length) {t : CAddrMan × Bytes}
    (ht : LoadingNew env s nVersion rest nNew s.newCount t) :
    ∃ t', forLoop (fun _ => loadTried env) n
        (({ t.1 with nIdCount := s.newCount }, 0), t.2) = .ok t' ∧
      LoadingTried env s nVersion rest nNew n t' := by
  refine forLoop_ok (LoadingTried env s nVersion rest nNew) ?_ ?_
  · exact ⟨⟨ht.loaded.info, ht.loaded.addr, ht.loaded.random, ht.loaded.tried⟩, ht.vvNew, rfl,
      ht.nNew, rfl, ht.stream⟩
  · intro j hj t' ht'
    have hlt : s.newCount + j < s.order.length := by omega
    exact loadTried_turn h (List.getElem?_eq_getElem hlt) ht'

/-! ## The buckets of new addresses -/

/-- The new buckets by the places of their entries. -/
def renumberedNew (s : CAddrMan) (b : Fin 256) : Finset Nat := (s.vvNew b).image s.renumber

/-- The places of a bucket in the stream. -/
def serPlaces (s : CAddrMan) (ids : List Nat) : Bytes :=
  ids.flatMap fun id => Codec.i32.ser (Int32.ofNat (s.renumber id))

/-- One bucket more has the element. -/
theorem occurrences_lt {vv vv' : Fin 256 → Finset Nat} {i : Nat} {b : Fin 256}
    (hsub : ∀ b, vv b ⊆ vv' b) (hnot : i ∉ vv b) (hmem : i ∈ vv' b) :
    occurrences vv i < occurrences vv' i := by
  rw [occurrences, occurrences]
  refine Finset.sum_lt_sum (fun b' _ => ?_) ⟨b, Finset.mem_univ b, by simp [hnot, hmem]⟩
  by_cases hb : i ∈ vv b'
  · simp [hb, hsub b' hb]
  · simp [hb]

/-- Up to bucket `b` all buckets have been read, and the first `n` places of this one. -/
structure LoadingBucket (env : AddrEnv) (s : CAddrMan) (counts : Nat × Int × Int)
    (base : Fin 256 → Finset Nat) (b : Fin 256) (rest : Bytes) (n : Nat)
    (t : CAddrMan × Bytes) : Prop where
  loaded : Loaded env s.records t.1
  vvNew : t.1.vvNew = Function.update base b
    ((((s.vvNew b).sort (· ≤ ·)).take n).map s.renumber).toFinset
  counts : (t.1.nIdCount, t.1.nNew, t.1.nTried) = counts
  stream : t.2 = serPlaces s (((s.vvNew b).sort (· ≤ ·)).drop n) ++ rest

theorem loadIndex_turn (h : Inv env none s) (hsmall : s.order.length < 2 ^ 31)
    {counts : Nat × Int × Int} {base : Fin 256 → Finset Nat} {b : Fin 256} {n : Nat}
    (hbase : ∀ b, base b ⊆ s.renumberedNew b) (hn : n < (s.vvNew b).card)
    {t : CAddrMan × Bytes} (ht : LoadingBucket env s counts base b rest n t) :
    ∃ t', loadIndex 256 b t = .ok t' ∧ LoadingBucket env s counts base b rest (n + 1) t' := by
  obtain ⟨m, stream⟩ := t
  obtain ⟨hload, hvvNew, hcounts, hstream⟩ := ht
  simp only at hload hvvNew hcounts hstream
  subst hstream
  have hlen : n < ((s.vvNew b).sort (· ≤ ·)).length := by rwa [Finset.length_sort]
  have hnodup : ((s.vvNew b).sort (· ≤ ·)).Nodup := Finset.sort_nodup _ _
  have hsort : ∀ id, id ∈ (s.vvNew b).sort (· ≤ ·) ↔ id ∈ s.vvNew b := fun id =>
    Finset.mem_sort _
  generalize hids : (s.vvNew b).sort (· ≤ ·) = ids at hlen hnodup hsort hvvNew ⊢
  obtain ⟨id, hid⟩ : ∃ id, ids[n]? = some id := ⟨_, List.getElem?_eq_getElem hlen⟩
  have hmem : id ∈ s.vvNew b := (hsort id).mp (List.mem_of_getElem? hid)
  obtain ⟨info, hfind, hfalse⟩ := h.find_of_mem hmem
  have hr := records_renumber hfind
  have hlt : s.renumber id < 2 ^ 31 := by
    have := (List.getElem?_eq_some_iff.mp hr).1
    rw [length_records] at this
    omega
  have hnot : s.renumber id ∉ m.vvNew b := by
    rw [hvvNew, Function.update_self, List.mem_toFinset, List.mem_map]
    rintro ⟨id', hid', heq⟩
    obtain ⟨info', hfind', -⟩ := h.find_of_mem ((hsort id').mp (List.mem_of_mem_take hid'))
    obtain rfl := renumber_inj hfind' heq
    obtain ⟨j, hj⟩ := List.mem_iff_getElem?.mp hid'
    have hjlt : j < n := by
      have := (List.getElem?_eq_some_iff.mp hj).1
      rw [List.length_take] at this
      omega
    rw [List.getElem?_take_of_lt hjlt] at hj
    exact List.nodup_iff_getElem?_ne_getElem?.mp hnodup j n hjlt hlen (hj.trans hid.symm)
  have hsub : ∀ b', m.vvNew b' ⊆ s.renumberedNew b' := by
    intro b'
    rw [hvvNew]
    by_cases hb : b' = b
    · subst hb
      rw [Function.update_self]
      intro i hi
      obtain ⟨id', hid', rfl⟩ := List.mem_map.mp (List.mem_toFinset.mp hi)
      exact Finset.mem_image_of_mem _ ((hsort id').mp (List.mem_of_mem_take hid'))
    · rw [Function.update_of_ne hb]
      exact hbase b'
  have hfew : occurrences m.vvNew (s.renumber id) < 4 := by
    have hless := occurrences_lt hsub hnot (Finset.mem_image_of_mem s.renumber hmem)
    have hcount := h.new.count id info.nRefCount (view_refs_of_new hfind hfalse)
    have hfour := ((h.infos id info hfind).of_new hfalse).2
    have himage : occurrences s.renumberedNew (s.renumber id) = occurrences s.vvNew id :=
      occurrences_image h id
    rw [if_neg (by simp)] at hcount
    omega
  have hstep : loadIndex 256 b (m, serPlaces s (ids.drop n) ++ rest) =
      .ok ((m.setInfo (s.renumber id) (loadedInfo (info.record, info.fInTried) (s.renumber id)
        (occurrences m.vvNew (s.renumber id) + 1))).insertNew b (s.renumber id),
        serPlaces s (ids.drop (n + 1)) ++ rest) := by
    have hdrop : ids.drop n = id :: ids.drop (n + 1) := by
      obtain ⟨hlt', rfl⟩ := List.getElem?_eq_some_iff.mp hid
      exact List.drop_eq_getElem_cons hlt'
    have htoInt := Int32.toInt_ofNat_of_lt hlt
    have hpos : ¬Int32.ofNat (s.renumber id) < 0 := by
      rw [Int32.lt_iff_toInt_lt, htoInt]
      exact Int.not_lt.mpr (Int.natCast_nonneg _)
    rw [loadIndex, hdrop, serPlaces, List.flatMap_cons, List.append_assoc,
      readAs_ser (Codec.fits_i32 _)]
    simp only [bind, Except.bind, hpos, if_false, htoInt, Int.toNat_natCast, hload.info, hr,
      Option.map_some, Option.getD_some]
    rw [if_pos ⟨trivial, by simp only [loadedInfo]; omega⟩]
    rfl
  refine ⟨_, hstep, hload.refer hr hnot, ?_, hcounts, by rw [hids]⟩
  have htake : ids.take (n + 1) = ids.take n ++ [id] := by
    obtain ⟨hlt', rfl⟩ := List.getElem?_eq_some_iff.mp hid
    exact List.take_succ_eq_append_getElem hlt'
  simp only [insertNew, setInfo]
  rw [hids, htake, hvvNew, Function.update_idem, Function.update_self, List.map_append,
    List.toFinset_append, Finset.union_comm]
  rfl

/-- A bucket in the stream, by the places of its entries. -/
def serPlacedBucket (s : CAddrMan) (b : Fin 256) : Bytes :=
  Codec.i32.ser (Int32.ofNat (s.vvNew b).card) ++ serPlaces s ((s.vvNew b).sort (· ≤ ·))

/-- The buckets before `b` have been read. -/
structure LoadingBuckets (env : AddrEnv) (s : CAddrMan) (counts : Nat × Int × Int) (rest : Bytes)
    (b : Nat) (t : CAddrMan × Bytes) : Prop where
  loaded : Loaded env s.records t.1
  vvNew : ∀ b' : Fin 256, t.1.vvNew b' = if b'.val < b then s.renumberedNew b' else ∅
  counts : (t.1.nIdCount, t.1.nNew, t.1.nTried) = counts
  stream : t.2 = ((List.finRange 256).drop b).flatMap s.serPlacedBucket ++ rest

theorem loadBucket_turn (h : Inv env none s) (hsmall : s.order.length < 2 ^ 31)
    {counts : Nat × Int × Int} {b : Nat} (hb : b < 256) {t : CAddrMan × Bytes}
    (ht : LoadingBuckets env s counts rest b t) :
    ∃ t', loadBucket 256 b t = .ok t' ∧ LoadingBuckets env s counts rest (b + 1) t' := by
  obtain ⟨m, stream⟩ := t
  obtain ⟨hload, hvvNew, hcounts, hstream⟩ := ht
  simp only at hload hvvNew hcounts hstream
  subst hstream
  obtain ⟨c, hc⟩ : ∃ c : Fin 256, c.val = b := ⟨⟨b, hb⟩, rfl⟩
  have hfin : Fin.ofNat 256 b = c := Fin.ext (by simp [hc, hb])
  have hdrop : (List.finRange 256).drop b = c :: (List.finRange 256).drop (b + 1) := by
    have hlen : b < (List.finRange 256).length := by rwa [List.length_finRange]
    rw [List.drop_eq_getElem_cons hlen, List.getElem_finRange]
    congr 1
    exact Fin.ext hc.symm
  have hempty : m.vvNew c = ∅ := by rw [hvvNew c, if_neg (by omega)]
  have hbase : ∀ b', m.vvNew b' ⊆ s.renumberedNew b' := by
    intro b'
    rw [hvvNew b']
    split_ifs
    · exact Finset.Subset.refl _
    · exact Finset.empty_subset _
  have hcard : (Int32.ofNat (s.vvNew c).card).toInt.toNat = (s.vvNew c).card := by
    have hsize : (s.vvNew c).card ≤ 64 := h.newSize c
    rw [Int32.toInt_ofNat_of_lt (by omega), Int.toNat_natCast]
  obtain ⟨t', hloop, hbucket⟩ := forLoop_ok
    (LoadingBucket env s counts m.vvNew c
      (((List.finRange 256).drop (b + 1)).flatMap s.serPlacedBucket ++ rest))
    (a := (m, serPlaces s ((s.vvNew c).sort (· ≤ ·)) ++
      (((List.finRange 256).drop (b + 1)).flatMap s.serPlacedBucket ++ rest)))
    ⟨hload, by simp [← hempty], hcounts, rfl⟩
    fun n hn t ht => loadIndex_turn h hsmall hbase hn ht
  refine ⟨t', ?_, hbucket.loaded, fun b' => ?_, hbucket.counts, ?_⟩
  · rw [loadBucket, if_pos hb, hdrop, List.flatMap_cons, serPlacedBucket, List.append_assoc,
      List.append_assoc, readAs_ser (Codec.fits_i32 _), hfin]
    simp only [bind, Except.bind, hcard]
    exact hloop
  · have hall : ((s.vvNew c).sort (· ≤ ·)).take (s.vvNew c).card = (s.vvNew c).sort (· ≤ ·) := by
      rw [← Finset.length_sort (r := (· ≤ ·)), List.take_length]
    rw [hbucket.vvNew, hall]
    by_cases hb' : b' = c
    · subst hb'
      rw [Function.update_self, if_pos (by omega), renumberedNew]
      ext i
      simp
    · have hne : b'.val ≠ b := fun heq => hb' (Fin.ext (heq.trans hc.symm))
      rw [Function.update_of_ne hb', hvvNew b']
      exact if_congr (by omega) rfl rfl
  · have hnone : ((s.vvNew c).sort (· ≤ ·)).drop (s.vvNew c).card = [] := by
      rw [← Finset.length_sort (r := (· ≤ ·)), List.drop_length]
    rw [hbucket.stream, hnone]
    rfl

/-- **The loop over the buckets.** -/
theorem forLoop_loadBucket (h : Inv env none s) (hsmall : s.order.length < 2 ^ 31)
    (hload : Loaded env s.records m) (hempty : m.vvNew = fun _ => ∅) (rest : Bytes) :
    ∃ t, forLoop (loadBucket 256) 256
        (m, (List.finRange 256).flatMap s.serPlacedBucket ++ rest) = .ok t ∧
      LoadingBuckets env s (m.nIdCount, m.nNew, m.nTried) rest 256 t := by
  have hstart : LoadingBuckets env s (m.nIdCount, m.nNew, m.nTried) rest 0
      (m, (List.finRange 256).flatMap s.serPlacedBucket ++ rest) := by
    constructor
    case loaded => exact hload
    case vvNew =>
      intro b
      rw [if_neg (Nat.not_lt_zero _)]
      exact congrFun hempty b
    case counts => exact Eq.refl (m.nIdCount, m.nNew, m.nTried)
    case stream => rw [List.drop_zero]
  exact forLoop_ok (LoadingBuckets env s (m.nIdCount, m.nNew, m.nTried) rest) hstart
    fun _ hb _ ht => loadBucket_turn h hsmall hb ht

end CAddrMan

end Hivemind
