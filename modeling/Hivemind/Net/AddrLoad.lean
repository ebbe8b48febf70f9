import Hivemind.Net.AddrCheck
import Hivemind.Net.AddrDisk

/-!
# What is read back of the address manager

`Loaded` says what the reader has built from a list of entries: the ids are the places in the
list.  Each turn of its loops keeps that, and where the entries and the buckets are those of a
manager whose parts agree, the parts of the new one agree too.

The reader never compares with the manager that was written; it knows the entries, one after the
other, and for each of them whether it is tried.  So the invariant of its loops is about that
list, and the comparison is made once, at the end, through the order in which the entries were
written: `renumber` is the place of an entry in that order.

* `Loaded.push`, `Loaded.refer`: one entry more, and one reference more.
* `Loaded.inv`: **the parts of a loaded manager agree.**
* `order`, `renumber`: the order in which entries are written, and the id that an entry gets.
* `records_fresh`: no two entries have one address.
* `occurrences_image`: a new entry is in as many buckets by its place as by its id.
-/

namespace Hivemind

open Codecs Ordered Outcomes Buckets

namespace CAddrMan

/-- An entry that was read, as entry `i` with `n` references. -/
def loadedInfo (r : AddrRecord × Bool) (i n : Nat) : CAddrInfo :=
  { r.1.toInfo with nRefCount := n, fInTried := r.2, nRandomPos := i }

/-- The manager that has been built from the entries `recs`, each with whether it is tried. -/
structure Loaded (env : AddrEnv) (recs : List (AddrRecord × Bool)) (m : CAddrMan) : Prop where
  info : ∀ i, m.mapInfo.find i = recs[i]?.map fun r => loadedInfo r i (occurrences m.vvNew i)
  addr : ∀ a i, m.mapAddr.find a = some i ↔ ∃ r, recs[i]? = some r ∧ r.1.service.ip = a
  random : m.vRandom = List.range recs.length
  tried : ∀ b, m.vvTried b = (List.range recs.length).filter fun i =>
    recs[i]?.any fun r => r.2 && decide (env.getTriedBucket r.1.service = b)

namespace Loaded

variable {env : AddrEnv} {recs : List (AddrRecord × Bool)} {m : CAddrMan} {r : AddrRecord × Bool}

theorem empty (nNew : Int) : Loaded env [] { nNew := nNew } where
  info := by simp
  addr := by simp
  random := rfl
  tried := by simp

/-- **One entry more**, with an address that is not there yet. -/
theorem push (h : Loaded env recs m) (hfresh : ∀ r' ∈ recs, r'.1.service.ip ≠ r.1.service.ip)
    (hunused : occurrences m.vvNew recs.length = 0) {vvTried : Fin 64 → List Nat}
    (htried : ∀ b, vvTried b = m.vvTried b ++
      if r.2 && decide (env.getTriedBucket r.1.service = b) then [recs.length] else [])
    (nIdCount : Nat) :
    Loaded env (recs ++ [r])
      { m.enter recs.length (loadedInfo r recs.length 0) with
        vvTried := vvTried, nIdCount := nIdCount } where
  info := by
    intro i
    simp only [enter, OrdMap.find_put]
    split_ifs with hi
    · subst hi
      simp [hunused]
    · rw [h.info i]
      rcases Nat.lt_or_ge i recs.length with hlt | hge
      · rw [List.getElem?_append_left hlt]
      · rw [List.getElem?_eq_none hge, List.getElem?_eq_none (by simp; omega)]
  addr := by
    intro a i
    simp only [enter, OrdMap.find_put]
    rcases Nat.lt_trichotomy i recs.length with hlt | rfl | hgt
    · rw [List.getElem?_append_left hlt, ← h.addr a i]
      split_ifs with ha
      · constructor
        · intro heq
          exact absurd (Option.some.inj heq) (Nat.ne_of_gt hlt)
        · intro heq
          obtain ⟨r', hr', hip⟩ := (h.addr a i).mp heq
          exact absurd (hip.trans ha) (hfresh r' (List.mem_of_getElem? hr'))
      · exact Iff.rfl
    · rw [List.getElem?_concat_length]
      split_ifs with ha
      · simp [ha, loadedInfo, AddrRecord.toInfo]
      · constructor
        · intro heq
          obtain ⟨r', hr', -⟩ := (h.addr a _).mp heq
          simp at hr'
        · rintro ⟨r', hr', hip⟩
          obtain rfl := Option.some.inj hr'
          exact absurd hip.symm ha
    · rw [List.getElem?_eq_none (by simp; omega)]
      split_ifs with ha
      · simp [Nat.ne_of_lt hgt]
      · have hnone : recs[i]? = none := List.getElem?_eq_none (by omega)
        simp [h.addr a i, hnone]
  random := by
    simp only [enter, h.random, List.length_append, List.length_singleton, List.range_succ]
  tried := by
    intro b
    simp only
    rw [htried b, h.tried b, List.length_append, List.length_singleton, List.range_succ,
      List.filter_append]
    congr 1
    · refine List.filter_congr fun i hi => ?_
      rw [List.getElem?_append_left (List.mem_range.mp hi)]
    · simp [List.filter_singleton]

/-- **One reference more**, in a bucket that does not have it yet. -/
theorem refer (h : Loaded env recs m) {i : Nat} (hr : recs[i]? = some r) {b : Fin 256}
    (hnot : i ∉ m.vvNew b) :
    Loaded env recs
      ((m.setInfo i (loadedInfo r i (occurrences m.vvNew i + 1))).insertNew b i) where
  info := by
    intro j
    simp only [setInfo, insertNew, OrdMap.find_put]
    split_ifs with hj
    · subst hj
      have hcount := occurrences_update m.vvNew b (insert j (m.vvNew b)) j
      simp only [hnot, if_false, Finset.mem_insert_self, if_true] at hcount
      rw [hr, Option.map_some, ← hcount, Nat.add_zero]
    · rw [h.info j, occurrences_update_of_iff (by simp [hj])]
  addr := h.addr
  random := h.random
  tried := h.tried

/-! ## The parts agree -/

/-- **The parts of a loaded manager agree**, when its references are those of a manager. -/
theorem inv (h : Loaded env recs m) (hsize : m.nIdCount = recs.length)
    (htimes : ∀ r ∈ recs, 0 ≤ r.1.nLastSuccess.toInt ∧
      (r.2 = true → r.1.nLastSuccess.toInt ≠ 0))
    (hnew : ∀ (i : Nat) r, recs[i]? = some r → r.2 = false →
      1 ≤ occurrences m.vvNew i ∧ occurrences m.vvNew i ≤ 4)
    (hknown : ∀ b, ∀ i ∈ m.vvNew b, ∃ r, recs[i]? = some r ∧ r.2 = false)
    (htriedSize : ∀ b, (m.vvTried b).length ≤ bucketSize)
    (hnewSize : ∀ b, (m.vvNew b).card ≤ bucketSize)
    (hnTried : (totalLength m.vvTried : Int) = m.nTried)
    (hcount : m.nTried + m.nNew = recs.length) : Inv env none m := by
  have hview : ∀ {γ : Type} (f : CAddrInfo → Option γ) (i : Nat), view f m.mapInfo i =
      recs[i]?.bind fun r => f (loadedInfo r i (occurrences m.vvNew i)) := by
    intro γ f i
    rw [view, h.info i]
    cases recs[i]? <;> rfl
  constructor
  case toLinked =>
    constructor
    case random =>
      refine ⟨fun i p => ?_⟩
      have hat : ∀ q, (List.range recs.length)[q]? = some i ↔ q = i ∧ i < recs.length := by
        intro q
        rw [List.getElem?_eq_some_iff]
        simp only [List.length_range, List.getElem_range]
        constructor
        · rintro ⟨hlt, rfl⟩
          exact ⟨rfl, hlt⟩
        · rintro ⟨rfl, hlt⟩
          exact ⟨hlt, rfl⟩
      simp only [hview, h.random, hat]
      cases hr : recs[i]? with
      | none =>
          have hlen := List.getElem?_eq_none_iff.mp hr
          simp [Nat.not_lt.mpr hlen]
      | some r =>
          have hlt := (List.getElem?_eq_some_iff.mp hr).1
          simp [CAddrInfo.pos, loadedInfo, hlt, eq_comm]
    case addr =>
      intro a i
      rw [h.addr a i, hview]
      cases hr : recs[i]? with
      | none => simp
      | some r => simp [CAddrInfo.addr, loadedInfo, AddrRecord.toInfo]
    case fresh =>
      intro i hle
      rw [h.info i, List.getElem?_eq_none (by omega), Option.map_none]
  case infos =>
    intro i info hfind
    rw [h.info i] at hfind
    obtain ⟨r, hr, rfl⟩ := Option.map_eq_some_iff.mp hfind
    obtain ⟨htime, hne⟩ := htimes r (List.mem_of_getElem? hr)
    refine ⟨le_rfl, htime, fun htried => ⟨hne htried, ?_⟩, fun hfalse => ?_⟩
    · have hzero : occurrences m.vvNew i = 0 := by
        refine occurrences_eq_zero.mpr fun b hmem => ?_
        obtain ⟨r', hr', hfalse⟩ := hknown b i hmem
        rw [hr] at hr'
        obtain rfl := Option.some.inj hr'
        exact absurd (htried.symm.trans hfalse) Bool.noConfusion
      simp [loadedInfo, hzero]
    · have := hnew i r hr hfalse
      simp only [loadedInfo]
      omega
  case tried =>
    constructor
    · intro b i
      rw [h.tried b, hview, List.mem_filter, List.mem_range]
      cases hr : recs[i]? with
      | none => simp
      | some r =>
          have hlt := (List.getElem?_eq_some_iff.mp hr).1
          cases htried : r.2 with
          | true => simp [CAddrInfo.place, loadedInfo, AddrRecord.toInfo, htried, hlt]
          | false => simp [CAddrInfo.place, loadedInfo, htried]
    · intro b
      rw [h.tried b]
      exact List.nodup_range.filter _
  case triedSize => exact htriedSize
  case new =>
    constructor
    · intro b i hmem
      obtain ⟨r, hr, hfalse⟩ := hknown b i hmem
      rw [hview, hr]
      simp [CAddrInfo.refs, loadedInfo, hfalse]
    · intro i n hn
      rw [hview] at hn
      obtain ⟨r, hr, hrefs⟩ := Option.bind_eq_some_iff.mp hn
      cases htried : r.2 with
      | true => simp [CAddrInfo.refs, loadedInfo, htried] at hrefs
      | false =>
          have hcounted : (occurrences m.vvNew i : Int) = n := by
            simpa [CAddrInfo.refs, loadedInfo, htried] using hrefs
          simp [hcounted]
  case newSize => exact hnewSize
  case pendingKnown => exact fun id hid => by cases hid
  case nTried => exact hnTried
  case size => rw [hcount, h.random, List.length_range]

end Loaded

/-! ## The order in which entries are written -/

/-- The new entries, and then the tried ones. -/
def order (s : CAddrMan) : List (Nat × CAddrInfo) :=
  (s.mapInfo.entries.filter fun e => !e.2.fInTried) ++
    s.mapInfo.entries.filter fun e => e.2.fInTried

/-- The place of an entry in this order, which is the id it gets. -/
def renumber (s : CAddrMan) (id : Nat) : Nat := (s.order.map Prod.fst).idxOf id

/-- What is stored of the entries, each with whether it is tried. -/
def records (s : CAddrMan) : List (AddrRecord × Bool) :=
  s.order.map fun e => (e.2.record, e.2.fInTried)

section Order

variable {env : AddrEnv} {s : CAddrMan} {id id' i : Nat} {info info' : CAddrInfo}
  {r : AddrRecord × Bool}

theorem order_perm (s : CAddrMan) : s.order.Perm s.mapInfo.entries := by
  have hperm := List.filter_append_perm (fun e : Nat × CAddrInfo => !e.2.fInTried)
    s.mapInfo.entries
  simpa [order] using hperm

theorem nodup_order (s : CAddrMan) : (s.order.map Prod.fst).Nodup := by
  have hnodup := nodup_map_fst s.mapInfo fun _ => true
  rw [List.filter_true] at hnodup
  exact ((order_perm s).map _).nodup_iff.mpr hnodup

theorem mem_order : (id, info) ∈ s.order ↔ s.mapInfo.find id = some info := by
  rw [(order_perm s).mem_iff, OrdMap.find_eq_some]

@[simp] theorem length_records (s : CAddrMan) : s.records.length = s.order.length := by
  rw [records, List.length_map]

/-- The entry that has a place. -/
theorem getElem?_records (hr : s.records[i]? = some r) :
    ∃ id info, s.mapInfo.find id = some info ∧ s.renumber id = i ∧
      r = (info.record, info.fInTried) := by
  rw [records, List.getElem?_map, Option.map_eq_some_iff] at hr
  obtain ⟨⟨id, info⟩, hat, rfl⟩ := hr
  have hid : (s.order.map Prod.fst)[i]? = some id := by
    rw [List.getElem?_map, hat, Option.map_some]
  obtain ⟨hlt, hget⟩ := List.getElem?_eq_some_iff.mp hid
  refine ⟨id, info, mem_order.mp (List.mem_of_getElem? hat), ?_, rfl⟩
  rw [renumber, ← hget, (nodup_order s).idxOf_getElem]

/-- The place of an entry. -/
theorem records_renumber (hfind : s.mapInfo.find id = some info) :
    s.records[s.renumber id]? = some (info.record, info.fInTried) := by
  obtain ⟨i, hat⟩ := List.mem_iff_getElem?.mp (mem_order.mpr hfind)
  have hr : s.records[i]? = some (info.record, info.fInTried) := by
    rw [records, List.getElem?_map, hat, Option.map_some]
  have hid : (s.order.map Prod.fst)[i]? = some id := by
    rw [List.getElem?_map, hat, Option.map_some]
  obtain ⟨hlt, hget⟩ := List.getElem?_eq_some_iff.mp hid
  have hplace : s.renumber id = i := by rw [renumber, ← hget, (nodup_order s).idxOf_getElem]
  rw [hplace, hr]

theorem renumber_inj (hfind : s.mapInfo.find id = some info)
    (h : s.renumber id = s.renumber id') : id = id' := by
  have hmem : id ∈ s.order.map Prod.fst := List.mem_map_of_mem (mem_order.mpr hfind)
  exact (List.idxOf_inj hmem).mp h

/-- No two entries have one address. -/
theorem records_fresh (h : Inv env none s) (hi : s.records[i]? = some r) :
    ∀ r' ∈ s.records.take i, r'.1.service.ip ≠ r.1.service.ip := by
  intro r' hmem heq
  obtain ⟨j, hj⟩ := List.mem_iff_getElem?.mp hmem
  have hlt : j < i := by
    have := (List.getElem?_eq_some_iff.mp hj).1
    rw [List.length_take] at this
    omega
  rw [List.getElem?_take_of_lt hlt] at hj
  obtain ⟨id, info, hfind, rfl, rfl⟩ := getElem?_records hi
  obtain ⟨id', info', hfind', rfl, rfl⟩ := getElem?_records hj
  have haddr := (h.addr info.service.ip id).mpr (by simp [view_of_find hfind, CAddrInfo.addr])
  have haddr' := (h.addr info'.service.ip id').mpr (by simp [view_of_find hfind', CAddrInfo.addr])
  have hip : info'.service.ip = info.service.ip := heq
  rw [hip, haddr] at haddr'
  obtain rfl := Option.some.inj haddr'
  exact absurd hlt (Nat.lt_irrefl _)

/-- The tried entries of a bucket by their places. -/
theorem mem_map_vvTried (h : Inv env none s) (b : Fin 64) :
    i ∈ (s.vvTried b).map s.renumber ↔
      ∃ r, s.records[i]? = some r ∧ r.2 = true ∧ env.getTriedBucket r.1.service = b := by
  rw [List.mem_map]
  constructor
  · rintro ⟨id, hmem, rfl⟩
    obtain ⟨info, hfind, htried, hbucket⟩ := h.find_of_mem_tried hmem
    exact ⟨_, records_renumber hfind, htried, hbucket⟩
  · rintro ⟨r, hr, htried, hbucket⟩
    obtain ⟨id, info, hfind, rfl, rfl⟩ := getElem?_records hr
    refine ⟨id, (h.tried.mem_iff b id).mpr ?_, rfl⟩
    have htried' : info.fInTried = true := htried
    rw [view_of_find hfind, CAddrInfo.place, if_pos htried']
    exact congrArg some hbucket

theorem nodup_map_vvTried (h : Inv env none s) (b : Fin 64) :
    ((s.vvTried b).map s.renumber).Nodup := by
  refine List.Nodup.map_on ?_ (h.tried.nodup b)
  intro id hid id' _ heq
  obtain ⟨info, hfind, -⟩ := h.find_of_mem_tried hid
  exact renumber_inj hfind heq

/-- A new entry is in as many buckets by its place as by its id. -/
theorem occurrences_image (h : Inv env none s) (id : Nat) :
    occurrences (fun b => (s.vvNew b).image s.renumber) (s.renumber id) =
      occurrences s.vvNew id := by
  rw [occurrences, occurrences]
  refine Finset.sum_congr rfl fun b _ => if_congr ?_ rfl rfl
  rw [Finset.mem_image]
  constructor
  · rintro ⟨id', hmem, heq⟩
    obtain ⟨info', hfind', -⟩ := h.find_of_mem hmem
    rwa [renumber_inj hfind' heq] at hmem
  · exact fun hmem => ⟨id, hmem, rfl⟩

end Order

end CAddrMan

end Hivemind
