import Hivemind.Net.AddrReload

/-!
# The address manager across a restart

`Unserialize` after `Serialize`, for a manager whose parts agree: nothing is lost but the ids.
The node that reads may have another key, since the key is part of the file and replaces its own;
the position of an entry in `vRandom` is the order in which it was read.

The stream is first written by the places of the entries in place of their ids, and then the
loops of the reader are run on it one after the other.  The counts have to fit the integers in
which they are written: a manager has fewer entries than its buckets have room for, and so has
each bucket.

* `serialize_eq`: the stream, by the places of the entries.
* `unserialize_written`: what is read back.
* `Renumbered`: a manager that is another one up to the ids.
* `Reached`: the managers that are reached by calls and by restarts.
* `check_of_reload`: **for every manager that is reached**, what is read back passes `Check_` and
  is the same up to the ids.
* `check_of_reload_learned`: three addresses, one of them tried, across a restart.
-/

namespace Hivemind

open Codecs Ordered Outcomes Buckets

namespace CAddrMan

variable {env : AddrEnv} {s s' m : CAddrMan} {nVersion : Int32} {rest : Bytes}

/-! ## The counts -/

theorem newCount_eq (h : Inv env none s) : (s.newCount : Int) = s.nNew := by
  have hentries := h.length_entries
  have hsize := h.size
  have hcount := h.length_tried
  have hsplit := List.length_eq_length_filter_add (l := s.mapInfo.entries) fun e => e.2.fInTried
  simp only [List.length_map] at hcount
  rw [newCount]
  omega

theorem length_order (h : Inv env none s) : (s.order.length : Int) = s.nTried + s.nNew := by
  rw [(order_perm s).length_eq, h.length_entries, h.size]

/-- An entry has references if and only if it is new. -/
theorem filter_isNew (h : Inv env none s) :
    s.mapInfo.entries.filter isNew = s.mapInfo.entries.filter fun e => !e.2.fInTried := by
  refine List.filter_congr fun e he => ?_
  have hok := h.infos e.1 e.2 (OrdMap.find_eq_some.mpr he)
  cases htried : e.2.fInTried with
  | false =>
      have hne : e.2.nRefCount ≠ 0 := by
        have := (hok.of_new htried).1
        omega
      simp [isNew, hne]
  | true => simp [isNew, (hok.of_tried htried).2]

theorem length_flatMap_le {α β : Type} {f : α → List β} {l : List α} {n : Nat}
    (h : ∀ x ∈ l, (f x).length ≤ n) : (l.flatMap f).length ≤ l.length * n := by
  have hsum := List.sum_le_card_nsmul (l.map fun x => (f x).length) n (by
    intro k hk
    obtain ⟨x, hx, rfl⟩ := List.mem_map.mp hk
    exact h x hx)
  rwa [List.length_map, smul_eq_mul, ← List.length_flatMap] at hsum

/-- There is room for so many new entries. -/
theorem newCount_le_room (h : Inv env none s) : s.newCount ≤ 256 * bucketSize := by
  have hnodup := nodup_map_fst s.mapInfo fun e => !e.2.fInTried
  have hsub : (s.mapInfo.entries.filter fun e => !e.2.fInTried).map Prod.fst ⊆
      (List.finRange 256).flatMap fun b => (s.vvNew b).sort (· ≤ ·) := by
    intro id hid
    have hsome := mem_new_iff.mp hid
    rw [h.count_new id] at hsome
    refine List.count_pos_iff.mp (Nat.pos_of_ne_zero fun hzero => ?_)
    simp [hzero] at hsome
  have hle := (List.subperm_of_subset hnodup hsub).length_le
  have hroom := length_flatMap_le (l := List.finRange 256)
    (f := fun b => (s.vvNew b).sort (· ≤ ·)) (n := bucketSize) fun b _ => by
      rw [Finset.length_sort]
      exact h.newSize b
  rw [List.length_map] at hle
  rw [List.length_finRange] at hroom
  exact hle.trans hroom

theorem nTried_le_room (h : Inv env none s) : s.nTried ≤ 64 * bucketSize := by
  have hroom := length_flatMap_le (l := List.finRange 64) fun b _ => h.triedSize b
  rw [List.length_finRange] at hroom
  rw [← h.length_tried, ← h.perm_tried.length_eq]
  exact_mod_cast hroom

theorem nTried_nonneg (h : Inv env none s) : 0 ≤ s.nTried := by
  rw [← h.nTried]
  exact Int.natCast_nonneg _

/-- A manager has fewer entries than an `int` can count. -/
theorem length_order_lt (h : Inv env none s) : s.order.length < 2 ^ 31 := by
  have hnew := newCount_le_room h
  have htried := nTried_le_room h
  have hlen := length_order h
  have hcount := newCount_eq h
  simp only [bucketSize] at hnew htried
  omega

/-! ## What is written -/

/-- The new entries are written, and the number of each is its place. -/
theorem writeNew_entries (h : Inv env none s) :
    (writeNew s.nNew OrdMap.empty 0 s.mapInfo.entries).2 =
        (s.mapInfo.entries.filter fun e => !e.2.fInTried).map Prod.snd ∧
      ∀ id ∈ (s.mapInfo.entries.filter fun e => !e.2.fInTried).map Prod.fst,
        (writeNew s.nNew OrdMap.empty 0 s.mapInfo.entries).1.find id = some (s.renumber id) := by
  have hnodup := nodup_map_fst s.mapInfo fun _ => true
  rw [List.filter_true] at hnodup
  have hcount : ((0 : Nat) : Int) + (s.mapInfo.entries.filter isNew).length = s.nNew := by
    rw [filter_isNew h, ← newCount_eq h, newCount]
    omega
  obtain ⟨hwritten, -, hnumber⟩ := writeNew_spec hnodup OrdMap.empty 0 hcount
  rw [filter_isNew h] at hwritten hnumber
  refine ⟨hwritten, fun id hid => ?_⟩
  rw [hnumber id hid, renumber, order, List.map_append, List.idxOf_append_of_mem hid,
    Nat.zero_add]

theorem writeTried_entries (h : Inv env none s) : writeTried s.nTried 0 s.mapInfo.entries =
    (s.mapInfo.entries.filter fun e => e.2.fInTried).map Prod.snd := by
  refine writeTried_spec 0 ?_
  rw [← h.length_tried, List.length_map]
  omega

theorem serBucket_eq (h : Inv env none s) (b : Fin 256) :
    serBucket (writeNew s.nNew OrdMap.empty 0 s.mapInfo.entries).1 (s.vvNew b) =
      s.serPlacedBucket b := by
  rw [serBucket, serPlacedBucket, serPlaces]
  congr 1
  refine List.flatMap_congr fun id hid => ?_
  obtain ⟨info, hfind, hfalse⟩ := h.find_of_mem ((Finset.mem_sort _).mp hid)
  have hmem : id ∈ (s.mapInfo.entries.filter fun e => !e.2.fInTried).map Prod.fst :=
    mem_map_fst.mpr ⟨info, hfind, by simp [hfalse]⟩
  rw [(writeNew_entries h).2 id hmem, Option.getD_some]

/-- What goes before the entries. -/
def serHeader (nKey : Bytes) (nNew nTried : Int) (rest : Bytes) : Bytes :=
  Codec.u8.ser 0 ++ (serBytes nKey ++ (Codec.i32.ser (Int32.ofInt nNew) ++
    (Codec.i32.ser (Int32.ofInt nTried) ++ (Codec.i32.ser 256 ++ rest))))

/-- **The stream, by the places of the entries.** -/
theorem serialize_eq (h : Inv env none s) (nKey : Bytes) :
    serialize nVersion nKey s ++ rest = serHeader nKey s.nNew s.nTried
      (streamFrom nVersion s 0 ((List.finRange 256).flatMap s.serPlacedBucket ++ rest)) := by
  have hbuckets : ((List.finRange 256).flatMap fun b =>
      serBucket (writeNew s.nNew OrdMap.empty 0 s.mapInfo.entries).1 (s.vvNew b)) =
      (List.finRange 256).flatMap s.serPlacedBucket :=
    List.flatMap_congr fun b _ => serBucket_eq h b
  simp only [serialize]
  rw [hbuckets, (writeNew_entries h).1, writeTried_entries h, serHeader, streamFrom,
    List.drop_zero, order, List.map_append]
  simp only [serInfos, List.flatMap_append, List.append_assoc]

/-! ## What is read -/

/-- `s'` is `s` up to the ids: entry `id` has become entry `f id`. -/
structure Renumbered (f : Nat → Nat) (s s' : CAddrMan) : Prop where
  entry : ∀ id info, s.mapInfo.find id = some info → ∃ info', s'.mapInfo.find (f id) = some info' ∧
    info'.record = info.record ∧ info'.fInTried = info.fInTried
  onto : ∀ i, s'.hasInfo i → ∃ id, s.hasInfo id ∧ f id = i
  inj : ∀ id id', s.hasInfo id → s.hasInfo id' → f id = f id' → id = id'
  tried : ∀ b, (s'.vvTried b).Perm ((s.vvTried b).map f)
  new : ∀ b, s'.vvNew b = (s.vvNew b).image f
  nTried : s'.nTried = s.nTried
  nNew : s'.nNew = s.nNew

theorem record_toInfo (r : AddrRecord) : r.toInfo.record = r := by
  simp [AddrRecord.toInfo, CAddrInfo.record]

theorem record_loadedInfo (r : AddrRecord × Bool) (i n : Nat) :
    (loadedInfo r i n).record = r.1 := record_toInfo r.1

theorem Loaded.renumbered (h : Inv env none s) (hm : Loaded env s.records m)
    (hnew : ∀ b, m.vvNew b = s.renumberedNew b) (hnTried : m.nTried = s.nTried)
    (hnNew : m.nNew = s.nNew) : Renumbered s.renumber s m where
  entry := by
    intro id info hfind
    rw [hm.info, records_renumber hfind]
    exact ⟨_, rfl, record_loadedInfo _ _ _, rfl⟩
  onto := by
    intro i hi
    rw [hasInfo, hm.info, Option.isSome_map, Option.isSome_iff_exists] at hi
    obtain ⟨r, hr⟩ := hi
    obtain ⟨id, info, hfind, hplace, -⟩ := getElem?_records hr
    exact ⟨id, hasInfo_of_find hfind, hplace⟩
  inj := by
    intro id id' hid _ heq
    obtain ⟨info, hfind⟩ := Option.isSome_iff_exists.mp hid
    exact renumber_inj hfind heq
  tried := by
    intro b
    have hnodup : (m.vvTried b).Nodup := by
      rw [hm.tried]
      exact List.nodup_range.filter _
    rw [List.perm_ext_iff_of_nodup hnodup (nodup_map_vvTried h b)]
    intro i
    rw [mem_map_vvTried h, hm.tried, List.mem_filter, Option.any_eq_true, List.mem_range]
    constructor
    · rintro ⟨-, r, hr, hbucket⟩
      rw [Bool.and_eq_true, decide_eq_true_eq] at hbucket
      exact ⟨r, hr, hbucket⟩
    · rintro ⟨r, hr, htried, hbucket⟩
      exact ⟨(List.getElem?_eq_some_iff.mp hr).1, r, hr, by simp [htried, hbucket]⟩
  new := hnew
  nTried := hnTried
  nNew := hnNew

theorem toInt_lastSuccess {id : Nat} {info : CAddrInfo} (h : Inv env none s) (htimed : Timed s)
    (hfind : s.mapInfo.find id = some info) :
    info.record.nLastSuccess.toInt = info.nLastSuccess := by
  have hlow := (h.infos id info hfind).lastSuccess
  have hhigh := htimed id info hfind
  exact Int64.toInt_ofInt_of_le (by omega) (by omega)

theorem totalLength_congr {vv vv' : Fin 64 → List Nat}
    (h : ∀ b, (vv b).length = (vv' b).length) : totalLength vv = totalLength vv' := by
  simp only [totalLength, h]

/-- The parts of what was read agree. -/
theorem Loaded.inv_of_renumbered (h : Inv env none s) (htimed : Timed s)
    (hm : Loaded env s.records m) (hsame : Renumbered s.renumber s m)
    (hcount : m.nIdCount = s.order.length) : Inv env none m := by
  refine hm.inv ?_ ?_ ?_ ?_ ?_ ?_ ?_ ?_
  · rw [hcount, length_records]
  · intro r hr
    obtain ⟨i, hat⟩ := List.mem_iff_getElem?.mp hr
    obtain ⟨id, info, hfind, -, rfl⟩ := getElem?_records hat
    rw [toInt_lastSuccess h htimed hfind]
    have hok := h.infos id info hfind
    exact ⟨hok.lastSuccess, fun htried => (hok.of_tried htried).1⟩
  · intro i r hr hfalse
    obtain ⟨id, info, hfind, rfl, rfl⟩ := getElem?_records hr
    have himage : occurrences m.vvNew (s.renumber id) = occurrences s.vvNew id := by
      rw [funext hsame.new]
      exact occurrences_image h id
    have hrefs := h.new.count id info.nRefCount (view_refs_of_new hfind hfalse)
    have hrange := (h.infos id info hfind).of_new hfalse
    rw [if_neg (by simp)] at hrefs
    omega
  · intro b i hi
    rw [hsame.new, Finset.mem_image] at hi
    obtain ⟨id, hid, rfl⟩ := hi
    obtain ⟨info, hfind, hfalse⟩ := h.find_of_mem hid
    exact ⟨_, records_renumber hfind, hfalse⟩
  · intro b
    rw [(hsame.tried b).length_eq, List.length_map]
    exact h.triedSize b
  · intro b
    rw [hsame.new]
    exact Finset.card_image_le.trans (h.newSize b)
  · have hlengths : totalLength m.vvTried = totalLength s.vvTried :=
      totalLength_congr fun b => by rw [(hsame.tried b).length_eq, List.length_map]
    rw [hsame.nTried, ← h.nTried, hlengths]
  · rw [hsame.nTried, hsame.nNew, ← length_order h, length_records]

theorem Timed.of_renumbered (h : Inv env none s) (htimed : Timed s)
    (hm : Loaded env s.records m) : Timed m := by
  intro i info' hfind'
  rw [hm.info, Option.map_eq_some_iff] at hfind'
  obtain ⟨r, hr, rfl⟩ := hfind'
  obtain ⟨id, info, hfind, -, rfl⟩ := getElem?_records hr
  have htime := htimed id info hfind
  rw [← toInt_lastSuccess h htimed hfind] at htime
  exact htime

theorem toInt_count {n : Nat} (hn : n < 2 ^ 31) : (Int32.ofInt n).toInt = n :=
  Int32.toInt_ofInt_of_le (by omega) (by omega)

/-- The loops of the reader, after the header. -/
theorem unserialize_serHeader {n k : Nat} (hn : n < 2 ^ 31) (hk : k < 2 ^ 31)
    (hkey : env.nKey.length = 32) (nKey : Bytes) (body : Bytes) :
    unserialize { env with nKey := nKey } (serHeader env.nKey n k body) = (do
      let new ← forLoop (loadNew env 256) n ({ nNew := n }, body)
      let tried ← forLoop (fun _ => loadTried env) k (({ new.1 with nIdCount := n }, 0), new.2)
      let filled ← forLoop (loadBucket 256) 256
        ({ tried.1.1 with nTried := k - tried.1.2 }, tried.2)
      .ok ((env.nKey, filled.1), filled.2)) := by
  have hfits : (vectorCodec Codec.u8).Fits env.nKey :=
    fits_vectorCodec.mpr ⟨by rw [hkey]; decide, fun _ _ => Codec.fits_u8 _⟩
  have hbuckets : (256 : Int32).toInt.toNat = 256 := rfl
  rw [serHeader, unserialize, readAs_ser (Codec.fits_u8 _)]
  simp only [bind, Except.bind, serBytes]
  rw [readAs_ser hfits]
  simp only
  rw [readAs_ser (Codec.fits_i32 _)]
  simp only
  rw [readAs_ser (Codec.fits_i32 _)]
  simp only
  rw [readAs_ser (Codec.fits_i32 _)]
  simp only [toInt_count hn, toInt_count hk, Int.toNat_natCast, hbuckets]

theorem streamFrom_order (s : CAddrMan) : streamFrom nVersion s s.order.length rest = rest := by
  rw [streamFrom, List.drop_length]
  rfl

/-- **What is read back** is the manager that was written, up to the ids. -/
theorem unserialize_written (h : Inv env none s) (htimed : Timed s)
    (hkey : env.nKey.length = 32) (nVersion : Int32) (nKey : Bytes) (rest : Bytes) :
    ∃ s', unserialize { env with nKey := nKey } (serialize nVersion env.nKey s ++ rest) =
        .ok ((env.nKey, s'), rest) ∧
      Inv env none s' ∧ Timed s' ∧ Renumbered s.renumber s s' := by
  obtain ⟨k, hk⟩ := Int.eq_ofNat_of_zero_le (nTried_nonneg h)
  have hnNew := newCount_eq h
  have hlt := length_order_lt h
  have hsum : s.newCount + k = s.order.length := by
    have := length_order h
    omega
  have hall : s.records.take (s.newCount + k) = s.records := by
    rw [hsum, ← length_records, List.take_length]
  generalize hbody : (List.finRange 256).flatMap s.serPlacedBucket ++ rest = body
  obtain ⟨t1, hloop1, ht1⟩ := forLoop_loadNew h nVersion body s.newCount
  obtain ⟨t2, hloop2, ht2⟩ := forLoop_loadTried h hsum ht1
  obtain ⟨⟨m, nLost⟩, stream⟩ := t2
  obtain ⟨hload, hempty, hcount, hnew, hlost, hstream⟩ := ht2
  simp only at hload hempty hcount hnew hlost hstream
  rw [hall] at hload
  rw [hsum, streamFrom_order] at hstream
  subst hlost hstream hbody
  have hfilled : Loaded env s.records { m with nTried := k } :=
    ⟨hload.info, hload.addr, hload.random, hload.tried⟩
  obtain ⟨⟨s', stream⟩, hloop3, hload', hvvNew, hcounts, hend⟩ :=
    forLoop_loadBucket h hlt hfilled hempty rest
  simp only [Prod.mk.injEq] at hload' hvvNew hcounts
  have hrest : stream = rest := by
    refine hend.trans ?_
    rw [List.drop_eq_nil_of_le (List.length_finRange (n := 256)).le]
    rfl
  rw [hrest] at hloop3
  have hsame : Renumbered s.renumber s s' := by
    refine hload'.renumbered h (fun b => ?_) (hcounts.2.2.trans hk.symm)
      ((hcounts.2.1.trans hnew).trans hnNew)
    rw [hvvNew b, if_pos b.isLt]
  refine ⟨s', ?_, hload'.inv_of_renumbered h htimed hsame ?_, Timed.of_renumbered h htimed hload',
    hsame⟩
  · rw [serialize_eq h, ← hnNew, hk]
    refine (unserialize_serHeader (by omega) (by omega) hkey nKey _).trans ?_
    simp only [hloop1, hloop2, hloop3, bind, Except.bind, Nat.cast_zero, sub_zero]
  · rw [hcounts.1, hcount, hsum]

/-! ## Managers that are reached -/

/-- The managers that are reached by calls and by restarts, the key being that of `env`. -/
inductive Reached (env : AddrEnv) : CAddrMan → Prop
  | empty : Reached env {}
  | call {s s' : CAddrMan} (op : AddrOp × Choices) (hs : Reached env s) (hvalid : op.1.Valid)
      (htimed : op.1.Timed) (hcall : call env s op = .ok s') : Reached env s'
  | reload {s s' : CAddrMan} (nVersion : Int32) (nKey : Bytes) {rest : Bytes}
      (hs : Reached env s)
      (hread : unserialize { env with nKey := nKey } (serialize nVersion env.nKey s) =
        .ok ((env.nKey, s'), rest)) : Reached env s'

theorem Reached.inv (hkey : env.nKey.length = 32) (h : Reached env s) :
    Inv env none s ∧ Timed s := by
  induction h with
  | empty => exact ⟨inv_empty, Timed.empty⟩
  | call op hs hvalid htimed hcall ih =>
      obtain ⟨hinv, hold⟩ := ih
      obtain ⟨s', hcall', hinv'⟩ := call_spec hinv hvalid
      obtain rfl := Except.ok.inj (hcall.symm.trans hcall')
      exact ⟨hinv', call_timed hold htimed hcall⟩
  | reload nVersion nKey hs hread ih =>
      obtain ⟨hinv, hold⟩ := ih
      obtain ⟨s', hread', hinv', htimed', -⟩ :=
        unserialize_written hinv hold hkey nVersion nKey []
      rw [List.append_nil, hread, Except.ok.injEq, Prod.mk.injEq, Prod.mk.injEq] at hread'
      obtain ⟨⟨-, rfl⟩, -⟩ := hread'
      exact ⟨hinv', htimed'⟩

/-- Whatever a run of calls leaves is reached. -/
theorem Reached.run {ops : List (AddrOp × Choices)} (hvalid : ∀ op ∈ ops, op.1.Valid)
    (htimed : ∀ op ∈ ops, op.1.Timed) (h : Reached env s) {s' : CAddrMan}
    (hrun : ops.foldlM (CAddrMan.call env) s = .ok s') : Reached env s' := by
  induction ops generalizing s with
  | nil =>
      cases hrun
      exact h
  | cons op ops ih =>
      rw [List.foldlM_cons, bind_eq_ok] at hrun
      obtain ⟨s₁, hcall, hrest⟩ := hrun
      exact ih (fun op' hop => hvalid op' (List.mem_cons_of_mem _ hop))
        (fun op' hop => htimed op' (List.mem_cons_of_mem _ hop))
        (.call op h (hvalid op (List.mem_cons_self ..)) (htimed op (List.mem_cons_self ..)) hcall)
        hrest

end CAddrMan

/-- **The address manager survives a restart.**  Whatever calls and restarts came before, what is
written can be read back by a manager with any other key: it passes `Check_`, and has the key and
the counters, and up to the ids the entries and the buckets that were written. -/
theorem check_of_reload {env : AddrEnv} (hkey : env.nKey.length = 32) {s : CAddrMan}
    (h : CAddrMan.Reached env s) (nVersion : Int32) (nKey : Bytes) (rest : Bytes) :
    ∃ s' f, CAddrMan.unserialize { env with nKey := nKey }
          (CAddrMan.serialize nVersion env.nKey s ++ rest) = .ok ((env.nKey, s'), rest) ∧
        s'.check = .ok () ∧ CAddrMan.Renumbered f s s' := by
  obtain ⟨hinv, htimed⟩ := h.inv hkey
  obtain ⟨s', hread, hinv', -, hsame⟩ :=
    CAddrMan.unserialize_written hinv htimed hkey nVersion nKey rest
  exact ⟨s', s.renumber, hread, hinv'.check_ok, hsame⟩

/-- A manager with a key for which all addresses are in one bucket. -/
def oneBucketKeyed : AddrEnv := { oneBucket with nKey := List.replicate 32 1 }

/-- Three addresses are learned; of the one that is tried, a connection succeeds. -/
def learnedCalls : List (AddrOp × Choices) :=
  [(.add ⟨⟨Blob.fill 7, 8333⟩, 1, 1000⟩ (Blob.fill 8) 0, ⟨fun _ => 0, fun _ => 1000⟩),
    (.add ⟨⟨Blob.fill 9, 8333⟩, 1, 1001⟩ (Blob.fill 8) 0, ⟨fun _ => 0, fun _ => 1001⟩),
    (.add ⟨⟨Blob.fill 10, 8334⟩, 1, 1002⟩ (Blob.fill 9) 0, ⟨fun _ => 0, fun _ => 1002⟩),
    (.attempt ⟨Blob.fill 9, 8333⟩ 1003, ⟨fun _ => 0, fun _ => 1003⟩),
    (.good ⟨Blob.fill 9, 8333⟩ 1004, ⟨fun _ => 3, fun _ => 1004⟩)]

/-- The manager is written and read back by one with another key. -/
theorem check_of_reload_learned :
    ∃ s s' f, CAddrMan.run oneBucketKeyed learnedCalls = .ok s ∧ s.nNew = 2 ∧ s.nTried = 1 ∧
      CAddrMan.unserialize { oneBucketKeyed with nKey := [] }
        (CAddrMan.serialize 1 oneBucketKeyed.nKey s ++ []) = .ok ((oneBucketKeyed.nKey, s'), []) ∧
      s'.check = .ok () ∧ CAddrMan.Renumbered f s s' := by
  have hvalid : ∀ op ∈ learnedCalls, op.1.Valid := by simp [learnedCalls, AddrOp.Valid]
  have htimed : ∀ op ∈ learnedCalls, op.1.Timed := by simp [learnedCalls, AddrOp.Timed]
  have hcounts : ((CAddrMan.run oneBucketKeyed learnedCalls).toOption.map fun s =>
      (s.nNew, s.nTried)) = some (2, 1) := by decide +kernel
  obtain ⟨s, hs, hpair⟩ := Option.map_eq_some_iff.mp hcounts
  have hrun := toOption_eq_some.mp hs
  have hreached := CAddrMan.Reached.run hvalid htimed .empty hrun
  obtain ⟨s', f, hread⟩ := check_of_reload (by decide) hreached 1 [] []
  exact ⟨s, s', f, hrun, congrArg Prod.fst hpair, congrArg Prod.snd hpair, hread⟩

end Hivemind
