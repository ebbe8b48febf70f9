import Mathlib

/-!
# Elements that are kept in several places

Three ways in which a container and what is noted about its elements can agree, and what keeps
them in agreement when one element is put, moved or taken out.

A table that keeps an element in a vector and in some buckets, and notes the position and the
number of buckets with the element, has to change all of them together.  Each of the three
relations below is between the notes, as a function of the element, and one of the containers, so
that an operation that changes only one container leaves the other relations as they are.

* `Indexes`: every element of a vector knows its position.  A vector is changed by adding at the
  end (`Indexes.push`), by swapping two elements (`Indexes.swap`), and by dropping the last
  (`Indexes.pop`).
* `Filed`: every element that has a place is in the bucket of that place, once; `Filed.insert`
  and `Filed.remove` give and take a place, and the order within a bucket does not matter.
* `Counted`: an element may be in several buckets, and its number of references is the number of
  buckets it is in.  A reference is raised before the element goes into a bucket and lowered when
  it leaves, so that one element is announced for a moment; `Counted` says which.
* `sum_update`: what a sum over all buckets becomes when one of them is replaced.
-/

namespace Buckets

variable {α β γ : Type} [DecidableEq α] [DecidableEq β]

/-! ## Sums over buckets -/

/-- What a sum over all buckets becomes when one of them is replaced. -/
theorem sum_update [Fintype β] (g : γ → Nat) (vv : β → γ) (b : β) (x : γ) :
    (∑ i, g (Function.update vv b x i)) + g (vv b) = (∑ i, g (vv i)) + g x := by
  have hnew := Finset.add_sum_erase Finset.univ (fun i => g (Function.update vv b x i))
    (Finset.mem_univ b)
  have hold := Finset.add_sum_erase Finset.univ (fun i => g (vv i)) (Finset.mem_univ b)
  have hrest : ∑ i ∈ Finset.univ.erase b, g (Function.update vv b x i) =
      ∑ i ∈ Finset.univ.erase b, g (vv i) := by
    refine Finset.sum_congr rfl ?_
    intro i hi
    rw [Function.update_of_ne (Finset.ne_of_mem_erase hi)]
  simp only [Function.update_self] at hnew
  omega

/-- The number of elements of all buckets. -/
@[irreducible] def totalLength [Fintype β] (vv : β → List α) : Nat := ∑ b, (vv b).length

omit [DecidableEq α] in
theorem totalLength_update [Fintype β] (vv : β → List α) (b : β) (l : List α) :
    totalLength (Function.update vv b l) + (vv b).length = totalLength vv + l.length := by
  rw [totalLength, totalLength]
  exact sum_update List.length vv b l

omit [DecidableEq α] [DecidableEq β] in
@[simp] theorem totalLength_nil [Fintype β] : totalLength (fun _ : β => ([] : List α)) = 0 := by
  simp [totalLength]

/-! ## Positions in a vector -/

/-- The elements with a position are those of the vector, each at its position. -/
structure Indexes (pos : α → Option Int) (v : List α) : Prop where
  at_iff : ∀ a x, pos a = some x ↔ ∃ p : Nat, x = p ∧ v[p]? = some a

namespace Indexes

variable {pos : α → Option Int} {v : List α}

omit [DecidableEq α] in
theorem of_at (h : Indexes pos v) {p : Nat} {a : α} (hp : v[p]? = some a) : pos a = some p :=
  (h.at_iff a p).mpr ⟨p, rfl, hp⟩

omit [DecidableEq α] in
/-- An element is at one position only. -/
theorem unique (h : Indexes pos v) {p q : Nat} {a : α} (hp : v[p]? = some a)
    (hq : v[q]? = some a) : p = q := by
  have heq := (h.of_at hp).symm.trans (h.of_at hq)
  exact_mod_cast Option.some.inj heq

omit [DecidableEq α] in
theorem nodup (h : Indexes pos v) : v.Nodup := by
  rw [List.nodup_iff_getElem?_ne_getElem?]
  intro i j hij hj heq
  have hi : v[i]? = some v[j] := by rw [heq]; exact List.getElem?_eq_getElem hj
  have := h.unique hi (List.getElem?_eq_getElem hj)
  omega

omit [DecidableEq α] in
theorem mem_iff (h : Indexes pos v) {a : α} : a ∈ v ↔ (pos a).isSome := by
  rw [List.mem_iff_getElem?, Option.isSome_iff_exists]
  constructor
  · rintro ⟨p, hp⟩
    exact ⟨p, h.of_at hp⟩
  · rintro ⟨x, hx⟩
    obtain ⟨p, -, hp⟩ := (h.at_iff a x).mp hx
    exact ⟨p, hp⟩

/-- A new element at the end. -/
theorem push (h : Indexes pos v) {a : α} (ha : pos a = none) :
    Indexes (Function.update pos a (some v.length)) (v ++ [a]) := by
  have hnot : a ∉ v := by simp [h.mem_iff, ha]
  refine ⟨?_⟩
  intro a' x
  by_cases heq : a' = a
  · subst heq
    simp only [Function.update_self, Option.some.injEq]
    constructor
    · rintro rfl
      exact ⟨v.length, rfl, by simp⟩
    · rintro ⟨p, rfl, hp⟩
      rcases Nat.lt_or_ge p v.length with hlt | hge
      · rw [List.getElem?_append_left hlt] at hp
        exact absurd (List.mem_of_getElem? hp) hnot
      · rw [List.getElem?_append_right hge] at hp
        have : p - v.length < 1 := by
          simpa using (List.getElem?_eq_some_iff.mp hp).1
        omega
  · rw [Function.update_of_ne heq, h.at_iff]
    constructor
    · rintro ⟨p, rfl, hp⟩
      have hlt := (List.getElem?_eq_some_iff.mp hp).1
      exact ⟨p, rfl, by rw [List.getElem?_append_left hlt, hp]⟩
    · rintro ⟨p, rfl, hp⟩
      rcases Nat.lt_or_ge p v.length with hlt | hge
      · exact ⟨p, rfl, by rwa [List.getElem?_append_left hlt] at hp⟩
      · rw [List.getElem?_append_right hge] at hp
        have hmem := List.mem_of_getElem? hp
        simp only [List.mem_singleton] at hmem
        exact absurd hmem heq

/-- Two elements change places. -/
theorem swap (h : Indexes pos v) {p q : Nat} {a b : α} (hp : v[p]? = some a)
    (hq : v[q]? = some b) (hne : p ≠ q) :
    Indexes (Function.update (Function.update pos a (some q)) b (some p))
      ((v.set p b).set q a) := by
  have hab : a ≠ b := by
    rintro rfl
    exact hne (h.unique hp hq)
  have hplt := (List.getElem?_eq_some_iff.mp hp).1
  have hqlt := (List.getElem?_eq_some_iff.mp hq).1
  have hget : ∀ i, ((v.set p b).set q a)[i]? =
      if i = q then some a else if i = p then some b else v[i]? := by
    intro i
    rw [List.getElem?_set, List.getElem?_set, List.length_set]
    simp only [hplt, hqlt, if_true, eq_comm (b := i)]
  refine ⟨?_⟩
  intro c x
  simp only [hget]
  by_cases hcb : c = b
  · subst hcb
    simp only [Function.update_self, Option.some.injEq]
    constructor
    · rintro rfl
      exact ⟨p, rfl, by simp [hne]⟩
    · rintro ⟨i, rfl, hi⟩
      split_ifs at hi with h1 h2
      · simp [hab] at hi
      · rw [h2]
      · exact absurd (h.unique hi hq) h1
  · rw [Function.update_of_ne hcb]
    by_cases hca : c = a
    · subst hca
      simp only [Function.update_self, Option.some.injEq]
      constructor
      · rintro rfl
        exact ⟨q, rfl, by simp⟩
      · rintro ⟨i, rfl, hi⟩
        split_ifs at hi with h1 h2
        · rw [h1]
        · simp only [Option.some.injEq] at hi
          exact absurd hi.symm hab
        · exact absurd (h.unique hi hp) h2
    · rw [Function.update_of_ne hca, h.at_iff]
      constructor
      · rintro ⟨i, rfl, hi⟩
        refine ⟨i, rfl, ?_⟩
        rw [if_neg, if_neg, hi]
        · rintro rfl
          exact hca (by simpa [hp] using hi.symm)
        · rintro rfl
          exact hcb (by simpa [hq] using hi.symm)
      · rintro ⟨i, rfl, hi⟩
        split_ifs at hi with h1 h2
        · exact absurd (Option.some.inj hi).symm hca
        · exact absurd (Option.some.inj hi).symm hcb
        · exact ⟨i, rfl, hi⟩

/-- The last element goes. -/
theorem pop (h : Indexes pos v) {a : α} (ha : v[v.length - 1]? = some a) :
    Indexes (Function.update pos a none) v.dropLast := by
  refine ⟨?_⟩
  intro c x
  have hget : ∀ i, v.dropLast[i]? = if i < v.length - 1 then v[i]? else none := by
    intro i
    rw [List.getElem?_dropLast]
  simp only [hget]
  by_cases hca : c = a
  · subst hca
    simp only [Function.update_self, false_iff, reduceCtorEq]
    rintro ⟨i, -, hi⟩
    split_ifs at hi with hlt
    have := h.unique hi ha
    omega
  · rw [Function.update_of_ne hca, h.at_iff]
    constructor
    · rintro ⟨i, rfl, hi⟩
      have hlt := (List.getElem?_eq_some_iff.mp hi).1
      refine ⟨i, rfl, ?_⟩
      rw [if_pos, hi]
      rcases Nat.lt_or_ge i (v.length - 1) with hi' | hi'
      · exact hi'
      · have hlast : i = v.length - 1 := by omega
        rw [hlast, ha] at hi
        exact absurd (Option.some.inj hi).symm hca
    · rintro ⟨i, rfl, hi⟩
      split_ifs at hi
      exact ⟨i, rfl, hi⟩

end Indexes

/-! ## Elements with one place -/

/-- An element is in the bucket of its place, once, and in no other. -/
structure Filed (place : α → Option β) (vv : β → List α) : Prop where
  mem_iff : ∀ b a, a ∈ vv b ↔ place a = some b
  nodup : ∀ b, (vv b).Nodup

namespace Filed

variable {place : α → Option β} {vv : β → List α}

omit [DecidableEq α] in
/-- The order within a bucket does not matter. -/
theorem reorder (h : Filed place vv) {b : β} {l : List α} (hl : l.Perm (vv b)) :
    Filed place (Function.update vv b l) := by
  constructor
  · intro b' a
    by_cases hb : b' = b
    · subst hb
      rw [Function.update_self, hl.mem_iff, h.mem_iff]
    · rw [Function.update_of_ne hb, h.mem_iff]
  · intro b'
    by_cases hb : b' = b
    · subst hb
      rw [Function.update_self]
      exact hl.nodup_iff.mpr (h.nodup b')
    · rw [Function.update_of_ne hb]
      exact h.nodup b'

/-- An element without a place gets one. -/
theorem insert (h : Filed place vv) {a : α} {b : β} (ha : place a = none) :
    Filed (Function.update place a (some b)) (Function.update vv b (a :: vv b)) := by
  have hnot : ∀ b', a ∉ vv b' := by
    intro b' hmem
    rw [h.mem_iff, ha] at hmem
    cases hmem
  constructor
  · intro b' c
    by_cases hb : b' = b <;> by_cases hc : c = a
    · subst hb hc
      simp
    · subst hb
      simp [hc, h.mem_iff]
    · subst hc
      simp [hb, hnot, Ne.symm hb]
    · simp [hb, hc, h.mem_iff]
  · intro b'
    by_cases hb : b' = b
    · subst hb
      simp [hnot, h.nodup]
    · simp [hb, h.nodup]

/-- An element loses its place. -/
theorem remove (h : Filed place vv) {a : α} {b : β} {l : List α} (hl : (vv b).Perm (a :: l)) :
    Filed (Function.update place a none) (Function.update vv b l) := by
  have hnodup := hl.nodup_iff.mp (h.nodup b)
  rw [List.nodup_cons] at hnodup
  have hplace : place a = some b := (h.mem_iff b a).mp (hl.mem_iff.mpr List.mem_cons_self)
  constructor
  · intro b' c
    by_cases hb : b' = b <;> by_cases hc : c = a
    · subst hb hc
      simp [hnodup.1]
    · subst hb
      have := hl.mem_iff (a := c)
      simp [hc, ← h.mem_iff, this]
    · subst hc
      simp [hb, h.mem_iff, hplace, Ne.symm hb]
    · simp [hb, hc, h.mem_iff]
  · intro b'
    by_cases hb : b' = b
    · subst hb
      simp [hnodup.2]
    · simp [hb, h.nodup]

omit [DecidableEq α] [DecidableEq β] in
/-- All buckets one after the other have no element twice. -/
theorem nodup_flatMap (h : Filed place vv) {bs : List β} (hbs : bs.Nodup) :
    (bs.flatMap vv).Nodup := by
  rw [List.nodup_flatMap]
  refine ⟨fun b _ => h.nodup b, hbs.imp ?_⟩
  intro b b' hne a ha ha'
  rw [h.mem_iff] at ha ha'
  exact hne (Option.some.inj (ha.symm.trans ha'))

end Filed

/-! ## Elements in several buckets -/

variable [Fintype β]

/-- The number of buckets an element is in. -/
@[irreducible] def occurrences (vv : β → Finset α) (a : α) : Nat := ∑ b, if a ∈ vv b then 1 else 0

theorem occurrences_update (vv : β → Finset α) (b : β) (s : Finset α) (a : α) :
    occurrences (Function.update vv b s) a + (if a ∈ vv b then 1 else 0) =
      occurrences vv a + if a ∈ s then 1 else 0 := by
  rw [occurrences, occurrences]
  exact sum_update (fun t : Finset α => if a ∈ t then 1 else 0) vv b s

omit [DecidableEq β] in
theorem occurrences_eq_zero {vv : β → Finset α} {a : α} :
    occurrences vv a = 0 ↔ ∀ b, a ∉ vv b := by
  simp [occurrences]

/-- Another element does not count. -/
theorem occurrences_update_of_iff {vv : β → Finset α} {b : β} {s : Finset α} {a : α}
    (h : a ∈ s ↔ a ∈ vv b) : occurrences (Function.update vv b s) a = occurrences vv a := by
  have := occurrences_update vv b s a
  simp only [h] at this
  omega

omit [DecidableEq β] [Fintype β] in
/-- The occurrences, counted in the list of all buckets. -/
theorem count_flatMap {δ : Type} [LinearOrder δ] (vv : β → Finset δ) (a : δ) (bs : List β) :
    (bs.flatMap fun b => (vv b).sort (· ≤ ·)).count a =
      (bs.map fun b => if a ∈ vv b then 1 else 0).sum := by
  induction bs with
  | nil => rfl
  | cons b bs ih =>
      rw [List.flatMap_cons, List.count_append, ih, List.map_cons, List.sum_cons]
      congr 1
      rw [List.Nodup.count (Finset.sort_nodup _ _)]
      simp

/-- Every element of a bucket has a number of references, which is the number of its buckets,
and one more for the element that is about to be put into one. -/
structure Counted (refs : α → Option Int) (vv : β → Finset α) (pending : Option α) : Prop where
  known : ∀ b a, a ∈ vv b → (refs a).isSome
  count : ∀ a n, refs a = some n → n = occurrences vv a + if pending = some a then 1 else 0

namespace Counted

variable {refs : α → Option Int} {vv : β → Finset α} {pending : Option α}

omit [DecidableEq β] in
/-- An element without references is in no bucket. -/
theorem not_mem (h : Counted refs vv pending) {a : α} (ha : refs a = none) (b : β) : a ∉ vv b := by
  intro hmem
  have := h.known b a hmem
  simp [ha] at this

omit [DecidableEq β] in
/-- An element gets its first reference. -/
theorem announce (h : Counted refs vv none) {a : α} (ha : refs a = none) :
    Counted (Function.update refs a (some 1)) vv (some a) := by
  constructor
  · intro b c hmem
    by_cases hc : c = a
    · simp [hc]
    · rw [Function.update_of_ne hc]
      exact h.known b c hmem
  · intro c n hn
    by_cases hc : c = a
    · subst hc
      have hzero : occurrences vv c = 0 := occurrences_eq_zero.mpr (h.not_mem ha)
      simp only [Function.update_self, Option.some.injEq] at hn
      simp [hzero, ← hn]
    · rw [Function.update_of_ne hc] at hn
      simpa [Ne.symm hc] using h.count c n hn

omit [DecidableEq β] in
/-- An element gets one reference more. -/
theorem raise (h : Counted refs vv none) {a : α} {n : Int} (ha : refs a = some n) :
    Counted (Function.update refs a (some (n + 1))) vv (some a) := by
  constructor
  · intro b c hmem
    by_cases hc : c = a
    · simp [hc]
    · rw [Function.update_of_ne hc]
      exact h.known b c hmem
  · intro c m hm
    by_cases hc : c = a
    · subst hc
      have hcount := h.count c n ha
      simp only [Function.update_self, Option.some.injEq] at hm
      simp only [reduceCtorEq, if_false] at hcount
      simp only [if_true]
      omega
    · rw [Function.update_of_ne hc] at hm
      simpa [Ne.symm hc] using h.count c m hm

/-- The element that has been announced goes into a bucket. -/
theorem settle {a : α} (h : Counted refs vv (some a)) {b : β} (hknown : (refs a).isSome)
    (hnot : a ∉ vv b) :
    Counted refs (Function.update vv b (insert a (vv b))) none := by
  constructor
  · intro b' c hmem
    by_cases hc : c = a
    · rw [hc]
      exact hknown
    · by_cases hb : b' = b
      · subst hb
        exact h.known b' c (by simpa [hc] using hmem)
      · exact h.known b' c (by simpa [hb] using hmem)
  · intro c n hn
    have hcount := h.count c n hn
    by_cases hc : c = a
    · subst hc
      have hocc := occurrences_update vv b (insert c (vv b)) c
      simp only [hnot, Finset.mem_insert_self, if_true, if_false] at hocc
      simp only [if_true] at hcount
      simp only [reduceCtorEq, if_false]
      omega
    · rw [occurrences_update_of_iff (by simp [hc])]
      simpa [Ne.symm hc] using hcount

/-- An element that keeps other references leaves a bucket. -/
theorem lower (h : Counted refs vv pending) {a : α} {n : Int} {b : β} (ha : refs a = some n)
    (hmem : a ∈ vv b) :
    Counted (Function.update refs a (some (n - 1))) (Function.update vv b ((vv b).erase a))
      pending := by
  constructor
  · intro b' c hc'
    by_cases hc : c = a
    · simp [hc]
    · rw [Function.update_of_ne hc]
      by_cases hb : b' = b
      · subst hb
        exact h.known b' c (by simpa [hc] using hc')
      · exact h.known b' c (by simpa [hb] using hc')
  · intro c m hm
    by_cases hc : c = a
    · subst hc
      have hocc := occurrences_update vv b ((vv b).erase c) c
      have hcount := h.count c n ha
      simp only [Function.update_self, Option.some.injEq] at hm
      simp only [hmem, Finset.notMem_erase, if_true, if_false] at hocc
      omega
    · rw [Function.update_of_ne hc] at hm
      rw [occurrences_update_of_iff (by simp [hc])]
      exact h.count c m hm

omit [DecidableEq β] in
/-- An element that is in no bucket any more is forgotten. -/
theorem forget (h : Counted refs vv pending) {a : α} (hnot : ∀ b, a ∉ vv b) :
    Counted (Function.update refs a none) vv pending := by
  constructor
  · intro b c hmem
    have hc : c ≠ a := by
      rintro rfl
      exact hnot b hmem
    rw [Function.update_of_ne hc]
    exact h.known b c hmem
  · intro c n hn
    have hc : c ≠ a := by
      rintro rfl
      simp at hn
    rw [Function.update_of_ne hc] at hn
    exact h.count c n hn

omit [DecidableEq β] in
/-- An element leaves all buckets. -/
theorem clear (h : Counted refs vv pending) (a : α) :
    Counted (Function.update refs a none) (fun b => (vv b).erase a) pending := by
  constructor
  · intro b c hmem
    have hc : c ≠ a := Finset.ne_of_mem_erase hmem
    rw [Function.update_of_ne hc]
    exact h.known b c (Finset.mem_of_mem_erase hmem)
  · intro c n hn
    have hc : c ≠ a := by
      rintro rfl
      simp at hn
    rw [Function.update_of_ne hc] at hn
    have hocc : occurrences (fun b => (vv b).erase a) c = occurrences vv c := by
      simp [occurrences, hc]
    rw [hocc]
    exact h.count c n hn

end Counted
end Buckets
