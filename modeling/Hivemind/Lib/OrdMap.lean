import Mathlib.Data.List.Basic
import Mathlib.Data.List.Lex
import Mathlib.Data.List.Nodup
import Mathlib.Algebra.BigOperators.Group.List.Basic
import Mathlib.Algebra.Group.Int.Defs
import Mathlib.Order.Lattice

/-!
# Finite ordered maps

A finite map is the list of its entries in strictly increasing key order, so the order of
iteration is part of the value.  This is the shape of an ordered key-value store (`seek` and scan
forward) and of a table whose entries are summed.

The order is a field of the structure, so that every map is sorted and two maps with the same
lookups are equal.  The operations rebuild the list of entries from its two halves below and
above a key, which keeps each of them a definition by filters and makes the proofs that they keep
the order short; a lookup is the first entry with the key.

* `find_put`, `find_erase`: the last write wins, and nothing else changes.
* `ext_find`, `ext_mem`: a map is determined by its lookups, and by its entries.
* `find_putAll`: a batch of writes leaves the last one for each key.
* `foldlM_entries`: a loop over all entries that writes under the key of each.
* `total_put`, `total_erase`: how a write moves a sum over all entries.
* `le_of_head`, `le_of_getLast`: the first and the last entry have the least and the greatest
  key.
* `scan_eq_filter`: **a scan is complete**: seeking and reading on while a convex condition holds
  visits exactly the entries that satisfy it.
* `prefix_convex`: the keys that share a prefix form an interval.
-/

namespace Ordered

/-- A finite map with its entries in increasing key order. -/
structure OrdMap (α β : Type) [LinearOrder α] where
  entries : List (α × β)
  sorted : entries.Pairwise (fun p q => p.1 < q.1)

namespace OrdMap

variable {α β : Type} [LinearOrder α]

/-- The map without entries. -/
def empty : OrdMap α β := ⟨[], .nil⟩

/-- The value stored under a key. -/
def find (k : α) (m : OrdMap α β) : Option β :=
  (m.entries.find? (fun p => p.1 == k)).map Prod.snd

/-- Store a value under a key, replacing what was there. -/
def put (k : α) (v : β) (m : OrdMap α β) : OrdMap α β where
  entries := m.entries.filter (fun p => p.1 < k) ++ (k, v) :: m.entries.filter (fun p => k < p.1)
  sorted := by
    refine List.pairwise_append.mpr ⟨m.sorted.filter _, ?_, ?_⟩
    · refine List.pairwise_cons.mpr ⟨?_, m.sorted.filter _⟩
      intro q hq
      simpa using (List.mem_filter.mp hq).2
    · intro p hp q hq
      have hpk : p.1 < k := by simpa using (List.mem_filter.mp hp).2
      rcases List.mem_cons.mp hq with rfl | hq
      · exact hpk
      · exact hpk.trans (by simpa using (List.mem_filter.mp hq).2)

/-- Remove a key. -/
def erase (k : α) (m : OrdMap α β) : OrdMap α β where
  entries := m.entries.filter (fun p => p.1 ≠ k)
  sorted := m.sorted.filter _

/-- Write a batch of entries, first to last. -/
def putAll (kvs : List (α × β)) (m : OrdMap α β) : OrdMap α β :=
  kvs.foldl (fun m p => m.put p.1 p.2) m

/-- Remove the given keys. -/
def eraseAll (ks : List α) (m : OrdMap α β) : OrdMap α β :=
  ks.foldl (fun m k => m.erase k) m

/-- The entries from the first key that is at least `k` on. -/
def seek (k : α) (m : OrdMap α β) : List (α × β) :=
  m.entries.dropWhile (fun p => p.1 < k)

/-! ## Lookup -/

theorem unique {m : OrdMap α β} {k : α} {v w : β} (hv : (k, v) ∈ m.entries)
    (hw : (k, w) ∈ m.entries) : v = w := by
  rcases List.pairwise_iff_getElem.mp m.sorted with hs
  obtain ⟨i, hi, hvi⟩ := List.getElem_of_mem hv
  obtain ⟨j, hj, hwj⟩ := List.getElem_of_mem hw
  rcases lt_trichotomy i j with hij | rfl | hij
  · have hlt := hs i j hi hj hij
    rw [hvi, hwj] at hlt
    exact absurd hlt (lt_irrefl k)
  · rw [hvi] at hwj
    exact congrArg Prod.snd hwj
  · have hlt := hs j i hj hi hij
    rw [hvi, hwj] at hlt
    exact absurd hlt (lt_irrefl k)

/-- A lookup finds `v` exactly when the entry is there. -/
theorem find_eq_some {m : OrdMap α β} {k : α} {v : β} :
    m.find k = some v ↔ (k, v) ∈ m.entries := by
  constructor
  · intro h
    obtain ⟨⟨k', v'⟩, hp, rfl⟩ := Option.map_eq_some_iff.mp h
    have hk : k' = k := by simpa using List.find?_some hp
    exact hk ▸ List.mem_of_find?_eq_some hp
  · intro h
    cases hf : m.entries.find? (fun p => p.1 == k) with
    | none =>
        have := List.find?_eq_none.mp hf (k, v) h
        simp at this
    | some p =>
        obtain ⟨k', v'⟩ := p
        have hk : k' = k := by simpa using List.find?_some hf
        have hmem : (k, v') ∈ m.entries := hk ▸ List.mem_of_find?_eq_some hf
        rw [find, hf, Option.map_some, unique hmem h]

theorem find_eq_none {m : OrdMap α β} {k : α} : m.find k = none ↔ ∀ v, (k, v) ∉ m.entries := by
  rw [Option.eq_none_iff_forall_not_mem]
  simp only [Option.mem_def, find_eq_some]

@[simp] theorem find_empty (k : α) : (empty : OrdMap α β).find k = none := rfl

theorem mem_put {m : OrdMap α β} {k : α} {v : β} {p : α × β} :
    p ∈ (m.put k v).entries ↔ p = (k, v) ∨ (p.1 ≠ k ∧ p ∈ m.entries) := by
  simp only [put, List.mem_append, List.mem_filter, List.mem_cons, decide_eq_true_eq]
  constructor
  · rintro (⟨hp, hlt⟩ | rfl | ⟨hp, hlt⟩)
    · exact Or.inr ⟨ne_of_lt hlt, hp⟩
    · exact Or.inl rfl
    · exact Or.inr ⟨ne_of_gt hlt, hp⟩
  · rintro (rfl | ⟨hne, hp⟩)
    · exact Or.inr (Or.inl rfl)
    · rcases lt_or_gt_of_ne hne with hlt | hgt
      · exact Or.inl ⟨hp, hlt⟩
      · exact Or.inr (Or.inr ⟨hp, hgt⟩)

theorem mem_erase {m : OrdMap α β} {k : α} {p : α × β} :
    p ∈ (m.erase k).entries ↔ p.1 ≠ k ∧ p ∈ m.entries := by
  simp [erase, and_comm]

/-- **The last write wins**, and a write changes no other key. -/
theorem find_put (m : OrdMap α β) (k k' : α) (v : β) :
    (m.put k v).find k' = if k' = k then some v else m.find k' := by
  by_cases h : k' = k
  · subst h
    rw [if_pos rfl, find_eq_some, mem_put]
    exact Or.inl rfl
  · rw [if_neg h]
    ext w
    simp only [find_eq_some, mem_put, Prod.mk.injEq, h, false_and, false_or,
      ne_eq, not_false_eq_true, true_and]

@[simp] theorem find_put_self (m : OrdMap α β) (k : α) (v : β) : (m.put k v).find k = some v := by
  rw [find_put, if_pos rfl]

theorem find_put_of_ne (m : OrdMap α β) {k k' : α} (v : β) (h : k' ≠ k) :
    (m.put k v).find k' = m.find k' := by
  rw [find_put, if_neg h]

theorem find_erase (m : OrdMap α β) (k k' : α) :
    (m.erase k).find k' = if k' = k then none else m.find k' := by
  by_cases h : k' = k
  · rw [if_pos h, find_eq_none]
    intro v hv
    exact (mem_erase.mp hv).1 h
  · rw [if_neg h]
    ext w
    simp only [find_eq_some, mem_erase, h, ne_eq, not_false_eq_true, true_and]

/-- The last value a batch writes to a key. -/
def lastPut (k : α) (kvs : List (α × β)) : Option β :=
  (kvs.reverse.find? (fun p => p.1 == k)).map Prod.snd

theorem lastPut_append (k : α) (xs ys : List (α × β)) :
    lastPut k (xs ++ ys) = (lastPut k ys).or (lastPut k xs) := by
  simp only [lastPut, List.reverse_append, List.find?_append]
  cases List.find? (fun p => p.1 == k) ys.reverse <;> rfl

theorem lastPut_singleton (k k' : α) (v : β) :
    lastPut k [(k', v)] = if k' = k then some v else none := by
  by_cases h : k' = k <;> simp [lastPut, h]

theorem lastPut_eq_none {k : α} {kvs : List (α × β)} :
    lastPut k kvs = none ↔ ∀ p ∈ kvs, p.1 ≠ k := by
  simp [lastPut]

theorem mem_of_lastPut {k : α} {v : β} {kvs : List (α × β)} (h : lastPut k kvs = some v) :
    (k, v) ∈ kvs := by
  obtain ⟨⟨k', v'⟩, hp, rfl⟩ := Option.map_eq_some_iff.mp h
  have hk : k' = k := by simpa using List.find?_some hp
  exact hk ▸ List.mem_reverse.mp (List.mem_of_find?_eq_some hp)

/-- A batch that writes to no key twice leaves everything it writes. -/
theorem lastPut_of_mem {k : α} {v : β} {kvs : List (α × β)} (hnodup : (kvs.map Prod.fst).Nodup)
    (h : (k, v) ∈ kvs) : lastPut k kvs = some v := by
  cases hlast : lastPut k kvs with
  | none => exact absurd rfl (lastPut_eq_none.mp hlast (k, v) h)
  | some w =>
      have hw := mem_of_lastPut hlast
      have heq := List.inj_on_of_nodup_map hnodup h hw rfl
      rw [(Prod.mk.inj heq).2]

/-- The last write under other names of the keys. -/
theorem lastPut_map {α' β' : Type} [LinearOrder α'] {f : α → α'} (hf : Function.Injective f)
    (g : β → β') (k : α) (kvs : List (α × β)) :
    lastPut (f k) (kvs.map fun p => (f p.1, g p.2)) = (lastPut k kvs).map g := by
  induction kvs with
  | nil => rfl
  | cons p kvs ih =>
      rw [List.map_cons, ← List.singleton_append, lastPut_append, ih, lastPut_singleton,
        ← List.singleton_append (x := p), lastPut_append, show lastPut k [p] =
          if p.1 = k then some p.2 else none from lastPut_singleton k p.1 p.2]
      by_cases h : p.1 = k
      · rw [if_pos h, if_pos (congrArg f h)]
        cases lastPut k kvs <;> rfl
      · rw [if_neg h, if_neg fun heq => h (hf heq)]
        cases lastPut k kvs <;> rfl

/-- **A batch leaves its last write** for each key it touches. -/
theorem find_putAll (kvs : List (α × β)) (m : OrdMap α β) (k : α) :
    (m.putAll kvs).find k = (lastPut k kvs).or (m.find k) := by
  induction kvs generalizing m with
  | nil => rfl
  | cons p kvs ih =>
      obtain ⟨k', v⟩ := p
      rw [putAll, List.foldl_cons]
      have hstep := ih (m.put k' v)
      rw [putAll] at hstep
      rw [hstep, find_put, ← List.singleton_append, lastPut_append, lastPut_singleton]
      cases lastPut k kvs with
      | some w => rfl
      | none => by_cases h : k = k' <;> simp [h, eq_comm]

theorem find_eraseAll (ks : List α) (m : OrdMap α β) (k : α) :
    (m.eraseAll ks).find k = if k ∈ ks then none else m.find k := by
  induction ks generalizing m with
  | nil => rfl
  | cons k' ks ih =>
      rw [eraseAll, List.foldl_cons, ← eraseAll, ih, find_erase]
      by_cases hk : k ∈ ks
      · rw [if_pos hk, if_pos (List.mem_cons_of_mem _ hk)]
      · rw [if_neg hk]
        by_cases heq : k = k'
        · rw [if_pos heq, if_pos (heq ▸ List.mem_cons_self ..)]
        · rw [if_neg heq, if_neg]
          simp [heq, hk]

/-- Removing a key that is there makes the map smaller. -/
theorem length_erase_lt {m : OrdMap α β} {k : α} {v : β} (h : m.find k = some v) :
    (m.erase k).entries.length < m.entries.length := by
  show (m.entries.filter fun p => p.1 ≠ k).length < _
  refine List.length_filter_lt_length_iff_exists.mpr ⟨(k, v), find_eq_some.mp h, ?_⟩
  simp

theorem mem_putAll {kvs : List (α × β)} {m : OrdMap α β} {p : α × β}
    (h : p ∈ (m.putAll kvs).entries) : p ∈ kvs ∨ p ∈ m.entries := by
  have hfind : (m.putAll kvs).find p.1 = some p.2 := find_eq_some.mpr h
  rw [find_putAll, Option.or_eq_some_iff] at hfind
  rcases hfind with hput | ⟨-, hold⟩
  · exact Or.inl (mem_of_lastPut hput)
  · exact Or.inr (find_eq_some.mp hold)

/-- **A map is determined by its lookups.** -/
theorem ext_find {m m' : OrdMap α β} (h : ∀ k, m.find k = m'.find k) : m = m' := by
  obtain ⟨l, hl⟩ := m
  obtain ⟨l', hl'⟩ := m'
  have hmem : ∀ p, p ∈ l ↔ p ∈ l' := by
    rintro ⟨k, v⟩
    rw [← find_eq_some (m := ⟨l, hl⟩), h k, find_eq_some]
  have hperm : l.Perm l' := by
    refine (List.perm_ext_iff_of_nodup ?_ ?_).mpr hmem
    · exact hl.imp (fun hlt heq => absurd (heq ▸ hlt) (lt_irrefl _))
    · exact hl'.imp (fun hlt heq => absurd (heq ▸ hlt) (lt_irrefl _))
  have heq : l = l' := by
    refine hperm.eq_of_pairwise ?_ hl hl'
    intro p q _ _ hpq hqp
    exact absurd (hpq.trans hqp) (lt_irrefl _)
  subst heq
  rfl

/-- A map is empty when no lookup finds anything. -/
theorem entries_eq_nil_iff {m : OrdMap α β} : m.entries = [] ↔ ∀ k, m.find k = none := by
  constructor
  · intro h k
    apply find_eq_none.mpr
    simp [h]
  · intro h
    rw [List.eq_nil_iff_forall_not_mem]
    rintro ⟨k, v⟩ he
    exact find_eq_none.mp (h k) v he

/-- A map is determined by its entries. -/
theorem ext_mem {m m' : OrdMap α β} (h : ∀ p, p ∈ m.entries ↔ p ∈ m'.entries) : m = m' := by
  apply ext_find
  intro k
  apply Option.ext
  intro v
  rw [find_eq_some, find_eq_some, h]

/-- A batch of writes under distinct keys to an empty map makes its entries. -/
theorem mem_putAll_empty {kvs : List (α × β)} (hnodup : (kvs.map Prod.fst).Nodup) {p : α × β} :
    p ∈ (empty.putAll kvs).entries ↔ p ∈ kvs := by
  rw [← find_eq_some (k := p.1), find_putAll, find_empty, Option.or_none]
  exact ⟨mem_of_lastPut, lastPut_of_mem hnodup⟩

/-! ## Loops over all entries -/

/-- **A loop over the entries of a map** in which each turn writes under the key of its entry
only.  A turn may fail, for a reason that depends on what it finds under its key. -/
theorem foldlM_entries {ε γ : Type} {f : OrdMap α β → α × γ → Except ε (OrdMap α β)}
    {ok : α → Option β → γ → Prop} {g : α → Option β → γ → Option β}
    (hf : ∀ m e, ok e.1 (m.find e.1) e.2 → ∃ m', f m e = .ok m' ∧
      ∀ k, m'.find k = if k = e.1 then g k (m.find k) e.2 else m.find k)
    (kvs : OrdMap α γ) (m : OrdMap α β)
    (hok : ∀ k c, kvs.find k = some c → ok k (m.find k) c) :
    ∃ m', kvs.entries.foldlM f m = .ok m' ∧
      ∀ k, m'.find k = (kvs.find k).elim (m.find k) (g k (m.find k)) := by
  have hloop : ∀ (l : List (α × γ)) (m : OrdMap α β), l.Pairwise (fun p q => p.1 < q.1) →
      (∀ e ∈ l, ok e.1 (m.find e.1) e.2) → ∃ m', l.foldlM f m = .ok m' ∧
        (∀ e ∈ l, m'.find e.1 = g e.1 (m.find e.1) e.2) ∧
        ∀ k, (∀ e ∈ l, e.1 ≠ k) → m'.find k = m.find k := by
    intro l
    induction l with
    | nil => exact fun m _ _ => ⟨m, rfl, by rintro e ⟨⟩, fun _ _ => rfl⟩
    | cons e l ih =>
        intro m hsorted hall
        rw [List.pairwise_cons] at hsorted
        have hne : ∀ e' ∈ l, e'.1 ≠ e.1 := fun e' he' => (hsorted.1 e' he').ne'
        obtain ⟨m₁, hm₁, hfind⟩ := hf m e (hall e (List.mem_cons_self ..))
        have hold : ∀ e' ∈ l, m₁.find e'.1 = m.find e'.1 := by
          intro e' he'
          rw [hfind, if_neg (hne e' he')]
        obtain ⟨m', hm', hself, hother⟩ := ih m₁ hsorted.2 (by
          intro e' he'
          rw [hold e' he']
          exact hall e' (List.mem_cons_of_mem _ he'))
        refine ⟨m', ?_, ?_, ?_⟩
        · rw [List.foldlM_cons, hm₁]
          exact hm'
        · intro e' he'
          rcases List.mem_cons.mp he' with rfl | he'
          · rw [hother _ hne, hfind, if_pos rfl]
          · rw [hself e' he', hold e' he']
        · intro k hk
          rw [hother k fun e' he' => hk e' (List.mem_cons_of_mem _ he'), hfind,
            if_neg (hk e (List.mem_cons_self ..)).symm]
  obtain ⟨m', hm', hself, hother⟩ := hloop kvs.entries m kvs.sorted
    (fun e he => hok e.1 e.2 (find_eq_some.mpr he))
  refine ⟨m', hm', ?_⟩
  intro k
  cases hk : kvs.find k with
  | none =>
      refine hother k ?_
      rintro ⟨k', c⟩ he rfl
      exact find_eq_none.mp hk c he
  | some c => exact hself (k, c) (find_eq_some.mp hk)

/-- The loop when no turn can fail. -/
theorem foldl_entries {γ : Type} {f : OrdMap α β → α × γ → OrdMap α β}
    {g : α → Option β → γ → Option β}
    (hf : ∀ m e k, (f m e).find k = if k = e.1 then g k (m.find k) e.2 else m.find k)
    (kvs : OrdMap α γ) (m : OrdMap α β) (k : α) :
    (kvs.entries.foldl f m).find k = (kvs.find k).elim (m.find k) (g k (m.find k)) := by
  have hloop := @foldlM_entries α β _ Empty γ (fun m e => .ok (f m e)) (fun _ _ _ => True) g
    (fun m e _ => ⟨f m e, rfl, hf m e⟩) kvs m (fun _ _ _ => trivial)
  obtain ⟨m', hm', hfind⟩ := hloop
  have hpure : kvs.entries.foldlM (fun m e => (.ok (f m e) : Except Empty _)) m =
      .ok (kvs.entries.foldl f m) := List.foldlM_pure
  rw [hpure] at hm'
  cases hm'
  exact hfind k

/-! ## Sums over all entries -/

variable {M : Type}

/-- The sum of `f` over all entries. -/
def total [AddMonoid M] (f : α → β → M) (m : OrdMap α β) : M :=
  (m.entries.map (fun p => f p.1 p.2)).sum

@[simp] theorem total_empty [AddMonoid M] (f : α → β → M) : total f (empty : OrdMap α β) = 0 := rfl

theorem filter_lt_append_filter_gt {l : List (α × β)}
    (hl : l.Pairwise (fun p q => p.1 < q.1)) (k : α) :
    l.filter (fun p => p.1 < k) ++ l.filter (fun p => k < p.1) = l.filter (fun p => p.1 ≠ k) := by
  induction l with
  | nil => rfl
  | cons p l ih =>
      obtain ⟨hp, hl⟩ := List.pairwise_cons.mp hl
      rcases lt_trichotomy p.1 k with hlt | heq | hgt
      · rw [List.filter_cons_of_pos (by simpa using hlt),
          List.filter_cons_of_neg (by simpa using hlt.le),
          List.filter_cons_of_pos (by simpa using ne_of_lt hlt), List.cons_append, ih hl]
      · rw [List.filter_cons_of_neg (by simp [heq]), List.filter_cons_of_neg (by simp [heq]),
          List.filter_cons_of_neg (by simp [heq]), ih hl]
      · have hnil : l.filter (fun p => p.1 < k) = [] := by
          refine List.filter_eq_nil_iff.mpr ?_
          intro q hq
          simpa using (hgt.trans (hp q hq)).le
        rw [List.filter_cons_of_neg (by simpa using hgt.le),
          List.filter_cons_of_pos (by simpa using hgt),
          List.filter_cons_of_pos (by simpa using ne_of_gt hgt), ← ih hl, hnil]
        rfl

theorem total_put [AddCommMonoid M] (f : α → β → M) (m : OrdMap α β) (k : α) (v : β) :
    total f (m.put k v) = f k v + total f (m.erase k) := by
  have hsplit := filter_lt_append_filter_gt m.sorted k
  simp only [total, put, erase, ← hsplit, List.map_append, List.map_cons, List.sum_append,
    List.sum_cons]
  rw [add_left_comm]

theorem erase_of_find_none {m : OrdMap α β} {k : α} (h : m.find k = none) : m.erase k = m := by
  obtain ⟨l, hl⟩ := m
  have hne : ∀ p ∈ l, p.1 ≠ k := by
    rintro ⟨k', v⟩ hp rfl
    exact find_eq_none.mp h v hp
  simpa [erase] using fun a b hab => hne (a, b) hab

/-- A write under a new key makes the map larger. -/
theorem length_put_of_new {m : OrdMap α β} {k : α} (h : m.find k = none) (v : β) :
    (m.put k v).entries.length = m.entries.length + 1 := by
  have hsplit := congrArg List.length (filter_lt_append_filter_gt m.sorted k)
  have herase : m.entries.filter (fun p => p.1 ≠ k) = m.entries :=
    congrArg entries (erase_of_find_none h)
  rw [herase, List.length_append] at hsplit
  simp only [put, List.length_append, List.length_cons]
  omega

/-- The first entry has the least key. -/
theorem le_of_head {m : OrdMap α β} {p : α × β} {rest : List (α × β)} (h : m.entries = p :: rest)
    {q : α × β} (hq : q ∈ m.entries) : p.1 ≤ q.1 := by
  have hsorted := m.sorted
  rw [h] at hsorted hq
  rcases List.mem_cons.mp hq with rfl | hq
  · exact le_refl _
  · exact le_of_lt (List.rel_of_pairwise_cons hsorted hq)

/-- The last entry has the greatest key. -/
theorem le_of_getLast {m : OrdMap α β} {p : α × β} (h : m.entries.getLast? = some p)
    {q : α × β} (hq : q ∈ m.entries) : q.1 ≤ p.1 := by
  obtain ⟨front, hfront⟩ := List.getLast?_eq_some_iff.mp h
  have hsorted := m.sorted
  rw [hfront, List.pairwise_append] at hsorted
  rw [hfront, List.mem_append, List.mem_singleton] at hq
  rcases hq with hq | rfl
  · exact le_of_lt (hsorted.2.2 q hq p (List.mem_singleton_self p))
  · exact le_refl _

theorem put_of_find {m : OrdMap α β} {k : α} {v : β} (h : m.find k = some v) : m.put k v = m := by
  obtain ⟨l, hl⟩ := m
  have hmem : (k, v) ∈ l := find_eq_some.mp h
  obtain ⟨l₁, l₂, rfl⟩ := List.append_of_mem hmem
  obtain ⟨h₁, h₂, h₁₂⟩ := List.pairwise_append.mp hl
  have hlo : ∀ p ∈ l₁, p.1 < k := fun p hp => h₁₂ p hp (k, v) (List.mem_cons_self ..)
  have hhi : ∀ p ∈ l₂, k < p.1 := (List.pairwise_cons.mp h₂).1
  have hf₁ : (l₁ ++ (k, v) :: l₂).filter (fun p => p.1 < k) = l₁ := by
    rw [List.filter_append, List.filter_eq_self.mpr (by simpa using fun a b h => hlo (a, b) h),
      List.filter_cons_of_neg (by simp),
      List.filter_eq_nil_iff.mpr (by simpa using fun a b h => (hhi (a, b) h).le), List.append_nil]
  have hf₂ : (l₁ ++ (k, v) :: l₂).filter (fun p => k < p.1) = l₂ := by
    rw [List.filter_append,
      List.filter_eq_nil_iff.mpr (by simpa using fun a b h => (hlo (a, b) h).le),
      List.filter_cons_of_neg (by simp),
      List.filter_eq_self.mpr (by simpa using fun a b h => hhi (a, b) h), List.nil_append]
  simp [put, hf₁, hf₂]

/-- The sum over all entries splits off the entry of a key. -/
theorem total_erase [AddCommMonoid M] (f : α → β → M) {m : OrdMap α β} {k : α} {v : β}
    (h : m.find k = some v) : total f m = f k v + total f (m.erase k) := by
  rw [← total_put, put_of_find h]

/-! ## Scanning -/

theorem mem_of_head_seek {m : OrdMap α β} {k : α} {p : α × β} (h : (m.seek k).head? = some p) :
    p ∈ m.entries :=
  (List.dropWhile_sublist _).subset (List.mem_of_mem_head? h)

/-- Seeking to a key that is there stops at it. -/
theorem head_seek_of_find {m : OrdMap α β} {k : α} {v : β} (h : m.find k = some v) :
    (m.seek k).head? = some (k, v) := by
  obtain ⟨l, hl⟩ := m
  obtain ⟨l₁, l₂, rfl⟩ := List.append_of_mem (find_eq_some.mp h)
  have hlo : ∀ p ∈ l₁, p.1 < k := fun p hp =>
    (List.pairwise_append.mp hl).2.2 p hp (k, v) (List.mem_cons_self ..)
  rw [seek, List.dropWhile_append_of_pos (by simpa using fun a b h => hlo (a, b) h),
    List.dropWhile_cons_of_neg (by simp)]
  rfl

/-- Seeking passes over the smaller keys. -/
theorem le_of_mem_seek {m : OrdMap α β} {k : α} {p : α × β} (h : p ∈ m.seek k) : k ≤ p.1 := by
  obtain ⟨l, hl⟩ := m
  simp only [seek] at h
  induction l with
  | nil => cases h
  | cons q l ih =>
      obtain ⟨hq, hl'⟩ := List.pairwise_cons.mp hl
      by_cases hqk : q.1 < k
      · rw [List.dropWhile_cons_of_pos (by simpa using hqk)] at h
        exact ih hl' h
      · rw [List.dropWhile_cons_of_neg (by simpa using hqk)] at h
        rcases List.mem_cons.mp h with rfl | hmem
        · exact not_lt.mp hqk
        · exact (not_lt.mp hqk).trans (hq p hmem).le

/-- **A scan is complete**: seeking to `k` and reading on as long as `P` holds
visits exactly the entries with `P`, when all of those lie at or after `k` and
`P` has no gaps between `k` and any of them. -/
theorem scan_eq_filter (m : OrdMap α β) (k : α) (P : α → Bool)
    (hge : ∀ p ∈ m.entries, P p.1 → k ≤ p.1)
    (hgap : ∀ p ∈ m.entries, ∀ q ∈ m.entries, k ≤ p.1 → p.1 ≤ q.1 → P q.1 → P p.1) :
    (m.seek k).takeWhile (fun p => P p.1) = m.entries.filter (fun p => P p.1) := by
  obtain ⟨l, hl⟩ := m
  simp only [seek]
  induction l with
  | nil => rfl
  | cons p l ih =>
      obtain ⟨hp, hl'⟩ := List.pairwise_cons.mp hl
      have ih' := ih hl' (fun q hq => hge q (List.mem_cons_of_mem _ hq))
        (fun q hq r hr => hgap q (List.mem_cons_of_mem _ hq) r (List.mem_cons_of_mem _ hr))
      by_cases hpk : p.1 < k
      · have hPp : ¬ P p.1 = true := fun h => absurd (hge p (List.mem_cons_self ..) h) (not_le.mpr hpk)
        rw [List.dropWhile_cons_of_pos (by simpa using hpk), ih',
          List.filter_cons_of_neg (p := fun p : α × β => P p.1) hPp]
      · have hkp : k ≤ p.1 := not_lt.mp hpk
        rw [List.dropWhile_cons_of_neg (by simpa using hkp)]
        by_cases hPp : P p.1 = true
        · have hdrop : l.dropWhile (fun q => q.1 < k) = l := by
            cases l with
            | nil => rfl
            | cons q l =>
                have hq : k ≤ q.1 := hkp.trans (hp q (List.mem_cons_self ..)).le
                rw [List.dropWhile_cons_of_neg (by simpa using hq)]
          rw [List.takeWhile_cons_of_pos (p := fun p : α × β => P p.1) hPp,
            List.filter_cons_of_pos (p := fun p : α × β => P p.1) hPp, ← ih', hdrop]
        · rw [List.takeWhile_cons_of_neg (p := fun p : α × β => P p.1) hPp,
            List.filter_cons_of_neg (p := fun p : α × β => P p.1) hPp]
          -- a later entry with `P` would give `P p` by convexity
          refine (List.filter_eq_nil_iff.mpr ?_).symm
          intro q hq hPq
          exact hPp (hgap p (List.mem_cons_self ..) q (List.mem_cons_of_mem _ hq) hkp (hp q hq).le hPq)

end OrdMap

/-! ## Lexicographic keys -/

variable {γ : Type} [LinearOrder γ]

theorem cons_le_cons_iff {c d : γ} {p a : List γ} :
    c :: p ≤ d :: a ↔ c < d ∨ c = d ∧ p ≤ a := by
  rw [le_iff_lt_or_eq, le_iff_lt_or_eq, List.cons_lt_cons_iff, List.cons.injEq]
  tauto

theorem append_le_append_iff (p : List γ) {a b : List γ} : p ++ a ≤ p ++ b ↔ a ≤ b := by
  induction p with
  | nil => rfl
  | cons c p ih => simp [cons_le_cons_iff, ih]

theorem prefix_le_append (p s : List γ) : p ≤ p ++ s := by
  have hnil : ([] : List γ) ≤ s := by
    cases s with
    | nil => exact le_refl _
    | cons d s => exact le_of_lt (List.nil_lt_cons d s)
  simpa using (append_le_append_iff p).mpr hnil

/-- **Keys that share a prefix form an interval.** -/
theorem prefix_convex {p a b : List γ} (hpa : p ≤ a) (hab : a ≤ b) (hb : p <+: b) : p <+: a := by
  induction p generalizing a b with
  | nil => exact List.nil_prefix
  | cons c p ih =>
      obtain ⟨b', rfl⟩ := hb
      cases a with
      | nil => exact absurd (List.nil_lt_cons c p) (not_lt.mpr hpa)
      | cons d a =>
          rw [List.cons_append] at hab
          rcases cons_le_cons_iff.mp hpa with hcd | ⟨rfl, hpa'⟩
          · rcases cons_le_cons_iff.mp hab with hdc | ⟨rfl, -⟩
            · exact absurd (hcd.trans hdc) (lt_irrefl c)
            · exact absurd hcd (lt_irrefl d)
          · rcases cons_le_cons_iff.mp hab with hdc | ⟨-, hab'⟩
            · exact absurd hdc (lt_irrefl c)
            · exact (List.prefix_cons_inj c).mpr (ih hpa' hab' (List.prefix_append ..))

end Ordered
