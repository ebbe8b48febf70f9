import Hivemind.Lib.OrdMap
import Mathlib.Data.Finset.Basic
import Mathlib.Tactic.Tauto

/-!
# An index of sets

A map from keys to sets, that says for each key which values have it.  A set is created with its
first value and goes with its last one.

A value has a list of keys, in which a key may stand many times.  It is entered under each of
them when it comes in, and taken out under each when it goes; that the second undoes the first is
a statement about all values at once, since other values may be in the same sets.  `IndexOf` is
that statement, over any relation between keys and values.

* `members`: the values of a key; a key without a set has none.
* `mem_members_insertAll`, `mem_members_eraseAll`: a value is entered under a list of keys, or
  taken out under them.
* `NoEmpty`: no set is empty, which entering and taking out keep.
* `IndexOf.add`, `IndexOf.drop`: **the index agrees** with the values and their keys.
-/

namespace SetIndex

open Ordered

variable {κ α : Type} [LinearOrder κ] [DecidableEq α]

/-- The values of a key. -/
def members (k : κ) (m : OrdMap κ (Finset α)) : Finset α := (m.find k).getD ∅

/-- `a` among the values of `k`. -/
def insertAt (a : α) (m : OrdMap κ (Finset α)) (k : κ) : OrdMap κ (Finset α) :=
  m.put k (insert a (members k m))

/-- `a` not among the values of `k`; an empty set is removed. -/
def eraseAt (a : α) (m : OrdMap κ (Finset α)) (k : κ) : OrdMap κ (Finset α) :=
  (m.find k).elim m fun s => if s.erase a = ∅ then m.erase k else m.put k (s.erase a)

def insertAll (a : α) (ks : List κ) (m : OrdMap κ (Finset α)) : OrdMap κ (Finset α) :=
  ks.foldl (insertAt a) m

def eraseAll (a : α) (ks : List κ) (m : OrdMap κ (Finset α)) : OrdMap κ (Finset α) :=
  ks.foldl (eraseAt a) m

/-- No set is empty. -/
def NoEmpty (m : OrdMap κ (Finset α)) : Prop := ∀ k s, m.find k = some s → s ≠ ∅

variable {m : OrdMap κ (Finset α)} {a x : α} {k k' : κ} {ks : List κ}

/-! ## One key -/

theorem mem_members_insertAt :
    x ∈ members k' (insertAt a m k) ↔ (x = a ∧ k' = k) ∨ x ∈ members k' m := by
  by_cases hk : k' = k
  · subst hk
    simp [members, insertAt]
  · simp [members, insertAt, OrdMap.find_put_of_ne _ _ hk, hk]

theorem mem_members_eraseAt :
    x ∈ members k' (eraseAt a m k) ↔ x ∈ members k' m ∧ ¬(x = a ∧ k' = k) := by
  cases hfind : m.find k with
  | none =>
      have hsame : eraseAt a m k = m := by simp [eraseAt, hfind]
      have hnot : k' = k → x ∉ members k' m := by
        rintro rfl
        simp [members, hfind]
      rw [hsame]
      tauto
  | some s =>
      by_cases hk : k' = k
      · subst hk
        by_cases hs : s.erase a = ∅
        · have hx : x ∈ s → x = a := by
            intro hx
            by_contra hne
            have : x ∈ s.erase a := Finset.mem_erase.mpr ⟨hne, hx⟩
            rw [hs] at this
            exact Finset.notMem_empty x this
          simp only [members, eraseAt, hfind, hs, Option.elim_some, if_true, OrdMap.find_erase,
            Option.getD_none, Option.getD_some, Finset.notMem_empty, and_true, false_iff, not_and,
            not_not]
          exact hx
        · simp [members, eraseAt, hfind, hs, and_comm]
      · by_cases hs : s.erase a = ∅
        · simp [members, eraseAt, hfind, hs, OrdMap.find_erase, hk]
        · simp [members, eraseAt, hfind, hs, OrdMap.find_put_of_ne _ _ hk, hk]

omit [DecidableEq α] in
theorem noEmpty_empty : NoEmpty (OrdMap.empty : OrdMap κ (Finset α)) := by
  intro k s h
  simp at h

theorem NoEmpty.insertAt (h : NoEmpty m) (a : α) (k : κ) : NoEmpty (insertAt a m k) := by
  intro k' s hs
  rw [SetIndex.insertAt, OrdMap.find_put] at hs
  split_ifs at hs
  · cases hs
    exact Finset.insert_ne_empty _ _
  · exact h k' s hs

theorem NoEmpty.eraseAt (h : NoEmpty m) (a : α) (k : κ) : NoEmpty (eraseAt a m k) := by
  cases hfind : m.find k with
  | none => simpa [SetIndex.eraseAt, hfind] using h
  | some t =>
      intro k' s hs
      simp only [SetIndex.eraseAt, hfind, Option.elim_some] at hs
      split_ifs at hs with hempty
      · rw [OrdMap.find_erase] at hs
        split_ifs at hs
        exact h k' s hs
      · rw [OrdMap.find_put] at hs
        split_ifs at hs
        · cases hs
          exact hempty
        · exact h k' s hs

/-! ## A list of keys -/

theorem mem_members_insertAll :
    x ∈ members k (insertAll a ks m) ↔ (x = a ∧ k ∈ ks) ∨ x ∈ members k m := by
  induction ks generalizing m with
  | nil => simp [insertAll]
  | cons k' ks ih =>
      rw [insertAll, List.foldl_cons, ← insertAll, ih, mem_members_insertAt, List.mem_cons]
      tauto

theorem mem_members_eraseAll :
    x ∈ members k (eraseAll a ks m) ↔ x ∈ members k m ∧ ¬(x = a ∧ k ∈ ks) := by
  induction ks generalizing m with
  | nil => simp [eraseAll]
  | cons k' ks ih =>
      rw [eraseAll, List.foldl_cons, ← eraseAll, ih, mem_members_eraseAt, List.mem_cons]
      tauto

theorem NoEmpty.insertAll (h : NoEmpty m) (a : α) (ks : List κ) : NoEmpty (insertAll a ks m) := by
  induction ks generalizing m with
  | nil => exact h
  | cons k ks ih => exact ih (h.insertAt a k)

theorem NoEmpty.eraseAll (h : NoEmpty m) (a : α) (ks : List κ) : NoEmpty (eraseAll a ks m) := by
  induction ks generalizing m with
  | nil => exact h
  | cons k ks ih => exact ih (h.eraseAt a k)

/-! ## The index of a relation -/

/-- Under each key are the values that have it. -/
structure IndexOf (keys : α → κ → Prop) (m : OrdMap κ (Finset α)) : Prop where
  mem_iff : ∀ k a, a ∈ members k m ↔ keys a k
  noEmpty : NoEmpty m

namespace IndexOf

variable {keys keys' : α → κ → Prop}

/-- A value comes in, with its keys. -/
theorem add (h : IndexOf keys m) (hkeys : ∀ x k, keys' x k ↔ (x = a ∧ k ∈ ks) ∨ keys x k) :
    IndexOf keys' (insertAll a ks m) where
  mem_iff := by
    intro k x
    rw [mem_members_insertAll, h.mem_iff, hkeys]
  noEmpty := h.noEmpty.insertAll a ks

/-- A value goes, and all of its keys are listed. -/
theorem drop (h : IndexOf keys m) (hall : ∀ k, keys a k → k ∈ ks)
    (hkeys : ∀ x k, keys' x k ↔ x ≠ a ∧ keys x k) : IndexOf keys' (eraseAll a ks m) where
  mem_iff := by
    intro k x
    rw [mem_members_eraseAll, h.mem_iff, hkeys]
    constructor
    · rintro ⟨hx, hnot⟩
      refine ⟨?_, hx⟩
      rintro rfl
      exact hnot ⟨rfl, hall k hx⟩
    · rintro ⟨hne, hx⟩
      exact ⟨hx, fun heq => hne heq.1⟩
  noEmpty := h.noEmpty.eraseAll a ks

end IndexOf
end SetIndex
