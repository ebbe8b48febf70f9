import Mathlib.Data.List.NodupEquivFin

/-!
# Matching one list into another, in order

Each value of the first list has to find a partner in the second, further on than the partners of
those before it.  Whether a value and a partner fit is an arbitrary test, and a partner is used
once.

The search goes over the second list once.  It is not obvious that this is enough, since a
partner that is taken by the first value is lost for the second; but a matching of the later
values does not need it, and the first partner that fits may always be taken.  A search may also
stop early, when fewer values are left to choose from than have to find a partner, without losing
a matching.

* `matchInOrder`: the greedy search, with the early end.
* `sublistForall₂_cons_cons_iff`: what a comparison of the first values decides.
* `matchInOrder_eq_true`: **the greedy search is complete.**
* `matchInOrder_iff`: it finds a matching, as an ascending assignment of positions, when there is
  one.
-/

namespace Matchings

variable {α β : Type} {R : α → β → Prop}

/-- The greedy search.  It gives up when fewer values are left to choose from than have to
find a partner. -/
def matchInOrder (R : α → β → Bool) : List α → List β → Bool
  | [], _ => true
  | _ :: _, [] => false
  | x :: xs, y :: ys =>
    let left := if R x y then xs else x :: xs
    if ys.length < left.length then false else matchInOrder R left ys

theorem length_le_of_sublistForall₂ {xs : List α} {ys : List β}
    (h : List.SublistForall₂ R xs ys) : xs.length ≤ ys.length := by
  obtain ⟨l, hl, hsub⟩ := List.sublistForall₂_iff.mp h
  exact hl.length_eq ▸ hsub.length_le

/-- A matching of the later values does not need the first partner. -/
theorem sublistForall₂_of_cons {x : α} {xs : List α} {ys : List β}
    (h : List.SublistForall₂ R (x :: xs) ys) : List.SublistForall₂ R xs ys := by
  obtain ⟨l, hl, hsub⟩ := List.sublistForall₂_iff.mp h
  cases hl with
  | cons _ hrest =>
    exact List.sublistForall₂_iff.mpr ⟨_, hrest, (List.sublist_cons_self _ _).trans hsub⟩

/-- The first value takes the first partner, if it fits. -/
theorem sublistForall₂_cons_cons_iff {x : α} {xs : List α} {y : β} {ys : List β} :
    List.SublistForall₂ R (x :: xs) (y :: ys) ↔
      (R x y ∧ List.SublistForall₂ R xs ys) ∨
      (¬ R x y ∧ List.SublistForall₂ R (x :: xs) ys) := by
  by_cases hxy : R x y
  · simp only [hxy, true_and, not_true_eq_false, false_and, or_false]
    constructor
    · intro h
      cases h with
      | cons _ hrest => exact hrest
      | cons_right hrest => exact sublistForall₂_of_cons hrest
    · exact List.SublistForall₂.cons hxy
  · simp only [hxy, false_and, not_false_eq_true, true_and, false_or]
    constructor
    · intro h
      cases h with
      | cons hfits _ => exact absurd hfits hxy
      | cons_right hrest => exact hrest
    · exact List.SublistForall₂.cons_right

/-- **The greedy search is complete**, and giving up early loses nothing. -/
theorem matchInOrder_eq_true {R : α → β → Bool} {xs : List α} {ys : List β} :
    matchInOrder R xs ys = true ↔ List.SublistForall₂ (fun x y => R x y = true) xs ys := by
  induction ys generalizing xs with
  | nil =>
    cases xs with
    | nil => exact ⟨fun _ => List.SublistForall₂.nil, fun _ => rfl⟩
    | cons x xs =>
      refine ⟨fun h => absurd h Bool.false_ne_true, fun h => ?_⟩
      exact absurd (length_le_of_sublistForall₂ h) (Nat.not_succ_le_zero _)
  | cons y ys ih =>
    cases xs with
    | nil => exact ⟨fun _ => List.SublistForall₂.nil, fun _ => rfl⟩
    | cons x xs =>
      have hturn : ∀ left : List α,
          (if ys.length < left.length then false else matchInOrder R left ys) = true ↔
            List.SublistForall₂ (fun x y => R x y = true) left ys := by
        intro left
        rw [← ih]
        split_ifs with hshort
        · refine ⟨False.elim, fun h => ?_⟩
          have := length_le_of_sublistForall₂ (ih.mp h)
          omega
        · rfl
      rw [matchInOrder, sublistForall₂_cons_cons_iff]
      cases hxy : R x y with
      | true => simpa [hxy] using hturn xs
      | false => simpa [hxy] using hturn (x :: xs)

/-- A matching, as an assignment of positions. -/
theorem sublistForall₂_iff_exists_strictMono {xs : List α} {ys : List β} :
    List.SublistForall₂ R xs ys ↔ ∃ f : Fin xs.length → Fin ys.length, StrictMono f ∧
      ∀ i, R (xs.get i) (ys.get (f i)) := by
  rw [List.sublistForall₂_iff]
  constructor
  · rintro ⟨l, hl, hsub⟩
    obtain ⟨f, hf⟩ := List.sublist_iff_exists_fin_orderEmbedding_get_eq.mp hsub
    refine ⟨fun i => f (Fin.cast hl.length_eq i), fun i j hij => f.strictMono hij, fun i => ?_⟩
    rw [← hf]
    exact (List.forall₂_iff_get.mp hl).2 i i.isLt (hl.length_eq ▸ i.isLt)
  · rintro ⟨f, hmono, hf⟩
    refine ⟨List.ofFn fun i => ys.get (f i), ?_, ?_⟩
    · refine List.forall₂_iff_get.mpr ⟨by rw [List.length_ofFn], fun i h₁ h₂ => ?_⟩
      rw [List.get_ofFn]
      exact hf ⟨i, h₁⟩
    · refine List.sublist_iff_exists_fin_orderEmbedding_get_eq.mpr
        ⟨OrderEmbedding.ofStrictMono (fun i => f (Fin.cast (List.length_ofFn) i))
          fun i j hij => hmono hij, fun i => ?_⟩
      rw [List.get_ofFn]
      rfl

/-- **The greedy search** succeeds when the values have partners in ascending order. -/
theorem matchInOrder_iff {R : α → β → Bool} {xs : List α} {ys : List β} :
    matchInOrder R xs ys = true ↔ ∃ f : Fin xs.length → Fin ys.length, StrictMono f ∧
      ∀ i, R (xs.get i) (ys.get (f i)) = true := by
  rw [matchInOrder_eq_true, sublistForall₂_iff_exists_strictMono]

end Matchings
