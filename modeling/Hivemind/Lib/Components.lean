import Mathlib.Data.Set.Lattice
import Mathlib.Logic.Relation

/-!
# Components of overlapping sets

Sets that have an element in common are put together, and so on: what is left is a family of
disjoint sets, in which two elements are together when a chain of the given sets links them.

The sets may come one after the other.  The family is then kept as a family of disjoint sets, and
a new set swallows those that it meets.  That the outcome does not depend on the order is not
seen from the operation; it follows from what the components are, a family that is determined by
the sets.

* `Together`, `Linked`: two elements in one set, and two elements that a chain of sets joins.
* `IsComponents`: disjoint sets that are not empty, in which the elements are together that are
  linked.
* `mergeInto`: one more set swallows the sets that it meets.
* `IsComponents.merge`: **the components of one more set come out of that.**
* `IsComponents.unique`: the components are determined by the sets.
-/

namespace Components

variable {α : Type*}

/-- Two elements are in one of the sets. -/
def Together (gs : Set (Set α)) (a b : α) : Prop := ∃ g ∈ gs, a ∈ g ∧ b ∈ g

/-- A chain of sets, each of which meets the next one, leads from one element to the other. -/
def Linked (gs : Set (Set α)) : α → α → Prop := Relation.TransGen (Together gs)

/-- The set with all that it meets. -/
def swallowed (P : Set (Set α)) (g : Set α) : Set α := {a | a ∈ g ∨ ∃ p ∈ P, a ∈ p ∧ (p ∩ g).Nonempty}

/-- One more set, in place of those that it meets. -/
def mergeInto (P : Set (Set α)) (g : Set α) : Set (Set α) :=
  insert (swallowed P g) {p ∈ P | ¬(p ∩ g).Nonempty}

/-- `P` are the components of `gs`. -/
structure IsComponents (gs P : Set (Set α)) : Prop where
  together : ∀ a b, Together P a b ↔ Linked gs a b
  apart : ∀ p ∈ P, ∀ q ∈ P, ∀ a, a ∈ p → a ∈ q → p = q
  nonempty : ∀ p ∈ P, p.Nonempty

variable {gs P : Set (Set α)} {a b c : α}

theorem Together.symm (h : Together gs a b) : Together gs b a := by
  obtain ⟨g, hg, ha, hb⟩ := h
  exact ⟨g, hg, hb, ha⟩

theorem Together.mono {hs : Set (Set α)} (h : Together gs a b) (hsub : gs ⊆ hs) :
    Together hs a b := by
  obtain ⟨g, hg, ha, hb⟩ := h
  exact ⟨g, hsub hg, ha, hb⟩

theorem Linked.symm (h : Linked gs a b) : Linked gs b a := by
  induction h with
  | single hab => exact .single hab.symm
  | tail _ hbc ih => exact .head hbc.symm ih

theorem Linked.mono {hs : Set (Set α)} (h : Linked gs a b) (hsub : gs ⊆ hs) : Linked hs a b := by
  induction h with
  | single hab => exact .single (hab.mono hsub)
  | tail _ hbc ih => exact .tail ih (hbc.mono hsub)

/-- Sets without a common element are closed under going on. -/
theorem Together.trans (hapart : ∀ p ∈ P, ∀ q ∈ P, ∀ a, a ∈ p → a ∈ q → p = q)
    (hab : Together P a b) (hbc : Together P b c) : Together P a c := by
  obtain ⟨p, hp, ha, hb⟩ := hab
  obtain ⟨q, hq, hb', hc⟩ := hbc
  obtain rfl := hapart p hp q hq b hb hb'
  exact ⟨p, hp, ha, hc⟩

theorem IsComponents.empty : IsComponents (∅ : Set (Set α)) ∅ where
  together a b := by
    have hnone : ∀ x y : α, ¬Together ∅ x y := fun _ _ ⟨_, hg, _⟩ => hg
    refine ⟨fun h => absurd h (hnone a b), ?_⟩
    intro h
    obtain ⟨x, -, hxb⟩ := Relation.TransGen.tail'_iff.mp h
    exact absurd hxb (hnone x b)
  apart := by simp
  nonempty := by simp

/-- Sets that were swallowed are in no other set. -/
theorem mergeInto_apart (h : IsComponents gs P) {g : Set α} :
    ∀ p ∈ mergeInto P g, ∀ q ∈ mergeInto P g, ∀ a, a ∈ p → a ∈ q → p = q := by
  have hout : ∀ q ∈ P, ¬(q ∩ g).Nonempty → ∀ a, a ∈ swallowed P g → a ∉ q := by
    rintro q hq hmiss a (ha | ⟨p, hp, ha, hmeet⟩) haq
    · exact hmiss ⟨a, haq, ha⟩
    · obtain rfl := h.apart p hp q hq a ha haq
      exact hmiss hmeet
  rintro p (rfl | ⟨hp, hpmiss⟩) q (rfl | ⟨hq, hqmiss⟩) a hap haq
  · rfl
  · exact absurd haq (hout q hq hqmiss a hap)
  · exact absurd hap (hout p hp hpmiss a haq)
  · exact h.apart p hp q hq a hap haq

/-- Everything that was swallowed is linked through the new set. -/
theorem linked_of_swallowed (h : IsComponents gs P) {g : Set α} (ha : a ∈ swallowed P g)
    (hb : b ∈ g) : Linked (insert g gs) a b := by
  rcases ha with ha | ⟨p, hp, ha, c, hcp, hcg⟩
  · exact .single ⟨g, Set.mem_insert g gs, ha, hb⟩
  · have hac : Linked gs a c := (h.together a c).mp ⟨p, hp, ha, hcp⟩
    exact (hac.mono (Set.subset_insert g gs)).tail ⟨g, Set.mem_insert g gs, hcg, hb⟩

/-- **One more set**: its components are those before it, with all that it meets merged. -/
theorem IsComponents.merge (h : IsComponents gs P) {g : Set α} (hg : g.Nonempty) :
    IsComponents (insert g gs) (mergeInto P g) := by
  have hapart := mergeInto_apart h (g := g)
  obtain ⟨c, hc⟩ := hg
  refine ⟨?_, hapart, ?_⟩
  · intro a b
    constructor
    · rintro ⟨p, rfl | ⟨hp, -⟩, ha, hb⟩
      · have hac := linked_of_swallowed h ha hc
        have hbc := linked_of_swallowed h hb hc
        exact Relation.TransGen.trans hac hbc.symm
      · exact ((h.together a b).mp ⟨p, hp, ha, hb⟩).mono (Set.subset_insert g gs)
    · -- a partition is closed under chains, so that the single links are enough
      have hsingle : ∀ x y, Together (insert g gs) x y → Together (mergeInto P g) x y := by
        rintro x y ⟨q, rfl | hq, hx, hy⟩
        · exact ⟨swallowed P q, Set.mem_insert _ _, Or.inl hx, Or.inl hy⟩
        · obtain ⟨p, hp, hxp, hyp⟩ := (h.together x y).mpr (.single ⟨q, hq, hx, hy⟩)
          by_cases hmeet : (p ∩ g).Nonempty
          · exact ⟨swallowed P g, Set.mem_insert _ _, Or.inr ⟨p, hp, hxp, hmeet⟩,
              Or.inr ⟨p, hp, hyp, hmeet⟩⟩
          · exact ⟨p, Set.mem_insert_of_mem _ ⟨hp, hmeet⟩, hxp, hyp⟩
      intro hlinked
      induction hlinked with
      | single hab => exact hsingle _ _ hab
      | tail _ hbc ih => exact ih.trans hapart (hsingle _ _ hbc)
  · rintro p (rfl | ⟨hp, -⟩)
    · exact ⟨c, Or.inl hc⟩
    · exact h.nonempty p hp

/-- The components are determined by the sets. -/
theorem IsComponents.unique {Q : Set (Set α)} (hP : IsComponents gs P) (hQ : IsComponents gs Q) :
    P = Q := by
  have hsub : ∀ {P Q : Set (Set α)}, IsComponents gs P → IsComponents gs Q → P ⊆ Q := by
    intro P Q hP hQ p hp
    obtain ⟨a, ha⟩ := hP.nonempty p hp
    obtain ⟨q, hq, haq, -⟩ := (hQ.together a a).mpr ((hP.together a a).mp ⟨p, hp, ha, ha⟩)
    have heq : p = q := by
      ext b
      constructor
      · intro hb
        obtain ⟨q', hq', haq', hbq'⟩ := (hQ.together a b).mpr
          ((hP.together a b).mp ⟨p, hp, ha, hb⟩)
        exact hQ.apart q' hq' q hq a haq' haq ▸ hbq'
      · intro hb
        obtain ⟨p', hp', hap', hbp'⟩ := (hP.together a b).mpr
          ((hQ.together a b).mp ⟨q, hq, haq, hb⟩)
        exact hP.apart p' hp' p hp a hap' ha ▸ hbp'
    exact heq ▸ hq
  exact Set.Subset.antisymm (hsub hP hQ) (hsub hQ hP)

end Components
