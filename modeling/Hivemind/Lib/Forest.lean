import Mathlib.Data.List.Basic
import Mathlib.Algebra.BigOperators.Group.List.Basic

/-!
# Rooted forests

A forest is given by the parent of each node, and each node knows its depth.  What is said of a
node and all its ancestors is said of the list that leads from it to its root.

The depth is part of the structure: a parent is one less deep than its node, so climbing ends,
and an ancestor is determined by the node and a depth.  Statements about "the ancestor at a
depth" then need no path and no bound, and two ancestors of one node are compared by their depths
alone.

* `lineage_parent`: the list of a node from the one of its parent.
* `ancestorAt_trans`, `mem_lineage_iff`: ancestors of ancestors, and where they are found.
* `ancestorAt_congr`: forests that agree on a node and its ancestors have the same ancestors
  there, which is what is used when a node is added or another one changed.
* `foldlM_parents_first`: **the rule for a pass that sees each parent before its children**: what
  each turn keeps, when the parent of its node has had its turn, holds when the pass is over.
-/

namespace Forests

/-- A forest on the values of `α`. -/
structure Forest (α : Type) where
  parent : α → Option α
  depth : α → Nat
  depth_root : ∀ {a}, parent a = none → depth a = 0
  depth_parent : ∀ {a b}, parent a = some b → depth a = depth b + 1

namespace Forest

variable {α : Type} (F : Forest α)

/-- The node and its ancestors, at most `n` of them besides the node. -/
def climb : Nat → α → List α
  | 0, a => [a]
  | n + 1, a => a :: ((F.parent a).map (climb n)).getD []

/-- The node, its parent, and so on up to the root. -/
def lineage (a : α) : List α := F.climb (F.depth a) a

/-- The ancestor at a depth; a node is an ancestor of itself. -/
def ancestorAt (a : α) (depth : Nat) : Option α :=
  if depth ≤ F.depth a then (F.lineage a)[F.depth a - depth]? else none

variable {F} {a b c : α} {n m : Nat}

theorem lineage_root (h : F.parent a = none) : F.lineage a = [a] := by
  rw [lineage, F.depth_root h, climb]

theorem lineage_parent (h : F.parent a = some b) : F.lineage a = a :: F.lineage b := by
  rw [lineage, F.depth_parent h, climb, h]
  rfl

theorem mem_lineage_self (a : α) : a ∈ F.lineage a := by
  cases h : F.parent a with
  | none => simp [lineage_root h]
  | some b => simp [lineage_parent h]

/-- Every node has a root below it, so what passes from the parent to the node holds of all. -/
theorem induction {P : α → Prop} (h : ∀ a, (∀ b, F.parent a = some b → P b) → P a) (a : α) :
    P a := by
  have hdepth : ∀ n a, F.depth a = n → P a := by
    intro n
    induction n with
    | zero =>
      intro a hn
      refine h a fun b hb => ?_
      have := F.depth_parent hb
      omega
    | succ n ih =>
      intro a hn
      refine h a fun b hb => ih b ?_
      have := F.depth_parent hb
      omega
  exact hdepth _ a rfl

theorem length_lineage (a : α) : (F.lineage a).length = F.depth a + 1 := by
  refine induction (F := F) (P := fun a => (F.lineage a).length = F.depth a + 1) ?_ a
  intro a ih
  cases h : F.parent a with
  | none => rw [lineage_root h, F.depth_root h, List.length_singleton]
  | some b => rw [lineage_parent h, List.length_cons, ih b h, F.depth_parent h]

/-! ## Ancestors at a depth -/

theorem ancestorAt_self (a : α) : F.ancestorAt a (F.depth a) = some a := by
  rw [ancestorAt, if_pos (Nat.le_refl _), Nat.sub_self]
  cases h : F.parent a with
  | none => rw [lineage_root h]; rfl
  | some b => rw [lineage_parent h]; rfl

/-- The ancestors of the parent are those of the node. -/
theorem ancestorAt_parent (h : F.parent a = some b) (hn : n ≤ F.depth b) :
    F.ancestorAt a n = F.ancestorAt b n := by
  have hdepth := F.depth_parent h
  have hsub : F.depth b + 1 - n = (F.depth b - n) + 1 := by omega
  rw [ancestorAt, ancestorAt, if_pos hn, if_pos (by omega), lineage_parent h, hdepth, hsub,
    List.getElem?_cons_succ]

theorem ancestorAt_isSome (hn : n ≤ F.depth a) : ∃ b, F.ancestorAt a n = some b := by
  have hlt : F.depth a - n < (F.lineage a).length := by
    rw [length_lineage]
    omega
  exact ⟨(F.lineage a)[F.depth a - n], by rw [ancestorAt, if_pos hn, List.getElem?_eq_getElem hlt]⟩

theorem mem_lineage_of_ancestorAt (h : F.ancestorAt a n = some b) : b ∈ F.lineage a := by
  rw [ancestorAt] at h
  split_ifs at h
  exact List.mem_of_getElem? h

theorem le_depth_of_ancestorAt (h : F.ancestorAt a n = some b) : n ≤ F.depth a := by
  by_contra hn
  rw [ancestorAt, if_neg hn] at h
  cases h

/-- The ancestor at a depth has this depth. -/
theorem depth_ancestorAt (h : F.ancestorAt a n = some b) : F.depth b = n := by
  revert h
  refine induction (F := F) (P := fun a => F.ancestorAt a n = some b → F.depth b = n) ?_ a
  intro a ih h
  have hle := le_depth_of_ancestorAt h
  by_cases hn : n = F.depth a
  · rw [hn, ancestorAt_self] at h
    cases h
    exact hn.symm
  · cases hp : F.parent a with
    | none =>
      have := F.depth_root hp
      omega
    | some c =>
      have := F.depth_parent hp
      exact ih c hp ((ancestorAt_parent hp (by omega)).symm.trans h)

/-- **The ancestors of an ancestor are ancestors.** -/
theorem ancestorAt_trans (h : F.ancestorAt a n = some b) (hm : m ≤ n) :
    F.ancestorAt b m = F.ancestorAt a m := by
  revert h
  refine induction (F := F) (P := fun a => F.ancestorAt a n = some b →
    F.ancestorAt b m = F.ancestorAt a m) ?_ a
  intro a ih h
  have hle := le_depth_of_ancestorAt h
  by_cases hn : n = F.depth a
  · rw [hn, ancestorAt_self] at h
    cases h
    rfl
  · cases hp : F.parent a with
    | none =>
      have := F.depth_root hp
      omega
    | some c =>
      have := F.depth_parent hp
      rw [ancestorAt_parent hp (by omega)] at h ⊢
      exact ih c hp h

theorem mem_lineage_trans (hbc : b ∈ F.lineage c) (hab : a ∈ F.lineage b) : a ∈ F.lineage c := by
  revert hbc
  refine induction (F := F) (P := fun c => b ∈ F.lineage c → a ∈ F.lineage c) ?_ c
  intro c ih hbc
  cases h : F.parent c with
  | none =>
    rw [lineage_root h, List.mem_singleton] at hbc
    exact hbc ▸ hab
  | some d =>
    rw [lineage_parent h] at hbc ⊢
    rcases List.mem_cons.mp hbc with rfl | hbd
    · exact lineage_parent h ▸ hab
    · exact List.mem_cons_of_mem _ (ih d h hbd)

/-- The ancestors are the nodes that are found at their depth. -/
theorem mem_lineage_iff : b ∈ F.lineage a ↔ F.ancestorAt a (F.depth b) = some b := by
  refine ⟨?_, mem_lineage_of_ancestorAt⟩
  refine induction (F := F) (P := fun a => b ∈ F.lineage a →
    F.ancestorAt a (F.depth b) = some b) ?_ a
  intro a ih hb
  cases h : F.parent a with
  | none =>
    rw [lineage_root h, List.mem_singleton] at hb
    rw [hb, ancestorAt_self]
  | some c =>
    rw [lineage_parent h] at hb
    rcases List.mem_cons.mp hb with rfl | hbc
    · exact ancestorAt_self b
    · have hanc := ih c h hbc
      rw [ancestorAt_parent h (le_depth_of_ancestorAt hanc), hanc]

theorem depth_le_of_mem (h : b ∈ F.lineage a) : F.depth b ≤ F.depth a :=
  le_depth_of_ancestorAt (mem_lineage_iff.mp h)

/-- Two ancestors of one node at one depth are the same. -/
theorem eq_of_mem_lineage (hb : b ∈ F.lineage a) (hc : c ∈ F.lineage a)
    (h : F.depth b = F.depth c) : b = c := by
  rw [mem_lineage_iff] at hb hc
  exact Option.some.inj (hb.symm.trans (h ▸ hc))

/-- Of two ancestors of one node the deeper one descends from the other. -/
theorem mem_lineage_of_depth_le (hb : b ∈ F.lineage a) (hc : c ∈ F.lineage a)
    (h : F.depth c ≤ F.depth b) : c ∈ F.lineage b := by
  rw [mem_lineage_iff] at hb hc ⊢
  rw [ancestorAt_trans hb h, hc]

/-- The parent is the ancestor one step back. -/
theorem ancestorAt_pred (h : F.ancestorAt a (n + 1) = some b) : F.parent b = F.ancestorAt a n := by
  have hdepth := depth_ancestorAt h
  cases hp : F.parent b with
  | none =>
    have := F.depth_root hp
    omega
  | some c =>
    have hc := F.depth_parent hp
    have hn : n = F.depth c := by omega
    rw [← ancestorAt_trans h (Nat.le_succ n), ancestorAt_parent hp (by omega), hn, ancestorAt_self]

/-- Forests that agree on a set of nodes with their ancestors have the same ancestors there. -/
theorem ancestorAt_congr {F' : Forest α} {P : α → Prop}
    (hclosed : ∀ {a b}, P a → F.parent a = some b → P b)
    (hparent : ∀ {a}, P a → F'.parent a = F.parent a)
    (hdepth : ∀ {a}, P a → F'.depth a = F.depth a) (ha : P a) (n : Nat) :
    F'.ancestorAt a n = F.ancestorAt a n := by
  have hlineage : F'.lineage a = F.lineage a := by
    revert ha
    refine induction (F := F) (P := fun a => P a → F'.lineage a = F.lineage a) ?_ a
    intro a ih ha
    cases h : F.parent a with
    | none => rw [lineage_root h, lineage_root ((hparent ha).trans h)]
    | some b => rw [lineage_parent h, lineage_parent ((hparent ha).trans h), ih b h (hclosed ha h)]
  rw [ancestorAt, ancestorAt, hlineage, hdepth ha]

/-! ## A pass over the nodes -/

/-- **Parents first**: what each turn keeps, when the parent of its node has had its turn,
holds after a pass over a list that goes by depth and is closed under parents. -/
theorem foldlM_parents_first {σ : Type} {step : σ → α → Option σ} (I : List α → σ → Prop)
    {l : List α} (hnodup : l.Nodup) (hsorted : l.Pairwise fun a b => F.depth a ≤ F.depth b)
    (hclosed : ∀ a ∈ l, ∀ b, F.parent a = some b → b ∈ l)
    (hstep : ∀ done a s, a ∈ l → a ∉ done → (∀ b, F.parent a = some b → b ∈ done) → I done s →
      ∃ s', step s a = some s' ∧ I (done ++ [a]) s') {s : σ} (hinit : I [] s) :
    ∃ s', l.foldlM step s = some s' ∧ I l s' := by
  -- induction on what is left of the list
  have hpass : ∀ rest done s, done ++ rest = l → I done s →
      ∃ s', rest.foldlM step s = some s' ∧ I l s' := by
    intro rest
    induction rest with
    | nil =>
      intro done s hl hs
      rw [List.append_nil] at hl
      exact ⟨s, rfl, hl ▸ hs⟩
    | cons a rest ih =>
      intro done s hl hs
      have hmem : a ∈ l := by simp [← hl]
      have hnot : a ∉ done := by
        intro ha
        rw [← hl] at hnodup
        exact (List.nodup_append.mp hnodup).2.2 a ha a List.mem_cons_self rfl
      have hparent : ∀ b, F.parent a = some b → b ∈ done := by
        intro b hb
        have hlt := F.depth_parent hb
        have hbl : b ∈ done ++ a :: rest := hl ▸ hclosed a hmem b hb
        rcases List.mem_append.mp hbl with hdone | hrest
        · exact hdone
        · -- everything from `a` on is at least as deep as `a`
          rw [← hl] at hsorted
          have hge := List.pairwise_cons.mp (List.pairwise_append.mp hsorted).2.1
          rcases List.mem_cons.mp hrest with rfl | hlater
          · omega
          · have := hge.1 b hlater
            omega
      obtain ⟨s₁, hrun, hs₁⟩ := hstep done a s hmem hnot hparent hs
      obtain ⟨s₂, hrest, hs₂⟩ := ih (done ++ [a]) s₁ (by simp [← hl]) hs₁
      exact ⟨s₂, by rw [List.foldlM_cons, hrun]; exact hrest, hs₂⟩
  exact hpass l [] s rfl hinit

end Forest
end Forests
