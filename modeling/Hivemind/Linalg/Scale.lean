import Mathlib.Data.List.GetD
import Hivemind.Linalg.Calc

/-!
# The scale of an outcome

The numbers of an outcome are in units of `1e-8`: so `ToString` prints `NA`, `alpha`, `tol` and
the reputations.  `calc` takes the scale off the votes and the reputations and leaves it on `NA`,
`alpha` and `tol`.

An abstention is a vote that is equal to `NA`.  A vote whose scale was taken off is equal to an
`NA` whose scale was not when it is `10 ^ 8` times as large, which is the same vote only for
zero.  The smoothing and the tolerance are numbers between zero and one in the vote, and in the
outcome a hundred million times that.  So the two readings of an outcome agree where `alpha` and
`tol` are zero, and where `NA` is zero or no vote is taken for an abstention on either scale.

* `ScalesAgree`: the outcome as `calc` hands it over is the one that its numbers say.
* `scalesAgree_iff`: **when the scale makes no difference.**
-/

namespace Hivemind

open Outcomes Finset

variable {K : Type} [Field K] [LinearOrder K]

/-- The vote that `calc` hands over stands for the outcome: a vote is missing in it when
it is missing in the outcome, the smoothing and the tolerance are those of the outcome,
and smoothing leaves shares of the whole. -/
structure ScalesAgree (P : Platform K) (outcome : MarketOutcome) (fresh : FreshVote K outcome) :
    Prop where
  loaded : ∃ vote, loadVote outcome fresh = .ok vote ∧
    (∀ i j, vote.M i j = vote.NA ↔ outcome.voteEntry i j = outcome.NA) ∧
    vote.alpha = unscale K outcome.alpha ∧ vote.tol = unscale K outcome.tol ∧
    ((outcome.oldRep.map UInt64.toNat).sum = 10 ^ 8 → outcome.alpha.toNat ≤ 10 ^ 8 →
      0 ≤ (tcVoteProc P vote).1 →
      ∀ i, 0 ≤ (tcVoteProc P vote).2.smoothedRep i 0 ∧ (tcVoteProc P vote).2.smoothedRep i 0 ≤ 1)

/-- The condition: there is nothing to scale, and no vote looks like a missing one on
either scale unless that is zero. -/
structure NothingToScale (outcome : MarketOutcome) : Prop where
  alpha : outcome.alpha = 0
  tol : outcome.tol = 0
  votes : outcome.NA = 0 ∨
    ∀ i < outcome.nVoters.toNat, ∀ j < outcome.nDecisions.toNat,
      outcome.voteEntry i j ≠ outcome.NA ∧
        (outcome.voteEntry i j).toNat ≠ outcome.NA.toNat * 10 ^ 8

section Ordered

variable [IsStrictOrderedRing K]

omit [LinearOrder K] [IsStrictOrderedRing K] in
theorem unscale_eq_iff [CharZero K] (x : UInt64) (n : Nat) :
    unscale K x = (n : K) ↔ x.toNat = n * 10 ^ 8 := by
  rw [unscale, mul_one_div, div_eq_iff (by norm_num)]
  exact_mod_cast Iff.rfl

/-- A number is its own multiple of `1e-8` when it is zero. -/
theorem natCast_eq_unscale_iff (x : UInt64) : (x.toNat : K) = unscale K x ↔ x = 0 := by
  rw [eq_comm, unscale_eq_iff, ← UInt64.toNat_inj, UInt64.toNat_zero]
  omega

omit [IsStrictOrderedRing K] in
/-- Without smoothing the old reputation stays. -/
theorem tcVoteProc_smoothedRep_of_zero (P : Platform K) {nr nc : Nat} {vote : TcVote K nr nc}
    (hα : vote.alpha = 0) (hrc : 0 ≤ (tcVoteProc P vote).1) :
    (tcVoteProc P vote).2.smoothedRep = vote.oldRep := by
  rw [tcVoteProc] at hrc ⊢
  cases hcomp : tcWgtPrinComp P vote.oldRep (filledVotes P vote) with
  | mk rc comp =>
    simp only [hcomp] at hrc ⊢
    by_cases hneg : rc < 0
    · rw [if_pos hneg] at hrc
      exact absurd hrc (not_le.mpr hneg)
    · rw [if_neg hneg, calcOutcomes_smoothedRep]
      funext i j
      simp [smoothed, hα]

/-- A reputation of an outcome is a share of the whole. -/
theorem unscale_oldRep_mem {outcome : MarketOutcome}
    (hsum : (outcome.oldRep.map UInt64.toNat).sum = 10 ^ 8) (i : Nat) :
    0 ≤ unscale K (outcome.oldRep.getD i 0) ∧ unscale K (outcome.oldRep.getD i 0) ≤ 1 := by
  have hle : (outcome.oldRep.getD i 0).toNat ≤ 10 ^ 8 := by
    by_cases hi : i < outcome.oldRep.length
    · rw [← hsum]
      refine List.single_le_sum (by simp) _ (List.mem_map_of_mem ?_)
      rw [List.getD_eq_getElem _ _ hi]
      exact List.getElem_mem hi
    · rw [List.getD_eq_default _ _ (not_lt.mp hi)]
      decide
  refine ⟨mul_nonneg (Nat.cast_nonneg _) (by norm_num), ?_⟩
  rw [unscale, mul_one_div, div_le_one (by norm_num)]
  exact_mod_cast hle

/-- **When the scales agree.** -/
theorem scalesAgree_iff (P : Platform K) {outcome : MarketOutcome} (hsizes : SizesMatch outcome)
    (fresh : FreshVote K outcome) :
    ScalesAgree P outcome fresh ↔ NothingToScale outcome := by
  have hentry : ∀ i j, (loadedVote outcome fresh).M i j = (loadedVote outcome fresh).NA ↔
      (outcome.voteEntry i j).toNat = outcome.NA.toNat * 10 ^ 8 := fun i j =>
    unscale_eq_iff _ _
  constructor
  · rintro ⟨vote, hvote, hna, hα, htol, -⟩
    obtain rfl : loadedVote outcome fresh = vote :=
      Except.ok.inj ((loadVote_eq hsizes fresh).symm.trans hvote)
    refine ⟨(natCast_eq_unscale_iff _).mp hα, (natCast_eq_unscale_iff _).mp htol, ?_⟩
    by_cases hzero : outcome.NA = 0
    · exact Or.inl hzero
    · refine Or.inr fun i hi j hj => ?_
      have hiff := (hentry ⟨i, hi⟩ ⟨j, hj⟩).symm.trans (hna ⟨i, hi⟩ ⟨j, hj⟩)
      have hpos : outcome.NA.toNat ≠ 0 := fun h => hzero (UInt64.toNat_inj.mp h)
      -- a missing vote would be a multiple of itself
      have hne : outcome.voteEntry i j ≠ outcome.NA := by
        intro h
        have hmul := hiff.mpr h
        rw [show outcome.voteEntry i j = outcome.NA from h] at hmul
        omega
      exact ⟨hne, fun h => hne (hiff.mp h)⟩
  · intro h
    refine ⟨_, loadVote_eq hsizes fresh, fun i j => ?_, ?_, ?_, fun hsum _ hrc i => ?_⟩
    · rw [hentry]
      rcases h.votes with hzero | hvotes
      · rw [hzero, ← UInt64.toNat_inj]
        simp
      · obtain ⟨hne, hmul⟩ := hvotes i i.isLt j j.isLt
        exact ⟨fun heq => absurd heq hmul, fun heq => absurd heq hne⟩
    · exact (natCast_eq_unscale_iff _).mpr h.alpha
    · exact (natCast_eq_unscale_iff _).mpr h.tol
    · have hα : (loadedVote outcome fresh).alpha = 0 := by simp [loadedVote, h.alpha]
      rw [tcVoteProc_smoothedRep_of_zero P hα hrc]
      exact unscale_oldRep_mem hsum i

end Ordered

/-! ## An abstention -/

/-- Two voters of equal reputation; the second one does not vote. -/
def abstention : MarketOutcome := binaryOutcome [50000000, 50000000] [100000000, defaultNA]

/-- **A missing vote that counts, and a reputation below zero.**  The second vote is the
`NA` of the outcome and is not the `NA` of the vote; `alpha` stands for a tenth and is ten
million; and a smoothed reputation is negative. -/
theorem abstention_scales :
    SizesMatch abstention ∧ abstention.voteEntry 1 0 = abstention.NA ∧
      (loadedVote (K := ℚ) abstention zeroVote).M ⟨1, by decide⟩ ⟨0, by decide⟩ ≠
        (loadedVote (K := ℚ) abstention zeroVote).NA ∧
      (loadedVote (K := ℚ) abstention zeroVote).alpha = 10000000 ∧
      (∃ i, (tcVoteProc smallPlatform (loadedVote abstention zeroVote)).2.smoothedRep i 0 < 0) ∧
      ¬ ScalesAgree smallPlatform abstention zeroVote := by
  have hsizes : SizesMatch abstention := ⟨rfl, rfl, rfl⟩
  have hα : (loadedVote (K := ℚ) abstention zeroVote).alpha = 10000000 := by decide +kernel
  refine ⟨hsizes, by decide +kernel, by decide +kernel, hα, by decide +kernel, ?_⟩
  rintro ⟨vote, hvote, -, halpha, -⟩
  obtain rfl : loadedVote abstention zeroVote = vote :=
    Except.ok.inj ((loadVote_eq hsizes zeroVote).symm.trans hvote)
  rw [hα] at halpha
  exact absurd halpha (by decide +kernel)

/-- Without smoothing and tolerance, and with every vote given, the scales agree. -/
theorem scalesAgree_plain :
    SizesMatch { twoVoters with alpha := 0, tol := 0 } ∧
      ScalesAgree smallPlatform { twoVoters with alpha := 0, tol := 0 } zeroVote := by
  have hsizes : SizesMatch { twoVoters with alpha := 0, tol := 0 } := ⟨rfl, rfl, rfl⟩
  refine ⟨hsizes, (scalesAgree_iff smallPlatform hsizes zeroVote).mpr ⟨rfl, rfl, Or.inr ?_⟩⟩
  decide +kernel

end Hivemind
