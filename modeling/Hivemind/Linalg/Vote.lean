import Mathlib.Data.Rat.Cast.Order
import Mathlib.Algebra.Order.Field.Rat
import Hivemind.Linalg.Mat

/-!
# Processing a vote

`tc_vote_proc`: missing votes are filled in, the first principal component scores the voters, the
scores become this round's reputation, and the outcomes and bonuses follow from the reputation
that is smoothed with the old one.

The scores have weighted mean zero, so they lie on both sides of zero.  Shifting them up by their
minimum, or subtracting them from their maximum, leaves a vector that is not zero, and limiting
it by its median does not make it zero.  When the voters agree, so that all scores are zero, the
old reputation is kept instead.

So this round's reputation is a point of the simplex for every decomposition, every order of
equal values, and every `alpha` between zero and one, and so is its mixture with the old one.
Nothing is assumed of the votes.

* `calcThisRep_isReputation`: this round's reputation is a reputation.
* `tcVoteProc_reputation`: **so is what `tc_vote_proc` returns**, smoothed or not.
-/

namespace Hivemind

open Weighted Finset

/-- `struct tc_vote`: the vote matrix, the decision vectors `cvecs` and the voter vectors
`rvecs`. -/
structure TcVote (K : Type) (nr nc : Nat) where
  M : TcMat K nr nc
  isBinary : TcMat K 1 nc
  firstLoading : TcMat K 1 nc
  decisionsRaw : TcMat K 1 nc
  consensusRew : TcMat K 1 nc
  certainty : TcMat K 1 nc
  naCol : TcMat K 1 nc
  particCol : TcMat K 1 nc
  authorBonus : TcMat K 1 nc
  decisionsFinal : TcMat K 1 nc
  oldRep : TcMat K nr 1
  thisRep : TcMat K nr 1
  smoothedRep : TcMat K nr 1
  naRow : TcMat K nr 1
  particRow : TcMat K nr 1
  particRel : TcMat K nr 1
  rowBonus : TcMat K nr 1
  NA : K
  alpha : K
  tol : K

variable {K : Type} [Field K] [LinearOrder K] {nr nc : Nat}

/-! ## The reputation -/

/-- The outcome of a column: a mean for a binary decision, a median for a scaled one. -/
def columnOutcome (P : Platform K) (wgt : TcMat K nr 1) (A : TcMat K nr nc)
    (isbin : TcMat K 1 nc) (na : K) (j : Fin nc) : K :=
  if isbin 0 j ≠ 0 then tcWgtMean wgt A j na else tcWgtMedian P wgt A j na

/-- `fM`: the votes with the missing ones filled in. -/
def filledVotes (P : Platform K) (vote : TcVote K nr nc) : TcMat K nr nc := fun i j =>
  if vote.M i j = vote.NA then columnOutcome P vote.oldRep vote.M vote.isBinary vote.NA j
  else vote.M i j

/-- `wgtT_fM`. -/
def weightedOutcomes (P : Platform K) (vote : TcVote K nr nc) (fM : TcMat K nr nc) :
    TcMat K 1 nc := fun i j =>
  if vote.isBinary 0 j = 0 then tcWgtMedian P vote.oldRep fM j vote.NA
  else tcMatMult (tcMatTranspose vote.oldRep) fM i j

/-- `sum_first_fabs`. -/
def sumFirstFabs (scores : TcMat K nr 1) : K :=
  sumLoop₂ fun i j => if scores i j = 0 then 0 else |scores i j|

/-- `scores1`: shifted by the absolute value of the minimum. -/
def scores1 (scores : TcMat K nr 1) : TcMat K nr 1 := fun i j =>
  scores i j + if minEntry scores < 0 then -minEntry scores else minEntry scores

/-- `scores2`: the distance from the maximum. -/
def scores2 (scores : TcMat K nr 1) : TcMat K nr 1 := fun i j => maxEntry scores - scores i j

/-- `new_scores_1` and `new_scores_2`: half of what exceeds a positive median is taken off. -/
def newScores (median : K) (scores : TcMat K nr 1) : TcMat K nr 1 := fun i j =>
  if median > 0 then
    if scores i j > median then scores i j - (scores i j - median) * (1 / 2) else scores i j
  else scores i j

/-- `dist`: how far each vote is from the outcome. -/
def distances (isbin wgtTfM : TcMat K 1 nc) (fM : TcMat K nr nc) : TcMat K nr nc := fun i j =>
  let val := if isbin 0 j ≠ 0 then
      if wgtTfM 0 j < 1 / 2 then 0 else if wgtTfM 0 j > 1 / 2 then 1 else 1 / 2
    else wgtTfM 0 j
  |fM i j - val|

/-- `mainstream`: one over the loading, or `NA` where that is zero. -/
def mainstream (na : K) (firstLoading : TcMat K 1 nc) : TcMat K nc 1 :=
  tcWgtNormalize fun j _ => if firstLoading 0 j = 0 then na else 1 / |firstLoading 0 j|

/-- `compliance`. -/
def compliance (dist : TcMat K nr nc) (stream : TcMat K nc 1) : TcMat K nr 1 :=
  let noncompliance := tcMatMult dist stream
  tcWgtNormalize fun i j => maxEntry noncompliance - noncompliance i j

/-- `twgt`: the old reputation when there is perfect consensus, else the one of the two
score vectors that is closer to compliance. -/
def calcThisRep (P : Platform K) (vote : TcVote K nr nc) (fM : TcMat K nr nc)
    (comp : PrinComp K nr nc) : TcMat K nr 1 :=
  if sumFirstFabs comp.scores = 0 then vote.oldRep
  else
    let s1 := scores1 comp.scores
    let s2 := scores2 comp.scores
    let new1 := newScores (tcWgtMedian P vote.oldRep s1 0 vote.NA) s1
    let new2 := newScores (tcWgtMedian P vote.oldRep s2 0 vote.NA) s2
    let dist := distances vote.isBinary (weightedOutcomes P vote fM) fM
    let comply := compliance dist (mainstream vote.NA (tcMatTranspose comp.loadings))
    let v1 := tcMatSub (tcWgtNormalize new1) comply
    let v2 := tcMatSub (tcWgtNormalize new2) comply
    tcWgtNormalize (if tcMatNorm v1 ≤ tcMatNorm v2 then new1 else new2)

/-- `nwgt`. -/
def smoothed (vote : TcVote K nr nc) (twgt : TcMat K nr 1) : TcMat K nr 1 := fun i j =>
  (1 - vote.alpha) * vote.oldRep i j + vote.alpha * twgt i j

/-! ## Outcomes and bonuses -/

/-- `decfin` of one decision. -/
def finalOutcome (isbin tol raw : K) : K :=
  if isbin ≠ 0 then
    if raw > 1 / 2 + 1 / 2 * tol then 1 else if raw < 1 / 2 - 1 / 2 * tol then 0 else 1 / 2
  else raw

/-- The part of `tc_vote_proc` after the reputation: outcomes, participation, certainty
and bonuses. -/
def calcOutcomes (P : Platform K) (fM : TcMat K nr nc) (vote : TcVote K nr nc) :
    TcVote K nr nc :=
  let nwgt := vote.smoothedRep
  let decraw : TcMat K 1 nc := fun _ j => columnOutcome P nwgt fM vote.isBinary vote.NA j
  let decfin : TcMat K 1 nc := fun i j => finalOutcome (vote.isBinary 0 j) vote.tol (decraw i j)
  let narow : TcMat K nr 1 := fun i _ => sumLoop fun j => if vote.M i j = vote.NA then 1 else 0
  let partrow : TcMat K nr 1 := fun i j => 1 - narow i j / nc
  let nacol : TcMat K 1 nc := fun _ j => sumLoop fun i => if vote.M i j = vote.NA then 1 else 0
  let partcol : TcMat K 1 nc := fun _ j =>
    1 - sumLoop fun i => if vote.M i j = vote.NA then nwgt i 0 else 0
  let fracNA := 1 - (sumLoop fun j => partcol 0 j) / nc
  let particRel := tcWgtNormalize partrow
  let certainty : TcMat K 1 nc := fun _ j =>
    sumLoop fun i => if |fM i j - decfin 0 j| < 1 / 10 ^ 5 then nwgt i 0 else 0
  let conreward := tcWgtNormalize certainty
  { vote with
    decisionsRaw := decraw
    decisionsFinal := decfin
    naRow := narow
    particRow := partrow
    naCol := nacol
    particCol := partcol
    particRel := particRel
    rowBonus := fun i j => fracNA * particRel i j + (1 - fracNA) * nwgt i j
    certainty := certainty
    consensusRew := conreward
    authorBonus := fun i j =>
      fracNA * tcWgtNormalize partcol i j + (1 - fracNA) * conreward i j }

/-- `tc_vote_proc`: the return code, and the vote as it is left. -/
def tcVoteProc (P : Platform K) (vote : TcVote K nr nc) : Int × TcVote K nr nc :=
  let fM := filledVotes P vote
  match tcWgtPrinComp P vote.oldRep fM with
  | (rc, comp) =>
    if rc < 0 then (rc, vote)
    else
      -- with a positive code there are no scores, so their absolute values add up to zero
      let twgt := match comp with
        | some comp => calcThisRep P vote fM comp
        | none => vote.oldRep
      let loading := match comp with
        | some comp => tcMatTranspose comp.loadings
        | none => vote.firstLoading
      (rc, calcOutcomes P fM { vote with
        firstLoading := loading, thisRep := twgt, smoothedRep := smoothed vote twgt })

theorem calcOutcomes_thisRep (P : Platform K) (fM : TcMat K nr nc) (vote : TcVote K nr nc) :
    (calcOutcomes P fM vote).thisRep = vote.thisRep := rfl

theorem calcOutcomes_smoothedRep (P : Platform K) (fM : TcMat K nr nc) (vote : TcVote K nr nc) :
    (calcOutcomes P fM vote).smoothedRep = vote.smoothedRep := rfl

/-! ## Reputation is conserved -/

theorem exists_score_ne_zero {scores : TcMat K nr 1} (h : sumFirstFabs scores ≠ 0) :
    ∃ i, scores i 0 ≠ 0 := by
  by_contra hall
  apply h
  have hzero : ∀ i j, scores i j = 0 := by
    intro i j
    rw [Subsingleton.elim j 0]
    exact not_not.mp fun hi => hall ⟨i, hi⟩
  simp [sumFirstFabs, hzero]

section Straddle

variable {wgt scores : TcMat K nr 1} (hw : IsReputation wgt)
  (hmean : ∑ i, wgt i 0 * scores i 0 = 0)

include hw hmean

/-- The scores do not all equal one number, so a gap that vanishes only where a score
equals it is positive somewhere. -/
theorem exists_gap_pos (h : sumFirstFabs scores ≠ 0) {gap : Fin nr → K} (c : K)
    (hgap : ∀ i, gap i ≤ 0 → scores i 0 = c) : ∃ i, 0 < gap i := by
  obtain ⟨k, hk⟩ := exists_score_ne_zero h
  by_contra hall
  have heq : ∀ i, scores i 0 = c := fun i => hgap i (not_lt.mp fun hi => hall ⟨i, hi⟩)
  apply hk
  rw [heq k]
  exact eq_zero_of_weighted_sum (isReputation_iff.mp hw) hmean heq

variable [IsStrictOrderedRing K]

theorem exists_scores2_pos (h : sumFirstFabs scores ≠ 0) : ∃ i, 0 < scores2 scores i 0 := by
  refine exists_gap_pos hw hmean h (maxEntry scores) fun i hi => ?_
  exact le_antisymm (le_maxEntry scores i) (sub_nonpos.mp hi)

/-- The least score is not positive. -/
theorem minEntry_nonpos : minEntry scores ≤ 0 := by
  rw [← hmean]
  exact le_weighted_sum (isReputation_iff.mp hw) (minEntry_le scores)

theorem scores1_eq (i : Fin nr) : scores1 scores i 0 = scores i 0 - minEntry scores := by
  have hmin := minEntry_nonpos hw hmean
  rw [scores1]
  by_cases h : minEntry scores < 0
  · rw [if_pos h, sub_eq_add_neg]
  · rw [if_neg h, le_antisymm hmin (not_lt.mp h), add_zero, sub_zero]

theorem exists_scores1_pos (h : sumFirstFabs scores ≠ 0) : ∃ i, 0 < scores1 scores i 0 := by
  refine exists_gap_pos hw hmean h (minEntry scores) fun i hi => ?_
  rw [scores1_eq hw hmean] at hi
  exact le_antisymm (sub_nonpos.mp hi) (minEntry_le scores i)

end Straddle

section Ordered

variable [IsStrictOrderedRing K]

/-- Limiting by the median keeps a positive score positive. -/
theorem newScores_pos (median : K) {scores : TcMat K nr 1} {i : Fin nr}
    (h : 0 < scores i 0) : 0 < newScores median scores i 0 := by
  rw [newScores]
  by_cases hmed : median > 0
  · rw [if_pos hmed]
    by_cases hover : scores i 0 > median
    · rw [if_pos hover]
      linarith
    · rw [if_neg hover]
      exact h
  · rw [if_neg hmed]
    exact h

/-- The reputation of a round is a reputation, whichever of the two score vectors is taken. -/
theorem calcThisRep_isReputation {P : Platform K} {vote : TcVote K nr nc}
    (hrep : IsReputation vote.oldRep) (fM : TcMat K nr nc) {comp : PrinComp K nr nc}
    (hmean : ∑ i, vote.oldRep i 0 * comp.scores i 0 = 0) :
    IsReputation (calcThisRep P vote fM comp) := by
  rw [calcThisRep]
  by_cases h : sumFirstFabs comp.scores = 0
  · rw [if_pos h]
    exact hrep
  · rw [if_neg h]
    obtain ⟨i, hi⟩ := exists_scores1_pos hrep hmean h
    obtain ⟨k, hk⟩ := exists_scores2_pos hrep hmean h
    dsimp only
    split
    · exact tcWgtNormalize_mem (ne_of_gt (newScores_pos _ hi))
    · exact tcWgtNormalize_mem (ne_of_gt (newScores_pos _ hk))

/-- Smoothing takes a point between two reputations. -/
theorem smoothed_isReputation {vote : TcVote K nr nc} {twgt : TcMat K nr 1}
    (hold : IsReputation vote.oldRep) (hnew : IsReputation twgt) (hα : 0 ≤ vote.alpha)
    (hα1 : vote.alpha ≤ 1) : IsReputation (smoothed vote twgt) := by
  rw [isReputation_iff] at hold hnew ⊢
  exact convex_stdSimplex K (Fin nr) hold hnew (sub_nonneg.mpr hα1) hα (sub_add_cancel 1 _)

/-- **Reputation is conserved.**  When a vote is processed, this round's reputation and
the smoothed reputation are nonnegative and each sums to one. -/
theorem tcVoteProc_reputation (P : Platform K) (vote : TcVote K nr nc)
    (hnonneg : ∀ i, 0 ≤ vote.oldRep i 0) (hsum : ∑ i, vote.oldRep i 0 = 1)
    (hα : 0 ≤ vote.alpha) (hα1 : vote.alpha ≤ 1) (hrc : 0 ≤ (tcVoteProc P vote).1) :
    ((∀ i, 0 ≤ (tcVoteProc P vote).2.thisRep i 0)
        ∧ ∑ i, (tcVoteProc P vote).2.thisRep i 0 = 1)
      ∧ (∀ i, 0 ≤ (tcVoteProc P vote).2.smoothedRep i 0)
        ∧ ∑ i, (tcVoteProc P vote).2.smoothedRep i 0 = 1 := by
  have hrep : IsReputation vote.oldRep := ⟨hnonneg, hsum⟩
  have hreps : IsReputation (tcVoteProc P vote).2.thisRep
      ∧ IsReputation (tcVoteProc P vote).2.smoothedRep := by
    rw [tcVoteProc] at hrc ⊢
    cases hcomp : tcWgtPrinComp P vote.oldRep (filledVotes P vote) with
    | mk rc comp =>
      simp only [hcomp] at hrc ⊢
      by_cases hneg : rc < 0
      · rw [if_pos hneg] at hrc
        exact absurd hrc (not_le.mpr hneg)
      · rw [if_neg hneg]
        simp only [calcOutcomes_thisRep, calcOutcomes_smoothedRep]
        cases comp with
        | none => exact ⟨hrep, smoothed_isReputation hrep hrep hα hα1⟩
        | some comp =>
          have hthis := calcThisRep_isReputation (P := P) hrep (filledVotes P vote)
            (tcWgtPrinComp_mean hrep hcomp)
          exact ⟨hthis, smoothed_isReputation hrep hthis hα hα1⟩
  exact ⟨⟨hreps.1.nonneg, hreps.1.sum_eq⟩, hreps.2.nonneg, hreps.2.sum_eq⟩

end Ordered

/-- The decomposition of a matrix with one entry, and a sort by value. -/
def smallPlatform : Platform ℚ where
  tcMatSvd := fun {n} A =>
    if n = 1 then (0, fun i j => if A i j = 0 then A i j else A i j * (1 / |A i j|))
    else (-2, A)
  qsort := List.insertionSort fun a b => a.value ≤ b.value

/-- Two voters of equal reputation disagree on one binary decision. -/
def splitVote : TcVote ℚ 2 1 where
  M := fun i _ => if i.val = 0 then 1 else 0
  isBinary := fun _ _ => 1
  firstLoading := fun _ _ => 0
  decisionsRaw := fun _ _ => 0
  consensusRew := fun _ _ => 0
  certainty := fun _ _ => 0
  naCol := fun _ _ => 0
  particCol := fun _ _ => 0
  authorBonus := fun _ _ => 0
  decisionsFinal := fun _ _ => 0
  oldRep := fun _ _ => 1 / 2
  thisRep := fun _ _ => 0
  smoothedRep := fun _ _ => 0
  naRow := fun _ _ => 0
  particRow := fun _ _ => 0
  particRel := fun _ _ => 0
  rowBonus := fun _ _ => 0
  NA := -1
  alpha := 1 / 10
  tol := 1 / 5

/-- The decomposition finds a component, and the first voter takes the round. -/
theorem splitVote_reputation :
    (tcVoteProc smallPlatform splitVote).2.thisRep 0 0 = 1
      ∧ ((∀ i, 0 ≤ (tcVoteProc smallPlatform splitVote).2.thisRep i 0)
        ∧ ∑ i, (tcVoteProc smallPlatform splitVote).2.thisRep i 0 = 1)
      ∧ (∀ i, 0 ≤ (tcVoteProc smallPlatform splitVote).2.smoothedRep i 0)
        ∧ ∑ i, (tcVoteProc smallPlatform splitVote).2.smoothedRep i 0 = 1 :=
  ⟨by decide +kernel, tcVoteProc_reputation smallPlatform splitVote (by decide +kernel)
    (by decide +kernel) (by decide +kernel) (by decide +kernel) (by decide +kernel)⟩

end Hivemind
