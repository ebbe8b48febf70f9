import Hivemind.Linalg.Vote

/-!
# Outcomes, participation and bonuses

The second part of `tc_vote_proc` works from the smoothed reputation.  Each of its statistics is
a mean of votes or a sum of reputation over some voters, so it lies between zero and one.  The
row bonus mixes a relative participation with the reputation itself; the author bonus mixes two
vectors that are normalized, and a vector of zeros stays one.

That the outputs are in range is proved for any reputation, any decomposition and any sort, and
only then for the reputation that the first part hands over.  The author bonus is another matter:
each of its two parts is distributed, or lost when the vector it goes by is zero, and no later
step makes up for what is lost.

* `tcWgtMean_mem`, `filledVotes_mem`: means of votes lie where the votes do.
* `calcOutcomes_inRange`: the outputs of the second part.
* `tcVoteProc_inRange`: **the ranges, and the row bonus.**
* `authorBonus_sum`: what the author bonus adds up to.
* `authorBonusDistributed_iff`: when all of it is distributed.
* `splitVote_inRange`, `splitVote_not_distributed`: two voters who disagree, with all outputs in
  range and no reward for the authors.
-/

namespace Hivemind

open Weighted Finset

variable {K : Type} [Field K] [LinearOrder K] {nr nc : Nat}

/-! ## The vote between its two parts -/

/-- The vote as the first part of `tc_vote_proc` leaves it: with the loadings and the two
reputations of the round. -/
def withReputation (P : Platform K) (vote : TcVote K nr nc) : TcVote K nr nc :=
  let comp := (tcWgtPrinComp P vote.oldRep (filledVotes P vote)).2
  let twgt := (comp.map (calcThisRep P vote (filledVotes P vote))).getD vote.oldRep
  let loading := (comp.map fun comp => tcMatTranspose comp.loadings).getD vote.firstLoading
  { vote with firstLoading := loading, thisRep := twgt, smoothedRep := smoothed vote twgt }

theorem tcVoteProc_eq {P : Platform K} {vote : TcVote K nr nc}
    (hrc : 0 ≤ (tcVoteProc P vote).1) :
    (tcVoteProc P vote).2 = calcOutcomes P (filledVotes P vote) (withReputation P vote) := by
  rw [tcVoteProc] at hrc ⊢
  cases hcomp : tcWgtPrinComp P vote.oldRep (filledVotes P vote) with
  | mk rc comp =>
      simp only [hcomp] at hrc ⊢
      by_cases hneg : rc < 0
      · rw [if_pos hneg] at hrc
        exact absurd hrc (not_le.mpr hneg)
      · rw [if_neg hneg, withReputation, hcomp]
        cases comp <;> rfl

/-- The final outcome of a decision, from the reputation and the filled votes. -/
def decisionOutcome (P : Platform K) (fM : TcMat K nr nc) (vote : TcVote K nr nc) (j : Fin nc) :
    K :=
  finalOutcome (vote.isBinary 0 j) vote.tol
    (columnOutcome P vote.smoothedRep fM vote.isBinary vote.NA j)

/-! ## Reputation of some voters -/

section Ordered

variable [IsStrictOrderedRing K]

/-- The reputation of some voters is a part of the whole. -/
theorem sum_ite_mem {rep : TcMat K nr 1} (hrep : IsReputation rep) (p : Fin nr → Prop)
    [DecidablePred p] : (∑ i, if p i then rep i 0 else 0) ∈ Set.Icc (0 : K) 1 := by
  constructor
  · refine sum_nonneg fun i _ => ?_
    split_ifs
    · exact hrep.nonneg i
    · exact le_rfl
  · rw [← hrep.sum_eq]
    refine sum_le_sum fun i _ => ?_
    split_ifs
    · exact le_rfl
    · exact hrep.nonneg i

/-- Some voters have reputation when one of them has. -/
theorem sum_ite_eq_zero_iff {rep : TcMat K nr 1} (hrep : IsReputation rep) (p : Fin nr → Prop)
    [DecidablePred p] :
    (∑ i, if p i then rep i 0 else 0) = 0 ↔ ∀ i, p i → ¬0 < rep i 0 := by
  rw [sum_eq_zero_iff_of_nonneg fun i _ => by split_ifs; exacts [hrep.nonneg i, le_rfl]]
  constructor
  · intro h i hi hpos
    have hzero := h i (mem_univ i)
    rw [if_pos hi] at hzero
    exact hpos.ne' hzero
  · intro h i _
    split_ifs with hi
    · exact le_antisymm (not_lt.mp (h i hi)) (hrep.nonneg i)
    · rfl

/-! ## Means -/

/-- The loop of the mean keeps the sum between zero and the weights, when the values
that it counts lie between zero and one. -/
theorem meanSums_mem {wgt : TcMat K nr 1} {A : TcMat K nr nc} {j : Fin nc} {na : K}
    (h : ∀ i, A i j ≠ na → A i j ∈ Set.Icc (0 : K) 1) :
    0 ≤ (meanSums wgt A j na).1 ∧ (meanSums wgt A j na).1 ≤ (meanSums wgt A j na).2 := by
  have hfold : ∀ (l : List (Fin nr)) (sums : K × K), 0 ≤ sums.1 ∧ sums.1 ≤ sums.2 →
      0 ≤ (l.foldl (fun sums i =>
        if wgt i 0 ≤ 0 then sums
        else if A i j = na then sums
        else (sums.1 + wgt i 0 * A i j, sums.2 + wgt i 0)) sums).1 ∧
      (l.foldl (fun sums i =>
        if wgt i 0 ≤ 0 then sums
        else if A i j = na then sums
        else (sums.1 + wgt i 0 * A i j, sums.2 + wgt i 0)) sums).1 ≤
      (l.foldl (fun sums i =>
        if wgt i 0 ≤ 0 then sums
        else if A i j = na then sums
        else (sums.1 + wgt i 0 * A i j, sums.2 + wgt i 0)) sums).2 := by
    intro l
    induction l with
    | nil => exact fun sums hsums => hsums
    | cons i l ih =>
        intro sums hsums
        rw [List.foldl_cons]
        refine ih _ ?_
        split_ifs with hw hna
        · exact hsums
        · exact hsums
        · obtain ⟨hlo, hhi⟩ := h i hna
          have hpos := le_of_lt (not_le.mp hw)
          exact ⟨add_nonneg hsums.1 (mul_nonneg hpos hlo),
            add_le_add hsums.2 (mul_le_of_le_one_right hpos hhi)⟩
  exact hfold _ _ ⟨le_rfl, le_rfl⟩

/-- A mean of values between zero and one lies between zero and one. -/
theorem tcWgtMean_mem {wgt : TcMat K nr 1} {A : TcMat K nr nc} {j : Fin nc} {na : K}
    (h : ∀ i, A i j ≠ na → A i j ∈ Set.Icc (0 : K) 1) :
    tcWgtMean wgt A j na ∈ Set.Icc (0 : K) 1 := by
  have ⟨hnonneg, hle⟩ : 0 ≤ (meanSums wgt A j na).1 ∧
      (meanSums wgt A j na).1 ≤ (meanSums wgt A j na).2 := meanSums_mem h
  rw [tcWgtMean]
  split_ifs with hpos
  · exact ⟨div_nonneg hnonneg (le_of_lt hpos), div_le_one_of_le₀ hle (le_of_lt hpos)⟩
  · exact ⟨le_rfl, zero_le_one⟩

/-- A filled column of a binary decision lies between zero and one. -/
theorem filledVotes_mem {P : Platform K} {vote : TcVote K nr nc} {j : Fin nc}
    (hbin : vote.isBinary 0 j ≠ 0)
    (h : ∀ i, vote.M i j ≠ vote.NA → vote.M i j ∈ Set.Icc (0 : K) 1) (i : Fin nr) :
    filledVotes P vote i j ∈ Set.Icc (0 : K) 1 := by
  rw [filledVotes]
  split_ifs with hna
  · rw [columnOutcome, if_pos hbin]
    exact tcWgtMean_mem h
  · exact h i hna

/-! ## Normalized vectors -/

theorem tcWgtNormalize_nonneg (wgt : TcMat K nr nc) (i : Fin nr) (j : Fin nc) :
    0 ≤ tcWgtNormalize wgt i j := by
  have hsum : sumLoop₂ (dropSigns wgt) = ∑ i, ∑ j, |wgt i j| := by simp [dropSigns_eq]
  have hnonneg : 0 ≤ ∑ i, ∑ j, |wgt i j| :=
    sum_nonneg fun i _ => sum_nonneg fun j _ => abs_nonneg _
  simp only [tcWgtNormalize, hsum, dropSigns_eq]
  split_ifs
  · rw [dropSigns_eq]
    exact abs_nonneg _
  · exact div_nonneg (abs_nonneg _) hnonneg

/-- A row of numbers that are not negative is normalized to one, or is zero. -/
theorem sum_tcWgtNormalize_row {wgt : TcMat K 1 nc} (hnonneg : ∀ j, 0 ≤ wgt 0 j) :
    ∑ j, tcWgtNormalize wgt 0 j = if ∃ j, wgt 0 j ≠ 0 then 1 else 0 := by
  have hsum : sumLoop₂ (dropSigns wgt) = ∑ j, wgt 0 j := by
    rw [sumLoop₂_eq, Fin.sum_univ_one]
    exact sum_congr rfl fun j _ => by rw [dropSigns_eq, abs_of_nonneg (hnonneg j)]
  have hzero : (∑ j, wgt 0 j) = 0 ↔ ∀ j, wgt 0 j = 0 := by
    rw [sum_eq_zero_iff_of_nonneg fun j _ => hnonneg j]
    simp
  have hdrop : ∀ j, dropSigns wgt 0 j = wgt 0 j := fun j => by
    rw [dropSigns_eq, abs_of_nonneg (hnonneg j)]
  simp only [tcWgtNormalize, hsum]
  by_cases h : ∃ j, wgt 0 j ≠ 0
  · have hne : (∑ j, wgt 0 j) ≠ 0 := fun hz => by
      obtain ⟨j, hj⟩ := h
      exact hj (hzero.mp hz j)
    simp only [if_pos h, if_neg hne, hdrop]
    rw [← Finset.sum_div, div_self hne]
  · push Not at h
    have hall := hzero.mpr h
    simp only [if_pos hall]
    simp [h, hdrop]

/-! ## Shares of the votes -/

/-- A share of the decisions that is missing, taken from one. -/
theorem one_sub_share_mem (p : Fin nc → Prop) [DecidablePred p] :
    1 - (∑ j, if p j then (1 : K) else 0) / nc ∈ Set.Icc (0 : K) 1 := by
  have hle : (∑ j, if p j then (1 : K) else 0) ≤ nc := by
    rw [sum_boole]
    exact_mod_cast (card_filter_le univ p).trans_eq (card_fin nc)
  have hnonneg : (0 : K) ≤ ∑ j, if p j then (1 : K) else 0 := by
    rw [sum_boole]
    exact Nat.cast_nonneg _
  have hshare := div_le_one_of_le₀ hle (Nat.cast_nonneg nc)
  exact ⟨sub_nonneg.mpr hshare, sub_le_self _ (div_nonneg hnonneg (Nat.cast_nonneg nc))⟩

theorem one_sub_share_ne_zero {p : Fin nc → Prop} [DecidablePred p] {j : Fin nc} (hj : ¬p j) :
    1 - (∑ j, if p j then (1 : K) else 0) / nc ≠ 0 := by
  have hlt : (∑ j, if p j then (1 : K) else 0) < nc := by
    have hcard : (univ.filter p).card < nc := by
      refine lt_of_lt_of_eq (card_lt_card (filter_ssubset.mpr ⟨j, mem_univ j, hj⟩)) (card_fin nc)
    rw [sum_boole]
    exact_mod_cast hcard
  have hpos : (0 : K) < nc := by exact_mod_cast j.pos
  rw [sub_ne_zero]
  exact ((div_lt_one hpos).mpr hlt).ne'

/-- A mean of numbers between zero and one, taken from one. -/
theorem one_sub_mean_mem {x : Fin nc → K} (h : ∀ j, x j ∈ Set.Icc (0 : K) 1) :
    1 - (∑ j, x j) / nc ∈ Set.Icc (0 : K) 1 := by
  have hle : ∑ j, x j ≤ nc := by
    have hsum := sum_le_sum fun j (_ : j ∈ univ) => (h j).2
    simpa using hsum
  have hnonneg : 0 ≤ ∑ j, x j := sum_nonneg fun j _ => (h j).1
  have hmean := div_le_one_of_le₀ hle (Nat.cast_nonneg nc)
  exact ⟨sub_nonneg.mpr hmean, sub_le_self _ (div_nonneg hnonneg (Nat.cast_nonneg nc))⟩

/-! ## The ranges -/

/-- The outputs are in their ranges, and the row bonus is distributed when there is a
vote. -/
structure OutputsInRange (vote out : TcVote K nr nc) : Prop where
  decisionsRaw : ∀ j, vote.isBinary 0 j ≠ 0 → out.decisionsRaw 0 j ∈ Set.Icc (0 : K) 1
  certainty : ∀ j, out.certainty 0 j ∈ Set.Icc (0 : K) 1
  particRow : ∀ i, out.particRow i 0 ∈ Set.Icc (0 : K) 1
  particCol : ∀ j, out.particCol 0 j ∈ Set.Icc (0 : K) 1
  rowBonus_nonneg : ∀ i, 0 ≤ out.rowBonus i 0
  rowBonus_sum : (∃ i j, vote.M i j ≠ vote.NA) → ∑ i, out.rowBonus i 0 = 1

omit [IsStrictOrderedRing K] in
/-- The participation of a column is the reputation of those who voted. -/
theorem particCol_eq {rep : TcMat K nr 1} (hrep : IsReputation rep) (p : Fin nr → Prop)
    [DecidablePred p] :
    1 - (∑ i, if p i then rep i 0 else 0) = ∑ i, if ¬p i then rep i 0 else 0 := by
  rw [← hrep.sum_eq, ← sum_sub_distrib]
  refine sum_congr rfl fun i _ => ?_
  by_cases hi : p i <;> simp [hi]

theorem particCol_mem {rep : TcMat K nr 1} (hrep : IsReputation rep) (p : Fin nr → Prop)
    [DecidablePred p] : 1 - (∑ i, if p i then rep i 0 else 0) ∈ Set.Icc (0 : K) 1 := by
  rw [particCol_eq hrep]
  exact sum_ite_mem hrep _

/-- **The outputs of the second part are in range**, whatever reputation it starts from. -/
theorem calcOutcomes_inRange {P : Platform K} {fM : TcMat K nr nc} {vote : TcVote K nr nc}
    (hrep : IsReputation vote.smoothedRep)
    (hfM : ∀ i j, vote.isBinary 0 j ≠ 0 → fM i j ∈ Set.Icc (0 : K) 1) :
    OutputsInRange vote (calcOutcomes P fM vote) := by
  have hfrac : 1 - (∑ j, (calcOutcomes P fM vote).particCol 0 j) / nc ∈ Set.Icc (0 : K) 1 := by
    refine one_sub_mean_mem fun j => ?_
    simp only [calcOutcomes, sumLoop_eq]
    exact particCol_mem hrep _
  constructor
  · intro j hbin
    simp only [calcOutcomes, columnOutcome, if_pos hbin]
    exact tcWgtMean_mem fun i _ => hfM i j hbin
  · intro j
    simp only [calcOutcomes, sumLoop_eq]
    exact sum_ite_mem hrep _
  · intro i
    simp only [calcOutcomes, sumLoop_eq]
    exact one_sub_share_mem _
  · intro j
    simp only [calcOutcomes, sumLoop_eq]
    exact particCol_mem hrep _
  · intro i
    simp only [calcOutcomes, sumLoop_eq] at hfrac ⊢
    exact add_nonneg (mul_nonneg hfrac.1 (tcWgtNormalize_nonneg _ i 0))
      (mul_nonneg (sub_nonneg.mpr hfrac.2) (hrep.nonneg i))
  · rintro ⟨i, j, hvote⟩
    have hrel : IsReputation (calcOutcomes P fM vote).particRel := by
      refine tcWgtNormalize_mem (i := i) ?_
      simp only [sumLoop_eq]
      exact one_sub_share_ne_zero hvote
    have hsum := hrel.sum_eq
    simp only [calcOutcomes] at hsum ⊢
    rw [sum_add_distrib, ← mul_sum, ← mul_sum, hsum, hrep.sum_eq]
    ring

/-- The reputation that the second part starts from. -/
theorem withReputation_isReputation {P : Platform K} {vote : TcVote K nr nc}
    (hnonneg : ∀ i, 0 ≤ vote.oldRep i 0) (hsum : ∑ i, vote.oldRep i 0 = 1)
    (hα : 0 ≤ vote.alpha) (hα1 : vote.alpha ≤ 1) :
    IsReputation (withReputation P vote).smoothedRep := by
  have hrep : IsReputation vote.oldRep := ⟨hnonneg, hsum⟩
  rw [withReputation]
  cases hcomp : tcWgtPrinComp P vote.oldRep (filledVotes P vote) with
  | mk rc comp =>
      cases comp with
      | none => exact smoothed_isReputation hrep hrep hα hα1
      | some comp =>
          have hthis := calcThisRep_isReputation (P := P) hrep (filledVotes P vote)
            (tcWgtPrinComp_mean hrep hcomp)
          exact smoothed_isReputation hrep hthis hα hα1

/-- **The outputs of `tc_vote_proc` are in range**, for any decomposition and any sort. -/
theorem tcVoteProc_inRange (P : Platform K) (vote : TcVote K nr nc)
    (hbin : ∀ i j, vote.isBinary 0 j ≠ 0 → vote.M i j ≠ vote.NA →
      vote.M i j ∈ Set.Icc (0 : K) 1)
    (hnonneg : ∀ i, 0 ≤ vote.oldRep i 0) (hsum : ∑ i, vote.oldRep i 0 = 1)
    (hα : 0 ≤ vote.alpha) (hα1 : vote.alpha ≤ 1) (hrc : 0 ≤ (tcVoteProc P vote).1) :
    OutputsInRange vote (tcVoteProc P vote).2 := by
  rw [tcVoteProc_eq hrc]
  have h : OutputsInRange (withReputation P vote)
      (calcOutcomes P (filledVotes P vote) (withReputation P vote)) :=
    calcOutcomes_inRange (withReputation_isReputation hnonneg hsum hα hα1)
      fun i j hj => filledVotes_mem hj (fun i => hbin i j hj) i
  exact ⟨h.decisionsRaw, h.certainty, h.particRow, h.particCol, h.rowBonus_nonneg,
    h.rowBonus_sum⟩

/-! ## The author bonus -/

/-- The author bonus is distributed. -/
structure AuthorBonusDistributed (out : TcVote K nr nc) : Prop where
  nonneg : ∀ j, 0 ≤ out.authorBonus 0 j
  sum_eq : ∑ j, out.authorBonus 0 j = 1

/-- A voter with reputation has voted on some decision. -/
def HasParticipant (vote : TcVote K nr nc) : Prop :=
  ∃ i j, 0 < vote.smoothedRep i 0 ∧ vote.M i j ≠ vote.NA

/-- A voter with reputation has a filled vote next to the outcome of some decision. -/
def HasAgreement (P : Platform K) (fM : TcMat K nr nc) (vote : TcVote K nr nc) : Prop :=
  ∃ i j, 0 < vote.smoothedRep i 0 ∧ |fM i j - decisionOutcome P fM vote j| < 1 / 10 ^ 5

section Author

variable {P : Platform K} {fM : TcMat K nr nc} {vote : TcVote K nr nc}

theorem particCol_ne_zero_iff (hrep : IsReputation vote.smoothedRep) :
    (∃ j, (calcOutcomes P fM vote).particCol 0 j ≠ 0) ↔ HasParticipant vote := by
  simp only [calcOutcomes, sumLoop_eq, particCol_eq hrep, ne_eq, sum_ite_eq_zero_iff hrep,
    not_forall, not_not, exists_prop, HasParticipant]
  constructor
  · rintro ⟨j, i, hvote, hpos⟩
    exact ⟨i, j, hpos, hvote⟩
  · rintro ⟨i, j, hpos, hvote⟩
    exact ⟨j, i, hvote, hpos⟩

theorem certainty_ne_zero_iff (hrep : IsReputation vote.smoothedRep) :
    (∃ j, (calcOutcomes P fM vote).certainty 0 j ≠ 0) ↔ HasAgreement P fM vote := by
  simp only [calcOutcomes, sumLoop_eq, ne_eq, sum_ite_eq_zero_iff hrep, not_forall, not_not,
    exists_prop, HasAgreement, decisionOutcome]
  constructor
  · rintro ⟨j, i, hnear, hpos⟩
    exact ⟨i, j, hpos, hnear⟩
  · rintro ⟨i, j, hpos, hnear⟩
    exact ⟨j, i, hnear, hpos⟩

/-- The share of the author bonus that goes by participation. -/
def fracNA (out : TcVote K nr nc) : K := 1 - (∑ j, out.particCol 0 j) / nc

/-- **What the author bonus adds up to**: each of its two parts is distributed, or lost
when the vector it goes by is zero. -/
theorem authorBonus_sum (hrep : IsReputation vote.smoothedRep) :
    ∑ j, (calcOutcomes P fM vote).authorBonus 0 j =
      fracNA (calcOutcomes P fM vote) *
          (if ∃ j, (calcOutcomes P fM vote).particCol 0 j ≠ 0 then 1 else 0) +
        (1 - fracNA (calcOutcomes P fM vote)) *
          (if ∃ j, (calcOutcomes P fM vote).certainty 0 j ≠ 0 then 1 else 0) := by
  have hpartic : ∀ j, 0 ≤ (calcOutcomes P fM vote).particCol 0 j := by
    intro j
    simp only [calcOutcomes, sumLoop_eq]
    exact (particCol_mem hrep _).1
  have hcertain : ∀ j, 0 ≤ (calcOutcomes P fM vote).certainty 0 j := by
    intro j
    simp only [calcOutcomes, sumLoop_eq]
    exact (sum_ite_mem hrep _).1
  rw [← sum_tcWgtNormalize_row hpartic, ← sum_tcWgtNormalize_row hcertain, mul_sum, mul_sum,
    ← sum_add_distrib]
  simp only [fracNA, calcOutcomes, sumLoop_eq]

theorem fracNA_mem (hrep : IsReputation vote.smoothedRep) :
    fracNA (calcOutcomes P fM vote) ∈ Set.Icc (0 : K) 1 := by
  refine one_sub_mean_mem fun j => ?_
  simp only [calcOutcomes, sumLoop_eq]
  exact particCol_mem hrep _

/-- With a participant, not all of the bonus goes by participation. -/
theorem fracNA_ne_one (hrep : IsReputation vote.smoothedRep)
    (h : ∃ j, (calcOutcomes P fM vote).particCol 0 j ≠ 0) :
    fracNA (calcOutcomes P fM vote) ≠ 1 := by
  obtain ⟨j, hj⟩ := h
  have hnonneg : ∀ j, 0 ≤ (calcOutcomes P fM vote).particCol 0 j := by
    intro j
    simp only [calcOutcomes, sumLoop_eq]
    exact (particCol_mem hrep _).1
  have hsum : (∑ j, (calcOutcomes P fM vote).particCol 0 j) ≠ 0 := by
    rw [Ne, sum_eq_zero_iff_of_nonneg fun j _ => hnonneg j]
    exact fun hall => hj (hall j (mem_univ j))
  have hnc : (nc : K) ≠ 0 := by exact_mod_cast j.pos.ne'
  rw [fracNA, Ne, sub_eq_self]
  exact div_ne_zero hsum hnc

theorem calcOutcomes_distributed_iff (hrep : IsReputation vote.smoothedRep) :
    AuthorBonusDistributed (calcOutcomes P fM vote) ↔
      HasParticipant vote ∧ HasAgreement P fM vote := by
  have hsum := @authorBonus_sum _ _ _ _ _ _ P fM _ hrep
  have hfrac : fracNA (calcOutcomes P fM vote) ∈ Set.Icc (0 : K) 1 := fracNA_mem hrep
  have hnonneg : ∀ j, 0 ≤ (calcOutcomes P fM vote).authorBonus 0 j := by
    intro j
    simp only [fracNA, calcOutcomes, sumLoop_eq] at hfrac ⊢
    exact add_nonneg (mul_nonneg hfrac.1 (tcWgtNormalize_nonneg _ 0 j))
      (mul_nonneg (sub_nonneg.mpr hfrac.2) (tcWgtNormalize_nonneg _ 0 j))
  have hiff : AuthorBonusDistributed (calcOutcomes P fM vote) ↔
      ∑ j, (calcOutcomes P fM vote).authorBonus 0 j = 1 := ⟨fun h => h.sum_eq, fun h => ⟨hnonneg, h⟩⟩
  have hparticipant : (∃ j, (calcOutcomes P fM vote).particCol 0 j ≠ 0) ↔ HasParticipant vote :=
    particCol_ne_zero_iff hrep
  rw [hiff, hsum, ← hparticipant, ← certainty_ne_zero_iff hrep]
  by_cases hpartic : ∃ j, (calcOutcomes P fM vote).particCol 0 j ≠ 0
  · have hlt := fracNA_ne_one hrep hpartic
    rw [if_pos hpartic, mul_one, and_iff_right hpartic]
    by_cases hcertain : ∃ j, (calcOutcomes P fM vote).certainty 0 j ≠ 0
    · rw [if_pos hcertain, mul_one, add_sub_cancel]
      exact iff_of_true rfl hcertain
    · rw [if_neg hcertain, mul_zero, add_zero]
      exact iff_of_false hlt hcertain
  · -- nobody with reputation took part, and all of the bonus goes by participation
    have hone : fracNA (calcOutcomes P fM vote) = 1 := by
      push Not at hpartic
      simp [fracNA, hpartic]
    rw [if_neg hpartic, hone, mul_zero, sub_self, zero_mul, add_zero]
    exact iff_of_false zero_ne_one fun h => hpartic h.1

end Author

/-- **When the author bonus is distributed**: when, with the reputation of the round, some
voter who has any took part, and some voter who has any agrees with an outcome. -/
theorem authorBonusDistributed_iff (P : Platform K) (vote : TcVote K nr nc)
    (hnonneg : ∀ i, 0 ≤ vote.oldRep i 0) (hsum : ∑ i, vote.oldRep i 0 = 1)
    (hα : 0 ≤ vote.alpha) (hα1 : vote.alpha ≤ 1) (hrc : 0 ≤ (tcVoteProc P vote).1) :
    AuthorBonusDistributed (tcVoteProc P vote).2 ↔
      HasParticipant (withReputation P vote) ∧
        HasAgreement P (filledVotes P vote) (withReputation P vote) := by
  rw [tcVoteProc_eq hrc]
  exact calcOutcomes_distributed_iff (withReputation_isReputation hnonneg hsum hα hα1)

end Ordered

/-! ## Two voters -/

/-- All outputs of a round in which the voters disagree, and are scored. -/
theorem splitVote_inRange :
    OutputsInRange splitVote (tcVoteProc smallPlatform splitVote).2 := by
  have hvotes : ∀ i j, splitVote.M i j ∈ Set.Icc (0 : ℚ) 1 := by decide +kernel
  exact tcVoteProc_inRange smallPlatform splitVote (fun i j _ _ => hvotes i j) (by decide +kernel)
    (by decide +kernel) (by decide +kernel) (by decide +kernel) (by decide +kernel)

/-- Two voters who agree. -/
def agreedVote : TcVote ℚ 2 1 := { splitVote with M := fun _ _ => 1 }

theorem agreedVote_distributed :
    AuthorBonusDistributed (tcVoteProc smallPlatform agreedVote).2 :=
  (authorBonusDistributed_iff smallPlatform agreedVote (by decide +kernel) (by decide +kernel)
    (by decide +kernel) (by decide +kernel) (by decide +kernel)).mpr
    ⟨⟨0, 0, by decide +kernel⟩, ⟨0, 0, by decide +kernel⟩⟩

/-- **A tie leaves the authors without a reward.**  The voters of `splitVote` disagree, the
outcome is one half, and no vote is next to it. -/
theorem splitVote_not_distributed :
    (∀ i, 0 ≤ splitVote.oldRep i 0) ∧ ∑ i, splitVote.oldRep i 0 = 1 ∧
      splitVote.M 0 0 ≠ splitVote.NA ∧ 0 ≤ (tcVoteProc smallPlatform splitVote).1 ∧
      (tcVoteProc smallPlatform splitVote).2.decisionsFinal 0 0 = 1 / 2 ∧
      (tcVoteProc smallPlatform splitVote).2.authorBonus 0 0 = 0 ∧
      ¬AuthorBonusDistributed (tcVoteProc smallPlatform splitVote).2 := by
  have hbonus : (tcVoteProc smallPlatform splitVote).2.authorBonus 0 0 = 0 := by decide +kernel
  refine ⟨by decide +kernel, by decide +kernel, by decide +kernel, by decide +kernel,
    by decide +kernel, hbonus, fun h => ?_⟩
  have hsum := h.sum_eq
  rw [Fin.sum_univ_one, hbonus] at hsum
  exact zero_ne_one hsum

end Hivemind
