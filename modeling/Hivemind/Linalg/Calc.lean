import Mathlib.Algebra.Order.Floor.Semiring
import Mathlib.Data.Rat.Floor
import Hivemind.Linalg.Vote
import Hivemind.Miner.Outcome

/-!
# `marketOutcome::calc`

`calc` of `market.cpp` copies an outcome into a `tc_vote`, has `tc_vote_proc` work on it, and
copies the vectors back.  Every access to a matrix is checked against its size, with the pair of
indices that the source writes; the numbers are exact.

The vectors of the voters are `nr x 1` matrices and those of the decisions `1 x nc`.  They are
filled with one order of the indices and read back with the other.  For a single voter the two
orders are the same pair, and with two voters the first read behind the first row is outside.

`tc_vote_ctr` leaves the matrices as `malloc` returns them, so what is handed over is shown to be
the same for any memory.  Of `tc_vote_proc` itself only the accesses that can leave a matrix are
checked again here; the types of the matrices keep the others inside.

* `forLoop_write`, `forLoop_column`, `forLoop_row`, `forLoop_matrix`: loops that fill a matrix.
* `loadVote_eq`: what is handed to `tc_vote_proc`.
* `voteProcChecked_of_one`, `voteProcChecked_of_none`, `voteProcChecked_of_some`: what comes of
  it, by the number of voters and decisions.
* `calc_outOfBounds`: with two voters the copy back leaves the matrices.
* `handsOver_iff`: **when `calc` hands over** what `tc_vote_proc` computes.
-/

namespace Hivemind

open Codecs Outcomes Weighted

variable {K : Type} {nr nc : Nat}

/-! ## Accesses -/

/-- The value of `a[r][c]`. -/
def readEntry (A : TcMat K nr nc) (r c : Nat) : Except Fault K :=
  if h : c < nc ∧ r < nr then .ok (A ⟨r, h.2⟩ ⟨c, h.1⟩) else .error .outOfBounds

/-- `a[r][c] = x`. -/
def writeEntry (A : TcMat K nr nc) (r c : Nat) (x : K) : Except Fault (TcMat K nr nc) :=
  if r < nr ∧ c < nc then .ok fun i j => if i.val = r ∧ j.val = c then x else A i j
  else .error .outOfBounds

variable [Field K] [LinearOrder K]

/-! ## The steps of `tc_vote_proc` that can leave a matrix -/

/-- `tc_mat_svd`, with its first read of `D` after the case of one column; `D` has the
size of the matrix. -/
def svdChecked (P : Platform K) {n : Nat} (A : TcMat K n n) : Except Fault (Int × TcMat K n n) :=
  if n = 1 then .ok (P.tcMatSvd A)
  else do
    let _ ← readEntry A 0 0
    .ok (P.tcMatSvd A)

/-- `tc_wgt_prin_comp`. -/
def prinCompChecked (P : Platform K) (wgt : TcMat K nr 1) (M : TcMat K nr nc) :
    Except Fault (Int × Option (PrinComp K nr nc)) :=
  if nr ≤ 1 then .ok (-1, none)
  else do
    let x := centred wgt M
    let (rc, U) ← svdChecked P (weightedCovariance wgt x)
    if rc = 0 then
      .ok (rc, some { loadings := firstColumn U, scores := tcMatMult x (firstColumn U) })
    else .ok (rc, none)

/-- `tc_vote_proc`; its other accesses are inside by the types of the matrices. -/
def voteProcChecked (P : Platform K) (vote : TcVote K nr nc) :
    Except Fault (Int × TcVote K nr nc) := do
  let _ ← prinCompChecked P vote.oldRep (filledVotes P vote)
  .ok (tcVoteProc P vote)

/-- A matrix with columns is decomposed: `tc_mat_svd` fails for a missing argument and
for a matrix with more columns than rows. -/
def Platform.Decomposes (P : Platform K) : Prop :=
  ∀ (n : Nat) (A : TcMat K n n), 0 < n → (P.tcMatSvd A).1 = 0

/-! ## Copying in -/

/-- `tc_vote_ctr` leaves the entries as `malloc` returns them: `fresh` is any vote of the
size. -/
abbrev FreshVote (K : Type) (outcome : MarketOutcome) :=
  TcVote K outcome.nVoters.toNat outcome.nDecisions.toNat

/-- `i*nDecisions + j`, with the arithmetic of `uint32_t`. -/
def MarketOutcome.voteIndex (outcome : MarketOutcome) (i j : Nat) : Nat :=
  (UInt32.ofNat i * outcome.nDecisions + UInt32.ofNat j).toNat

/-- A number in units of `1e-8`. -/
def unscale (K : Type) [Field K] (x : UInt64) : K := (x.toNat : K) * (1 / 10 ^ 8)

/-- The first part of `calc`: the outcome as a `tc_vote`.  `NA`, `alpha` and `tol` are
copied as they are. -/
def loadVote (outcome : MarketOutcome) (fresh : FreshVote K outcome) :
    Except Fault (FreshVote K outcome) := do
  let oldRep ← forLoop (fun i A => do
    let x ← element outcome.oldRep i
    writeEntry A i 0 (unscale K x)) outcome.nVoters.toNat fresh.oldRep
  let isBinary ← forLoop (fun j A => do
    let x ← element outcome.isScaled j
    writeEntry A 0 j (if x ≠ 0 then 0 else 1)) outcome.nDecisions.toNat fresh.isBinary
  let M ← forLoop (fun i A => forLoop (fun j A => do
      let x ← element outcome.voteMatrix (outcome.voteIndex i j)
      writeEntry A i j (unscale K x)) outcome.nDecisions.toNat A)
    outcome.nVoters.toNat fresh.M
  .ok { fresh with
    NA := (outcome.NA.toNat : K), alpha := (outcome.alpha.toNat : K), tol := (outcome.tol.toNat : K)
    oldRep, isBinary, M }

/-! ## Copying back -/

/-- `(uint64_t) (x * 1e8)`. -/
def rescale [IsStrictOrderedRing K] [FloorRing K] (x : K) : UInt64 := UInt64.ofNat ⌊x * 10 ^ 8⌋₊

section CopyBack

variable [IsStrictOrderedRing K] [FloorRing K]

/-- The turn of the loop over the voters. -/
def readVoter (vote : TcVote K nr nc) (i : Nat) (o : MarketOutcome) :
    Except Fault MarketOutcome := do
  let thisRep ← readEntry vote.thisRep 0 i
  let smoothedRep ← readEntry vote.smoothedRep 0 i
  let naRow ← readEntry vote.naRow 0 i
  let particRow ← readEntry vote.particRow 0 i
  let particRel ← readEntry vote.particRel 0 i
  let rowBonus ← readEntry vote.rowBonus 0 i
  .ok { o with
    thisRep := o.thisRep ++ [rescale thisRep]
    smoothedRep := o.smoothedRep ++ [rescale smoothedRep]
    NARow := o.NARow ++ [rescale naRow]
    particRow := o.particRow ++ [rescale particRow]
    particRel := o.particRel ++ [rescale particRel]
    rowBonus := o.rowBonus ++ [rescale rowBonus] }

/-- The turn of the loop over the decisions. -/
def readDecision (vote : TcVote K nr nc) (i : Nat) (o : MarketOutcome) :
    Except Fault MarketOutcome := do
  let firstLoading ← readEntry vote.firstLoading i 0
  let decisionsRaw ← readEntry vote.decisionsRaw i 0
  let consensusRew ← readEntry vote.consensusRew i 0
  let certainty ← readEntry vote.certainty i 0
  let naCol ← readEntry vote.naCol i 0
  let particCol ← readEntry vote.particCol i 0
  let authorBonus ← readEntry vote.authorBonus i 0
  let decisionsFinal ← readEntry vote.decisionsFinal i 0
  .ok { o with
    firstLoading := o.firstLoading ++ [rescale firstLoading]
    decisionsRaw := o.decisionsRaw ++ [rescale decisionsRaw]
    consensusReward := o.consensusReward ++ [rescale consensusRew]
    certainty := o.certainty ++ [rescale certainty]
    NACol := o.NACol ++ [rescale naCol]
    particCol := o.particCol ++ [rescale particCol]
    authorBonus := o.authorBonus ++ [rescale authorBonus]
    decisionsFinal := o.decisionsFinal ++ [rescale decisionsFinal] }

/-- `calc`: the return code, and the outcome as it is left. -/
def outcomeCalc (P : Platform K) (outcome : MarketOutcome) (fresh : FreshVote K outcome) :
    Except Fault (Int × MarketOutcome) := do
  let loaded ← loadVote outcome fresh
  let (rc, vote) ← voteProcChecked P loaded
  if rc < 0 then .ok (-1, outcome)
  else do
    let o ← forLoop (readVoter vote) outcome.nVoters.toNat { outcome with
      thisRep := [], smoothedRep := [], NARow := [], particRow := [], particRel := []
      rowBonus := [] }
    let o ← forLoop (readDecision vote) outcome.nDecisions.toNat { o with
      firstLoading := [], decisionsRaw := [], consensusReward := [], certainty := [], NACol := []
      particCol := [], authorBonus := [], decisionsFinal := [] }
    .ok (0, o)

end CopyBack

/-! ## What is handed over -/

/-- The vectors of an outcome have the sizes it names. -/
structure SizesMatch (outcome : MarketOutcome) : Prop where
  oldRep : outcome.oldRep.length = outcome.nVoters.toNat
  isScaled : outcome.isScaled.length = outcome.nDecisions.toNat
  voteMatrix : outcome.voteMatrix.length = outcome.nVoters.toNat * outcome.nDecisions.toNat

/-- The entry of a voter and a decision, as `calc` finds it. -/
def MarketOutcome.voteEntry (outcome : MarketOutcome) (i j : Nat) : UInt64 :=
  outcome.voteMatrix.getD (outcome.voteIndex i j) 0

/-- The `tc_vote` of an outcome. -/
def loadedVote (outcome : MarketOutcome) (fresh : FreshVote K outcome) : FreshVote K outcome :=
  { fresh with
    NA := (outcome.NA.toNat : K), alpha := (outcome.alpha.toNat : K), tol := (outcome.tol.toNat : K)
    oldRep := fun i _ => unscale K (outcome.oldRep.getD i 0)
    isBinary := fun _ j => if outcome.isScaled.getD j 0 ≠ 0 then 0 else 1
    M := fun i j => unscale K (outcome.voteEntry i j) }

theorem element_ok {α : Type} {xs : List α} {i : Nat} (h : i < xs.length) (d : α) :
    element xs i = .ok (xs.getD i d) := by
  simp [element, List.getElem?_eq_getElem h, List.getD_eq_getElem?_getD]

section Writes

omit [Field K] [LinearOrder K]

/-- A loop that writes one entry in each turn, at a place of its own: the entries are
what was written, and the others are as before. -/
theorem forLoop_write {body : Nat → TcMat K nr nc → Except Fault (TcMat K nr nc)}
    (pos : Nat → Nat × Nat) (g : Nat → K) {n : Nat}
    (hbody : ∀ k < n, ∀ A, body k A = writeEntry A (pos k).1 (pos k).2 (g k))
    (hpos : ∀ k < n, (pos k).1 < nr ∧ (pos k).2 < nc) (hinj : Function.Injective pos)
    (A : TcMat K nr nc) :
    ∃ B, forLoop body n A = .ok B ∧
      ∀ i j, (∀ k < n, pos k = (i.val, j.val) → B i j = g k) ∧
        ((∀ k < n, pos k ≠ (i.val, j.val)) → B i j = A i j) := by
  refine forLoop_ok (fun (m : Nat) (B : TcMat K nr nc) =>
    ∀ i j, (∀ k < m, pos k = (i.val, j.val) → B i j = g k) ∧
      ((∀ k < m, pos k ≠ (i.val, j.val)) → B i j = A i j)) ?_ ?_
  · simp
  · intro m hm B hB
    have hstep := hbody m hm B
    rw [writeEntry, if_pos (hpos m hm)] at hstep
    refine ⟨_, hstep, fun i j => ?_⟩
    have hhit : (i.val = (pos m).1 ∧ j.val = (pos m).2) ↔ pos m = (i.val, j.val) := by
      rw [Prod.ext_iff, eq_comm, @eq_comm _ j.val]
    simp only [hhit]
    refine ⟨fun k hk hki => ?_, fun hnone => ?_⟩
    · by_cases hkm : pos m = (i.val, j.val)
      · rw [if_pos hkm, hinj (hki.trans hkm.symm)]
      · have hlt : k < m := Nat.lt_of_le_of_ne (Nat.le_of_lt_succ hk) fun h => hkm (h ▸ hki)
        rw [if_neg hkm]
        exact (hB i j).1 k hlt hki
    · rw [if_neg (hnone m (Nat.lt_succ_self m))]
      exact (hB i j).2 fun k hk => hnone k (Nat.lt_succ_of_lt hk)

/-- A loop that writes a column. -/
theorem forLoop_column {body : Nat → TcMat K nr 1 → Except Fault (TcMat K nr 1)} (g : Nat → K)
    (hbody : ∀ i < nr, ∀ A, body i A = writeEntry A i 0 (g i)) (A : TcMat K nr 1) :
    forLoop body nr A = .ok fun i _ => g i := by
  obtain ⟨B, hB, hentry⟩ := forLoop_write (fun i => (i, 0)) g hbody (fun i hi => ⟨hi, one_pos⟩)
    (fun i i' h => (Prod.mk.inj h).1) A
  rw [hB]
  congr 1
  funext i j
  exact (hentry i j).1 i i.isLt (by simp)

/-- A loop that writes a row. -/
theorem forLoop_row {body : Nat → TcMat K 1 nc → Except Fault (TcMat K 1 nc)} (g : Nat → K)
    (hbody : ∀ j < nc, ∀ A, body j A = writeEntry A 0 j (g j)) (A : TcMat K 1 nc) :
    forLoop body nc A = .ok fun _ j => g j := by
  obtain ⟨B, hB, hentry⟩ := forLoop_write (fun j => (0, j)) g hbody (fun j hj => ⟨one_pos, hj⟩)
    (fun j j' h => (Prod.mk.inj h).2) A
  rw [hB]
  congr 1
  funext i j
  exact (hentry i j).1 j j.isLt (by simp)

/-- A loop over the rows, each written by a loop over the columns. -/
theorem forLoop_matrix {body : Nat → Nat → TcMat K nr nc → Except Fault (TcMat K nr nc)}
    (g : Nat → Nat → K)
    (hbody : ∀ i < nr, ∀ j < nc, ∀ A, body i j A = writeEntry A i j (g i j)) (A : TcMat K nr nc) :
    forLoop (fun i A => forLoop (body i) nc A) nr A = .ok fun i j => g i j := by
  have hrows : ∃ B, forLoop (fun i A => forLoop (body i) nc A) nr A = .ok B ∧
      ∀ i j, i.val < nr → B i j = g i j := by
    refine forLoop_ok (fun (m : Nat) (B : TcMat K nr nc) => ∀ i j, i.val < m → B i j = g i j) ?_ ?_
    · simp
    · intro m hm B hB
      obtain ⟨C, hC, hrow⟩ := forLoop_write (fun j => (m, j)) (g m) (hbody m hm)
        (fun j hj => ⟨hm, hj⟩) (fun j j' h => (Prod.mk.inj h).2) B
      refine ⟨C, hC, fun i j hi => ?_⟩
      by_cases him : i.val = m
      · rw [him]
        exact (hrow i j).1 j j.isLt (by simp [him])
      · rw [(hrow i j).2 fun k _ h => him (Prod.mk.inj h).1.symm]
        exact hB i j (by omega)
  obtain ⟨B, hB, hentry⟩ := hrows
  rw [hB]
  congr 1
  funext i j
  exact hentry i j i.isLt

end Writes

/-- The index of an entry is in the matrix, also where the arithmetic wraps. -/
theorem voteIndex_lt {outcome : MarketOutcome} (h : SizesMatch outcome) {i j : Nat}
    (hi : i < outcome.nVoters.toNat) (hj : j < outcome.nDecisions.toNat) :
    outcome.voteIndex i j < outcome.voteMatrix.length := by
  have hle : outcome.voteIndex i j ≤ i * outcome.nDecisions.toNat + j := by
    have hmul : (UInt32.ofNat i * outcome.nDecisions).toNat ≤ i * outcome.nDecisions.toNat := by
      rw [UInt32.toNat_mul, UInt32.toNat_ofNat']
      exact (Nat.mod_le _ _).trans (Nat.mul_le_mul_right _ (Nat.mod_le _ _))
    rw [MarketOutcome.voteIndex, UInt32.toNat_add, UInt32.toNat_ofNat']
    exact (Nat.mod_le _ _).trans (Nat.add_le_add hmul (Nat.mod_le _ _))
  have hrow : i * outcome.nDecisions.toNat + j < (i + 1) * outcome.nDecisions.toNat := by
    rw [Nat.add_mul, Nat.one_mul]
    omega
  rw [h.voteMatrix]
  exact (hle.trans_lt hrow).trans_le (Nat.mul_le_mul_right _ hi)

omit [LinearOrder K] in
/-- **What is handed to `tc_vote_proc`.** -/
theorem loadVote_eq {outcome : MarketOutcome} (h : SizesMatch outcome)
    (fresh : FreshVote K outcome) : loadVote outcome fresh = .ok (loadedVote outcome fresh) := by
  unfold loadVote
  rw [forLoop_column (fun i => unscale K (outcome.oldRep.getD i 0)),
    forLoop_row (fun j => if outcome.isScaled.getD j 0 ≠ 0 then 0 else 1),
    forLoop_matrix (fun i j => unscale K (outcome.voteEntry i j))]
  · rfl
  · intro i hi j hj A
    rw [element_ok (voteIndex_lt h hi hj) 0]
    rfl
  · intro j hj A
    rw [element_ok (h.isScaled.symm ▸ hj) 0]
    rfl
  · intro i hi A
    rw [element_ok (h.oldRep.symm ▸ hi) 0]
    rfl

/-! ## The copy back -/

section Result

variable [IsStrictOrderedRing K] [FloorRing K]

/-- What `calc` owes: it stays inside the matrices, and when it returns zero the vectors
are those of `tc_vote_proc`, in units of `1e-8`. -/
structure HandsOver (P : Platform K) (outcome : MarketOutcome) (fresh : FreshVote K outcome) :
    Prop where
  inside : outcomeCalc P outcome fresh ≠ .error .outOfBounds
  voters : ∀ o, outcomeCalc P outcome fresh = .ok (0, o) →
    let vote := (tcVoteProc P (loadedVote outcome fresh)).2
    ∀ i, o.thisRep[i.val]? = some (rescale (vote.thisRep i 0)) ∧
      o.smoothedRep[i.val]? = some (rescale (vote.smoothedRep i 0)) ∧
      o.NARow[i.val]? = some (rescale (vote.naRow i 0)) ∧
      o.particRow[i.val]? = some (rescale (vote.particRow i 0)) ∧
      o.particRel[i.val]? = some (rescale (vote.particRel i 0)) ∧
      o.rowBonus[i.val]? = some (rescale (vote.rowBonus i 0))
  decisions : ∀ o, outcomeCalc P outcome fresh = .ok (0, o) →
    let vote := (tcVoteProc P (loadedVote outcome fresh)).2
    ∀ j, o.firstLoading[j.val]? = some (rescale (vote.firstLoading 0 j)) ∧
      o.decisionsRaw[j.val]? = some (rescale (vote.decisionsRaw 0 j)) ∧
      o.consensusReward[j.val]? = some (rescale (vote.consensusRew 0 j)) ∧
      o.certainty[j.val]? = some (rescale (vote.certainty 0 j)) ∧
      o.NACol[j.val]? = some (rescale (vote.naCol 0 j)) ∧
      o.particCol[j.val]? = some (rescale (vote.particCol 0 j)) ∧
      o.authorBonus[j.val]? = some (rescale (vote.authorBonus 0 j)) ∧
      o.decisionsFinal[j.val]? = some (rescale (vote.decisionsFinal 0 j))

/-- **`calc` writes the results only**: it keeps the decisions, and leaves a final value for
each of them. -/
theorem outcomeCalc_keeps {P : Platform K} {outcome o : MarketOutcome}
    {fresh : FreshVote K outcome} (h : outcomeCalc P outcome fresh = .ok (0, o)) :
    o.decisionIDs = outcome.decisionIDs ∧ o.decisionsFinal.length = outcome.nDecisions.toNat := by
  simp only [outcomeCalc, bind_eq_ok] at h
  obtain ⟨loaded, -, ⟨rc, vote⟩, -, h⟩ := h
  split_ifs at h with hrc
  · simp at h
  · simp only [bind_eq_ok, Except.ok.injEq, Prod.mk.injEq, true_and] at h
    obtain ⟨voters, hvoters, decisions, hdecisions, rfl⟩ := h
    have hids : voters.decisionIDs = outcome.decisionIDs := by
      refine forLoop_inv (fun _ (o : MarketOutcome) => o.decisionIDs = outcome.decisionIDs) hvoters
        rfl fun i b b' hb hturn => ?_
      simp only [readVoter, bind_eq_ok, Except.ok.injEq] at hturn
      obtain ⟨_, -, _, -, _, -, _, -, _, -, _, -, rfl⟩ := hturn
      exact hb
    refine forLoop_inv (fun n (o : MarketOutcome) =>
      o.decisionIDs = outcome.decisionIDs ∧ o.decisionsFinal.length = n) hdecisions ⟨hids, rfl⟩
      fun i b b' hb hturn => ?_
    simp only [readDecision, bind_eq_ok, Except.ok.injEq] at hturn
    obtain ⟨_, -, _, -, _, -, _, -, _, -, _, -, _, -, _, -, rfl⟩ := hturn
    exact ⟨hb.1, by simp [hb.2]⟩

/-- The second turn reads the second column of a matrix that has one. -/
theorem readVoters_outOfBounds (vote : TcVote K nr nc) (h : 1 < nr) (o : MarketOutcome) :
    forLoop (readVoter vote) nr o = .error .outOfBounds := by
  refine forLoop_error_of_le (m := 2) ?_ h
  have hfirst : ∀ A : TcMat K nr 1, readEntry A 0 0 = .ok (A ⟨0, by omega⟩ 0) := by
    intro A
    rw [readEntry, dif_pos ⟨one_pos, by omega⟩]
    rfl
  have hsecond : ∀ A : TcMat K nr 1, readEntry A 0 1 = .error .outOfBounds := by
    intro A
    rw [readEntry, dif_neg (by omega)]
  simp [forLoop, readVoter, hfirst, hsecond, bind, Except.bind]

omit [IsStrictOrderedRing K] [FloorRing K] in
/-- One voter is too few for a principal component. -/
theorem voteProcChecked_of_one (P : Platform K) (vote : TcVote K nr nc) (h : nr ≤ 1) :
    voteProcChecked P vote = .ok (-1, vote) := by
  have hproc : tcVoteProc P vote = (-1, vote) := by
    simp [tcVoteProc, tcWgtPrinComp, h]
  simp [voteProcChecked, prinCompChecked, h, hproc, bind, Except.bind]

omit [IsStrictOrderedRing K] [FloorRing K] in
/-- Without decisions the decomposition reads an entry of an empty matrix. -/
theorem voteProcChecked_of_none (P : Platform K) (vote : TcVote K nr nc) (h : 1 < nr)
    (hnc : nc = 0) : voteProcChecked P vote = .error .outOfBounds := by
  subst hnc
  simp [voteProcChecked, prinCompChecked, not_le.mpr h, svdChecked, readEntry, bind, Except.bind]

omit [IsStrictOrderedRing K] [FloorRing K] in
/-- With decisions the vote is processed. -/
theorem voteProcChecked_of_some {P : Platform K} (hP : P.Decomposes) (vote : TcVote K nr nc)
    (h : 1 < nr) (hnc : 0 < nc) :
    voteProcChecked P vote = .ok (tcVoteProc P vote) ∧ (tcVoteProc P vote).1 = 0 := by
  have hsvd : ∀ A : TcMat K nc nc, svdChecked P A = .ok (P.tcMatSvd A) := by
    intro A
    unfold svdChecked readEntry
    by_cases hone : nc = 1
    · rw [if_pos hone]
    · rw [if_neg hone, dif_pos ⟨hnc, hnc⟩]
      rfl
  have hrc : ∀ A : TcMat K nc nc, (P.tcMatSvd A).1 = 0 := fun A => hP nc A hnc
  constructor
  · simp [voteProcChecked, prinCompChecked, not_le.mpr h, hsvd, hrc, bind, Except.bind]
  · simp [tcVoteProc, tcWgtPrinComp, not_le.mpr h, hrc]

/-- **Two voters are too many for the copy back.** -/
theorem calc_outOfBounds {P : Platform K} (hP : P.Decomposes) {outcome : MarketOutcome}
    (hsizes : SizesMatch outcome) (fresh : FreshVote K outcome) (h : 1 < outcome.nVoters.toNat) :
    outcomeCalc P outcome fresh = .error .outOfBounds := by
  unfold outcomeCalc
  rw [loadVote_eq hsizes]
  by_cases hnc : outcome.nDecisions.toNat = 0
  · simp [voteProcChecked_of_none P _ h hnc, bind, Except.bind]
  · obtain ⟨hproc, hrc⟩ := voteProcChecked_of_some hP (loadedVote outcome fresh) h
      (Nat.pos_of_ne_zero hnc)
    simp [hproc, hrc, readVoters_outOfBounds _ h, bind, Except.bind]

/-- **When `calc` hands over what `tc_vote_proc` computes**: when there is one voter, so that
nothing is computed. -/
theorem handsOver_iff {P : Platform K} (hP : P.Decomposes) {outcome : MarketOutcome}
    (hsizes : SizesMatch outcome) (hvoters : 1 ≤ outcome.nVoters.toNat)
    (fresh : FreshVote K outcome) :
    HandsOver P outcome fresh ↔ outcome.nVoters = 1 := by
  constructor
  · intro h
    have hone : ¬ 1 < outcome.nVoters.toNat := fun hlt =>
      h.inside (calc_outOfBounds hP hsizes fresh hlt)
    exact UInt32.toNat_inj.mp (show outcome.nVoters.toNat = 1 by omega)
  · intro hone
    have hle : outcome.nVoters.toNat ≤ 1 := by simp [hone]
    have hcalc : outcomeCalc P outcome fresh = .ok (-1, outcome) := by
      simp [outcomeCalc, loadVote_eq hsizes, voteProcChecked_of_one P _ hle, bind, Except.bind]
    refine ⟨by simp [hcalc], fun o h => ?_, fun o h => ?_⟩
    · simp [hcalc] at h
    · simp [hcalc] at h

end Result

/-! ## One voter and two -/

/-- An outcome with one binary decision. -/
def binaryOutcome (oldRep votes : List UInt64) : MarketOutcome where
  branchid := Blob.null
  nVoters := UInt32.ofNat oldRep.length
  voterIDs := []
  oldRep := oldRep
  thisRep := []
  smoothedRep := []
  NARow := []
  particRow := []
  particRel := []
  rowBonus := []
  nDecisions := 1
  decisionIDs := [Blob.null]
  isScaled := [0]
  firstLoading := []
  decisionsRaw := []
  consensusReward := []
  certainty := []
  NACol := []
  particCol := []
  authorBonus := []
  decisionsFinal := []
  voteMatrix := votes
  NA := defaultNA
  alpha := 10000000
  tol := 20000000

/-- A vote as `tc_vote_ctr` may leave it. -/
def zeroVote : TcVote ℚ nr nc where
  M := fun _ _ => 0
  isBinary := fun _ _ => 0
  firstLoading := fun _ _ => 0
  decisionsRaw := fun _ _ => 0
  consensusRew := fun _ _ => 0
  certainty := fun _ _ => 0
  naCol := fun _ _ => 0
  particCol := fun _ _ => 0
  authorBonus := fun _ _ => 0
  decisionsFinal := fun _ _ => 0
  oldRep := fun _ _ => 0
  thisRep := fun _ _ => 0
  smoothedRep := fun _ _ => 0
  naRow := fun _ _ => 0
  particRow := fun _ _ => 0
  particRel := fun _ _ => 0
  rowBonus := fun _ _ => 0
  NA := 0
  alpha := 0
  tol := 0

/-- Two voters of equal reputation who disagree. -/
def twoVoters : MarketOutcome := binaryOutcome [50000000, 50000000] [100000000, 0]

/-- **Two voters.**  `calc` reads the second column of a matrix with one. -/
theorem calc_two_voters :
    SizesMatch twoVoters ∧ outcomeCalc smallPlatform twoVoters zeroVote = .error .outOfBounds ∧
      ¬ HandsOver smallPlatform twoVoters zeroVote := by
  have hfault : outcomeCalc smallPlatform twoVoters zeroVote = .error .outOfBounds := by
    decide +kernel
  exact ⟨⟨rfl, rfl, rfl⟩, hfault, fun h => h.inside hfault⟩

/-- `smallPlatform`, with a decomposition of every square matrix. -/
def squarePlatform : Platform ℚ where
  tcMatSvd := fun A => (0, (smallPlatform.tcMatSvd A).2)
  qsort := smallPlatform.qsort

/-- A voter alone. -/
def oneVoter : MarketOutcome := binaryOutcome [100000000] [100000000]

/-- One voter. -/
theorem handsOver_one_voter :
    (squarePlatform.Decomposes ∧ SizesMatch oneVoter) ∧
      HandsOver squarePlatform oneVoter zeroVote := by
  have hP : squarePlatform.Decomposes := fun n A _ => rfl
  have hsizes : SizesMatch oneVoter := ⟨rfl, rfl, rfl⟩
  exact ⟨⟨hP, hsizes⟩, (handsOver_iff hP hsizes (by decide) zeroVote).mpr rfl⟩

end Hivemind
