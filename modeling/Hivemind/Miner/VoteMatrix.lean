import Hivemind.Miner.VotingPeriod

/-!
# The vote matrix of an outcome

The part of `getOutcomeTx` that fills `voterIDs`, `oldRep` and `voteMatrix` from the outputs of
the previous reputation transaction and the reveal votes.  The matrix is to have a row for every
output and a column for every decision, with the answers of the key that owns the output.

Three tests stand in the way: the phase is left when there are decisions, the key of an output is
looked for when `Solver` has failed, and a row is as long as the list of decisions that the vote
itself names.  So with decisions nothing is filled in, and without them the matrix has no
columns; what is left to say is when the loop passes over the outputs without reading past the
end of a vector.

* `matrixEntry`, `VoteMatrixBuilt`: what the phase has to leave.
* `fillVoters_ok_iff`: when the loop stays inside the vectors, without decisions.
* `voteMatrixBuilt_iff`: **when the matrix is built.**
* `voteMatrix_not_built`: a vote of the null key is read past the end.
* `voteMatrixBuilt_late`: a decision outside of the window, and a matrix that is built.
-/

namespace Hivemind

open Codecs Ordered Outcomes

/-! ## The matrix -/

/-- The key that owns an output: the hash of the public key, or the hash that is paid to. -/
def ownerKey (miner : Miner) (s : Solution) : Option CKeyID :=
  if s.found then
    match s.typeRet with
    | .pubkey =>
      let vch := s.vSolutions.headD []
      if pubKeyIsValid vch then some (Blob.ofBytes (miner.hash160 vch)) else none
    | .pubkeyhash | .scripthash => some (Blob.ofBytes (s.vSolutions.headD []))
    | _ => none
  else none

/-- The answer of a vote to a decision. -/
def MarketRevealVote.answer (vote : MarketRevealVote) (decisionid : Uint256) : Option UInt64 :=
  if vote.decisionIDs.length = vote.decisionVotes.length then
    (vote.decisionIDs.zip vote.decisionVotes).lookup decisionid
  else none

/-- The entry of an output and a decision: the owner's answer, or `NA`. -/
def matrixEntry (miner : Miner) (votes : OrdMap CKeyID MarketRevealVote) (NA : UInt64) (s : Solution)
    (decisionid : Uint256) : UInt64 :=
  (((ownerKey miner s).bind votes.find).bind (·.answer decisionid)).getD NA

/-- What the phase has to leave for `calc`: a matrix with a row for every output, and the
answers in it. -/
structure VoteMatrixBuilt (miner : Miner) (preptx : CTransaction)
    (revealvotes : List (MarketObj .revealVote)) (outcome : MarketOutcome) : Prop where
  built : ∃ ready filled, fillOutcome miner preptx revealvotes outcome = .ok (ready, filled) ∧
    filled.voteMatrix.length = preptx.vout.length * outcome.decisionIDs.length ∧
    ∀ (i : Nat) txout (j : Nat) decisionid s, preptx.vout[i]? = some txout →
      outcome.decisionIDs[j]? = some decisionid →
      solver miner.carrier txout.scriptPubKey = .ok s →
      filled.voteMatrix[i * outcome.decisionIDs.length + j]? =
        some (matrixEntry miner (votesByKey revealvotes) outcome.NA s decisionid)

/-! ## The loop -/

/-- A vote that fills in a row: it has as many answers as decisions, and some. -/
def MarketRevealVote.FillsRow (vote : MarketRevealVote) : Prop :=
  vote.decisionIDs.length = vote.decisionVotes.length ∧ vote.decisionIDs ≠ []

/-- The output can be passed without decisions: `Solver` returns, and a script that it
solves does not find a vote of the null key. -/
def Passes (miner : Miner) (votes : OrdMap CKeyID MarketRevealVote) (txout : CTxOut) : Prop :=
  ∃ s, solver miner.carrier txout.scriptPubKey = .ok s ∧
    (s.found = true → ∀ vote, votes.find Blob.null = some vote → ¬ vote.FillsRow)

section Loop

variable {miner : Miner} {votes : OrdMap CKeyID MarketRevealVote} (outcome : MarketOutcome)

/-- Without decisions, the first decision of a vote is read past the end. -/
theorem fillVote_nil (hnone : outcome.decisionIDs = []) (i : UInt32) (vote : MarketRevealVote) :
    (vote.FillsRow → fillVote i vote outcome = .error .outOfBounds) ∧
      (¬ vote.FillsRow → fillVote i vote outcome = .ok outcome) := by
  unfold fillVote MarketRevealVote.FillsRow
  by_cases hlen : vote.decisionIDs.length = vote.decisionVotes.length
  · rw [if_pos hlen]
    cases hids : vote.decisionIDs with
    | nil => simp [fillRow]
    | cons id ids =>
        cases hvotes : vote.decisionVotes with
        | nil => simp [hids, hvotes] at hlen
        | cons v vs =>
            have hread : response outcome 0 ((id, v) :: ids.zip vs) = .error .outOfBounds := by
              simp [response, hnone, element, bind, Except.bind]
            simp [List.range_succ_eq_map, fillRow, hread, bind, Except.bind,
              show ids.length = vs.length by simpa [hids, hvotes] using hlen]
  · simp [hlen]

theorem fillVoter_nil (hnone : outcome.decisionIDs = []) (i : UInt32) {script : CScript}
    {s : Solution} (hs : solver miner.carrier script = .ok s) :
    (∃ filled, fillVoter votes i (voterKey miner s) outcome = .ok filled) ↔
      (s.found = true → ∀ vote, votes.find Blob.null = some vote → ¬ vote.FillsRow) := by
  have hkey := voterKey_null hs
  have hrc : (voterKey miner s).2 = s.found := by
    unfold voterKey
    split_ifs with hfound
    · exact hfound.symm
    · rcases solver_failed hs (by simpa using hfound) with ht | ht <;> simp [ht, hfound]
  unfold fillVoter
  rw [hrc, hkey]
  cases hfound : s.found with
  | false => simp
  | true =>
      cases hfind : votes.find Blob.null with
      | none => simp
      | some vote =>
          by_cases hrow : vote.FillsRow
          · simp [(fillVote_nil outcome hnone i vote).1 hrow, hrow]
          · simp [(fillVote_nil outcome hnone i vote).2 hrow, hrow]

/-- **When the loop stays inside the vectors**, without decisions: when every output can
be passed. -/
theorem fillVoters_ok_iff (hnone : outcome.decisionIDs = []) (i : UInt32) (vout : List CTxOut) :
    (∃ filled, fillVoters miner votes i vout outcome = .ok filled) ↔
      ∀ txout ∈ vout, Passes miner votes txout := by
  induction vout generalizing i outcome with
  | nil => simp [fillVoters]
  | cons txout vout ih =>
      simp only [List.forall_mem_cons]
      cases hs : solver miner.carrier txout.scriptPubKey with
      | error e => simp [fillVoters, Passes, hs]
      | ok s =>
          simp only [fillVoters, hs, bind_eq_ok]
          have hpass : Passes miner votes txout ↔
              (s.found = true → ∀ vote, votes.find Blob.null = some vote → ¬ vote.FillsRow) := by
            simp [Passes, hs]
          rw [hpass, ← fillVoter_nil { outcome with
            voterIDs := outcome.voterIDs ++ [(voterKey miner s).1]
            oldRep := outcome.oldRep ++ [txout.nValue.toUInt64] } hnone i hs]
          constructor
          · rintro ⟨filled, row, hrow, hrest⟩
            have hkept := fillVoter_keeps keptByFill_decisionIDs hrow
            exact ⟨⟨row, hrow⟩, (ih { row with nVoters := row.nVoters + 1 } (hkept.trans hnone)
              (i + 1)).mp ⟨filled, hrest⟩⟩
          · rintro ⟨⟨row, hrow⟩, hrest⟩
            have hkept := fillVoter_keeps keptByFill_decisionIDs hrow
            obtain ⟨filled, hfilled⟩ := (ih { row with nVoters := row.nVoters + 1 }
              (hkept.trans hnone) (i + 1)).mpr hrest
            exact ⟨filled, row, hrow, hfilled⟩

theorem fillRow_length {i : UInt32} {ballot : List (Uint256 × UInt64)} {js : List Nat}
    {outcome filled : MarketOutcome} (h : fillRow i ballot js outcome = .ok filled) :
    filled.voteMatrix.length = outcome.voteMatrix.length := by
  induction js generalizing outcome with
  | nil => rw [Except.ok.inj h]
  | cons j js ih =>
      simp only [fillRow, bind_eq_ok, setElement] at h
      obtain ⟨resp, -, voteMatrix, hset, h⟩ := h
      split_ifs at hset
      obtain rfl := Except.ok.inj hset
      exact (ih h).trans (List.length_set ..)

theorem fillVoter_length {i : UInt32} {key : CKeyID × Bool} {outcome filled : MarketOutcome}
    (h : fillVoter votes i key outcome = .ok filled) :
    filled.voteMatrix.length = outcome.voteMatrix.length := by
  unfold fillVoter fillVote at h
  split at h
  · split_ifs at h
    · exact fillRow_length h
    · rw [← Except.ok.inj h]
  · rw [← Except.ok.inj h]

/-- The loop does not change the size of the matrix. -/
theorem fillVoters_length {i : UInt32} {vout : List CTxOut} {outcome filled : MarketOutcome}
    (h : fillVoters miner votes i vout outcome = .ok filled) :
    filled.voteMatrix.length = outcome.voteMatrix.length := by
  induction vout generalizing i outcome with
  | nil => rw [Except.ok.inj h]
  | cons txout vout ih =>
      unfold fillVoters at h
      split at h
      · cases h
      · simp only [bind_eq_ok] at h
        obtain ⟨row, hrow, h⟩ := h
        have hsame := fillVoter_length hrow
        exact (ih h).trans hsame

end Loop

/-! ## The phase -/

section Phase

variable {miner : Miner} {preptx : CTransaction} {revealvotes : List (MarketObj .revealVote)}
  {outcome : MarketOutcome}

/-- Without decisions the loop runs, on an empty matrix. -/
theorem voteMatrixBuilt_of_none (hzero : outcome.decisionIDs = []) (hn : outcome.nDecisions = 0) :
    VoteMatrixBuilt miner preptx revealvotes outcome ↔
      ∀ txout ∈ preptx.vout, Passes miner (votesByKey revealvotes) txout := by
  rw [← fillVoters_ok_iff { outcome with voteMatrix := [] } hzero 0 preptx.vout]
  have hfill : fillOutcome miner preptx revealvotes outcome =
      (fillVoters miner (votesByKey revealvotes) 0 preptx.vout
        { outcome with voteMatrix := [] }).map fun filled =>
          (!(filled.nVoters = 0 ∨ preptx.vout = []), filled) := by
    simp only [fillOutcome, hn, ne_eq, not_true_eq_false, if_false, UInt32.toNat_zero, Nat.mul_zero,
      List.replicate_zero]
    cases fillVoters miner (votesByKey revealvotes) 0 preptx.vout _ <;> rfl
  constructor
  · rintro ⟨ready, filled, hfilled, -⟩
    rw [hfill, map_eq_ok] at hfilled
    obtain ⟨filled', h, -⟩ := hfilled
    exact ⟨filled', h⟩
  · rintro ⟨filled, h⟩
    refine ⟨_, filled, by rw [hfill, h]; rfl, ?_, ?_⟩
    · rw [fillVoters_length h, hzero]
      rfl
    · intro i txout j decisionid s _ hj
      simp [hzero] at hj

/-- With decisions the phase is left before the loop, and the matrix has no row. -/
theorem voteMatrixBuilt_of_decisions (hfresh : outcome.voteMatrix = [])
    (hsome : outcome.decisionIDs ≠ []) (hn : outcome.nDecisions ≠ 0) :
    VoteMatrixBuilt miner preptx revealvotes outcome ↔ preptx.vout = [] := by
  have hskip : fillOutcome miner preptx revealvotes outcome = .ok (false, outcome) :=
    fillOutcome_of_decisions hn
  constructor
  · rintro ⟨ready, filled, hfilled, hlen, -⟩
    rw [hskip] at hfilled
    obtain ⟨rfl, rfl⟩ := Prod.mk.inj (Except.ok.inj hfilled)
    rw [hfresh] at hlen
    rcases Nat.mul_eq_zero.mp hlen.symm with hvout | hids
    · exact List.length_eq_zero_iff.mp hvout
    · exact absurd (List.length_eq_zero_iff.mp hids) hsome
  · intro hvout
    refine ⟨_, _, hskip, by simp [hfresh, hvout], ?_⟩
    intro i txout j decisionid s hi
    simp [hvout] at hi

end Phase

/-- **When the vote matrix is built**: when there is no output to build it for, or when no
decision ends in the window, so that it is empty, and the loop passes every output. -/
theorem voteMatrixBuilt_iff (miner : Miner) (preptx : CTransaction)
    (revealvotes : List (MarketObj .revealVote)) (branch : MarketObj .branch) (w : Window)
    (decisions : List (MarketObj .decision)) (hcount : decisions.length < 2 ^ 32) :
    VoteMatrixBuilt miner preptx revealvotes (newOutcome miner branch w decisions) ↔
      preptx.vout = [] ∨ (∀ d ∈ decisions, w.contains d.data = false) ∧
        ∀ txout ∈ preptx.vout, Passes miner (votesByKey revealvotes) txout := by
  have hnone : (newOutcome miner branch w decisions).decisionIDs = [] ↔
      ∀ d ∈ decisions, w.contains d.data = false := by
    simp [newOutcome, List.filter_eq_nil_iff]
  have hcounted : (newOutcome miner branch w decisions).nDecisions = 0 ↔
      (newOutcome miner branch w decisions).decisionIDs = [] := by
    have hlen : (decisions.filter fun d => w.contains d.data).length < 2 ^ 32 :=
      (List.length_filter_le _ _).trans_lt hcount
    rw [← List.length_eq_zero_iff, ← UInt32.toNat_inj]
    simp only [newOutcome, UInt32.toNat_ofNat', Nat.mod_eq_of_lt hlen, List.length_map]
    rfl
  have hfresh : (newOutcome miner branch w decisions).voteMatrix = [] := rfl
  rw [← hnone]
  generalize newOutcome miner branch w decisions = outcome at hcounted hfresh
  by_cases hzero : outcome.decisionIDs = []
  · rw [voteMatrixBuilt_of_none hzero (hcounted.mpr hzero)]
    refine ⟨fun h => Or.inr ⟨hzero, h⟩, ?_⟩
    rintro (hvout | h)
    · simp [hvout]
    · exact h.2
  · rw [voteMatrixBuilt_of_decisions hfresh hzero fun h => hzero (hcounted.mp h)]
    simp [hzero]

/-! ## Two transactions -/

/-- A reputation transaction with one output, to a key hash. -/
def exampleRepTx : CTransaction where
  vout := [⟨100000000, payToKeyHash (Blob.fill 7)⟩]

/-- A vote of the key with a number, on one decision. -/
def matrixVote (key : UInt8) : MarketObj .revealVote where
  data := { branchid := Blob.null, height := 74, NA := 0, keyID := Blob.fill key
            decisionIDs := [Blob.fill 1], decisionVotes := [100000000] }

/-- A miner with an empty index. -/
def matrixMiner : Miner where
  hash _ := Blob.null
  hash160 := id
  market := OrdMap.empty
  getTransaction _ tx := tx
  calcOutcome := some

/-- **A vote of the null key is read past the end.**  The window is that of height 74 of
`exampleBranch`.  No decision ends in it and the vote names one: the loop reads the first
element of an empty vector.  And when a decision ends in the window, the output of the
transaction has no row, although its key has voted on the decision. -/
theorem voteMatrix_not_built :
    fillOutcome matrixMiner exampleRepTx [matrixVote 0]
        (newOutcome matrixMiner exampleBranch (decisionWindow exampleBranch.data 74) []) =
      .error .outOfBounds ∧
    (¬ VoteMatrixBuilt matrixMiner exampleRepTx [matrixVote 0]
      (newOutcome matrixMiner exampleBranch (decisionWindow exampleBranch.data 74) [])) ∧
    ¬ VoteMatrixBuilt matrixMiner exampleRepTx [matrixVote 7]
      (newOutcome matrixMiner exampleBranch (decisionWindow exampleBranch.data 74)
        [exampleDecision]) := by
  have hfault : fillOutcome matrixMiner exampleRepTx [matrixVote 0]
      (newOutcome matrixMiner exampleBranch (decisionWindow exampleBranch.data 74) []) =
        .error .outOfBounds := by
    decide +kernel
  refine ⟨hfault, ?_, ?_⟩
  · rintro ⟨ready, filled, hfilled, -⟩
    rw [hfault] at hfilled
    cases hfilled
  · rw [voteMatrixBuilt_of_decisions rfl (by decide +kernel) (by decide +kernel)]
    decide

/-- A decision that ends long after the window. -/
def lateDecision : MarketObj .decision :=
  { exampleDecision with data := { exampleDecision.data with eventOverBy := 500 } }

/-- A reputation transaction with two outputs. -/
def exampleSplitTx : CTransaction where
  vout := [⟨60000000, payToKeyHash (Blob.fill 7)⟩, ⟨40000000, payToKeyHash (Blob.fill 9)⟩]

/-- With a decision outside the window only, and votes that are none of the null key, the
matrix is built. -/
theorem voteMatrixBuilt_late :
    (exampleSplitTx.vout.length = 2 ∧ [lateDecision].length < 2 ^ 32) ∧
    VoteMatrixBuilt matrixMiner exampleSplitTx [matrixVote 7, matrixVote 9]
      (newOutcome matrixMiner exampleBranch (decisionWindow exampleBranch.data 74)
        [lateDecision]) := by
  have hnone : (votesByKey [matrixVote 7, matrixVote 9]).find Blob.null = none := by
    decide +kernel
  refine ⟨⟨rfl, by decide⟩, (voteMatrixBuilt_iff _ _ _ _ _ _ (by decide)).mpr (Or.inr ⟨?_, ?_⟩)⟩
  · intro d hd
    obtain rfl := List.mem_singleton.mp hd
    decide
  · intro txout htxout
    have hvotes : ∀ vote, (votesByKey [matrixVote 7, matrixVote 9]).find Blob.null = some vote →
        ¬ vote.FillsRow := by
      intro vote hvote
      rw [hnone] at hvote
      cases hvote
    rcases List.mem_pair.mp htxout with rfl | rfl
    · exact ⟨_, rfl, fun _ => hvotes⟩
    · exact ⟨_, rfl, fun _ => hvotes⟩

end Hivemind
