import Hivemind.Rpc.Voting
import Hivemind.TxDb.Listings

/-!
# The voting periods of a branch

The comment on `marketBranch` lays out a voting period: the decisions that end at the heights
`((n - 1) * tau, n * tau]` are on the ballot of `n * tau`, the votes on them carry that height,
and the miner works out the outcome at `n * tau + ballotTime + unsealTime`. `getballot`,
`createrevealvote` and `getOutcomeTx` each compute their part of it.

The first two agree with the comment, and the window of the miner is the period.  But the miner
leaves its phase when the period has decisions, so that an outcome is calculated only without
any, and it asks for the votes of its own height, which is that of the period only where ballot
and unsealing take no blocks.  All heights are those of a period whose outcome comes before
`2 ^ 32`, so no arithmetic wraps.

* `decisionWindow_contains_iff`, `getballot_period`: the miner and the ballot agree on the
  decisions of a period.
* `not_calculated`: with a decision in the period the outcome is not calculated.
* `votesAt_eq_iff`: when the votes that are read are those of the period.
* `votingPeriodAgrees_iff`: **when the miner also works out the outcome**, and from the votes of
  the period.
-/

namespace Hivemind

open Codecs Ordered Outcomes

/-! ## The heights of a period -/

namespace MarketBranch

/-- The height that the ballot and the votes of the `n`-th period carry. -/
def ballotBlock (b : MarketBranch) (n : Nat) : Nat := n * b.tau.toNat

/-- The height at which the miner works out the outcome of the `n`-th period. -/
def outcomeBlock (b : MarketBranch) (n : Nat) : Nat :=
  b.ballotBlock n + b.ballotTime.toNat + b.unsealTime.toNat

/-- The decision ends in the `n`-th period. -/
def EndsInPeriod (b : MarketBranch) (n : Nat) (d : MarketDecision) : Prop :=
  b.ballotBlock (n - 1) < d.eventOverBy.toNat ∧ d.eventOverBy.toNat ≤ b.ballotBlock n

instance instDecidableEndsInPeriod (b : MarketBranch) (n : Nat) (d : MarketDecision) :
    Decidable (b.EndsInPeriod n d) := by
  unfold EndsInPeriod
  infer_instance

end MarketBranch

theorem toNat_usub32 {a b : UInt32} (h : b.toNat ≤ a.toNat) : (a - b).toNat = a.toNat - b.toNat :=
  UInt32.toNat_sub_of_le _ _ (UInt32.le_iff_toNat_le.mpr h)

section Period

variable {b : MarketBranch} {n : Nat}

theorem ballotBlock_pred (hn : 1 ≤ n) :
    b.ballotBlock n = b.ballotBlock (n - 1) + b.tau.toNat := by
  obtain ⟨m, rfl⟩ : ∃ m, n = m + 1 := ⟨n - 1, by omega⟩
  simp [MarketBranch.ballotBlock, Nat.add_mul]

/-- The arithmetic of `uint32_t` does not wrap at the height of an outcome. -/
theorem outcomeBlock_sub (h : b.outcomeBlock n < 2 ^ 32) :
    (UInt32.ofNat (b.outcomeBlock n) - b.ballotTime.toUInt32 - b.unsealTime.toUInt32).toNat =
      b.ballotBlock n := by
  have hheight : (UInt32.ofNat (b.outcomeBlock n)).toNat = b.outcomeBlock n := by
    rw [UInt32.toNat_ofNat', Nat.mod_eq_of_lt h]
  have hballot : (UInt32.ofNat (b.outcomeBlock n) - b.ballotTime.toUInt32).toNat =
      b.ballotBlock n + b.unsealTime.toNat := by
    have hsum : b.outcomeBlock n = b.ballotBlock n + b.ballotTime.toNat + b.unsealTime.toNat := rfl
    rw [toNat_usub32] <;> simp only [hheight, UInt16.toNat_toUInt32] <;> omega
  rw [toNat_usub32] <;> simp only [hballot, UInt16.toNat_toUInt32] <;> omega

/-- The window of the miner is the period. -/
theorem decisionWindow_contains_iff (hn : 1 ≤ n) (h : b.outcomeBlock n < 2 ^ 32)
    (d : MarketDecision) :
    (decisionWindow b (UInt32.ofNat (b.outcomeBlock n))).contains d = true ↔
      b.EndsInPeriod n d := by
  have hmax := outcomeBlock_sub h
  have hpred := ballotBlock_pred (b := b) hn
  have hmin : (UInt32.ofNat (b.outcomeBlock n) - b.ballotTime.toUInt32 - b.unsealTime.toUInt32 -
      b.tau.toUInt32).toNat = b.ballotBlock (n - 1) := by
    rw [toNat_usub32] <;> simp only [hmax, UInt16.toNat_toUInt32] <;> omega
  simp only [Window.contains, decisionWindow, Bool.and_eq_true, decide_eq_true_eq,
    UInt32.lt_iff_toNat_lt, UInt32.le_iff_toNat_le, hmax, hmin, MarketBranch.EndsInPeriod]

/-- A voting period ends at the height of its outcome. -/
theorem endsVotingPeriod_outcomeBlock (hn : 1 ≤ n) (htau : b.tau ≠ 0)
    (h : b.outcomeBlock n < 2 ^ 32) :
    endsVotingPeriod b (UInt32.ofNat (b.outcomeBlock n)) = .ok true := by
  have htau' : 0 < b.tau.toNat := Nat.pos_of_ne_zero fun hz => htau (UInt16.toNat_inj.mp hz)
  have hpos : 0 < b.ballotBlock n := Nat.mul_pos hn htau'
  have hrem : (UInt32.ofNat (b.outcomeBlock n) - b.ballotTime.toUInt32 - b.unsealTime.toUInt32) %
      b.tau.toUInt32 = 0 := by
    refine UInt32.toNat_inj.mp ?_
    rw [UInt32.toNat_mod, outcomeBlock_sub h]
    simp [MarketBranch.ballotBlock]
  have hlate : ¬ (UInt32.ofNat (b.outcomeBlock n)).toNat ≤
      b.ballotTime.toNat + b.unsealTime.toNat := by
    rw [UInt32.toNat_ofNat', Nat.mod_eq_of_lt h]
    unfold MarketBranch.outcomeBlock
    omega
  rw [endsVotingPeriod, if_neg hlate, remainder, if_neg (toUInt32_ne_zero htau), hrem]
  rfl

/-! ## The ballot -/

/-- The bounds of the ballot of a period are those of the period. -/
theorem ballot_bounds (hn : 1 ≤ n) (htau : b.tau ≠ 0) (h : b.ballotBlock n < 2 ^ 32) :
    let minblock := b.tau.toUInt32 * ((UInt32.ofNat (b.ballotBlock n) - 1) / b.tau.toUInt32) + 1
    minblock.toNat = b.ballotBlock (n - 1) + 1 ∧
      (minblock + b.tau.toUInt32 - 1).toNat = b.ballotBlock n := by
  have htau' : 0 < b.tau.toNat := Nat.pos_of_ne_zero fun hz => htau (UInt16.toNat_inj.mp hz)
  have hpred := ballotBlock_pred (b := b) hn
  have hblock : (UInt32.ofNat (b.ballotBlock n) - 1).toNat = b.ballotBlock n - 1 := by
    have hof : (UInt32.ofNat (b.ballotBlock n)).toNat = b.ballotBlock n := by
      rw [UInt32.toNat_ofNat', Nat.mod_eq_of_lt h]
    rw [toNat_usub32 (by rw [hof, UInt32.toNat_one]; omega), hof, UInt32.toNat_one]
  have hquot : ((UInt32.ofNat (b.ballotBlock n) - 1) / b.tau.toUInt32).toNat = n - 1 := by
    rw [UInt32.toNat_div, hblock, UInt16.toNat_toUInt32, hpred,
      show b.ballotBlock (n - 1) + b.tau.toNat - 1 = b.tau.toNat - 1 + b.tau.toNat * (n - 1) by
        rw [MarketBranch.ballotBlock, Nat.mul_comm]; omega,
      Nat.add_mul_div_left _ _ htau', Nat.div_eq_of_lt (by omega), Nat.zero_add]
  have hmul : (b.tau.toUInt32 * ((UInt32.ofNat (b.ballotBlock n) - 1) / b.tau.toUInt32)).toNat =
      b.ballotBlock (n - 1) := by
    rw [UInt32.toNat_mul, hquot, UInt16.toNat_toUInt32, Nat.mul_comm]
    exact Nat.mod_eq_of_lt (show b.ballotBlock (n - 1) < 2 ^ 32 by omega)
  refine ⟨?_, ?_⟩
  · rw [UInt32.toNat_add, hmul, UInt32.toNat_one]
    exact Nat.mod_eq_of_lt (by omega)
  · -- one is added and taken away again, so that the end of the range does no harm
    rw [show ∀ x y : UInt32, x + 1 + y - 1 = x + y from fun x y => by grind, UInt32.toNat_add, hmul,
      UInt16.toNat_toUInt32, ← hpred]
    exact Nat.mod_eq_of_lt h

/-- **The ballot of a period** lists the decisions that end in it. -/
theorem getballot_period {branch : MarketObj .branch} {node : RpcNode} {db : LevelDB}
    (hn : 1 ≤ n) (htau : branch.data.tau ≠ 0) (h : branch.data.ballotBlock n < 2 ^ 32)
    (hdb : node.pmarkettree = some db)
    (hbranch : getBranch (branch.getHash node.hash) db = some branch) :
    ∃ ballot, getballot node false [.str (hexText (branch.getHash node.hash)),
        .int (Int64.ofNat (branch.data.ballotBlock n))] = .ok ballot ∧
      ballot.decisions.map Prod.fst =
        ((getDecisions (branch.getHash node.hash) db).filter fun d =>
          branch.data.EndsInPeriod n d.data).map fun d => d.getHash node.hash := by
  obtain ⟨hmin, hmax⟩ := ballot_bounds hn htau h
  have hlisted : ((getDecisions (branch.getHash node.hash) db).filter fun d =>
      !(d.data.eventOverBy < branch.data.tau.toUInt32 *
          ((UInt32.ofNat (branch.data.ballotBlock n) - 1) / branch.data.tau.toUInt32) + 1 ||
        branch.data.tau.toUInt32 *
          ((UInt32.ofNat (branch.data.ballotBlock n) - 1) / branch.data.tau.toUInt32) + 1 +
          branch.data.tau.toUInt32 - 1 < d.data.eventOverBy)) =
      (getDecisions (branch.getHash node.hash) db).filter fun d =>
        branch.data.EndsInPeriod n d.data := by
    refine List.filter_congr fun d _ => ?_
    rw [Bool.eq_iff_iff, decide_eq_true_iff, Bool.not_eq_true', Bool.or_eq_false_iff,
      decide_eq_false_iff_not, decide_eq_false_iff_not, UInt32.lt_iff_toNat_lt,
      UInt32.lt_iff_toNat_lt, hmin, hmax, MarketBranch.EndsInPeriod]
    omega
  simp only [getballot, RpcNode.marketTree, hdb, Value.getStr, Except.map, setHex_hexText,
    branchOrError, hbranch, ballotHeight, Value.getInt, Int64.toInt32_ofNat', Int32.toUInt32_ofNat', quotient,
    if_neg (toUInt32_ne_zero htau), orFault, bind, Except.bind, List.headD_cons, hlisted]
  exact ⟨_, rfl, by simp [List.map_map, Function.comp_def]⟩

end Period

/-! ## The outcome -/

/-- The part of `calc_rep_tx` before `calc`: the outcome, and whether `calc` is called
on it. -/
def fillOutcome (miner : Miner) (preptx : CTransaction) (revealvotes : List (MarketObj .revealVote))
    (outcome : MarketOutcome) : Except Fault (Bool × MarketOutcome) :=
  let votes := votesByKey revealvotes
  if outcome.nDecisions ≠ 0 then .ok (false, outcome)
  else do
    let voteMatrix := List.replicate (votes.entries.length * outcome.nDecisions.toNat) outcome.NA
    let outcome ← fillVoters miner votes 0 preptx.vout { outcome with voteMatrix }
    .ok (!(outcome.nVoters = 0 ∨ preptx.vout = []), outcome)

/-- `calc_rep_tx` in its two parts, with the votes that it reads. -/
theorem calcRepTx_eq (miner : Miner) (branch : MarketObj .branch) (height : UInt32) (w : Window)
    (decisions : List (MarketObj .decision)) (outcomes : List (MarketObj .outcome)) :
    calcRepTx miner branch height w decisions outcomes = (do
      let preptx := prevRepTx miner branch outcomes
      let (ready, outcome) ← fillOutcome miner preptx
        (getRevealVotes (branch.getHash miner.hash) height miner.market)
        (newOutcome miner branch w decisions)
      match ready, miner.calcOutcome outcome with
      | true, some outcome =>
        (repTxLoop (preptx.getHash miner.hash) outcome (List.range preptx.vout.length) {}).map
          fun mtx => (mtx, { outcome with tx := mtx })
      | _, _ => .ok ({}, outcome)) := by
  unfold calcRepTx fillOutcome
  simp only
  by_cases hd : (newOutcome miner branch w decisions).nDecisions ≠ 0
  · simp only [if_pos hd, bind, Except.bind]
  · simp only [if_neg hd, bind, Except.bind]
    cases fillVoters miner _ 0 (prevRepTx miner branch outcomes).vout _ with
    | error e => rfl
    | ok outcome =>
        by_cases hdead : outcome.nVoters = 0 ∨ (prevRepTx miner branch outcomes).vout = []
        · simp [hdead]
        · simp only [hdead, decide_false, Bool.not_false]
          cases miner.calcOutcome outcome <;> rfl

/-- What the loop over the outputs does not write. -/
def KeptByFill {α : Type} (g : MarketOutcome → α) : Prop :=
  ∀ outcome voterIDs oldRep voteMatrix nVoters,
    g { outcome with voterIDs, oldRep, voteMatrix, nVoters } = g outcome

section Kept

variable {α : Type} {g : MarketOutcome → α}

theorem fillRow_keeps (hg : KeptByFill g) {i : UInt32} {ballot : List (Uint256 × UInt64)}
    {js : List Nat} {outcome outcome' : MarketOutcome}
    (h : fillRow i ballot js outcome = .ok outcome') : g outcome' = g outcome := by
  induction js generalizing outcome with
  | nil => rw [Except.ok.inj h]
  | cons j js ih =>
      simp only [fillRow, bind_eq_ok] at h
      obtain ⟨resp, -, voteMatrix, -, h⟩ := h
      exact (ih h).trans (hg outcome outcome.voterIDs outcome.oldRep voteMatrix outcome.nVoters)

theorem fillVoter_keeps (hg : KeptByFill g) {votes : OrdMap CKeyID MarketRevealVote} {i : UInt32}
    {key : CKeyID × Bool} {outcome outcome' : MarketOutcome}
    (h : fillVoter votes i key outcome = .ok outcome') : g outcome' = g outcome := by
  unfold fillVoter at h
  split at h
  · unfold fillVote at h
    split_ifs at h
    · exact fillRow_keeps hg h
    · rw [Except.ok.inj h]
  · rw [Except.ok.inj h]

theorem fillVoters_keeps (hg : KeptByFill g) {miner : Miner}
    {votes : OrdMap CKeyID MarketRevealVote} {i : UInt32} {vout : List CTxOut}
    {outcome outcome' : MarketOutcome} (h : fillVoters miner votes i vout outcome = .ok outcome') :
    g outcome' = g outcome := by
  induction vout generalizing i outcome with
  | nil => rw [Except.ok.inj h]
  | cons txout vout ih =>
      unfold fillVoters at h
      split at h
      · cases h
      · simp only [bind_eq_ok] at h
        obtain ⟨filled, hfill, h⟩ := h
        have hvoters := hg filled filled.voterIDs filled.oldRep filled.voteMatrix (filled.nVoters + 1)
        exact ((ih h).trans hvoters).trans ((fillVoter_keeps hg hfill).trans (hg outcome _ _
          outcome.voteMatrix outcome.nVoters))

end Kept

theorem keptByFill_decisionIDs : KeptByFill MarketOutcome.decisionIDs := fun _ _ _ _ _ => rfl

theorem fillOutcome_decisionIDs {miner : Miner} {preptx : CTransaction}
    {revealvotes : List (MarketObj .revealVote)} {outcome : MarketOutcome}
    {r : Bool × MarketOutcome} (h : fillOutcome miner preptx revealvotes outcome = .ok r) :
    r.2.decisionIDs = outcome.decisionIDs := by
  simp only [fillOutcome] at h
  split_ifs at h
  · rw [← Except.ok.inj h]
  · simp only [bind_eq_ok, Except.ok.injEq] at h
    obtain ⟨filled, hfill, rfl⟩ := h
    exact (fillVoters_keeps keptByFill_decisionIDs hfill).trans rfl

/-- An outcome with decisions is not calculated. -/
theorem fillOutcome_of_decisions {miner : Miner} {preptx : CTransaction}
    {revealvotes : List (MarketObj .revealVote)} {outcome : MarketOutcome}
    (h : outcome.nDecisions ≠ 0) :
    fillOutcome miner preptx revealvotes outcome = .ok (false, outcome) := if_pos h

/-! ## The agreement -/

section Agreement

variable (miner : Miner) (branch : MarketObj .branch) (n : Nat)

/-- The decisions of the branch that end in the `n`-th period. -/
def periodDecisions : List (MarketObj .decision) :=
  (getDecisions (branch.getHash miner.hash) miner.market).filter fun d =>
    branch.data.EndsInPeriod n d.data

/-- The previous reputation transaction, as `getOutcomeTx` finds it. -/
def previousRepTx : CTransaction :=
  prevRepTx miner branch (getOutcomes (branch.getHash miner.hash) miner.market)

/-- The reveal votes that `getOutcomeTx` reads at a height. -/
def votesAt (height : Nat) : List (MarketObj .revealVote) :=
  getRevealVotes (branch.getHash miner.hash) (UInt32.ofNat height) miner.market

/-- What `getOutcomeTx` has when it comes to `calc`, at the height of the outcome of the
`n`-th period. -/
def outcomeOfPeriod : Except Fault (Bool × MarketOutcome) :=
  fillOutcome miner (previousRepTx miner branch)
    (votesAt miner branch (branch.data.outcomeBlock n))
    (newOutcome miner branch
      (decisionWindow branch.data (UInt32.ofNat (branch.data.outcomeBlock n)))
      (getDecisions (branch.getHash miner.hash) miner.market))

/-- The reputation phase of `getOutcomeTx` at the height of an outcome. -/
theorem repPhase_outcomeBlock (hn : 1 ≤ n) (htau : branch.data.tau ≠ 0)
    (h : branch.data.outcomeBlock n < 2 ^ 32) :
    (do let ends ← endsVotingPeriod branch.data (UInt32.ofNat (branch.data.outcomeBlock n))
        repPhase miner branch (UInt32.ofNat (branch.data.outcomeBlock n)) ends
          (getDecisions (branch.getHash miner.hash) miner.market)
          (getOutcomes (branch.getHash miner.hash) miner.market)) = (do
      let (ready, outcome) ← outcomeOfPeriod miner branch n
      match ready, miner.calcOutcome outcome with
      | true, some outcome =>
        (repTxLoop ((previousRepTx miner branch).getHash miner.hash) outcome
          (List.range (previousRepTx miner branch).vout.length) {}).map
          fun mtx => (mtx, some { outcome with tx := mtx })
      | _, _ => .ok ({}, some outcome)) := by
  rw [endsVotingPeriod_outcomeBlock hn htau h]
  simp only [bind, Except.bind, repPhase, if_true]
  rw [calcRepTx_eq]
  simp only [bind, Except.bind, outcomeOfPeriod, votesAt, previousRepTx]
  cases fillOutcome miner _ _ _ with
  | error e => rfl
  | ok r =>
      obtain ⟨ready, outcome⟩ := r
      cases ready with
      | false => rfl
      | true =>
          simp only
          cases miner.calcOutcome outcome with
          | none => rfl
          | some outcome =>
              simp only
              cases repTxLoop _ outcome _ {} <;> rfl

/-- What the miner, the ballot and the votes of a period have to do with each other. -/
structure VotingPeriodAgrees : Prop where
  /-- The outcome is calculated when there is something to vote on and someone to vote. -/
  calculated : periodDecisions miner branch n ≠ [] → (previousRepTx miner branch).vout ≠ [] →
    ∃ outcome, outcomeOfPeriod miner branch n = .ok (true, outcome)
  /-- The outcome is about the decisions of the period. -/
  decisionIDs : ∀ ready outcome, outcomeOfPeriod miner branch n = .ok (ready, outcome) →
    outcome.decisionIDs = (periodDecisions miner branch n).map fun d => d.getHash miner.hash
  /-- So is the ballot. -/
  ballot : ∀ node : RpcNode, node.hash = miner.hash → node.pmarkettree = some miner.market →
    ∃ ballot, getballot node false [.str (hexText (branch.getHash miner.hash)),
        .int (Int64.ofNat (branch.data.ballotBlock n))] = .ok ballot ∧
      ballot.decisions.map Prod.fst =
        (periodDecisions miner branch n).map fun d => d.getHash miner.hash
  /-- The votes that are read carry the height of the ballot. -/
  votes : votesAt miner branch (branch.data.outcomeBlock n) =
    votesAt miner branch (branch.data.ballotBlock n)
  /-- The votes of the branch that `createrevealvote` sends carry the height of a ballot. -/
  revealed : ∀ texts (node : RpcNode) fHelp params r, node.pmarkettree = some miner.market →
    createrevealvote texts node fHelp params = .ok r →
    ∃ o : MarketObj .revealVote, node.send o.getScript voteAmount = .ok r.1 ∧
      (o.data.branchid = branch.getHash miner.hash →
        ∃ k, o.data.height.toNat = branch.data.ballotBlock k)

end Agreement

section Proof

variable {miner : Miner} {branch : MarketObj .branch} {n : Nat}

/-- The new outcome is about the decisions of the period. -/
theorem newOutcome_period (hn : 1 ≤ n) (h : branch.data.outcomeBlock n < 2 ^ 32) :
    let outcome := newOutcome miner branch
      (decisionWindow branch.data (UInt32.ofNat (branch.data.outcomeBlock n)))
      (getDecisions (branch.getHash miner.hash) miner.market)
    outcome.decisionIDs = (periodDecisions miner branch n).map (fun d => d.getHash miner.hash) ∧
      outcome.nDecisions = UInt32.ofNat (periodDecisions miner branch n).length := by
  have hended : ((getDecisions (branch.getHash miner.hash) miner.market).filter fun d =>
      (decisionWindow branch.data (UInt32.ofNat (branch.data.outcomeBlock n))).contains d.data) =
      periodDecisions miner branch n := by
    refine List.filter_congr fun d _ => ?_
    rw [Bool.eq_iff_iff, decisionWindow_contains_iff hn h, decide_eq_true_iff]
  simp only [newOutcome, hended]
  exact ⟨trivial, trivial⟩

/-- The inverted test: with a decision in the period the outcome is not calculated. -/
theorem not_calculated (hn : 1 ≤ n) (h : branch.data.outcomeBlock n < 2 ^ 32)
    (hcount : (periodDecisions miner branch n).length < 2 ^ 32)
    (hsome : periodDecisions miner branch n ≠ []) :
    ¬ ∃ outcome, outcomeOfPeriod miner branch n = .ok (true, outcome) := by
  rintro ⟨outcome, houtcome⟩
  have hne : UInt32.ofNat (periodDecisions miner branch n).length ≠ 0 := by
    intro hzero
    have hlen := congrArg UInt32.toNat hzero
    rw [UInt32.toNat_ofNat', Nat.mod_eq_of_lt hcount] at hlen
    exact hsome (List.length_eq_zero_iff.mp hlen)
  rw [outcomeOfPeriod, fillOutcome_of_decisions ((newOutcome_period hn h).2 ▸ hne)] at houtcome
  cases houtcome

/-- The votes read are those of the period when its outcome comes at once, or when no
vote carries either height. -/
theorem votesAt_eq_iff {steps : List DbStep} (hmarket : miner.market = runDb steps)
    (hsizes : AllSizesOk (writtenObjs steps)) (hheight : branch.data.outcomeBlock n < 2 ^ 32) :
    votesAt miner branch (branch.data.outcomeBlock n) =
        votesAt miner branch (branch.data.ballotBlock n) ↔
      branch.data.ballotTime = 0 ∧ branch.data.unsealTime = 0 ∨
        ∀ objid (o : MarketObj .revealVote), (objid, ⟨.revealVote, o⟩) ∈ writtenObjs steps →
          o.data.branchid = branch.getHash miner.hash →
            o.data.height.toNat ≠ branch.data.outcomeBlock n ∧
            o.data.height.toNat ≠ branch.data.ballotBlock n := by
  have hsum : branch.data.outcomeBlock n = branch.data.ballotBlock n +
      branch.data.ballotTime.toNat + branch.data.unsealTime.toNat := rfl
  have htoNat : ∀ {m : Nat} {x : UInt32}, m < 2 ^ 32 → (x ≠ UInt32.ofNat m ↔ x.toNat ≠ m) := by
    intro m x hm
    rw [ne_eq, ne_eq, not_iff_not, ← UInt32.toNat_inj, UInt32.toNat_ofNat', Nat.mod_eq_of_lt hm]
  by_cases hzero : branch.data.ballotTime = 0 ∧ branch.data.unsealTime = 0
  · have heq : branch.data.outcomeBlock n = branch.data.ballotBlock n := by
      simp [MarketBranch.outcomeBlock, hzero.1, hzero.2]
    simp [heq, hzero]
  · have hlater : UInt32.ofNat (branch.data.outcomeBlock n) ≠
        UInt32.ofNat (branch.data.ballotBlock n) := by
      rw [htoNat (by omega), UInt32.toNat_ofNat', Nat.mod_eq_of_lt hheight]
      intro heq
      exact hzero ⟨UInt16.toNat_inj.mp (by simpa using (by omega)),
        UInt16.toNat_inj.mp (by simpa using (by omega))⟩
    simp only [hzero, false_or]
    rw [votesAt, votesAt, hmarket, getRevealVotes_eq_iff hsizes _ hlater]
    simp only [htoNat hheight, htoNat (show branch.data.ballotBlock n < 2 ^ 32 by omega)]

/-- **When the parts of a voting period agree.**  The miner and the ballot are always
about the same decisions.  The outcome is not calculated when one of them ends in the
period, since the test for it is inverted; and the votes are read under the height of the
outcome, which is the height they carry only if no time passes between the two. -/
theorem votingPeriodAgrees_iff {steps : List DbStep} (hmarket : miner.market = runDb steps)
    (hsizes : AllSizesOk (writtenObjs steps))
    (hbranch : getBranch (branch.getHash miner.hash) miner.market = some branch)
    (htau : branch.data.tau ≠ 0) (hn : 1 ≤ n) (hheight : branch.data.outcomeBlock n < 2 ^ 32)
    (hcount : (getDecisions (branch.getHash miner.hash) miner.market).length < 2 ^ 32) :
    VotingPeriodAgrees miner branch n ↔
      ((∀ d ∈ getDecisions (branch.getHash miner.hash) miner.market,
          ¬ branch.data.EndsInPeriod n d.data) ∨ (previousRepTx miner branch).vout = []) ∧
      (branch.data.ballotTime = 0 ∧ branch.data.unsealTime = 0 ∨
        ∀ objid (o : MarketObj .revealVote), (objid, ⟨.revealVote, o⟩) ∈ writtenObjs steps →
          o.data.branchid = branch.getHash miner.hash →
            o.data.height.toNat ≠ branch.data.outcomeBlock n ∧
            o.data.height.toNat ≠ branch.data.ballotBlock n) := by
  have hnone : periodDecisions miner branch n = [] ↔
      ∀ d ∈ getDecisions (branch.getHash miner.hash) miner.market,
        ¬ branch.data.EndsInPeriod n d.data := by
    simp [periodDecisions, List.filter_eq_nil_iff]
  rw [← hnone, ← votesAt_eq_iff hmarket hsizes hheight]
  constructor
  · intro h
    refine ⟨?_, h.votes⟩
    by_contra hcalc
    obtain ⟨hsome, hvoters⟩ := not_or.mp hcalc
    have hlen : (periodDecisions miner branch n).length < 2 ^ 32 :=
      (List.length_filter_le _ _).trans_lt hcount
    exact not_calculated hn hheight hlen hsome (h.calculated hsome hvoters)
  · rintro ⟨hcalc, hvotes⟩
    exact {
      calculated := fun hsome hvoters => absurd hcalc (not_or.mpr ⟨hsome, hvoters⟩)
      decisionIDs := fun ready outcome h =>
        (fillOutcome_decisionIDs h).trans (newOutcome_period hn hheight).1
      ballot := fun node hhash hdb => by
        have hlt : branch.data.ballotBlock n < 2 ^ 32 := by
          unfold MarketBranch.outcomeBlock at hheight
          omega
        have := getballot_period hn htau hlt hdb (hhash ▸ hbranch)
        rwa [hhash] at this
      votes := hvotes
      revealed := fun texts node fHelp params r hdb h => by
        obtain ⟨db, branch', o, hdb', hfound, hdvd, hsend, -⟩ := createrevealvote_sends h
        obtain rfl : db = miner.market := Option.some.inj (hdb'.symm.trans hdb)
        refine ⟨o, hsend, fun hid => ?_⟩
        rw [hid, hbranch] at hfound
        obtain rfl := Option.some.inj hfound
        obtain ⟨k, hk⟩ := hdvd
        exact ⟨k, hk.trans (Nat.mul_comm _ _)⟩ }

end Proof

/-! ## A branch with one decision and one vote -/

section Example

variable (hash : Bytes → Uint256)

/-- A decision of the first period of `exampleBranch`. -/
def periodDecision : MarketObj .decision where
  data := { exampleDecision.data with branchid := exampleBranch.getHash hash }

/-- A vote on it, for the height of the ballot. -/
def periodVote : MarketObj .revealVote where
  data := { branchid := exampleBranch.getHash hash, height := 72, NA := 0, keyID := Blob.null
            decisionIDs := [(periodDecision hash).getHash hash], decisionVotes := [100000000] }

/-- The writes that put them into the index. -/
def periodSteps : List DbStep :=
  [.index [(exampleBranch.getHash hash, ⟨.branch, exampleBranch⟩),
    ((periodDecision hash).getHash hash, ⟨.decision, periodDecision hash⟩),
    ((periodVote hash).getHash hash, ⟨.revealVote, periodVote hash⟩)]]

/-- A miner with that index.  The transaction that carried the branch has one output. -/
def periodMiner : Miner where
  hash := hash
  hash160 := id
  market := runDb (periodSteps hash)
  getTransaction _ tx := { tx with vout := [⟨100000000, payToKeyHash Blob.null⟩] }
  calcOutcome := some

theorem writtenObjs_periodSteps : writtenObjs (periodSteps hash) =
    [(exampleBranch.getHash hash, ⟨.branch, exampleBranch⟩),
      ((periodDecision hash).getHash hash, ⟨.decision, periodDecision hash⟩),
      ((periodVote hash).getHash hash, ⟨.revealVote, periodVote hash⟩)] := rfl

theorem allSizesOk_periodSteps : AllSizesOk (writtenObjs (periodSteps hash)) := by
  intro w hw
  rw [writtenObjs_periodSteps] at hw
  simp only [List.mem_cons, List.not_mem_nil, or_false] at hw
  rcases hw with rfl | rfl | rfl
  · show 1 ≤ maxSize ∧ 0 ≤ maxSize
    decide
  · exact Nat.zero_le _
  · show 1 ≤ maxSize ∧ 1 ≤ maxSize
    decide

theorem getBranch_periodMiner :
    getBranch (exampleBranch.getHash hash) (periodMiner hash).market = some exampleBranch := by
  rw [getBranch, periodMiner, getObj_eq (indexed_run _) (allSizesOk_periodSteps hash),
    writtenObjs_periodSteps]
  simp [lastWrite, matchWrite, asOp]
  rfl

theorem getDecisions_periodMiner :
    getDecisions (exampleBranch.getHash hash) (periodMiner hash).market = [periodDecision hash] := by
  refine (listById_eq (indexed_run _) (allSizesOk_periodSteps hash) .decision
    (fun o => [o.data.branchid]) (by decide) rfl (fun _ => rfl) (exampleBranch.getHash hash)).trans ?_
  have hwritten : (writtenObjs (periodSteps hash)).filterMap (fun w =>
      ((asOp .decision w.2).filter fun o =>
        decide (exampleBranch.getHash hash ∈ [o.data.branchid])).map (w.1, ·)) =
      [((periodDecision hash).getHash hash, periodDecision hash)] := by
    rw [writtenObjs_periodSteps]
    simp [asOp, periodDecision]
  rw [listed, writtenMap, hwritten]
  rfl

theorem previousRepTx_periodMiner : (previousRepTx (periodMiner hash) exampleBranch).vout ≠ [] := by
  have hnone : getOutcomes (exampleBranch.getHash hash) (periodMiner hash).market = [] := by
    refine (listById_eq (indexed_run _) (allSizesOk_periodSteps hash) .outcome
      (fun o => [o.data.branchid]) (by decide) rfl (fun _ => rfl)
      (exampleBranch.getHash hash)).trans ?_
    rw [listed_eq_nil_iff, writtenObjs_periodSteps]
    intro objid o hmem
    simp at hmem
  have hprev : previousRepTx (periodMiner hash) exampleBranch =
      prevRepTx (periodMiner hash) exampleBranch [] := by
    rw [previousRepTx]
    exact congrArg _ hnone
  rw [hprev]
  exact List.cons_ne_nil _ _

end Example

/-- **A decision and a vote that do not count.**  `exampleBranch` has one decision in its
first period, a vote on it is stored for height 72, and its reputation transaction has an
output.  At height 74 the miner finds no vote and does not calculate the outcome. -/
theorem votingPeriod_disagrees :
    exampleBranch.data.ballotBlock 1 = 72 ∧ exampleBranch.data.outcomeBlock 1 = 74 ∧
    ∀ hash : Bytes → Uint256,
      periodDecisions (periodMiner hash) exampleBranch 1 = [periodDecision hash] ∧
      (previousRepTx (periodMiner hash) exampleBranch).vout ≠ [] ∧
      (¬ ∃ outcome, outcomeOfPeriod (periodMiner hash) exampleBranch 1 = .ok (true, outcome)) ∧
      votesAt (periodMiner hash) exampleBranch 74 ≠ votesAt (periodMiner hash) exampleBranch 72 ∧
      ¬ VotingPeriodAgrees (periodMiner hash) exampleBranch 1 := by
  refine ⟨rfl, rfl, fun hash => ?_⟩
  have hdecisions : periodDecisions (periodMiner hash) exampleBranch 1 = [periodDecision hash] := by
    refine (congrArg (List.filter _) (getDecisions_periodMiner hash)).trans ?_
    rfl
  have hcalc : ¬ ∃ outcome, outcomeOfPeriod (periodMiner hash) exampleBranch 1 =
      .ok (true, outcome) :=
    not_calculated (Nat.le_refl 1) (by decide) (by simp [hdecisions])
      (by rw [hdecisions]; exact List.cons_ne_nil _ _)
  have hvotes : votesAt (periodMiner hash) exampleBranch 74 ≠
      votesAt (periodMiner hash) exampleBranch 72 := by
    intro heq
    have hall := (votesAt_eq_iff (n := 1) rfl (allSizesOk_periodSteps hash) (by decide)).mp heq
    rcases hall with hzero | hall
    · exact absurd hzero.1 (by decide)
    · exact (hall ((periodVote hash).getHash hash) (periodVote hash)
        (by simp [writtenObjs_periodSteps]) rfl).2 rfl
  refine ⟨hdecisions, previousRepTx_periodMiner hash, hcalc, hvotes, fun h => ?_⟩
  exact hcalc (h.calculated (by rw [hdecisions]; exact List.cons_ne_nil _ _)
    (previousRepTx_periodMiner hash))

/-- Nothing ends in the second period, and nothing is said about it. -/
theorem votingPeriodAgrees_second :
    exampleBranch.data.outcomeBlock 2 = 146 ∧
    ∀ hash : Bytes → Uint256, VotingPeriodAgrees (periodMiner hash) exampleBranch 2 := by
  refine ⟨rfl, fun hash => ?_⟩
  have hmarket : (periodMiner hash).market = runDb (periodSteps hash) := rfl
  have hcount : (getDecisions (exampleBranch.getHash (periodMiner hash).hash)
      (periodMiner hash).market).length < 2 ^ 32 := by
    show (getDecisions (exampleBranch.getHash hash) (periodMiner hash).market).length < 2 ^ 32
    simp [getDecisions_periodMiner]
  refine (votingPeriodAgrees_iff hmarket (allSizesOk_periodSteps hash) (getBranch_periodMiner hash)
    (by decide) (by decide) (by decide) hcount).mpr ⟨Or.inl ?_, Or.inr ?_⟩
  · show ∀ d ∈ getDecisions (exampleBranch.getHash hash) (periodMiner hash).market, _
    rw [getDecisions_periodMiner]
    intro d hd
    obtain rfl := List.mem_singleton.mp hd
    exact of_decide_eq_false rfl
  · intro objid o hmem _
    rw [writtenObjs_periodSteps] at hmem
    obtain ⟨-, rfl⟩ : objid = (periodVote hash).getHash hash ∧ o = periodVote hash := by
      simpa using hmem
    show 72 ≠ 146 ∧ 72 ≠ 144
    decide

end Hivemind
