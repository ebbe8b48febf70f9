import Hivemind.Lib.Outcome
import Hivemind.Script.Destination
import Hivemind.TxDb.MarketTree

/-!
# The outcome transaction of a branch

`getOutcomeTx` of `miner.cpp`, which `CreateNewBlock` calls for every branch in the market index.
It has two phases: `calc_rep_tx` works out the new reputations when a voting period of the branch
ends at this height, and `calc_coin_tx` pays out the trades of the markets that end.

Where the source reads past the end of a vector, shifts by more than the width of the operand or
divides by zero, the model stops with a `Fault`.  `marketOutcome::calc` and `GetTransaction` are
parameters, and doubles are read as exact numbers.

The loops keep their variables: the counters that a loop shares with one around it are threaded
through both, so that a loop that counts up the wrong one is one here too.  The arithmetic is
that of the types in the source, with the wrap of `uint32_t` in the bounds of a period and
`uint64_t` words for numbers that are declared signed elsewhere.

* `decisionWindow`, `Window.contains`: the decisions of a period.
* `calcRepTx`, `calcCoinTx`: the two phases.
* `getOutcomeTx`: the function.
* `getOutcomeTx_divides_iff`: **when a branch makes it divide by zero.**
-/

namespace Hivemind

open Codecs Ordered Outcomes

/-- What the source does not define, or what leaves the function by an exception. -/
inductive Fault where
  | divByZero
  | outOfBounds
  | shift
  | raised (e : ReadError)
  deriving DecidableEq

/-- `a / b` of unsigned integers. -/
def divide (a b : UInt64) : Except Fault UInt64 :=
  if b = 0 then .error .divByZero else .ok (a / b)

/-- `a % b` of unsigned integers. -/
def remainder (a b : UInt32) : Except Fault UInt32 :=
  if b = 0 then .error .divByZero else .ok (a % b)

/-- `xs[i]` of a vector. -/
def element {α : Type} (xs : List α) (i : Nat) : Except Fault α :=
  match xs[i]? with
  | none => .error .outOfBounds
  | some x => .ok x

/-- `xs[i] = x` of a vector. -/
def setElement {α : Type} (xs : List α) (i : Nat) (x : α) : Except Fault (List α) :=
  if i < xs.length then .ok (xs.set i x) else .error .outOfBounds

/-- What `getOutcomeTx` works with: the market index, what `GetTransaction` leaves in
its output argument, and the calculation of an outcome, which may fail. -/
structure Miner where
  hash : Bytes → Uint256
  hash160 : Bytes → Bytes
  carrier : DataCarrier := {}
  market : LevelDB
  getTransaction : Uint256 → CTransaction → CTransaction
  /-- `marketOutcome::calc`. -/
  calcOutcome : MarketOutcome → Option MarketOutcome

/-- `defaultNA`. -/
def defaultNA : UInt64 := 2016

/-- The heights between which the decisions of a voting period end, and those that the
branch adds to them. -/
structure Window where
  maxDecisionHeight : UInt32
  minDecisionHeight : UInt32

/-- `maxDecisionHeight` and `minDecisionHeight`, with the arithmetic of `uint32_t`. -/
def decisionWindow (branch : MarketBranch) (height : UInt32) : Window :=
  let maxDecisionHeight := height - branch.ballotTime.toUInt32 - branch.unsealTime.toUInt32
  ⟨maxDecisionHeight, maxDecisionHeight - branch.tau.toUInt32⟩

/-- The decision ends in the window. -/
def Window.contains (w : Window) (decision : MarketDecision) : Bool :=
  w.minDecisionHeight < decision.eventOverBy && decision.eventOverBy ≤ w.maxDecisionHeight

/-- `decisionMap[id]`: the last decision with that id. -/
def decisionMap (miner : Miner) (decisions : List (MarketObj .decision)) (id : Uint256) :
    Option MarketDecision :=
  (decisions.reverse.find? fun d => d.getHash miner.hash == id).map MarketObj.data

/-! ## The reputation phase -/

/-- The previous reputation transaction: that of the latest outcome which has one, or
else the transaction that carried the branch. -/
def prevRepTx (miner : Miner) (branch : MarketObj .branch) (outcomes : List (MarketObj .outcome)) :
    CTransaction :=
  let (prevHeight, preptx) := outcomes.foldl
    (fun s o => if o.nHeight < s.1 then s else if o.data.tx.vout = [] then s else (o.nHeight, o.data.tx))
    ((0, {}) : UInt32 × CTransaction)
  if prevHeight = 0 then miner.getTransaction branch.txid preptx else preptx

/-- `votes`: the last vote of each key. -/
def votesByKey (revealvotes : List (MarketObj .revealVote)) : OrdMap CKeyID MarketRevealVote :=
  OrdMap.empty.putAll (revealvotes.map fun v => (v.data.keyID, v.data))

/-- The key of an output of the reputation transaction, and `rc`.  The types are looked
at when `Solver` has failed, and a script that it solves is left with the null key. -/
def voterKey (miner : Miner) (s : Solution) : CKeyID × Bool :=
  if s.found then (Blob.null, true)
  else match s.typeRet with
    | .pubkey =>
      let vch := s.vSolutions.headD []
      if pubKeyIsValid vch then (Blob.ofBytes (miner.hash160 vch), false) else (Blob.null, false)
    | .pubkeyhash | .scripthash => (Blob.ofBytes (s.vSolutions.headD []), false)
    | _ => (Blob.null, false)

/-- Every output of the reputation transaction is found for the null key. -/
theorem voterKey_null {miner : Miner} {script : CScript} {s : Solution}
    (h : solver miner.carrier script = .ok s) : (voterKey miner s).1 = Blob.null := by
  unfold voterKey
  split_ifs with hfound
  · rfl
  · rcases solver_failed h (by simpa using hfound) with ht | ht <;> rw [ht]

/-- `resp`: the vote on the decision `outcome->decisionIDs[j]`, which is read once for
every decision that the voter names. -/
def response (outcome : MarketOutcome) (j : Nat) : List (Uint256 × UInt64) → Except Fault UInt64
  | [] => .ok outcome.NA
  | (id, vote) :: rest => do
    let decisionid ← element outcome.decisionIDs j
    if id = decisionid then .ok vote else response outcome j rest

/-- The loop over `j` that fills a row of the vote matrix. -/
def fillRow (i : UInt32) (ballot : List (Uint256 × UInt64)) : List Nat → MarketOutcome →
    Except Fault MarketOutcome
  | [], outcome => .ok outcome
  | j :: js, outcome => do
    let resp ← response outcome j ballot
    let pos := i * outcome.nDecisions + UInt32.ofNat j
    let voteMatrix ← setElement outcome.voteMatrix pos.toNat resp
    fillRow i ballot js { outcome with voteMatrix }

/-- The row of a vote, which must have as many votes as decisions. -/
def fillVote (i : UInt32) (vote : MarketRevealVote) (outcome : MarketOutcome) :
    Except Fault MarketOutcome :=
  if vote.decisionIDs.length = vote.decisionVotes.length then
    fillRow i (vote.decisionIDs.zip vote.decisionVotes) (List.range vote.decisionIDs.length) outcome
  else .ok outcome

/-- The row of the voter who holds an output, if the voter has voted. -/
def fillVoter (votes : OrdMap CKeyID MarketRevealVote) (i : UInt32) (key : CKeyID × Bool)
    (outcome : MarketOutcome) : Except Fault MarketOutcome :=
  match key.2, votes.find key.1 with
  | true, some vote => fillVote i vote outcome
  | _, _ => .ok outcome

/-- The loop over the outputs of the previous reputation transaction. -/
def fillVoters (miner : Miner) (votes : OrdMap CKeyID MarketRevealVote) :
    UInt32 → List CTxOut → MarketOutcome → Except Fault MarketOutcome
  | _, [], outcome => .ok outcome
  | i, txout :: vout, outcome => match solver miner.carrier txout.scriptPubKey with
    | .error e => .error (.raised e)
    | .ok s => do
      let key := voterKey miner s
      let outcome := { outcome with
        voterIDs := outcome.voterIDs ++ [key.1]
        oldRep := outcome.oldRep ++ [txout.nValue.toUInt64] }
      let outcome ← fillVoter votes i key outcome
      fillVoters miner votes (i + 1) vout { outcome with nVoters := outcome.nVoters + 1 }

/-- A new `marketOutcome` for the branch, with the decisions of the window. -/
def newOutcome (miner : Miner) (branch : MarketObj .branch) (w : Window)
    (decisions : List (MarketObj .decision)) : MarketOutcome :=
  let ended := decisions.filter fun d => w.contains d.data
  { branchid := branch.getHash miner.hash
    nVoters := 0
    voterIDs := [], oldRep := [], thisRep := [], smoothedRep := [], NARow := [], particRow := []
    particRel := [], rowBonus := []
    nDecisions := UInt32.ofNat ended.length
    decisionIDs := ended.map fun d => d.getHash miner.hash
    isScaled := ended.map fun d => d.data.isScaled.toUInt64
    firstLoading := [], decisionsRaw := [], consensusReward := [], certainty := [], NACol := []
    particCol := [], authorBonus := [], decisionsFinal := [], voteMatrix := []
    NA := defaultNA
    alpha := branch.data.alpha
    tol := branch.data.tol }

/-- `OP_DUP OP_HASH160 keyID OP_EQUALVERIFY OP_CHECKSIG`. -/
def payToKeyHash (keyID : CKeyID) : CScript :=
  [opDup, opHash160] ++ pushData keyID.val ++ [opEqualVerify, opCheckSig]

/-- The new reputation transaction: every output of the previous one is spent to the
key it was found for, with the new reputation. -/
def repTxLoop (prevHash : Uint256) (outcome : MarketOutcome) : List Nat → CTransaction →
    Except Fault CTransaction
  | [], mtx => .ok mtx
  | i :: is, mtx => do
    let keyID ← element outcome.voterIDs i
    let rep ← element outcome.smoothedRep i
    repTxLoop prevHash outcome is { mtx with
      vin := mtx.vin ++ [{ prevout := ⟨prevHash, UInt32.ofNat i⟩ }]
      vout := mtx.vout ++ [⟨rep.toInt64, payToKeyHash keyID⟩] }

/-- `calc_rep_tx`: the transaction so far and the outcome of this height. -/
def calcRepTx (miner : Miner) (branch : MarketObj .branch) (height : UInt32) (w : Window)
    (decisions : List (MarketObj .decision)) (outcomes : List (MarketObj .outcome)) :
    Except Fault (CTransaction × MarketOutcome) :=
  let preptx := prevRepTx miner branch outcomes
  let votes := votesByKey (getRevealVotes (branch.getHash miner.hash) height miner.market)
  let outcome := newOutcome miner branch w decisions
  -- the source leaves the phase when there are decisions, and goes on when there are none
  if outcome.nDecisions ≠ 0 then .ok ({}, outcome)
  else do
    let voteMatrix := List.replicate (votes.entries.length * outcome.nDecisions.toNat) outcome.NA
    let outcome ← fillVoters miner votes 0 preptx.vout { outcome with voteMatrix }
    if outcome.nVoters = 0 ∨ preptx.vout = [] then .ok ({}, outcome)
    else match miner.calcOutcome outcome with
      | none => .ok ({}, outcome)
      | some outcome =>
        (repTxLoop (preptx.getHash miner.hash) outcome (List.range preptx.vout.length) {}).map
          fun mtx => (mtx, { outcome with tx := mtx })

/-! ## The settlement phase -/

/-- The inner loop over the decisions of a market that has matured: the first one in
the window marks the market, under the position of the decision. -/
def markDecided (w : Window) (decisions : Uint256 → Option MarketDecision) :
    Nat → List Uint256 → List Bool × Nat → Except Fault (List Bool × Nat)
  | _, [], s => .ok s
  | k, id :: ids, s =>
    if (decisions id).any w.contains then
      (setElement s.1 k true).map fun needsCalc => (needsCalc, s.2 + 1)
    else markDecided w decisions (k + 1) ids s

/-- Whether the `i`-th market has just ended. -/
def marketEnded (w : Window) (height : UInt32) (decisions : Uint256 → Option MarketDecision)
    (i : Nat) (market : MarketMarket) (s : List Bool × Nat) : Except Fault (List Bool × Nat) :=
  if market.maturation = height then
    (setElement s.1 i true).map fun needsCalc => (needsCalc, s.2 + 1)
  else if market.maturation < height then markDecided w decisions 0 market.decisionIDs s
  else .ok s

/-- `marketneedscalc` and `nmarketsended`. -/
def marketsEnded (w : Window) (height : UInt32) (decisions : Uint256 → Option MarketDecision) :
    Nat → List (MarketObj .market) → List Bool × Nat → Except Fault (List Bool × Nat)
  | _, [], s => .ok s
  | i, market :: markets, s => do
    let s ← marketEnded w height decisions i market.data s
    marketsEnded w height decisions (i + 1) markets s

/-- What is known of the decisions of a market when its trades are paid. -/
structure Finals where
  decisionsFinals : List UInt64 := []
  isScaleds : List UInt64 := []
  mins : List UInt64 := []
  maxs : List UInt64 := []

def Finals.push (f : Finals) (decisionFinal isScaled min max : UInt64) : Finals :=
  ⟨f.decisionsFinals ++ [decisionFinal], f.isScaleds ++ [isScaled], f.mins ++ [min],
    f.maxs ++ [max]⟩

/-- An earlier outcome is looked for, and the outcome of this height is taken when
there is one. -/
def earlierOutcome (branch : MarketBranch) (decision : MarketDecision)
    (outcomes : List (MarketObj .outcome)) : Bool :=
  outcomes.any fun o =>
    let last := o.nHeight + branch.ballotTime.toUInt32 + branch.unsealTime.toUInt32
    decision.eventOverBy ≤ last && decision.eventOverBy ≤ last - branch.tau.toUInt32

/-- `doutcome`: the outcome in which the final value of a decision is looked up. -/
def doutcome (branch : MarketBranch) (w : Window) (outcome : Option MarketOutcome)
    (outcomes : List (MarketObj .outcome)) (decision : MarketDecision) : Option MarketOutcome :=
  if decision.eventOverBy ≤ w.minDecisionHeight ∧ w.maxDecisionHeight < decision.eventOverBy ∧
      outcome.isSome then outcome
  else if earlierOutcome branch decision outcomes then outcome
  else none

/-- The loop that looks for the decision in the outcome.  It counts up the market `i`
and not the position `k`, so it compares the first decision of the outcome with the
`j`-th ones of the markets from `i` on. -/
def seekMarket (decisionid : Uint256) (j : Nat) : Nat → List (MarketObj .market) → Except Fault Nat
  | _, [] => .error .outOfBounds
  | i, market :: markets => do
    let id ← element market.data.decisionIDs j
    if decisionid = id then .ok i else seekMarket decisionid j (i + 1) markets

/-- The final value of a decision: the market at which the search ends, the value and
whether the decision is scaled. -/
def decisionFinal (d : Option MarketOutcome) (markets : List (MarketObj .market)) (i j : Nat) :
    Except Fault (Nat × UInt64 × UInt64) :=
  match d with
  | none => .ok (i, defaultNA, 0)
  | some d => match d.decisionIDs with
    | [] => .ok (i, defaultNA, 0)
    | decisionid :: _ => do
      let i ← seekMarket decisionid j i (markets.drop i)
      let final ← element d.decisionsFinal 0
      let isScaled ← element d.isScaled 0
      .ok (i, final, isScaled.toUInt8.toUInt64)

/-- The data of the settlement phase. -/
structure Settlement where
  branch : MarketBranch
  window : Window
  decisions : Uint256 → Option MarketDecision
  outcomes : List (MarketObj .outcome)
  outcome : Option MarketOutcome
  markets : List (MarketObj .market)

/-- One turn of the loop over the decisions of market `i`. -/
def finalStep (s : Settlement) (i j : Nat) (id : Uint256) (f : Finals) :
    Except Fault (Nat × Finals) :=
  match s.decisions id with
  | none => .ok (i, f.push defaultNA 0 0 0)
  | some decision => do
    let (i, final, isScaled) ←
      decisionFinal (doutcome s.branch s.window s.outcome s.outcomes decision) s.markets i j
    .ok (i, f.push final isScaled decision.min.toUInt64 decision.max.toUInt64)

/-- The loop over the decisions of market `i`, from the `j`-th on.  The market may
change on the way; `n` bounds the decisions of all markets. -/
def finalsLoop (s : Settlement) : Nat → Nat → Nat → Finals → Except Fault (Nat × Finals)
  | 0, i, _, f => .ok (i, f)
  | n + 1, i, j, f => match s.markets[i]? with
    | none => .error .outOfBounds
    | some market => match market.data.decisionIDs[j]? with
      | none => .ok (i, f)
      | some id => do
        let (i, f) ← finalStep s i j id f
        finalsLoop s n i (j + 1) f

/-- The most decisions that a market has. -/
def Settlement.maxDecisions (s : Settlement) : Nat :=
  (s.markets.map fun m => m.data.decisionIDs.length).foldl max 0

/-- The value of a share that is left after the `k`-th decision, or `none` when it is
worth nothing. -/
def payoutStep (f : Finals) (decisionState : UInt32) (k : Nat) (final : UInt64) (payout : Nat) :
    Except Fault (Option Nat) :=
  if 32 ≤ k then .error .shift
  else do
    let state := (decisionState.toNat >>> k) % 2
    let isScaled ← element f.isScaleds k
    let min ← element f.mins k
    let max ← element f.maxs k
    if isScaled ≠ 0 then
      if state = 0 ∧ min < max then
        (divide (max - final) (max - min)).map fun q => some (payout * q.toNat)
      else if state = 1 ∧ min < max then
        (divide (final - min) (max - min)).map fun q => some (payout * q.toNat)
      else .ok (some payout)
    else if state = 0 ∧ 50000000 < final then .ok none
    else if state = 1 ∧ final < 50000000 then .ok none
    else .ok (some payout)

/-- The loop over the decisions of a trade. -/
def payoutLoop (f : Finals) (decisionState : UInt32) :
    Nat → List UInt64 → Nat → Except Fault Nat
  | _, [], payout => .ok payout
  | k, final :: finals, payout => do
    match ← payoutStep f decisionState k final payout with
    | none => .ok 0
    | some payout => payoutLoop f decisionState (k + 1) finals payout

/-- The output that pays a trade. -/
def tradePayout (f : Finals) (trade : MarketTrade) : Except Fault (Option CTxOut) :=
  if trade.isBuy then
    (payoutLoop f trade.decisionState 0 f.decisionsFinals 1).map fun payout =>
      if 0 < payout then
        some ⟨Int64.ofNat (trade.nShares.toNat * payout), payToKeyHash trade.keyID⟩
      else none
  else .ok none

/-- The loop over the trades of a market. -/
def tradePayouts (f : Finals) : List (MarketObj .trade) → CTransaction → Except Fault CTransaction
  | [], mtx => .ok mtx
  | trade :: trades, mtx => do
    let out ← tradePayout f trade.data
    tradePayouts f trades { mtx with vout := mtx.vout ++ out.toList }

/-- The loop over the markets, from `i` on.  The loop over the decisions may move
`i` forward. -/
def settleLoop (miner : Miner) (s : Settlement) (needsCalc : List Bool) :
    Nat → Nat → CTransaction → Except Fault CTransaction
  | 0, _, mtx => .ok mtx
  | n + 1, i, mtx =>
    if s.markets.length ≤ i then .ok mtx
    else if needsCalc.getD i false then do
      let (i, f) ← finalsLoop s (s.maxDecisions + 1) i 0 {}
      let market ← element s.markets i
      let mtx ← tradePayouts f (getTrades (market.getHash miner.hash) miner.market) mtx
      settleLoop miner s needsCalc n (i + 1) mtx
    else settleLoop miner s needsCalc n (i + 1) mtx

/-- `calc_coin_tx`. -/
def calcCoinTx (miner : Miner) (s : Settlement) (height : UInt32) (mtx : CTransaction) :
    Except Fault CTransaction := do
  let (needsCalc, nmarketsended) ← marketsEnded s.window height s.decisions 0 s.markets
    (List.replicate s.markets.length false, 0)
  if nmarketsended = 0 then .ok mtx
  else settleLoop miner s needsCalc s.markets.length 0 mtx

/-! ## The function -/

/-- The test of the two phases: whether a voting period ends at this height. -/
def endsVotingPeriod (branch : MarketBranch) (height : UInt32) : Except Fault Bool :=
  if height.toNat ≤ branch.ballotTime.toNat + branch.unsealTime.toNat then .ok false
  else (remainder (height - branch.ballotTime.toUInt32 - branch.unsealTime.toUInt32)
    branch.tau.toUInt32).map fun r => r == 0

/-- The reputation phase, when a voting period ends. -/
def repPhase (miner : Miner) (branch : MarketObj .branch) (height : UInt32) (ends : Bool)
    (decisions : List (MarketObj .decision)) (outcomes : List (MarketObj .outcome)) :
    Except Fault (CTransaction × Option MarketOutcome) :=
  if ends then
    (calcRepTx miner branch height (decisionWindow branch.data height) decisions outcomes).map
      fun r => (r.1, some r.2)
  else .ok ({}, none)

/-- `getOutcomeTx`, on a branch that is not `NULL`. -/
def getOutcomeTx (miner : Miner) (branch : MarketObj .branch) (height : UInt32) :
    Except Fault CTransaction := do
  let decisions := getDecisions (branch.getHash miner.hash) miner.market
  let outcomes := getOutcomes (branch.getHash miner.hash) miner.market
  let ends ← endsVotingPeriod branch.data height
  let (mtx, outcome) ← repPhase miner branch height ends decisions outcomes
  let settlement :=
    { branch := branch.data
      window := decisionWindow branch.data height
      decisions := decisionMap miner decisions
      outcomes, outcome
      -- the markets are listed under their decisions; the source asks with the branch
      markets := getMarkets (branch.getHash miner.hash) miner.market }
  calcCoinTx miner settlement height mtx

/-! ## Where it can divide by zero -/

/-- The computation does not divide by zero. -/
abbrev NoDivide {α : Type} (x : Except Fault α) : Prop := Avoids (· = Fault.divByZero) x

theorem element_noDivide {α : Type} (xs : List α) (i : Nat) : NoDivide (element xs i) := by
  unfold element
  split
  · exact Avoids.error (by decide)
  · exact Avoids.ok _

theorem setElement_noDivide {α : Type} (xs : List α) (i : Nat) (x : α) :
    NoDivide (setElement xs i x) :=
  Avoids.ite (Avoids.ok _) (Avoids.error (by decide))

/-! ### The reputation phase -/

theorem response_noDivide (outcome : MarketOutcome) (j : Nat) (ballot : List (Uint256 × UInt64)) :
    NoDivide (response outcome j ballot) := by
  induction ballot with
  | nil => exact Avoids.ok _
  | cons v ballot ih =>
      exact Avoids.bind (element_noDivide _ _) fun _ _ => Avoids.ite (Avoids.ok _) ih

theorem fillRow_noDivide (i : UInt32) (ballot : List (Uint256 × UInt64)) (js : List Nat)
    (outcome : MarketOutcome) : NoDivide (fillRow i ballot js outcome) := by
  induction js generalizing outcome with
  | nil => exact Avoids.ok _
  | cons j js ih =>
      refine Avoids.bind (response_noDivide _ _ _) fun resp _ => ?_
      exact Avoids.bind (setElement_noDivide _ _ _) fun voteMatrix _ => ih _

theorem fillVoter_noDivide (votes : OrdMap CKeyID MarketRevealVote) (i : UInt32)
    (key : CKeyID × Bool) (outcome : MarketOutcome) :
    NoDivide (fillVoter votes i key outcome) := by
  unfold fillVoter
  split
  · exact Avoids.ite (fillRow_noDivide _ _ _ _) (Avoids.ok _)
  · exact Avoids.ok _

theorem fillVoters_noDivide (miner : Miner) (votes : OrdMap CKeyID MarketRevealVote) (i : UInt32)
    (vout : List CTxOut) (outcome : MarketOutcome) :
    NoDivide (fillVoters miner votes i vout outcome) := by
  induction vout generalizing i outcome with
  | nil => exact Avoids.ok _
  | cons txout vout ih =>
      unfold fillVoters
      split
      · exact Avoids.error (by simp)
      · exact Avoids.bind (fillVoter_noDivide _ _ _ _) fun outcome _ => ih _ _

theorem repTxLoop_noDivide (prevHash : Uint256) (outcome : MarketOutcome) (is : List Nat)
    (mtx : CTransaction) : NoDivide (repTxLoop prevHash outcome is mtx) := by
  induction is generalizing mtx with
  | nil => exact Avoids.ok _
  | cons i is ih =>
      refine Avoids.bind (element_noDivide _ _) fun keyID _ => ?_
      exact Avoids.bind (element_noDivide _ _) fun rep _ => ih _

theorem calcRepTx_noDivide (miner : Miner) (branch : MarketObj .branch) (height : UInt32)
    (w : Window) (decisions : List (MarketObj .decision)) (outcomes : List (MarketObj .outcome)) :
    NoDivide (calcRepTx miner branch height w decisions outcomes) := by
  refine Avoids.ite (Avoids.ok _) ?_
  refine Avoids.bind (fillVoters_noDivide _ _ _ _ _) fun outcome _ => ?_
  refine Avoids.ite (Avoids.ok _) ?_
  split
  · exact Avoids.ok _
  · exact Avoids.map (repTxLoop_noDivide _ _ _ _)

/-! ### The settlement phase -/

theorem markDecided_noDivide (w : Window) (decisions : Uint256 → Option MarketDecision) (k : Nat)
    (ids : List Uint256) (s : List Bool × Nat) : NoDivide (markDecided w decisions k ids s) := by
  induction ids generalizing k with
  | nil => exact Avoids.ok _
  | cons id ids ih => exact Avoids.ite (Avoids.map (setElement_noDivide _ _ _)) (ih _)

theorem marketsEnded_noDivide (w : Window) (height : UInt32)
    (decisions : Uint256 → Option MarketDecision) (i : Nat) (markets : List (MarketObj .market))
    (s : List Bool × Nat) : NoDivide (marketsEnded w height decisions i markets s) := by
  induction markets generalizing i s with
  | nil => exact Avoids.ok _
  | cons market markets ih =>
      have hended : NoDivide (marketEnded w height decisions i market.data s) :=
        Avoids.ite (Avoids.map (setElement_noDivide _ _ _))
          (Avoids.ite (markDecided_noDivide _ _ _ _ _) (Avoids.ok _))
      exact Avoids.bind hended fun s _ => ih _ _

theorem seekMarket_noDivide (decisionid : Uint256) (j i : Nat) (markets : List (MarketObj .market)) :
    NoDivide (seekMarket decisionid j i markets) := by
  induction markets generalizing i with
  | nil => exact Avoids.error (by decide)
  | cons market markets ih =>
      exact Avoids.bind (element_noDivide _ _) fun id _ => Avoids.ite (Avoids.ok _) (ih _)

theorem decisionFinal_noDivide (d : Option MarketOutcome) (markets : List (MarketObj .market))
    (i j : Nat) : NoDivide (decisionFinal d markets i j) := by
  unfold decisionFinal
  split
  · exact Avoids.ok _
  · split
    · exact Avoids.ok _
    · refine Avoids.bind (seekMarket_noDivide _ _ _ _) fun i _ => ?_
      refine Avoids.bind (element_noDivide _ _) fun final _ => ?_
      exact Avoids.bind (element_noDivide _ _) fun isScaled _ => Avoids.ok _

theorem finalStep_noDivide (s : Settlement) (i j : Nat) (id : Uint256) (f : Finals) :
    NoDivide (finalStep s i j id f) := by
  unfold finalStep
  split
  · exact Avoids.ok _
  · exact Avoids.bind (decisionFinal_noDivide _ _ _ _) fun _ _ => Avoids.ok _

theorem finalsLoop_noDivide (s : Settlement) (n i j : Nat) (f : Finals) :
    NoDivide (finalsLoop s n i j f) := by
  induction n generalizing i j f with
  | zero => exact Avoids.ok _
  | succ n ih =>
      unfold finalsLoop
      split
      · exact Avoids.error (by decide)
      · split
        · exact Avoids.ok _
        · exact Avoids.bind (finalStep_noDivide _ _ _ _ _) fun _ _ => ih _ _ _

/-- The quotients of the payout are guarded: the divisor is the width of a range that
is not empty. -/
theorem divide_noDivide (a : UInt64) {min max : UInt64} (h : min < max) :
    NoDivide (divide a (max - min)) := by
  have hne : max - min ≠ 0 := by
    intro hzero
    have heq : max = min := by
      have := congrArg (· + min) hzero
      simpa [UInt64.sub_add_cancel] using this
    subst heq
    exact UInt64.lt_irrefl _ h
  rw [divide, if_neg hne]
  exact Avoids.ok _

theorem payoutStep_noDivide (f : Finals) (decisionState : UInt32) (k : Nat) (final : UInt64)
    (payout : Nat) : NoDivide (payoutStep f decisionState k final payout) := by
  refine Avoids.ite (Avoids.error (by decide)) ?_
  refine Avoids.bind (element_noDivide _ _) fun isScaled _ => ?_
  refine Avoids.bind (element_noDivide _ _) fun min _ => ?_
  refine Avoids.bind (element_noDivide _ _) fun max _ => ?_
  refine Avoids.ite ?_ (Avoids.ite (Avoids.ok _) (Avoids.ite (Avoids.ok _) (Avoids.ok _)))
  split_ifs with h0 h1
  · exact Avoids.map (divide_noDivide _ h0.2)
  · exact Avoids.map (divide_noDivide _ h1.2)
  · exact Avoids.ok _

theorem payoutLoop_noDivide (f : Finals) (decisionState : UInt32) (k : Nat) (finals : List UInt64)
    (payout : Nat) : NoDivide (payoutLoop f decisionState k finals payout) := by
  induction finals generalizing k payout with
  | nil => exact Avoids.ok _
  | cons final finals ih =>
      refine Avoids.bind (payoutStep_noDivide _ _ _ _ _) fun r _ => ?_
      split
      · exact Avoids.ok _
      · exact ih _ _

theorem tradePayouts_noDivide (f : Finals) (trades : List (MarketObj .trade)) (mtx : CTransaction) :
    NoDivide (tradePayouts f trades mtx) := by
  induction trades generalizing mtx with
  | nil => exact Avoids.ok _
  | cons trade trades ih =>
      have hout : NoDivide (tradePayout f trade.data) :=
        Avoids.ite (Avoids.map (payoutLoop_noDivide _ _ _ _ _)) (Avoids.ok _)
      exact Avoids.bind hout fun _ _ => ih _

theorem settleLoop_noDivide (miner : Miner) (s : Settlement) (needsCalc : List Bool) (n i : Nat)
    (mtx : CTransaction) : NoDivide (settleLoop miner s needsCalc n i mtx) := by
  induction n generalizing i mtx with
  | zero => exact Avoids.ok _
  | succ n ih =>
      refine Avoids.ite (Avoids.ok _) (Avoids.ite ?_ (ih _ _))
      refine Avoids.bind (finalsLoop_noDivide _ _ _ _ _) fun r _ => ?_
      refine Avoids.bind (element_noDivide _ _) fun market _ => ?_
      exact Avoids.bind (tradePayouts_noDivide _ _ _) fun mtx _ => ih _ _

theorem calcCoinTx_noDivide (miner : Miner) (s : Settlement) (height : UInt32) (mtx : CTransaction) :
    NoDivide (calcCoinTx miner s height mtx) := by
  refine Avoids.bind (marketsEnded_noDivide _ _ _ _ _ _) fun r _ => ?_
  exact Avoids.ite (Avoids.ok _) (settleLoop_noDivide _ _ _ _ _ _)

/-! ### The function -/

/-- The test of the voting period divides by zero when the branch has no period. -/
theorem endsVotingPeriod_divides_iff (branch : MarketBranch) (height : UInt32) :
    endsVotingPeriod branch height = .error .divByZero ↔
      branch.tau = 0 ∧ branch.ballotTime.toNat + branch.unsealTime.toNat < height.toNat := by
  have htau : branch.tau.toUInt32 = 0 ↔ branch.tau = 0 := by
    constructor
    · intro h
      have := congrArg UInt32.toNat h
      exact UInt16.toNat_inj.mp (by simpa using this)
    · rintro h
      rw [h]
      rfl
  unfold endsVotingPeriod remainder
  split_ifs with hheight hzero
  · simp only [false_iff, not_and, not_lt]
    exact fun _ => hheight
  · simp only [Except.map, true_iff]
    exact ⟨htau.mp hzero, not_le.mp hheight⟩
  · simp only [Except.map, reduceCtorEq, false_iff, not_and]
    exact fun h => absurd (htau.mpr h) hzero

/-- **When `getOutcomeTx` divides by zero**: at every height after the ballot and the
unsealing, on a branch whose voting period is zero.  The index does not matter. -/
theorem getOutcomeTx_divides_iff (miner : Miner) (branch : MarketObj .branch) (height : UInt32) :
    getOutcomeTx miner branch height = .error .divByZero ↔
      branch.data.tau = 0 ∧
        branch.data.ballotTime.toNat + branch.data.unsealTime.toNat < height.toNat := by
  rw [← endsVotingPeriod_divides_iff]
  constructor
  · intro h
    cases hends : endsVotingPeriod branch.data height with
    | error e => simpa [getOutcomeTx, hends, bind, Except.bind] using h
    | ok ends =>
        -- the phases after the test do not divide by zero
        have hphases : NoDivide (getOutcomeTx miner branch height) := by
          rw [getOutcomeTx, hends]
          have hrep : ∀ decisions outcomes,
              NoDivide (repPhase miner branch height ends decisions outcomes) := fun _ _ =>
            Avoids.ite (Avoids.map (calcRepTx_noDivide _ _ _ _ _ _)) (Avoids.ok _)
          refine Avoids.bind (Avoids.ok _) fun ends' hends' => ?_
          obtain rfl := Except.ok.inj hends'
          exact Avoids.bind (hrep _ _) fun r _ => calcCoinTx_noDivide _ _ _ _
        exact absurd rfl (hphases.not_bad _ h)
  · intro h
    simp only [getOutcomeTx, h, bind, Except.bind]

end Hivemind
