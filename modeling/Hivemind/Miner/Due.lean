import Hivemind.Miner.Settlement

/-!
# Which markets should be settled

The comment on `getOutcomeTx` says that a market ends at the largest of its maturation and the
heights of the outcomes of its decisions.  The market index lists a market under its decisions,
and `calc_coin_tx` asks it for the markets of the branch with the id of the branch.

So the markets that the phase sees are those that name the branch itself among their decisions,
and no such market is due by the rule of the comment, since its decisions have to be decisions of
the branch.  The phase then does what it should exactly when there is nothing to do.

* `MarketBranch.resolutionHeight`: the height at which the outcome of a decision is worked out.
* `settlementHeight`, `Due`: the rule of the comment.
* `branch_mem_of_listed`: a market that is listed under the branch names the branch as one of its
  decisions.
* `paidMarkets_nil_iff`: without a mark nothing is paid.
* `settlesDue_iff`: **when the markets that are paid are those that are due.**
* `dueMarket_not_paid`: a market that is due and is not paid.
-/

namespace Hivemind

open Codecs Ordered Outcomes

/-! ## The height of a market -/

/-- The number of the period that contains the end of a decision. -/
def MarketBranch.periodOf (b : MarketBranch) (d : MarketDecision) : Nat :=
  (d.eventOverBy.toNat + b.tau.toNat - 1) / b.tau.toNat

/-- The height at which the outcome of a decision is worked out. -/
def MarketBranch.resolutionHeight (b : MarketBranch) (d : MarketDecision) : Nat :=
  b.outcomeBlock (b.periodOf d)

/-- The outcome of a decision is that of the period in which it ends. -/
theorem resolutionHeight_eq {b : MarketBranch} {n : Nat} {d : MarketDecision} (hn : 1 ≤ n)
    (h : b.EndsInPeriod n d) : b.resolutionHeight d = b.outcomeBlock n := by
  obtain ⟨hlo, hhi⟩ := h
  have hpred := ballotBlock_pred (b := b) hn
  have hperiod : b.periodOf d = n := by
    unfold MarketBranch.ballotBlock at hlo hhi hpred
    have hpos : 0 < b.tau.toNat := by omega
    unfold MarketBranch.periodOf
    rw [Nat.div_eq_iff hpos]
    constructor <;> omega
  rw [MarketBranch.resolutionHeight, hperiod]

section Due

variable (miner : Miner) (branch : MarketObj .branch)

/-- The decisions of the branch by their ids. -/
def branchDecisions : Uint256 → Option MarketDecision :=
  decisionMap miner (getDecisions (branch.getHash miner.hash) miner.market)

/-- The height at which a market ends, if its decisions are decisions of the branch. -/
def settlementHeight (market : MarketMarket) : Option Nat :=
  (market.decisionIDs.mapM (branchDecisions miner branch)).map fun ds =>
    ds.foldl (fun h d => max h (branch.data.resolutionHeight d)) market.maturation.toNat

/-- A market of the branch in the index that ends at this height. -/
structure Due (height : UInt32) (market : MarketObj .market) : Prop where
  stored : ∃ id, getMarket id miner.market = some market
  branchid : market.data.branchid = branch.getHash miner.hash
  ends : settlementHeight miner branch market.data = some height.toNat

/-- The value that an outcome records for a decision. -/
def MarketOutcome.Records (outcome : MarketOutcome) (id : Uint256) (value : UInt64) : Prop :=
  ∃ k : Nat, outcome.decisionIDs[k]? = some id ∧ outcome.decisionsFinal[k]? = some value

/-- The value that is recorded for a decision in the outcome of its period: a stored one,
or the one of this height. -/
def RecordedFinal (height : UInt32) (outcome : Option MarketOutcome) (d : MarketDecision)
    (id : Uint256) (value : UInt64) : Prop :=
  (∃ o ∈ getOutcomes (branch.getHash miner.hash) miner.market,
    o.nHeight.toNat = branch.data.resolutionHeight d ∧ o.data.Records id value) ∨
  height.toNat = branch.data.resolutionHeight d ∧ ∃ o, outcome = some o ∧ o.Records id value

/-- The settlement phase pays the markets that are due, each once, with the final values
that are recorded for their decisions. -/
structure SettlesDue (height : UInt32) (outcome : Option MarketOutcome) : Prop where
  paid : ∃ paid, paidMarkets (settlementOf miner branch height outcome) height = .ok paid ∧
    (paid.map Prod.fst).Nodup ∧
    (∀ market, market ∈ paid.map Prod.fst ↔ Due miner branch height market) ∧
    ∀ p ∈ paid, ∀ (j : Nat) id, p.1.data.decisionIDs[j]? = some id →
      ∃ d value, branchDecisions miner branch id = some d ∧
        p.2.decisionsFinals[j]? = some value ∧
        RecordedFinal miner branch height outcome d id value

end Due

/-! ## What is listed under the branch -/

/-- A market is stored as it is. -/
theorem persisted_market_data (market : MarketObj .market) :
    market.persisted.data = market.data :=
  MarketOp.stored_data_iff.mpr trivial

/-- **A market that is listed under the branch** names the branch as a decision. -/
theorem branch_mem_of_listed {steps : List DbStep} (hsizes : AllSizesOk (writtenObjs steps))
    {id : Uint256} {market : MarketObj .market} (h : market ∈ getMarkets id (runDb steps)) :
    id ∈ market.data.decisionIDs := by
  have hlisted : getMarkets id (runDb steps) =
      listed .market (fun o => decide (id ∈ o.data.decisionIDs)) (writtenObjs steps) :=
    listById_eq (indexed_run steps) hsizes .market (fun o => o.data.decisionIDs) (by decide) rfl
      (fun _ => rfl) id
  rw [hlisted] at h
  obtain ⟨objid, o, -, hid, rfl⟩ := of_mem_listed h
  rw [persisted_market_data]
  exact of_decide_eq_true hid

theorem mapM_eq_some_mem {α β : Type} {f : α → Option β} {l : List α} {ys : List β}
    (h : l.mapM f = some ys) {x : α} (hx : x ∈ l) : ∃ y, f x = some y := by
  induction l generalizing ys with
  | nil => cases hx
  | cons a l ih =>
      rw [List.mapM_cons] at h
      cases ha : f a with
      | none => simp [ha] at h
      | some y =>
          rcases List.mem_cons.mp hx with rfl | hx
          · exact ⟨y, ha⟩
          · cases hl : l.mapM f with
            | none => simp [ha, hl] at h
            | some ys' => exact ih hl hx

/-- The ids of the decision map are those of the decisions. -/
theorem of_decisionMap {miner : Miner} {decisions : List (MarketObj .decision)} {id : Uint256}
    {d : MarketDecision} (h : decisionMap miner decisions id = some d) :
    ∃ o ∈ decisions, o.getHash miner.hash = id ∧ o.data = d := by
  obtain ⟨o, ho, rfl⟩ := Option.map_eq_some_iff.mp h
  have hfound := List.find?_some ho
  have hhash : o.getHash miner.hash = id := eq_of_beq hfound
  exact ⟨o, List.mem_reverse.mp (List.mem_of_find?_eq_some ho),
    hhash, rfl⟩

/-! ## What is paid -/

/-- The market has ended, as the marking sees it. -/
def endsHere (w : Window) (height : UInt32) (decisions : Uint256 → Option MarketDecision)
    (market : MarketMarket) : Prop :=
  market.maturation = height ∨
    market.maturation < height ∧ ∃ id ∈ market.decisionIDs, inWindow w decisions id = true

theorem markOf_eq_none_iff {w : Window} {height : UInt32}
    {decisions : Uint256 → Option MarketDecision} {i : Nat} {market : MarketMarket} :
    markOf w height decisions i market = none ↔ ¬endsHere w height decisions market := by
  unfold markOf endsHere
  split_ifs with heq hlt
  · simp [heq]
  · simp [heq, hlt, List.findIdx?_eq_none_iff]
  · simp [heq, hlt]

theorem marks_eq_nil_iff {w : Window} {height : UInt32}
    {decisions : Uint256 → Option MarketDecision} {markets : List (MarketObj .market)} :
    marks w height decisions 0 markets = [] ↔
      ∀ market ∈ markets, ¬endsHere w height decisions market.data := by
  rw [List.eq_nil_iff_forall_not_mem]
  constructor
  · intro h market hmem
    obtain ⟨q, hq⟩ := List.mem_iff_getElem?.mp hmem
    rw [← markOf_eq_none_iff (i := 0 + q), Option.eq_none_iff_forall_ne_some]
    intro p hp
    exact h p ((mem_marks w height decisions).mpr ⟨q, market, hq, hp⟩)
  · intro h p hp
    obtain ⟨q, market, hq, hmark⟩ := (mem_marks w height decisions).mp hp
    have hnone := (markOf_eq_none_iff (i := 0 + q)).mpr (h market (List.mem_of_getElem? hq))
    rw [hnone] at hmark
    cases hmark

/-- What is paid is listed. -/
theorem of_mem_paidLoop {s : Settlement} {needsCalc : List Bool} {n i : Nat}
    {paid : List (MarketObj .market × Finals)} (h : paidLoop s needsCalc n i = .ok paid)
    {p : MarketObj .market × Finals} (hp : p ∈ paid) : p.1 ∈ s.markets := by
  induction n generalizing i paid with
  | zero =>
      obtain rfl := Except.ok.inj h
      cases hp
  | succ n ih =>
      rw [paidLoop] at h
      split_ifs at h
      · obtain rfl := Except.ok.inj h
        cases hp
      · simp only [bind_eq_ok, Except.ok.injEq] at h
        obtain ⟨⟨i', f⟩, -, market, hmarket, rest, hrest, rfl⟩ := h
        rcases List.mem_cons.mp hp with rfl | hp
        · unfold element at hmarket
          cases hget : s.markets[i']? with
          | none => simp [hget] at hmarket
          | some m =>
              simp only [hget, Except.ok.injEq] at hmarket
              exact hmarket ▸ List.mem_of_getElem? hget
        · exact ih hrest hp
      · exact ih h hp

/-- A marked market makes the loop pay something, or stop. -/
theorem paidLoop_ne_nil {s : Settlement} {needsCalc : List Bool} {n i q : Nat} (hi : i ≤ q)
    (hq : q < s.markets.length) (hmark : needsCalc.getD q false = true)
    (hn : s.markets.length ≤ n + i) : paidLoop s needsCalc n i ≠ .ok [] := by
  induction n generalizing i with
  | zero => omega
  | succ n ih =>
      rw [paidLoop, if_neg (by omega)]
      split_ifs with hhere
      · intro h
        simp only [bind_eq_ok] at h
        obtain ⟨_, -, market, -, rest, -, hcons⟩ := h
        simp at hcons
      · have hne : i ≠ q := fun h => hhere (h ▸ hmark)
        exact ih (by omega) (by omega)

/-- **Without a mark nothing is paid**, and with one the phase pays something that is
listed, or stops. -/
theorem paidMarkets_nil_iff {s : Settlement} {height : UInt32} :
    paidMarkets s height = .ok [] ↔
      ∀ market ∈ s.markets, ¬endsHere s.window height s.decisions market.data := by
  rw [← marks_eq_nil_iff]
  constructor
  · intro h
    by_contra hsome
    have hne : (s.marks height).length ≠ 0 := fun hzero => hsome (List.eq_nil_of_length_eq_zero hzero)
    by_cases hfit : ∀ p ∈ s.marks height, p < s.markets.length
    · obtain ⟨p, hp⟩ := List.exists_mem_of_ne_nil _ hsome
      simp only [paidMarkets, marketsEnded_settlement hfit, bind, Except.bind, if_neg hne] at h
      exact paidLoop_ne_nil (Nat.zero_le p) (hfit p hp) ((Settlement.needsCalc_iff hfit).mpr hp)
        le_rfl h
    · push Not at hfit
      obtain ⟨p, hp, hout⟩ := hfit
      have hended : marketsEnded s.window height s.decisions 0 s.markets
          (List.replicate s.markets.length false, 0) = .error .outOfBounds := by
        refine marketsEnded_fault s.window height s.decisions ⟨p, hp, ?_⟩
        rwa [List.length_replicate]
      rw [paidMarkets, hended] at h
      cases h
  · intro hnil
    have hfit : ∀ p ∈ s.marks height, p < s.markets.length := by
      intro p hp
      rw [Settlement.marks, hnil] at hp
      cases hp
    have hzero : (s.marks height).length = 0 := congrArg List.length hnil
    simp only [paidMarkets, marketsEnded_settlement hfit, bind, Except.bind, if_pos hzero]

theorem of_mem_paidMarkets {s : Settlement} {height : UInt32}
    {paid : List (MarketObj .market × Finals)} (h : paidMarkets s height = .ok paid)
    {p : MarketObj .market × Finals} (hp : p ∈ paid) : p.1 ∈ s.markets := by
  simp only [paidMarkets, bind_eq_ok] at h
  obtain ⟨⟨needsCalc, n⟩, -, h⟩ := h
  split_ifs at h
  · obtain rfl := Except.ok.inj h
    cases hp
  · exact of_mem_paidLoop h hp

/-! ## The agreement -/

section Agreement

variable {miner : Miner} {branch : MarketObj .branch} {height : UInt32}

/-- A market that is due names decisions of the branch only. -/
theorem Due.decision {market : MarketObj .market} (h : Due miner branch height market)
    {id : Uint256} (hid : id ∈ market.data.decisionIDs) :
    ∃ o ∈ getDecisions (branch.getHash miner.hash) miner.market, o.getHash miner.hash = id := by
  obtain ⟨ds, hds, -⟩ := Option.map_eq_some_iff.mp h.ends
  obtain ⟨d, hd⟩ := mapM_eq_some_mem hds hid
  obtain ⟨o, ho, hhash, -⟩ := of_decisionMap hd
  exact ⟨o, ho, hhash⟩

/-- **When the markets that are paid are those that are due**: when no market of the
branch is due, and none that is listed under the branch has ended.  The ids of the
branch and of its decisions are hashes of different objects. -/
theorem settlesDue_iff {steps : List DbStep} (hmarket : miner.market = runDb steps)
    (hsizes : AllSizesOk (writtenObjs steps))
    (hids : ∀ o ∈ getDecisions (branch.getHash miner.hash) miner.market,
      o.getHash miner.hash ≠ branch.getHash miner.hash)
    (outcome : Option MarketOutcome) :
    SettlesDue miner branch height outcome ↔
      (∀ market, ¬Due miner branch height market) ∧
      ∀ market ∈ getMarkets (branch.getHash miner.hash) miner.market,
        ¬endsHere (decisionWindow branch.data height) height (branchDecisions miner branch)
          market.data := by
  have hnil := @paidMarkets_nil_iff (settlementOf miner branch height outcome) height
  constructor
  · intro h
    obtain ⟨paid, hpaid, -, hdue, -⟩ := h.paid
    -- what is paid is listed under the branch, and so is not due
    have hempty : paid = [] := by
      refine List.eq_nil_iff_forall_not_mem.mpr fun p hp => ?_
      have hlisted := of_mem_paidMarkets hpaid hp
      have hmem : branch.getHash miner.hash ∈ p.1.data.decisionIDs := by
        refine branch_mem_of_listed hsizes ?_
        rw [← hmarket]
        exact hlisted
      obtain ⟨o, ho, hhash⟩ := ((hdue p.1).mp (List.mem_map_of_mem hp)).decision hmem
      exact hids o ho hhash
    subst hempty
    exact ⟨fun market hmem => by simpa using (hdue market).mpr hmem, hnil.mp hpaid⟩
  · rintro ⟨hnone, hlisted⟩
    refine ⟨[], hnil.mpr hlisted, List.nodup_nil, fun market => ?_, fun p hp => by cases hp⟩
    simpa using hnone market

end Agreement

/-! ### A market that is due -/

/-- The market of `settleMarket` without the branch among its decisions. -/
def dueMarket : MarketObj .market where
  data := { settleMarket.data with
    decisionIDs := [settleDecision.getHash lengthHash], decisionFunctionIDs := [0] }

/-- The writes that put it into the index. -/
def dueSteps : List DbStep :=
  [.index [(exampleBranch.getHash lengthHash, ⟨.branch, exampleBranch⟩),
    (settleDecision.getHash lengthHash, ⟨.decision, settleDecision⟩),
    (dueMarket.getHash lengthHash, ⟨.market, dueMarket⟩)]]

/-- A miner with that index. -/
def dueMiner : Miner := { settleMiner with market := runDb dueSteps }

theorem writtenObjs_dueSteps : writtenObjs dueSteps =
    [(exampleBranch.getHash lengthHash, ⟨.branch, exampleBranch⟩),
      (settleDecision.getHash lengthHash, ⟨.decision, settleDecision⟩),
      (dueMarket.getHash lengthHash, ⟨.market, dueMarket⟩)] := rfl

theorem allSizesOk_dueSteps : AllSizesOk (writtenObjs dueSteps) := by
  intro w hw
  rw [writtenObjs_dueSteps] at hw
  simp only [List.mem_cons, List.not_mem_nil, or_false] at hw
  rcases hw with rfl | rfl | rfl
  · show 1 ≤ maxSize ∧ 0 ≤ maxSize
    decide
  · exact Nat.zero_le _
  · show 0 ≤ maxSize ∧ 0 ≤ maxSize ∧ 0 ≤ maxSize ∧ 1 ≤ maxSize ∧ 1 ≤ maxSize
    decide

/-- **A market that is due is not paid.**  The decision of `dueMarket` ends at 1 and its
outcome is worked out at 74, but no market is listed under the branch. -/
theorem dueMarket_not_paid :
    exampleBranch.data.resolutionHeight settleDecision.data = 74 ∧
    Due dueMiner exampleBranch 74 dueMarket ∧
    ∀ outcome, paidMarkets (settlementOf dueMiner exampleBranch 74 outcome) 74 = .ok [] ∧
      ¬SettlesDue dueMiner exampleBranch 74 outcome := by
  have hdue : Due dueMiner exampleBranch 74 dueMarket :=
    ⟨⟨dueMarket.getHash lengthHash, by decide +kernel⟩, by decide +kernel, by decide +kernel⟩
  have hpaid : ∀ outcome,
      paidMarkets (settlementOf dueMiner exampleBranch 74 outcome) 74 = .ok [] := by
    intro outcome
    have hnone : (settlementOf dueMiner exampleBranch 74 outcome).markets = [] := by
      show getMarkets (exampleBranch.getHash dueMiner.hash) dueMiner.market = []
      decide +kernel
    rw [paidMarkets_nil_iff, hnone]
    simp
  refine ⟨by decide +kernel, hdue, fun outcome => ⟨hpaid outcome, fun h => ?_⟩⟩
  obtain ⟨paid, hpaid', -, hiff, -⟩ := h.paid
  obtain rfl := Except.ok.inj ((hpaid outcome).symm.trans hpaid')
  simpa using (hiff dueMarket).mpr hdue

/-- One block before, no market is due. -/
theorem settlesDue_before : SettlesDue dueMiner exampleBranch 73 none := by
  have hids : ∀ o ∈ getDecisions (exampleBranch.getHash dueMiner.hash) dueMiner.market,
      o.getHash dueMiner.hash ≠ exampleBranch.getHash dueMiner.hash := by decide +kernel
  refine (@settlesDue_iff dueMiner exampleBranch 73 dueSteps rfl allSizesOk_dueSteps hids none).mpr
    ⟨?_, ?_⟩
  · rintro market ⟨⟨id, hid⟩, -, hends⟩
    have hwritten := getObj_eq (indexed_run dueSteps) allSizesOk_dueSteps .market id
    obtain ⟨o, ho, rfl⟩ := Option.map_eq_some_iff.mp (hwritten.symm.trans hid)
    have hmem := (mem_of_lastWrite ho).1
    rw [writtenObjs_dueSteps] at hmem
    obtain ⟨-, rfl⟩ : id = dueMarket.getHash lengthHash ∧ o = dueMarket := by simpa using hmem
    rw [persisted_market_data] at hends
    have hheight : settlementHeight dueMiner exampleBranch dueMarket.data = some 74 := by
      decide +kernel
    rw [hheight] at hends
    exact absurd hends (by decide)
  · have hnone : getMarkets (exampleBranch.getHash dueMiner.hash) dueMiner.market = [] := by
      decide +kernel
    simp [hnone]

end Hivemind
