import Hivemind.Linalg.Calc
import Hivemind.Miner.Payout
import Hivemind.Miner.VotingPeriod

/-!
# The settlement phase

`calc_coin_tx` of `getOutcomeTx` marks the markets that have ended, looks up the final values of
their decisions and pays their trades.  The loops use the names `i`, `j` and `k` on four levels.
The mark of a matured market goes to the position of its first decision in the window, and the
search in an outcome counts up the market.

The phase is taken apart in that order.  The marks are a list of positions, which may lie behind
the markets; what is paid is worked out without the trades first; and a decision whose final
value is searched for ends the search outside of a vector, because no final value has been
calculated at that point.  What is left is the phase in which nothing is searched for.

* `marketsEnded_eq`: which positions are marked.
* `finalStep_seeking`, `paidLoop_seeking`: a search in an outcome with decisions always ends in a
  fault.
* `paidMarkets_plain`: what is paid otherwise.
* `calcKeeps_outcomeCalc`: `calc` of the source keeps the decisions, which is all that is used of
  it.
* `settlesInside_iff`: **when the phase stays inside its arrays.**
* `settlesInside_maturing`: a market that marks itself and is paid.
-/

namespace Hivemind

open Codecs Ordered Outcomes

/-- The data that `getOutcomeTx` hands to its settlement phase. -/
def settlementOf (miner : Miner) (branch : MarketObj .branch) (height : UInt32)
    (outcome : Option MarketOutcome) : Settlement where
  branch := branch.data
  window := decisionWindow branch.data height
  decisions := decisionMap miner (getDecisions (branch.getHash miner.hash) miner.market)
  outcomes := getOutcomes (branch.getHash miner.hash) miner.market
  outcome := outcome
  markets := getMarkets (branch.getHash miner.hash) miner.market

/-- `getOutcomeTx` comes to its settlement phase, with a transaction and an outcome. -/
structure ReachesSettlement (miner : Miner) (branch : MarketObj .branch) (height : UInt32)
    (ends : Bool) (mtx : CTransaction) (outcome : Option MarketOutcome) : Prop where
  period : endsVotingPeriod branch.data height = .ok ends
  rep : repPhase miner branch height ends (getDecisions (branch.getHash miner.hash) miner.market)
    (getOutcomes (branch.getHash miner.hash) miner.market) = .ok (mtx, outcome)

/-! ## The marks -/

section Marks

variable (w : Window) (height : UInt32) (decisions : Uint256 → Option MarketDecision)

/-- The decision with this id ends in the window. -/
def inWindow (id : Uint256) : Bool := (decisions id).any w.contains

/-- The position that the `i`-th market marks. -/
def markOf (i : Nat) (market : MarketMarket) : Option Nat :=
  if market.maturation = height then some i
  else if market.maturation < height then market.decisionIDs.findIdx? (inWindow w decisions)
  else none

/-- The positions that the markets mark, from the `i`-th on. -/
def marks : Nat → List (MarketObj .market) → List Nat
  | _, [] => []
  | i, market :: markets =>
    (markOf w height decisions i market.data).toList ++ marks (i + 1) markets

theorem mem_marks {p i : Nat} {markets : List (MarketObj .market)} :
    p ∈ marks w height decisions i markets ↔
      ∃ q market, markets[q]? = some market ∧
        markOf w height decisions (i + q) market.data = some p := by
  induction markets generalizing i with
  | nil => simp [marks]
  | cons market markets ih =>
      rw [marks, List.mem_append, Option.mem_toList, ih]
      constructor
      · rintro (h | ⟨q, m, hm, h⟩)
        · exact ⟨0, market, rfl, h⟩
        · exact ⟨q + 1, m, hm, by rwa [Nat.add_assoc, Nat.add_comm 1 q] at h⟩
      · rintro ⟨q, m, hm, h⟩
        cases q with
        | zero =>
            obtain rfl := Option.some.inj hm
            exact Or.inl h
        | succ q => exact Or.inr ⟨q, m, hm, by rwa [Nat.add_assoc, Nat.add_comm 1 q]⟩

/-- The inner loop marks the position of the first decision in the window. -/
theorem markDecided_eq (k : Nat) (ids : List Uint256) (s : List Bool × Nat) :
    markDecided w decisions k ids s =
      match ids.findIdx? (inWindow w decisions) with
      | none => .ok s
      | some p => (setElement s.1 (k + p) true).map fun needsCalc => (needsCalc, s.2 + 1) := by
  induction ids generalizing k with
  | nil => rfl
  | cons id ids ih =>
      rw [markDecided, List.findIdx?_cons]
      by_cases hin : inWindow w decisions id
      · have hany : ((decisions id).any w.contains) = true := hin
        simp [hin, hany]
      · have hany : ¬((decisions id).any w.contains) = true := hin
        rw [if_neg hany, if_neg hin, ih]
        cases ids.findIdx? (inWindow w decisions) with
        | none => rfl
        | some p => simp [Nat.add_assoc, Nat.add_comm 1 p]

theorem marketEnded_eq (i : Nat) (market : MarketMarket) (s : List Bool × Nat) :
    marketEnded w height decisions i market s =
      match markOf w height decisions i market with
      | none => .ok s
      | some p => (setElement s.1 p true).map fun needsCalc => (needsCalc, s.2 + 1) := by
  unfold marketEnded markOf
  split_ifs
  · rfl
  · rw [markDecided_eq]
    cases market.decisionIDs.findIdx? (inWindow w decisions) <;> simp
  · rfl

/-- **Which positions are marked**: the loop over the markets marks every position of
`marks`, as long as they are all positions of markets. -/
theorem marketsEnded_eq {i : Nat} {markets : List (MarketObj .market)} {s : List Bool × Nat}
    (hfit : ∀ p ∈ marks w height decisions i markets, p < s.1.length) :
    marketsEnded w height decisions i markets s =
      .ok ((marks w height decisions i markets).foldl (fun l p => l.set p true) s.1,
        s.2 + (marks w height decisions i markets).length) := by
  induction markets generalizing i s with
  | nil => rfl
  | cons market markets ih =>
      rw [marketsEnded, marketEnded_eq]
      cases hmark : markOf w height decisions i market.data with
      | none =>
          simp only [marks, hmark, Option.toList_none, List.nil_append] at hfit ⊢
          exact ih hfit
      | some p =>
          simp only [marks, hmark, Option.toList_some, List.cons_append, List.nil_append,
            List.forall_mem_cons] at hfit
          have hrest := ih (s := (s.1.set p true, s.2 + 1)) (by simpa using hfit.2)
          simp only [setElement, if_pos hfit.1, Except.map, bind, Except.bind, hrest, marks, hmark]
          simp [Nat.add_assoc, Nat.add_comm 1]

/-- A mark behind the markets is written out of bounds. -/
theorem marketsEnded_fault {i : Nat} {markets : List (MarketObj .market)} {s : List Bool × Nat}
    (hout : ∃ p ∈ marks w height decisions i markets, s.1.length ≤ p) :
    marketsEnded w height decisions i markets s = .error .outOfBounds := by
  induction markets generalizing i s with
  | nil => simp [marks] at hout
  | cons market markets ih =>
      rw [marketsEnded, marketEnded_eq]
      cases hmark : markOf w height decisions i market.data with
      | none =>
          simp only [marks, hmark, Option.toList_none, List.nil_append] at hout
          exact ih hout
      | some p =>
          by_cases hp : p < s.1.length
          · simp only [marks, hmark, Option.toList_some, List.cons_append, List.nil_append,
              List.mem_cons, exists_eq_or_imp, Nat.not_le.mpr hp, false_or] at hout
            have hrest := ih (s := (s.1.set p true, s.2 + 1)) (by simpa using hout)
            simp only [setElement, if_pos hp, Except.map, bind, Except.bind, hrest]
          · simp only [setElement, if_neg hp, Except.map, bind, Except.bind]

theorem getD_foldl_set {ps : List Nat} {l : List Bool} {i : Nat} (hi : i < l.length) :
    (ps.foldl (fun l p => l.set p true) l).getD i false = true ↔
      i ∈ ps ∨ l.getD i false = true := by
  induction ps generalizing l with
  | nil => simp
  | cons p ps ih =>
      rw [List.foldl_cons, ih (by simpa using hi), List.mem_cons]
      by_cases hip : i = p
      · subst hip
        simp [List.getD_eq_getElem?_getD, hi]
      · have hpi : p ≠ i := fun h => hip h.symm
        simp [List.getD_eq_getElem?_getD, hpi, hip]

end Marks

/-! ## The markets that are paid -/

/-- The loop over the markets without the trades: the market that is paid in each turn,
and what is known of its decisions. -/
def paidLoop (s : Settlement) (needsCalc : List Bool) :
    Nat → Nat → Except Fault (List (MarketObj .market × Finals))
  | 0, _ => .ok []
  | n + 1, i =>
    if s.markets.length ≤ i then .ok []
    else if needsCalc.getD i false then do
      let (i, f) ← finalsLoop s (s.maxDecisions + 1) i 0 {}
      let market ← element s.markets i
      let paid ← paidLoop s needsCalc n (i + 1)
      .ok ((market, f) :: paid)
    else paidLoop s needsCalc n (i + 1)

/-- `calc_coin_tx` without the trades. -/
def paidMarkets (s : Settlement) (height : UInt32) :
    Except Fault (List (MarketObj .market × Finals)) := do
  let (needsCalc, nmarketsended) ← marketsEnded s.window height s.decisions 0 s.markets
    (List.replicate s.markets.length false, 0)
  if nmarketsended = 0 then .ok []
  else paidLoop s needsCalc s.markets.length 0

/-- The trades of the markets. -/
def payMarkets (miner : Miner) : List (MarketObj .market × Finals) → CTransaction →
    Except Fault CTransaction
  | [], mtx => .ok mtx
  | (market, f) :: paid, mtx => do
    let mtx ← tradePayouts f (getTrades (market.getHash miner.hash) miner.market) mtx
    payMarkets miner paid mtx

theorem settleLoop_of_paid {miner : Miner} {s : Settlement} {needsCalc : List Bool} {n i : Nat}
    {paid : List (MarketObj .market × Finals)} (h : paidLoop s needsCalc n i = .ok paid)
    (mtx : CTransaction) : settleLoop miner s needsCalc n i mtx = payMarkets miner paid mtx := by
  induction n generalizing i mtx paid with
  | zero =>
      obtain rfl := Except.ok.inj h
      rfl
  | succ n ih =>
      rw [paidLoop] at h
      rw [settleLoop]
      split_ifs at h ⊢ with hend hmarked
      · obtain rfl := Except.ok.inj h
        rfl
      · simp only [bind_eq_ok] at h
        obtain ⟨⟨i', f⟩, hfinals, market, hmarket, rest, hrest, hpaid⟩ := h
        obtain rfl := Except.ok.inj hpaid
        simp only [hfinals, hmarket, bind, Except.bind, payMarkets]
        cases tradePayouts f (getTrades (market.getHash miner.hash) miner.market) mtx with
        | error e => rfl
        | ok mtx => exact ih hrest mtx
      · exact ih h mtx

/-- **`calc_coin_tx` pays the trades of the markets that are paid.** -/
theorem calcCoinTx_of_paid {miner : Miner} {s : Settlement} {height : UInt32}
    {paid : List (MarketObj .market × Finals)} (h : paidMarkets s height = .ok paid)
    (mtx : CTransaction) : calcCoinTx miner s height mtx = payMarkets miner paid mtx := by
  unfold paidMarkets at h
  unfold calcCoinTx
  cases hended : marketsEnded s.window height s.decisions 0 s.markets
      (List.replicate s.markets.length false, 0) with
  | error e => simp [hended] at h
  | ok r =>
      simp only [hended, bind, Except.bind] at h ⊢
      split_ifs at h ⊢
      · obtain rfl := Except.ok.inj h
        rfl
      · exact settleLoop_of_paid h mtx

/-! ### The decisions of a market -/

/-- The search for the final value of a decision goes through an outcome that has
decisions. -/
def Settlement.seeks (s : Settlement) (id : Uint256) : Bool :=
  match s.decisions id with
  | none => false
  | some decision =>
    (doutcome s.branch s.window s.outcome s.outcomes decision).any fun o => o.decisionIDs ≠ []

/-- The bounds of a decision, or zero for a decision that is not known. -/
def Settlement.bounds (s : Settlement) (id : Uint256) : Int64 × Int64 :=
  ((s.decisions id).map fun decision => (decision.min, decision.max)).getD (0, 0)

/-- A decision that is not searched for stays without a final value. -/
theorem finalStep_plain {s : Settlement} {id : Uint256} (hplain : s.seeks id = false)
    (i j : Nat) (f : Finals) :
    finalStep s i j id f =
      .ok (i, f.push defaultNA 0 (s.bounds id).1.toUInt64 (s.bounds id).2.toUInt64) := by
  unfold Settlement.seeks at hplain
  unfold finalStep Settlement.bounds
  cases hd : s.decisions id with
  | none => rfl
  | some decision =>
      simp only [hd] at hplain ⊢
      unfold decisionFinal
      cases ho : doutcome s.branch s.window s.outcome s.outcomes decision with
      | none => rfl
      | some o =>
          have hnone : o.decisionIDs = [] := by simpa [ho] using hplain
          simp [hnone, bind, Except.bind]

theorem seekMarket_fault {decisionid : Uint256} {j i : Nat} {markets : List (MarketObj .market)}
    {e : Fault} (h : seekMarket decisionid j i markets = .error e) : e = .outOfBounds := by
  induction markets generalizing i with
  | nil => exact (Except.error.inj h).symm
  | cons market markets ih =>
      rw [seekMarket, element] at h
      cases hid : market.data.decisionIDs[j]? with
      | none =>
          rw [hid] at h
          exact (Except.error.inj h).symm
      | some id =>
          simp only [hid, bind, Except.bind] at h
          split_ifs at h
          exact ih h

/-- The outcome that is looked up is the one of this height. -/
theorem doutcome_eq_some {branch : MarketBranch} {w : Window} {outcome : Option MarketOutcome}
    {outcomes : List (MarketObj .outcome)} {decision : MarketDecision} {o : MarketOutcome}
    (h : doutcome branch w outcome outcomes decision = some o) : outcome = some o := by
  unfold doutcome at h
  split_ifs at h
  · exact h
  · exact h

/-- **A search in an outcome with decisions ends in a fault** when no final value has
been calculated: it runs off the markets, or off the final values. -/
theorem finalStep_seeking {s : Settlement} {id : Uint256} (hseeks : s.seeks id = true)
    (hfinal : ∀ o, s.outcome = some o → o.decisionsFinal = []) (i j : Nat) (f : Finals) :
    finalStep s i j id f = .error .outOfBounds := by
  unfold Settlement.seeks at hseeks
  unfold finalStep
  cases hd : s.decisions id with
  | none => simp [hd] at hseeks
  | some decision =>
      simp only [hd] at hseeks ⊢
      obtain ⟨o, ho, hne⟩ := (Option.any_eq_true _ _).mp hseeks
      have hempty := hfinal o (doutcome_eq_some ho)
      unfold decisionFinal
      rw [ho]
      cases hids : o.decisionIDs with
      | nil => simp [hids] at hne
      | cons decisionid rest =>
          simp only [hids]
          cases hseek : seekMarket decisionid j i (s.markets.drop i) with
          | error e =>
              rw [seekMarket_fault hseek]
              rfl
          | ok i' => simp [element, hempty, bind, Except.bind]

/-- The decisions of a market that has nothing to search for. -/
def Settlement.settled (s : Settlement) (ids : List Uint256) : List SettledDecision :=
  ids.map fun id => ⟨defaultNA, 0, (s.bounds id).1, (s.bounds id).2⟩

theorem finalsLoop_plain {s : Settlement} {i : Nat} {market : MarketObj .market}
    (hmarket : s.markets[i]? = some market)
    (hplain : ∀ id ∈ market.data.decisionIDs, s.seeks id = false) (n j : Nat)
    (hj : market.data.decisionIDs.length < n + j) (hle : j ≤ market.data.decisionIDs.length) :
    finalsLoop s n i j (Finals.ofDecisions (s.settled (market.data.decisionIDs.take j))) =
      .ok (i, Finals.ofDecisions (s.settled market.data.decisionIDs)) := by
  induction n generalizing j with
  | zero => omega
  | succ n ih =>
      rw [finalsLoop]
      simp only [hmarket]
      cases hid : market.data.decisionIDs[j]? with
      | none =>
          rw [List.getElem?_eq_none_iff] at hid
          rw [List.take_of_length_le hid]
      | some id =>
          obtain ⟨hlt, hget⟩ := List.getElem?_eq_some_iff.mp hid
          have htake : market.data.decisionIDs.take (j + 1) =
              market.data.decisionIDs.take j ++ [id] := by
            rw [List.take_succ_eq_append_getElem hlt, hget]
          have hrest := ih (j + 1) (by omega) hlt
          rw [htake, Settlement.settled, List.map_append, List.map_singleton,
            ← Finals.push_ofDecisions] at hrest
          simp only [finalStep_plain (hplain id (List.mem_of_getElem? hid)), bind, Except.bind]
          exact hrest

/-- A decision that is searched for stops the loop. -/
theorem finalsLoop_seeking {s : Settlement}
    (hfinal : ∀ o, s.outcome = some o → o.decisionsFinal = []) {i : Nat}
    {market : MarketObj .market} (hmarket : s.markets[i]? = some market) (n j : Nat)
    (hj : market.data.decisionIDs.length < n + j) (f : Finals)
    (hseeks : ∃ id ∈ market.data.decisionIDs.drop j, s.seeks id = true) :
    finalsLoop s n i j f = .error .outOfBounds := by
  induction n generalizing j f with
  | zero =>
      obtain ⟨id, hmem, -⟩ := hseeks
      rw [List.drop_of_length_le (by omega)] at hmem
      cases hmem
  | succ n ih =>
      obtain ⟨id, hmem, hid⟩ := hseeks
      rw [finalsLoop]
      simp only [hmarket]
      cases hget : market.data.decisionIDs[j]? with
      | none =>
          rw [List.getElem?_eq_none_iff] at hget
          rw [List.drop_of_length_le hget] at hmem
          cases hmem
      | some id' =>
          obtain ⟨hlt, rfl⟩ := List.getElem?_eq_some_iff.mp hget
          cases hseek : s.seeks market.data.decisionIDs[j] with
          | true => simp [finalStep_seeking hseek hfinal, bind, Except.bind]
          | false =>
              rw [List.drop_eq_getElem_cons hlt, List.mem_cons] at hmem
              rcases hmem with rfl | hmem
              · rw [hid] at hseek
                cases hseek
              · simp only [finalStep_plain hseek, bind, Except.bind]
                exact ih (j + 1) (by omega) _ ⟨id, hmem, hid⟩

/-! ### All markets -/

theorem length_le_maxDecisions {s : Settlement} {i : Nat} {market : MarketObj .market}
    (hmarket : s.markets[i]? = some market) :
    market.data.decisionIDs.length ≤ s.maxDecisions := by
  have hmem : market.data.decisionIDs.length ∈ s.markets.map fun m => m.data.decisionIDs.length :=
    List.mem_map_of_mem (List.mem_of_getElem? hmarket)
  have hle : ∀ (l : List Nat) (a : Nat), a ≤ l.foldl max a ∧ ∀ x ∈ l, x ≤ l.foldl max a := by
    intro l
    induction l with
    | nil => simp
    | cons x l ih =>
        intro a
        obtain ⟨hstart, hall⟩ := ih (max a x)
        refine ⟨(le_max_left a x).trans hstart, fun y hy => ?_⟩
        rcases List.mem_cons.mp hy with rfl | hy
        · exact (le_max_right a y).trans hstart
        · exact hall y hy
  exact (hle _ 0).2 _ hmem

/-- The `i`-th market has a decision that is searched for. -/
def Settlement.seeksAt (s : Settlement) (i : Nat) : Prop :=
  ∃ market, s.markets[i]? = some market ∧ ∃ id ∈ market.data.decisionIDs, s.seeks id = true

/-- The markets that are paid when there is nothing to search for: those that are marked. -/
def Settlement.marked (s : Settlement) (needsCalc : List Bool) (i : Nat) :
    List (MarketObj .market × Finals) :=
  (s.markets.drop i).zipIdx i |>.filterMap fun (market, q) =>
    if needsCalc.getD q false then
      some (market, Finals.ofDecisions (s.settled market.data.decisionIDs))
    else none

theorem paidLoop_plain {s : Settlement} {needsCalc : List Bool} (n i : Nat)
    (hplain : ∀ q, i ≤ q → needsCalc.getD q false = true → ¬s.seeksAt q)
    (hn : s.markets.length ≤ n + i) :
    paidLoop s needsCalc n i = .ok (s.marked needsCalc i) := by
  induction n generalizing i with
  | zero =>
      rw [paidLoop, Settlement.marked, List.drop_of_length_le (by omega)]
      rfl
  | succ n ih =>
      have hrest := ih (i + 1) (fun q hq => hplain q (by omega)) (by omega)
      rw [paidLoop]
      by_cases hend : s.markets.length ≤ i
      · rw [if_pos hend, Settlement.marked, List.drop_of_length_le hend]
        rfl
      · have hlt : i < s.markets.length := not_le.mp hend
        have hmarket : s.markets[i]? = some s.markets[i] := List.getElem?_eq_getElem hlt
        rw [if_neg hend, Settlement.marked, List.drop_eq_getElem_cons hlt, List.zipIdx_cons]
        by_cases hmark : needsCalc.getD i false = true
        · have hnone : ∀ id ∈ s.markets[i].data.decisionIDs, s.seeks id = false := by
            intro id hid
            by_contra hseek
            exact hplain i le_rfl hmark ⟨_, hmarket, id, hid, by simpa using hseek⟩
          have hfinals := finalsLoop_plain hmarket hnone (s.maxDecisions + 1) 0
            (by have := length_le_maxDecisions hmarket; omega) (Nat.zero_le _)
          have hstart : Finals.ofDecisions (s.settled (s.markets[i].data.decisionIDs.take 0)) =
              {} := rfl
          rw [hstart] at hfinals
          simp only [hmark, if_true, hfinals, bind, Except.bind, element, hmarket, hrest,
            Settlement.marked, List.filterMap_cons]
        · simp only [hmark, hrest, Settlement.marked, List.filterMap_cons]
          rfl

/-- A marked market with a decision that is searched for stops the loop. -/
theorem paidLoop_seeking {s : Settlement}
    (hfinal : ∀ o, s.outcome = some o → o.decisionsFinal = []) {needsCalc : List Bool} (n i : Nat)
    (hseeks : ∃ q, i ≤ q ∧ needsCalc.getD q false = true ∧ s.seeksAt q)
    (hn : s.markets.length ≤ n + i) :
    paidLoop s needsCalc n i = .error .outOfBounds := by
  induction n generalizing i with
  | zero =>
      obtain ⟨q, hq, -, market, hmarket, -⟩ := hseeks
      have hlt := (List.getElem?_eq_some_iff.mp hmarket).1
      omega
  | succ n ih =>
      obtain ⟨q, hq, hmark, hseek⟩ := hseeks
      have hlt : q < s.markets.length := by
        obtain ⟨market, hmarket, -⟩ := hseek
        exact (List.getElem?_eq_some_iff.mp hmarket).1
      have hi : i < s.markets.length := by omega
      have hmarket : s.markets[i]? = some s.markets[i] := List.getElem?_eq_getElem hi
      have hlen := length_le_maxDecisions hmarket
      rw [paidLoop, if_neg (by omega)]
      by_cases hhere : needsCalc.getD i false = true ∧ s.seeksAt i
      · obtain ⟨market, hmarket', hids⟩ := hhere.2
        rw [if_pos hhere.1, finalsLoop_seeking hfinal hmarket' _ 0
          (by have := length_le_maxDecisions hmarket'; omega) {} (by simpa using hids)]
        rfl
      · have hnext : i + 1 ≤ q := by
          by_contra hle
          obtain rfl : i = q := by omega
          exact hhere ⟨hmark, hseek⟩
        have hrest := ih (i + 1) ⟨q, hnext, hmark, hseek⟩ (by omega)
        by_cases hmarki : needsCalc.getD i false = true
        · have hnone : ∀ id ∈ s.markets[i].data.decisionIDs, s.seeks id = false := by
            intro id hid
            by_contra hseek
            exact hhere ⟨hmarki, _, hmarket, id, hid, by simpa using hseek⟩
          have hfinals := finalsLoop_plain hmarket hnone (s.maxDecisions + 1) 0 (by omega)
            (Nat.zero_le _)
          have hstart : Finals.ofDecisions (s.settled (s.markets[i].data.decisionIDs.take 0)) =
              {} := rfl
          rw [hstart] at hfinals
          simp only [hmarki, if_true, hfinals, bind, Except.bind, element, hmarket, hrest]
        · simp only [hmarki, hrest]
          rfl

/-! ### The phase -/

/-- The positions that are marked. -/
def Settlement.marks (s : Settlement) (height : UInt32) : List Nat :=
  Hivemind.marks s.window height s.decisions 0 s.markets

/-- `marketneedscalc` after the marking. -/
def Settlement.needsCalc (s : Settlement) (height : UInt32) : List Bool :=
  (s.marks height).foldl (fun l p => l.set p true) (List.replicate s.markets.length false)

theorem Settlement.needsCalc_iff {s : Settlement} {height : UInt32} {q : Nat}
    (hfit : ∀ p ∈ s.marks height, p < s.markets.length) :
    (s.needsCalc height).getD q false = true ↔ q ∈ s.marks height := by
  have hlen : ∀ (ps : List Nat) (l : List Bool),
      (ps.foldl (fun l p => l.set p true) l).length = l.length := by
    intro ps
    induction ps with
    | nil => simp
    | cons p ps ih => simp [ih]
  by_cases hq : q < s.markets.length
  · rw [needsCalc, getD_foldl_set (by simpa using hq)]
    simp [List.getD_eq_getElem?_getD, hq]
  · have hout : (s.needsCalc height).getD q false = false := by
      rw [List.getD_eq_getElem?_getD, List.getElem?_eq_none]
      · rfl
      · rw [needsCalc, hlen, List.length_replicate]
        exact not_lt.mp hq
    rw [hout]
    simp only [Bool.false_eq_true, false_iff]
    exact fun hmem => hq (hfit q hmem)

theorem marketsEnded_settlement {s : Settlement} {height : UInt32}
    (hfit : ∀ p ∈ s.marks height, p < s.markets.length) :
    marketsEnded s.window height s.decisions 0 s.markets
        (List.replicate s.markets.length false, 0) =
      .ok (s.needsCalc height, (s.marks height).length) := by
  have hfit' : ∀ p ∈ Hivemind.marks s.window height s.decisions 0 s.markets,
      p < (List.replicate s.markets.length false).length := by
    rw [List.length_replicate]
    exact hfit
  rw [marketsEnded_eq s.window height s.decisions hfit', Nat.zero_add]
  rfl

/-- **What is paid** when all marks fit and there is nothing to search for: the marked
markets, with no final value. -/
theorem paidMarkets_plain {s : Settlement} {height : UInt32}
    (hfit : ∀ p ∈ s.marks height, p < s.markets.length)
    (hplain : ∀ p ∈ s.marks height, ¬s.seeksAt p) :
    paidMarkets s height = .ok (s.marked (s.needsCalc height) 0) := by
  have hloop : paidLoop s (s.needsCalc height) s.markets.length 0 =
      .ok (s.marked (s.needsCalc height) 0) :=
    paidLoop_plain s.markets.length 0
      (fun q _ hq => hplain q ((Settlement.needsCalc_iff hfit).mp hq)) le_rfl
  simp only [paidMarkets, marketsEnded_settlement hfit, bind, Except.bind]
  split_ifs with hzero
  · -- without a mark no market is paid
    have hnone : s.marked (s.needsCalc height) 0 = [] := by
      rw [Settlement.marked, List.filterMap_eq_nil_iff]
      rintro ⟨market, q⟩ -
      have hunmarked : ¬(s.needsCalc height).getD q false = true := by
        rw [Settlement.needsCalc_iff hfit, List.eq_nil_of_length_eq_zero hzero]
        exact List.not_mem_nil
      exact if_neg hunmarked
    rw [hnone]
  · exact hloop

theorem paidMarkets_fault {s : Settlement} {height : UInt32}
    (hfinal : ∀ o, s.outcome = some o → o.decisionsFinal = [])
    (h : (∃ p ∈ s.marks height, s.markets.length ≤ p) ∨ ∃ p ∈ s.marks height, s.seeksAt p) :
    paidMarkets s height = .error .outOfBounds := by
  by_cases hout : ∃ p ∈ s.marks height, s.markets.length ≤ p
  · have hout' : ∃ p ∈ Hivemind.marks s.window height s.decisions 0 s.markets,
        (List.replicate s.markets.length false).length ≤ p := by
      rw [List.length_replicate]
      exact hout
    rw [paidMarkets, marketsEnded_fault s.window height s.decisions hout']
    rfl
  · have hfit : ∀ p ∈ s.marks height, p < s.markets.length := by
      intro p hp
      by_contra hle
      exact hout ⟨p, hp, not_lt.mp hle⟩
    obtain ⟨p, hp, hseek⟩ := h.resolve_left hout
    have hne : (s.marks height).length ≠ 0 := fun hzero => by
      rw [List.eq_nil_of_length_eq_zero hzero] at hp
      cases hp
    simp only [paidMarkets, marketsEnded_settlement hfit, bind, Except.bind, if_neg hne]
    exact paidLoop_seeking hfinal _ 0
      ⟨p, Nat.zero_le p, (Settlement.needsCalc_iff hfit).mpr hp, hseek⟩ le_rfl

theorem of_mem_marked {s : Settlement} {needsCalc : List Bool} {i : Nat}
    {paid : MarketObj .market × Finals} (h : paid ∈ s.marked needsCalc i) :
    paid.1 ∈ s.markets ∧ paid.2 = Finals.ofDecisions (s.settled paid.1.data.decisionIDs) := by
  obtain ⟨⟨market, q⟩, hmem, hpaid⟩ := List.mem_filterMap.mp h
  simp only [Option.ite_none_right_eq_some, Option.some.injEq] at hpaid
  obtain ⟨-, rfl⟩ := hpaid
  refine ⟨?_, rfl⟩
  have hmarket := List.mem_map_of_mem (f := Prod.fst) hmem
  rw [List.zipIdx_map_fst] at hmarket
  exact List.mem_of_mem_drop hmarket

/-! ### The trades -/

/-- The computation stays inside its arrays. -/
abbrev InBounds {α : Type} (x : Except Fault α) : Prop := Avoids (· = Fault.outOfBounds) x

theorem payoutLoop_inBounds (pre suf : List SettledDecision) (decisionState : UInt32)
    (payout : Nat) :
    InBounds (payoutLoop (Finals.ofDecisions (pre ++ suf)) decisionState pre.length
      (suf.map (·.final)) payout) := by
  induction suf generalizing pre payout with
  | nil => exact Avoids.ok _
  | cons d suf ih =>
      rw [List.map_cons, payoutLoop]
      by_cases hlt : pre.length < 32
      · rw [payoutStep_eq pre suf d decisionState payout hlt]
        refine Avoids.bind (Avoids.ok _) fun r hr => ?_
        have hrest := fun payout => ih (pre ++ [d]) payout
        simp only [List.append_assoc, List.singleton_append, List.length_append,
          List.length_singleton] at hrest
        cases r with
        | none => exact Avoids.ok _
        | some payout => exact hrest payout
      · rw [payoutStep, if_pos (not_lt.mp hlt)]
        exact Avoids.error (by decide)

theorem tradePayouts_inBounds (ds : List SettledDecision) (trades : List (MarketObj .trade))
    (mtx : CTransaction) : InBounds (tradePayouts (Finals.ofDecisions ds) trades mtx) := by
  induction trades generalizing mtx with
  | nil => exact Avoids.ok _
  | cons trade trades ih =>
      have hout : InBounds (tradePayout (Finals.ofDecisions ds) trade.data) :=
        Avoids.ite (Avoids.map (payoutLoop_inBounds [] ds _ _)) (Avoids.ok _)
      exact Avoids.bind hout fun _ _ => ih _

theorem payMarkets_inBounds {s : Settlement} (miner : Miner)
    {paid : List (MarketObj .market × Finals)}
    (hpaid : ∀ p ∈ paid, p.2 = Finals.ofDecisions (s.settled p.1.data.decisionIDs))
    (mtx : CTransaction) : InBounds (payMarkets miner paid mtx) := by
  induction paid generalizing mtx with
  | nil => exact Avoids.ok _
  | cons p paid ih =>
      have hrest := ih fun p hp => hpaid p (List.mem_cons_of_mem _ hp)
      rw [payMarkets, hpaid p (List.mem_cons_self ..)]
      exact Avoids.bind (tradePayouts_inBounds _ _ _) fun mtx _ => hrest mtx

/-! ## When the phase stays inside -/

/-- The settlement phase stays inside its arrays and its loops end: each market that is
paid is reached without a fault, the payment of the trades reads nothing out of bounds,
and more turns than there are markets or decisions change nothing. -/
structure SettlesInside (miner : Miner) (s : Settlement) (height : UInt32) : Prop where
  inside : ∃ paid, paidMarkets s height = .ok paid ∧ ∀ mtx,
    calcCoinTx miner s height mtx = payMarkets miner paid mtx ∧
      payMarkets miner paid mtx ≠ .error .outOfBounds
  ends : ∀ needsCalc n, s.markets.length ≤ n →
    paidLoop s needsCalc n 0 = paidLoop s needsCalc s.markets.length 0
  endsFinals : ∀ i market n, s.markets[i]? = some market →
    market.data.decisionIDs.length < n →
    finalsLoop s n i 0 {} = finalsLoop s (s.maxDecisions + 1) i 0 {}

theorem paidLoop_ends {s : Settlement} (hfinal : ∀ o, s.outcome = some o → o.decisionsFinal = [])
    (needsCalc : List Bool) {n : Nat} (hn : s.markets.length ≤ n) :
    paidLoop s needsCalc n 0 = paidLoop s needsCalc s.markets.length 0 := by
  by_cases hseeks : ∃ q, 0 ≤ q ∧ needsCalc.getD q false = true ∧ s.seeksAt q
  · rw [paidLoop_seeking hfinal n 0 hseeks hn, paidLoop_seeking hfinal _ 0 hseeks le_rfl]
  · have hplain : ∀ q, 0 ≤ q → needsCalc.getD q false = true → ¬s.seeksAt q :=
      fun q hq hmark hseek => hseeks ⟨q, hq, hmark, hseek⟩
    rw [paidLoop_plain n 0 hplain hn, paidLoop_plain _ 0 hplain le_rfl]

theorem finalsLoop_ends {s : Settlement}
    (hfinal : ∀ o, s.outcome = some o → o.decisionsFinal = []) {i n : Nat}
    {market : MarketObj .market} (hmarket : s.markets[i]? = some market)
    (hn : market.data.decisionIDs.length < n) :
    finalsLoop s n i 0 {} = finalsLoop s (s.maxDecisions + 1) i 0 {} := by
  have hmax : market.data.decisionIDs.length < s.maxDecisions + 1 + 0 :=
    Nat.lt_succ_of_le (length_le_maxDecisions hmarket)
  by_cases hseeks : ∃ id ∈ market.data.decisionIDs.drop 0, s.seeks id = true
  · rw [finalsLoop_seeking hfinal hmarket n 0 hn {} hseeks,
      finalsLoop_seeking hfinal hmarket _ 0 hmax {} hseeks]
  · have hplain : ∀ id ∈ market.data.decisionIDs, s.seeks id = false := by
      intro id hid
      by_contra hseek
      exact hseeks ⟨id, by simpa using hid, by simpa using hseek⟩
    have hn' := finalsLoop_plain hmarket hplain n 0 hn (Nat.zero_le _)
    have hmax' := finalsLoop_plain hmarket hplain _ 0 hmax (Nat.zero_le _)
    exact hn'.trans hmax'.symm

theorem settlesInside_settlement_iff {miner : Miner} {s : Settlement} {height : UInt32}
    (hfinal : ∀ o, s.outcome = some o → o.decisionsFinal = []) :
    SettlesInside miner s height ↔
      (∀ p ∈ s.marks height, p < s.markets.length) ∧ ∀ p ∈ s.marks height, ¬s.seeksAt p := by
  constructor
  · intro h
    obtain ⟨paid, hpaid, -⟩ := h.inside
    by_contra hnot
    have hfault := @paidMarkets_fault _ height hfinal (by
      by_contra hnone
      push Not at hnone
      exact hnot ⟨fun p hp => hnone.1 p hp, fun p hp => hnone.2 p hp⟩)
    rw [hpaid] at hfault
    cases hfault
  · rintro ⟨hfit, hplain⟩
    have hpaid := paidMarkets_plain hfit hplain
    refine ⟨⟨_, hpaid, fun mtx => ⟨calcCoinTx_of_paid hpaid mtx, ?_⟩⟩,
      fun needsCalc n => paidLoop_ends hfinal needsCalc,
      fun i market n => finalsLoop_ends hfinal⟩
    intro hfault
    exact (payMarkets_inBounds miner (fun p hp => (of_mem_marked hp).2) mtx).not_bad _ hfault rfl

/-! ### The outcome of this height -/

/-- `calc` keeps the decisions of an outcome and leaves a final value for each. -/
def Miner.CalcKeeps (miner : Miner) : Prop :=
  ∀ o o', miner.calcOutcome o = some o' →
    o'.decisionIDs = o.decisionIDs ∧ o'.decisionsFinal.length = o.nDecisions.toNat

/-- The calculation of `marketOutcome::calc` is one that keeps the decisions. -/
theorem calcKeeps_outcomeCalc {K : Type} [Field K] [LinearOrder K] [IsStrictOrderedRing K]
    [FloorRing K] (P : Platform K) (fresh : ∀ o, FreshVote K o) {miner : Miner}
    (hcalc : ∀ o o', miner.calcOutcome o = some o' → outcomeCalc P o (fresh o) = .ok (0, o')) :
    miner.CalcKeeps := fun o o' h => outcomeCalc_keeps (hcalc o o' h)

/-- The outcome that the reputation phase starts with, when a voting period ends. -/
def startOutcome (miner : Miner) (branch : MarketObj .branch) (height : UInt32) (ends : Bool) :
    Option MarketOutcome :=
  if ends then
    some (newOutcome miner branch (decisionWindow branch.data height)
      (getDecisions (branch.getHash miner.hash) miner.market))
  else none

/-- The outcome of the reputation phase has the decisions it started with, and no final
value for any of them. -/
theorem calcRepTx_outcome {miner : Miner} (hcalc : miner.CalcKeeps) {branch : MarketObj .branch}
    {height : UInt32} {w : Window} {decisions : List (MarketObj .decision)}
    {outcomes : List (MarketObj .outcome)} {r : CTransaction × MarketOutcome}
    (h : calcRepTx miner branch height w decisions outcomes = .ok r) :
    r.2.decisionIDs = (newOutcome miner branch w decisions).decisionIDs ∧
      r.2.decisionsFinal = [] := by
  simp only [calcRepTx] at h
  split_ifs at h with hsome
  · obtain rfl := Except.ok.inj h
    exact ⟨rfl, rfl⟩
  · simp only [bind_eq_ok] at h
    obtain ⟨filled, hfill, h⟩ := h
    have hids := fillVoters_keeps keptByFill_decisionIDs hfill
    have hfinals : filled.decisionsFinal = [] :=
      fillVoters_keeps (g := MarketOutcome.decisionsFinal) (fun _ _ _ _ _ => rfl) hfill
    have hcount : filled.nDecisions = 0 :=
      (fillVoters_keeps (g := MarketOutcome.nDecisions) (fun _ _ _ _ _ => rfl) hfill).trans
        (not_not.mp hsome)
    split_ifs at h with hdead
    · obtain rfl := Except.ok.inj h
      exact ⟨hids, hfinals⟩
    · cases hc : miner.calcOutcome filled with
      | none =>
          simp only [hc] at h
          obtain rfl := Except.ok.inj h
          exact ⟨hids, hfinals⟩
      | some o =>
          obtain ⟨hkept, hlen⟩ := hcalc filled o hc
          rw [hcount] at hlen
          simp only [hc, map_eq_ok] at h
          obtain ⟨mtx, -, rfl⟩ := h
          exact ⟨hkept.trans hids, List.eq_nil_of_length_eq_zero hlen⟩

theorem repPhase_outcome {miner : Miner} (hcalc : miner.CalcKeeps) {branch : MarketObj .branch}
    {height : UInt32} {ends : Bool} {mtx : CTransaction} {outcome : Option MarketOutcome}
    (h : repPhase miner branch height ends (getDecisions (branch.getHash miner.hash) miner.market)
      (getOutcomes (branch.getHash miner.hash) miner.market) = .ok (mtx, outcome)) :
    outcome.map MarketOutcome.decisionIDs =
        (startOutcome miner branch height ends).map MarketOutcome.decisionIDs ∧
      ∀ o, outcome = some o → o.decisionsFinal = [] := by
  unfold repPhase at h
  unfold startOutcome
  split_ifs at h with hends
  · simp only [map_eq_ok, Prod.mk.injEq] at h
    obtain ⟨r, hr, -, rfl⟩ := h
    obtain ⟨hids, hfinals⟩ := calcRepTx_outcome hcalc hr
    refine ⟨by simp [hends, hids], fun o ho => ?_⟩
    obtain rfl := Option.some.inj ho
    exact hfinals
  · obtain ⟨-, rfl⟩ := Prod.mk.inj (Except.ok.inj h)
    exact ⟨by simp [hends], by simp⟩

/-- The search depends on the decisions of the outcome only. -/
theorem seeks_congr {s : Settlement} {outcome : Option MarketOutcome}
    (h : s.outcome.map MarketOutcome.decisionIDs = outcome.map MarketOutcome.decisionIDs)
    (id : Uint256) : s.seeks id = { s with outcome := outcome }.seeks id := by
  have hany : ∀ o : Option MarketOutcome, (o.any fun o => o.decisionIDs ≠ []) =
      (o.map MarketOutcome.decisionIDs).any fun ids => ids ≠ [] := by
    intro o
    cases o <;> rfl
  have hsome : s.outcome.isSome = outcome.isSome := by
    simpa using congrArg Option.isSome h
  unfold Settlement.seeks
  cases s.decisions id with
  | none => rfl
  | some decision =>
      simp only [doutcome, hsome]
      split_ifs
      · rw [hany, hany, h]
      · rw [hany, hany, h]
      · rfl

/-- When the settlement phase of a branch stays inside its arrays: every mark is the
position of a market, and no marked market has a decision for which the outcome of this
height is looked up and has decisions. -/
structure SettlementFits (miner : Miner) (branch : MarketObj .branch) (height : UInt32)
    (ends : Bool) : Prop where
  marks : ∀ p ∈ (settlementOf miner branch height none).marks height,
    p < (getMarkets (branch.getHash miner.hash) miner.market).length
  plain : ∀ p ∈ (settlementOf miner branch height none).marks height,
    ¬(settlementOf miner branch height (startOutcome miner branch height ends)).seeksAt p

/-- **When the settlement phase stays inside its arrays.** -/
theorem settlesInside_iff (miner : Miner) (hcalc : miner.CalcKeeps) (branch : MarketObj .branch)
    (height : UInt32) {ends : Bool} {mtx : CTransaction} {outcome : Option MarketOutcome}
    (hreach : ReachesSettlement miner branch height ends mtx outcome) :
    SettlesInside miner (settlementOf miner branch height outcome) height ↔
      SettlementFits miner branch height ends := by
  obtain ⟨hids, hfinal⟩ := repPhase_outcome hcalc hreach.rep
  have hseeks : ∀ p, (settlementOf miner branch height outcome).seeksAt p ↔
      (settlementOf miner branch height (startOutcome miner branch height ends)).seeksAt p := by
    intro p
    have hid := seeks_congr (s := settlementOf miner branch height outcome) hids
    simp only [Settlement.seeksAt, hid]
    rfl
  rw [settlesInside_settlement_iff hfinal]
  constructor
  · rintro ⟨hfit, hplain⟩
    exact ⟨hfit, fun p hp hseek => hplain p hp ((hseeks p).mpr hseek)⟩
  · intro h
    exact ⟨h.marks, fun p hp hseek => h.plain p hp ((hseeks p).mp hseek)⟩

/-! ### A market that lists the branch -/

/-- The ids of the example: an object of `n` bytes has the id that repeats `n`. -/
def lengthHash (b : Bytes) : Uint256 := Blob.fill (UInt8.ofNat b.length)

/-- A decision of the first period of `exampleBranch`. -/
def settleDecision : MarketObj .decision := periodDecision lengthHash

/-- A market on that decision, which names the branch as its first decision. -/
def settleMarket : MarketObj .market where
  data := { keyID := Blob.null, B := 1, tradingFee := 0, maxCommission := 0, title := [],
            description := [], tags := [], maturation := 5
            branchid := exampleBranch.getHash lengthHash
            decisionIDs := [exampleBranch.getHash lengthHash, settleDecision.getHash lengthHash]
            decisionFunctionIDs := [0, 0], txPoWh := 0, txPoWd := 0 }

/-- The writes that put them into the index. -/
def settleSteps : List DbStep :=
  [.index [(exampleBranch.getHash lengthHash, ⟨.branch, exampleBranch⟩),
    (settleDecision.getHash lengthHash, ⟨.decision, settleDecision⟩),
    (settleMarket.getHash lengthHash, ⟨.market, settleMarket⟩)]]

/-- A miner with that index. -/
def settleMiner : Miner where
  hash := lengthHash
  hash160 := id
  market := runDb settleSteps
  getTransaction _ tx := tx
  calcOutcome _ := none

theorem calcKeeps_settleMiner : settleMiner.CalcKeeps := by
  intro o o' h
  cases h

/-- **A mark out of bounds.**  At height 74 the only market that is listed under the
branch has matured, and its second decision ends in the window: the mark goes to the
second of one markets. -/
theorem settleMarket_outOfBounds :
    (settlementOf settleMiner exampleBranch 74 none).marks 74 = [1] ∧
    getMarkets (exampleBranch.getHash lengthHash) settleMiner.market = [settleMarket] ∧
    ∃ outcome, ReachesSettlement settleMiner exampleBranch 74 true {} outcome ∧
      ¬SettlesInside settleMiner (settlementOf settleMiner exampleBranch 74 outcome) 74 := by
  have hmarks : (settlementOf settleMiner exampleBranch 74 none).marks 74 = [1] := by
    decide +kernel
  have hmarkets : getMarkets (exampleBranch.getHash lengthHash) settleMiner.market =
      [settleMarket] := by decide +kernel
  refine ⟨hmarks, hmarkets, startOutcome settleMiner exampleBranch 74 true, ⟨by decide, ?_⟩, ?_⟩
  · have hsome : (newOutcome settleMiner exampleBranch (decisionWindow exampleBranch.data 74)
        (getDecisions (exampleBranch.getHash settleMiner.hash) settleMiner.market)).nDecisions ≠
          0 := by decide +kernel
    simp only [repPhase, calcRepTx, if_true, if_pos hsome]
    rfl
  · intro h
    obtain ⟨paid, hpaid, -⟩ := h.inside
    have hfault := @paidMarkets_fault
      (settlementOf settleMiner exampleBranch 74 (startOutcome settleMiner exampleBranch 74 true)) 74
      (fun o ho => by rw [← Option.some.inj ho]; rfl) (Or.inl ⟨1, ?_, ?_⟩)
    · rw [hpaid] at hfault
      cases hfault
    · exact hmarks ▸ List.mem_singleton_self 1
    · decide +kernel

/-- The same market, when it matures at height 74, and a purchase of two of its shares. -/
def maturingMarket : MarketObj .market :=
  { settleMarket with data := { settleMarket.data with maturation := 74 } }

def maturingTrade : MarketObj .trade where
  data := { keyID := Blob.null, marketid := maturingMarket.getHash lengthHash, isBuy := true,
            nShares := 2, price := 1, decisionState := 0, nonce := 0 }

def maturingSteps : List DbStep :=
  [.index [(exampleBranch.getHash lengthHash, ⟨.branch, exampleBranch⟩),
    (settleDecision.getHash lengthHash, ⟨.decision, settleDecision⟩),
    (maturingMarket.getHash lengthHash, ⟨.market, maturingMarket⟩),
    (maturingTrade.getHash lengthHash, ⟨.trade, maturingTrade⟩)]]

def maturingMiner : Miner := { settleMiner with market := runDb maturingSteps }

/-- The market marks itself, and no outcome is looked up for its decisions. -/
theorem settlesInside_maturing :
    (settlementOf maturingMiner exampleBranch 74 none).marks 74 = [0] ∧
    ∃ outcome, ReachesSettlement maturingMiner exampleBranch 74 true {} outcome ∧
      SettlesInside maturingMiner (settlementOf maturingMiner exampleBranch 74 outcome) 74 := by
  have hmarks : (settlementOf maturingMiner exampleBranch 74 none).marks 74 = [0] := by
    decide +kernel
  have hmarkets : getMarkets (exampleBranch.getHash maturingMiner.hash) maturingMiner.market =
      [maturingMarket] := by decide +kernel
  have hreach : ReachesSettlement maturingMiner exampleBranch 74 true {}
      (startOutcome maturingMiner exampleBranch 74 true) := by
    refine ⟨by decide, ?_⟩
    have hsome : (newOutcome maturingMiner exampleBranch (decisionWindow exampleBranch.data 74)
        (getDecisions (exampleBranch.getHash maturingMiner.hash) maturingMiner.market)).nDecisions ≠
          0 := by decide +kernel
    simp only [repPhase, calcRepTx, if_true, if_pos hsome]
    rfl
  have hcalc : maturingMiner.CalcKeeps := by
    intro o o' h
    cases h
  refine ⟨hmarks, _, hreach,
    (settlesInside_iff maturingMiner hcalc exampleBranch 74 hreach).mpr ⟨?_, ?_⟩⟩
  · intro p hp
    rw [hmarks, List.mem_singleton] at hp
    rw [hp]
    rw [hmarkets]
    exact Nat.one_pos
  · intro p hp
    rw [hmarks, List.mem_singleton] at hp
    rw [hp]
    rintro ⟨market, hmarket, id, hid, hseeks⟩
    have hlisted : (settlementOf maturingMiner exampleBranch 74
        (startOutcome maturingMiner exampleBranch 74 true)).markets = [maturingMarket] := by
      rw [settlementOf, hmarkets]
    rw [hlisted] at hmarket
    have hfirst : market = maturingMarket := (Option.some.inj hmarket).symm
    have hplain : ∀ id ∈ maturingMarket.data.decisionIDs,
        (settlementOf maturingMiner exampleBranch 74
          (startOutcome maturingMiner exampleBranch 74 true)).seeks id = false := by
      decide +kernel
    rw [hplain id (hfirst ▸ hid)] at hseeks
    cases hseeks

end Hivemind
