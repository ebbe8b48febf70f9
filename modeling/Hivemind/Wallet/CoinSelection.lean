import Hivemind.Lib.Marked
import Hivemind.Lib.Shuffle
import Hivemind.Primitives.AmountSum
import Hivemind.Primitives.Transaction
import Mathlib.Algebra.BigOperators.Group.Finset.Basic
import Mathlib.Data.List.Perm.Subperm

/-!
# Coin selection

`CWallet::SelectCoinsMinConf` and `ApproximateBestSubset` of `wallet.cpp`.  Transactions of the
wallet are known by pointer; what the functions read of them, what the random source gives, and
how `sort` orders equal values are parameters.

A selection for a target is a set of distinct coins of those that are eligible, with the sum of
their values beside it, that reaches the target.  The function has four ways to one: a coin of
exactly the target, all smaller coins, a subset of them that the stochastic search finds, and the
least larger coin.  It is a selection whatever the random bits are, since the search returns the
total of what it has marked, starting from all coins.

A cent is added to the target to tell small coins from large ones, and the sum wraps for a target
within a cent of the greatest amount; then every coin counts as large.

* `Search.Inv`, `approximateBestSubset_spec`: what the search keeps, whatever the bits are.
* `CoinScan.Inv`, `scanCoins_spec`: what the loop over the coins has found.
* `selectCoinsMinConf_isSelection_iff`: **when the result is a selection for the target.**
* `selectCoinsMinConf_maxValue`: the coin of value 1 for the greatest amount there is.
-/

namespace Hivemind

open Marks

/-- `CENT`. -/
def cent : CAmount := 1000000

/-- What is read of the transactions of a wallet. -/
structure WalletTxs (ω : Type) where
  vout : ω → List CTxOut
  /-- `IsFromMe(ISMINE_ALL)` -/
  isFromMe : ω → Bool

namespace WalletTxs

/-- The value of an output, `0` if there is none. -/
def valueAt {ω : Type} (w : WalletTxs ω) (key : ω × Nat) : CAmount :=
  ((w.vout key.1)[key.2]?.map CTxOut.nValue).getD 0

end WalletTxs

/-- `COutput`, with an output that is there. -/
structure COutput {ω : Type} (w : WalletTxs ω) where
  tx : ω
  i : Nat
  i_lt : i < (w.vout tx).length
  nDepth : Int32
  fSpendable : Bool

/-- A value, and the output that has it. -/
abbrev ValuedCoin (ω : Type) := CAmount × ω × Nat

namespace COutput

variable {ω : Type} {w : WalletTxs ω}

def nValue (out : COutput w) : CAmount := ((w.vout out.tx).get ⟨out.i, out.i_lt⟩).nValue

def toCoin (out : COutput w) : ValuedCoin ω := (out.nValue, out.tx, out.i)

/-- Spendable, and deep enough for whose transaction it is in. -/
def isEligible (nConfMine nConfTheirs : Int32) (out : COutput w) : Bool :=
  out.fSpendable && !(out.nDepth < if w.isFromMe out.tx then nConfMine else nConfTheirs)

@[simp] theorem valueAt_toCoin (out : COutput w) : w.valueAt out.toCoin.2 = out.toCoin.1 := by
  simp [WalletTxs.valueAt, toCoin, nValue, List.getElem?_eq_getElem out.i_lt]

end COutput

/-! ## The stochastic search -/

/-- The variables of `ApproximateBestSubset`; `nRand` counts the calls of `insecure_rand`. -/
structure Search where
  vfIncluded : List Bool := []
  nTotal : CAmount := 0
  fReachedTarget : Bool := false
  vfBest : List Bool
  nBest : CAmount
  nRand : Nat := 0

namespace Search

/-- Include coin `i`, and take it out again when the target is reached. -/
def includeCoin (nTargetValue nValue : CAmount) (i : Nat) (s : Search) : Search :=
  let nTotal := s.nTotal + nValue
  let vfIncluded := s.vfIncluded.set i true
  if nTargetValue ≤ nTotal then
    { s with
      nTotal := nTotal - nValue
      vfIncluded := vfIncluded.set i false
      fReachedTarget := true
      nBest := if nTotal < s.nBest then nTotal else s.nBest
      vfBest := if nTotal < s.nBest then vfIncluded else s.vfBest }
  else { s with nTotal := nTotal, vfIncluded := vfIncluded }

variable {ω : Type} (bits : Nat → Bool) (nTargetValue : CAmount)

/-- The first pass asks the random source. -/
def turnFirst (s : Search) (coin : ValuedCoin ω × Nat) : Search :=
  let drawn := { s with nRand := s.nRand + 1 }
  if bits s.nRand then drawn.includeCoin nTargetValue coin.1.1 coin.2 else drawn

/-- The second pass tries every coin that is left. -/
def turnSecond (s : Search) (coin : ValuedCoin ω × Nat) : Search :=
  if s.vfIncluded[coin.2]?.getD false then s else s.includeCoin nTargetValue coin.1.1 coin.2

/-- One repetition: the second pass runs when the first has not reached the target. -/
def repetition (vValue : List (ValuedCoin ω)) (s : Search) : Search :=
  let start := { s with
    vfIncluded := List.replicate vValue.length false, nTotal := 0, fReachedTarget := false }
  let first := vValue.zipIdx.foldl (turnFirst bits nTargetValue) start
  if first.fReachedTarget then first else vValue.zipIdx.foldl (turnSecond nTargetValue) first

end Search

/-- `ApproximateBestSubset`. -/
def approximateBestSubset {ω : Type} (bits : Nat → Bool) (vValue : List (ValuedCoin ω))
    (nTotalLower nTargetValue : CAmount) (iterations : Nat) : Search :=
  (List.range iterations).foldl
    (fun s _ => if s.nBest = nTargetValue then s else s.repetition bits nTargetValue vValue)
    { vfBest := List.replicate vValue.length true, nBest := nTotalLower }

namespace Search

variable {ω : Type} {nTargetValue : CAmount} {v : List (ValuedCoin ω)} {s : Search} {i : Nat}
  {coin : ValuedCoin ω}

/-- Both totals belong to their marks, and the best one reaches the target. -/
structure Inv (nTargetValue : CAmount) (v : List (ValuedCoin ω)) (s : Search) : Prop where
  size : s.vfIncluded.length = v.length
  total : s.nTotal = markedSum Prod.fst s.vfIncluded v
  best : s.nBest = markedSum Prod.fst s.vfBest v
  reaches : nTargetValue ≤ s.nBest

theorem includeCoin_inv (h : s.Inv nTargetValue v) (hm : s.vfIncluded[i]? = some false)
    (hv : v[i]? = some coin) : (s.includeCoin nTargetValue coin.1 i).Inv nTargetValue v := by
  have htotal : s.nTotal + coin.1 = markedSum Prod.fst (s.vfIncluded.set i true) v := by
    rw [markedSum_set_true hm hv, h.total]
  rw [Search.includeCoin]
  split_ifs with hreach hbetter
  · refine ⟨?_, ?_, htotal, hreach⟩
    · simpa using h.size
    · rw [add_sub_cancel_right, set_set_false hm, h.total]
  · refine ⟨?_, ?_, h.best, h.reaches⟩
    · simpa using h.size
    · rw [add_sub_cancel_right, set_set_false hm, h.total]
  · exact ⟨by simpa using h.size, htotal, h.best, h.reaches⟩

/-- Including a coin leaves the marks of the others. -/
theorem includeCoin_mark {j : Nat} (hj : j ≠ i) (nValue : CAmount) :
    (s.includeCoin nTargetValue nValue i).vfIncluded[j]? = s.vfIncluded[j]? := by
  rw [Search.includeCoin]
  split_ifs <;> simp [List.getElem?_set_ne (Ne.symm hj)]

/-- The first pass from place `k` on, where no later coin is included yet. -/
theorem foldl_turnFirst_inv (bits : Nat → Bool) {rest : List (ValuedCoin ω)} {k : Nat}
    (hrest : ∀ j x, rest[j]? = some x → v[k + j]? = some x) (h : s.Inv nTargetValue v)
    (hlater : ∀ j, k ≤ j → j < v.length → s.vfIncluded[j]? = some false) :
    ((rest.zipIdx k).foldl (turnFirst bits nTargetValue) s).Inv nTargetValue v := by
  induction rest generalizing k s with
  | nil => exact h
  | cons x rest ih =>
      have hx : v[k]? = some x := hrest 0 x rfl
      have hk : k < v.length := (List.getElem?_eq_some_iff.mp hx).1
      have hdrawn : ({ s with nRand := s.nRand + 1 } : Search).Inv nTargetValue v :=
        ⟨h.size, h.total, h.best, h.reaches⟩
      have htail : ∀ j y, rest[j]? = some y → v[k + 1 + j]? = some y := by
        intro j y hy
        rw [Nat.add_assoc, Nat.add_comm 1 j]
        exact hrest (j + 1) y hy
      rw [List.zipIdx_cons, List.foldl_cons, turnFirst]
      split_ifs with hbit
      · refine ih htail (includeCoin_inv hdrawn (hlater k le_rfl hk) hx) fun j hj hlen => ?_
        rw [includeCoin_mark (by omega)]
        exact hlater j (by omega) hlen
      · exact ih htail hdrawn fun j hj hlen => hlater j (by omega) hlen

theorem turnSecond_inv (h : s.Inv nTargetValue v) (hv : v[i]? = some coin) :
    (turnSecond nTargetValue s (coin, i)).Inv nTargetValue v := by
  rw [turnSecond]
  split_ifs with hmark
  · exact h
  · have hi : i < s.vfIncluded.length := h.size ▸ (List.getElem?_eq_some_iff.mp hv).1
    refine includeCoin_inv h ?_ hv
    simpa [List.getElem?_eq_getElem hi] using hmark

theorem repetition_inv (bits : Nat → Bool) (hbest : s.nBest = markedSum Prod.fst s.vfBest v)
    (hreach : nTargetValue ≤ s.nBest) :
    (s.repetition bits nTargetValue v).Inv nTargetValue v := by
  have hstart : ({ s with
      vfIncluded := List.replicate v.length false, nTotal := 0, fReachedTarget := false } :
      Search).Inv nTargetValue v :=
    ⟨List.length_replicate, (markedSum_replicate_false v.length v).symm, hbest, hreach⟩
  have hfirst := foldl_turnFirst_inv bits (fun j x hx => (Nat.zero_add j).symm ▸ hx) hstart
    fun j _ hj => by simp [hj]
  rw [repetition]
  split_ifs with hreached
  · exact hfirst
  · refine List.foldlRecOn (motive := fun s : Search => s.Inv nTargetValue v) _ _ hfirst ?_
    intro s hs coin hcoin
    exact turnSecond_inv hs (List.mem_zipIdx_iff_getElem?.mp hcoin)

end Search

/-- **The best total is that of the marked coins, and reaches the target.** -/
theorem approximateBestSubset_spec {ω : Type} (bits : Nat → Bool) (v : List (ValuedCoin ω))
    {nTotalLower nTargetValue : CAmount} (iterations : Nat)
    (hlower : nTotalLower = (v.map Prod.fst).sum) (hreach : nTargetValue ≤ nTotalLower) :
    let s := approximateBestSubset bits v nTotalLower nTargetValue iterations
    s.nBest = markedSum Prod.fst s.vfBest v ∧ nTargetValue ≤ s.nBest := by
  refine List.foldlRecOn (motive := fun s : Search =>
    s.nBest = markedSum Prod.fst s.vfBest v ∧ nTargetValue ≤ s.nBest) _ _ ?_ ?_
  · exact ⟨by rw [markedSum_replicate_true, hlower], hreach⟩
  · rintro s ⟨hbest, hs⟩ _ _
    split_ifs with hdone
    · exact ⟨hbest, hs⟩
    · have hinv := Search.repetition_inv bits hbest hs
      exact ⟨hinv.best, hinv.reaches⟩

/-! ## The loop over the coins -/

section Scan

variable {ω : Type} {w : WalletTxs ω}

/-- What the loop of `SelectCoinsMinConf` has found: the coins for the search, and the least of
the larger ones. -/
structure CoinScan (ω : Type) where
  vValue : List (ValuedCoin ω) := []
  nTotalLower : CAmount := 0
  coinLowestLarger : CAmount × Option (ω × Nat) := (Int64.maxValue, none)

/-- The loop ends early with a coin of exactly the target. -/
def scanCoins (nTargetValue : CAmount) (nConfMine nConfTheirs : Int32) :
    CoinScan ω → List (COutput w) → ValuedCoin ω ⊕ CoinScan ω
  | s, [] => .inr s
  | s, out :: vCoins =>
      if out.isEligible nConfMine nConfTheirs = false then
        scanCoins nTargetValue nConfMine nConfTheirs s vCoins
      else if out.nValue = nTargetValue then .inl out.toCoin
      else if out.nValue < nTargetValue + cent then
        scanCoins nTargetValue nConfMine nConfTheirs
          { s with
            vValue := s.vValue ++ [out.toCoin]
            nTotalLower := s.nTotalLower + out.nValue } vCoins
      else if out.nValue < s.coinLowestLarger.1 then
        scanCoins nTargetValue nConfMine nConfTheirs
          { s with coinLowestLarger := (out.nValue, some (out.tx, out.i)) } vCoins
      else scanCoins nTargetValue nConfMine nConfTheirs s vCoins

/-- The eligible ones among the coins. -/
def eligibleCoins (nConfMine nConfTheirs : Int32) (vCoins : List (COutput w)) :
    List (ValuedCoin ω) :=
  (vCoins.filter (COutput.isEligible nConfMine nConfTheirs)).map COutput.toCoin

/-- What the loop has found among the eligible coins it has seen. -/
structure CoinScan.Inv (nTargetValue : CAmount) (seen : List (ValuedCoin ω)) (s : CoinScan ω) :
    Prop where
  lower : s.vValue = seen.filter fun coin => coin.1 < nTargetValue + cent
  total : s.nTotalLower = (s.vValue.map Prod.fst).sum
  larger : (s.coinLowestLarger = (Int64.maxValue, none) ∧
      ∀ coin ∈ seen, coin.1 < nTargetValue + cent) ∨
    ∃ coin ∈ seen, s.coinLowestLarger = (coin.1, some coin.2) ∧
      ¬coin.1 < nTargetValue + cent

variable {nTargetValue : CAmount}

/-- Either a coin of exactly the target, or all eligible coins have been seen. -/
theorem scanCoins_spec (nConfMine nConfTheirs : Int32) {vCoins : List (COutput w)}
    {seen : List (ValuedCoin ω)} {s : CoinScan ω}
    (hs : s.Inv nTargetValue seen) (hmax : ∀ out ∈ vCoins, out.nValue < Int64.maxValue) :
    (∃ coin ∈ eligibleCoins nConfMine nConfTheirs vCoins, coin.1 = nTargetValue ∧
      scanCoins nTargetValue nConfMine nConfTheirs s vCoins = .inl coin) ∨
    ∃ s', scanCoins nTargetValue nConfMine nConfTheirs s vCoins = .inr s' ∧
      s'.Inv nTargetValue (seen ++ eligibleCoins nConfMine nConfTheirs vCoins) := by
  induction vCoins generalizing seen s with
  | nil => exact .inr ⟨s, rfl, by simpa [eligibleCoins] using hs⟩
  | cons out vCoins ih =>
      have hrest : ∀ out ∈ vCoins, out.nValue < Int64.maxValue := fun o ho =>
        hmax o (List.mem_cons_of_mem out ho)
      rw [scanCoins]
      cases helig : out.isEligible nConfMine nConfTheirs with
      | false =>
          have hsame : eligibleCoins nConfMine nConfTheirs (out :: vCoins) =
              eligibleCoins nConfMine nConfTheirs vCoins := by simp [eligibleCoins, helig]
          rw [if_pos rfl, hsame]
          exact ih hs hrest
      | true =>
          have hcons : eligibleCoins nConfMine nConfTheirs (out :: vCoins) =
              out.toCoin :: eligibleCoins nConfMine nConfTheirs vCoins := by
            simp [eligibleCoins, helig]
          have happ : seen ++ out.toCoin :: eligibleCoins nConfMine nConfTheirs vCoins =
              (seen ++ [out.toCoin]) ++ eligibleCoins nConfMine nConfTheirs vCoins := by simp
          -- a later coin of exactly the target is one of these coins too
          have hlater : ∀ {s' : CoinScan ω}, s'.Inv nTargetValue (seen ++ [out.toCoin]) →
              (∃ coin ∈ out.toCoin :: eligibleCoins nConfMine nConfTheirs vCoins,
                coin.1 = nTargetValue ∧
                scanCoins nTargetValue nConfMine nConfTheirs s' vCoins = .inl coin) ∨
              ∃ s'', scanCoins nTargetValue nConfMine nConfTheirs s' vCoins = .inr s'' ∧
                s''.Inv nTargetValue
                  (seen ++ out.toCoin :: eligibleCoins nConfMine nConfTheirs vCoins) := by
            intro s' hs'
            rw [happ]
            rcases ih hs' hrest with ⟨coin, hcoin, hfound⟩ | hfound
            · exact .inl ⟨coin, List.mem_cons_of_mem _ hcoin, hfound⟩
            · exact .inr hfound
          rw [if_neg Bool.noConfusion, hcons]
          split_ifs with hexact hlower hlarger
          · exact .inl ⟨out.toCoin, List.mem_cons_self, hexact, rfl⟩
          · refine hlater ⟨?_, ?_, ?_⟩
            · simp [hs.lower, COutput.toCoin, hlower]
            · simp [hs.total, COutput.toCoin]
            · rcases hs.larger with ⟨hnone, hall⟩ | ⟨coin, hcoin, hlarge⟩
              · refine .inl ⟨hnone, fun coin hcoin => ?_⟩
                rcases List.mem_append.mp hcoin with hcoin | hcoin
                · exact hall coin hcoin
                · rw [List.mem_singleton.mp hcoin]
                  exact hlower
              · exact .inr ⟨coin, List.mem_append_left _ hcoin, hlarge⟩
          · refine hlater ⟨?_, hs.total, .inr ⟨out.toCoin, by simp, rfl, hlower⟩⟩
            simp [hs.lower, COutput.toCoin, hlower]
          · refine hlater ⟨?_, hs.total, ?_⟩
            · simp [hs.lower, COutput.toCoin, hlower]
            · rcases hs.larger with ⟨hnone, -⟩ | ⟨coin, hcoin, hlarge⟩
              · rw [hnone] at hlarger
                exact absurd (hmax out List.mem_cons_self) hlarger
              · exact .inr ⟨coin, List.mem_append_left _ hcoin, hlarge⟩

end Scan

/-! ## The selection -/

/-- A way to sort coins from the greatest value to the least. -/
structure ValueSort (ω : Type) where
  sort : List (ValuedCoin ω) → List (ValuedCoin ω)
  perm : ∀ v, (sort v).Perm v
  descending : ∀ v, (sort v).Pairwise fun a b => b.1 ≤ a.1

/-- The random source: `GetRandInt(i + 1)` at turn `i` of the shuffle, and the bits of
`insecure_rand` after each seeding. -/
structure SelectionSource where
  getRandInt : (i : Nat) → Fin (i + 1)
  firstBits : Nat → Bool
  secondBits : Nat → Bool

/-- The results of `SelectCoinsMinConf`. -/
structure SelectedCoins (ω : Type) where
  setCoinsRet : Finset (ω × Nat) := ∅
  nValueRet : CAmount := 0

section Selection

variable {ω : Type} [DecidableEq ω] {w : WalletTxs ω}

def SelectedCoins.insertCoin (r : SelectedCoins ω) (coin : ValuedCoin ω) : SelectedCoins ω where
  setCoinsRet := insert coin.2 r.setCoinsRet
  nValueRet := r.nValueRet + coin.1

/-- The coins of a list, inserted one by one. -/
def takeCoins (coins : List (ValuedCoin ω)) : SelectedCoins ω :=
  coins.foldl SelectedCoins.insertCoin {}

/-- The search for the target, and for a target with change of a cent above it. -/
def bestSubset (source : SelectionSource) (vValue : List (ValuedCoin ω))
    (nTotalLower nTargetValue : CAmount) : Search :=
  let s := approximateBestSubset source.firstBits vValue nTotalLower nTargetValue 1000
  if s.nBest ≠ nTargetValue ∧ nTargetValue + cent ≤ nTotalLower then
    approximateBestSubset source.secondBits vValue nTotalLower (nTargetValue + cent) 1000
  else s

/-- `SelectCoinsMinConf` after the loop over the coins. -/
def selectScanned (source : SelectionSource) (order : ValueSort ω) (nTargetValue : CAmount)
    (s : CoinScan ω) : Bool × SelectedCoins ω :=
  if s.nTotalLower = nTargetValue then (true, takeCoins s.vValue)
  else if s.nTotalLower < nTargetValue then
    s.coinLowestLarger.2.elim (false, {}) fun key =>
      (true, takeCoins [(s.coinLowestLarger.1, key)])
  else
    let vValue := order.sort s.vValue
    let found := bestSubset source vValue s.nTotalLower nTargetValue
    let subset := takeCoins (chosen found.vfBest vValue)
    s.coinLowestLarger.2.elim (true, subset) fun key =>
      -- the bigger coin, when the search did badly or the coin is closer
      if (found.nBest ≠ nTargetValue ∧ found.nBest < nTargetValue + cent) ∨
          s.coinLowestLarger.1 ≤ found.nBest then
        (true, takeCoins [(s.coinLowestLarger.1, key)])
      else (true, subset)

/-- `CWallet::SelectCoinsMinConf`. -/
def selectCoinsMinConf (source : SelectionSource) (order : ValueSort ω) (nTargetValue : CAmount)
    (nConfMine nConfTheirs : Int32) (vCoins : List (COutput w)) : Bool × SelectedCoins ω :=
  let shuffled := Shuffles.shuffle (fun i => (source.getRandInt i).val) vCoins vCoins.length
  Sum.elim (fun coin => (true, takeCoins [coin])) (selectScanned source order nTargetValue)
    (scanCoins nTargetValue nConfMine nConfTheirs {} shuffled)

/-- A selection for a target from given coins: there is one when the coins reach the target, and
it is a set of these coins, with their sum. -/
structure IsSelection (w : WalletTxs ω) (nTargetValue : CAmount) (eligible : List (ValuedCoin ω))
    (r : Bool × SelectedCoins ω) : Prop where
  found_iff : r.1 = true ↔ nTargetValue.toInt ≤ integerSum (eligible.map Prod.fst)
  subset : r.1 = true → ∀ key ∈ r.2.setCoinsRet, ∃ coin ∈ eligible, coin.2 = key
  sum_eq : r.1 = true →
    ∑ key ∈ r.2.setCoinsRet, (w.valueAt key).toInt = r.2.nValueRet.toInt
  reaches : r.1 = true → nTargetValue.toInt ≤ r.2.nValueRet.toInt

theorem foldl_insertCoin (coins : List (ValuedCoin ω)) (r : SelectedCoins ω) :
    coins.foldl SelectedCoins.insertCoin r =
      { setCoinsRet := r.setCoinsRet ∪ (coins.map Prod.snd).toFinset
        nValueRet := r.nValueRet + (coins.map Prod.fst).sum } := by
  induction coins generalizing r with
  | nil => simp
  | cons coin coins ih =>
      rw [List.foldl_cons, ih, SelectedCoins.insertCoin]
      congr 1
      · simp
      · simp [add_assoc]

theorem takeCoins_eq (coins : List (ValuedCoin ω)) :
    takeCoins coins =
      { setCoinsRet := (coins.map Prod.snd).toFinset, nValueRet := (coins.map Prod.fst).sum } := by
  rw [takeCoins, foldl_insertCoin]
  simp

/-- Distinct coins of the wallet that sum to at most `MAX_MONEY`. -/
structure CoinPurse (w : WalletTxs ω) (eligible : List (ValuedCoin ω)) : Prop where
  valueAt : ∀ coin ∈ eligible, w.valueAt coin.2 = coin.1
  nodup : (eligible.map Prod.snd).Nodup
  bounded : Bounded (eligible.map Prod.fst)

variable {nTargetValue : CAmount} {eligible coins : List (ValuedCoin ω)}

omit [DecidableEq ω] in
theorem CoinPurse.subperm (h : CoinPurse w eligible) (hsub : coins.Subperm eligible) :
    CoinPurse w coins := by
  obtain ⟨part, hperm, hpart⟩ := hsub
  refine ⟨fun coin hcoin => h.valueAt coin (hpart.subset (hperm.symm.subset hcoin)), ?_, ?_⟩
  · exact ((hperm.map _).nodup_iff).mp (h.nodup.sublist (hpart.map _))
  · exact (h.bounded.sublist (hpart.map _)).perm (hperm.map _).symm

omit [DecidableEq ω] in
theorem isSelection_none
    (h : ¬nTargetValue.toInt ≤ integerSum (eligible.map Prod.fst)) :
    IsSelection w nTargetValue eligible (false, {}) where
  found_iff := iff_of_false Bool.noConfusion h
  subset := fun hfalse => Bool.noConfusion hfalse
  sum_eq := fun hfalse => Bool.noConfusion hfalse
  reaches := fun hfalse => Bool.noConfusion hfalse

omit [DecidableEq ω] in
theorem IsSelection.perm {eligible' : List (ValuedCoin ω)} {r : Bool × SelectedCoins ω}
    (hperm : eligible'.Perm eligible) (h : IsSelection w nTargetValue eligible' r) :
    IsSelection w nTargetValue eligible r where
  found_iff := by
    rw [← integerSum_perm (hperm.map Prod.fst)]
    exact h.found_iff
  subset hfound key hkey := by
    obtain ⟨coin, hcoin, rfl⟩ := h.subset hfound key hkey
    exact ⟨coin, hperm.subset hcoin, rfl⟩
  sum_eq := h.sum_eq
  reaches := h.reaches

/-- **Eligible coins that reach the target are a selection.** -/
theorem isSelection_takeCoins (h : CoinPurse w eligible) (hsub : coins.Subperm eligible)
    (hreach : nTargetValue ≤ (coins.map Prod.fst).sum) :
    IsSelection w nTargetValue eligible (true, takeCoins coins) := by
  have hcoins := h.subperm hsub
  have hsum := hcoins.bounded.toInt_sum
  have hle : nTargetValue.toInt ≤ integerSum (coins.map Prod.fst) :=
    hsum ▸ Int64.le_iff_toInt_le.mp hreach
  rw [takeCoins_eq]
  refine ⟨iff_of_true rfl (hle.trans ?_), fun _ key hkey => ?_, fun _ => ?_, fun _ => ?_⟩
  · obtain ⟨part, hperm, hpart⟩ := hsub
    rw [← integerSum_perm (hperm.map Prod.fst)]
    exact integerSum_sublist (hpart.map _) h.bounded.nonneg
  · obtain ⟨coin, hcoin, rfl⟩ := List.mem_map.mp (List.mem_toFinset.mp hkey)
    exact ⟨coin, hsub.subset hcoin, rfl⟩
  · show _ = (coins.map Prod.fst).sum.toInt
    rw [List.sum_toFinset _ hcoins.nodup, hsum, integerSum, List.map_map, List.map_map]
    congr 1
    exact List.map_congr_left fun coin hcoin => by simp [hcoins.valueAt coin hcoin]
  · exact Int64.le_iff_toInt_le.mp hreach

omit [DecidableEq ω] in
theorem bestSubset_spec (source : SelectionSource) {v : List (ValuedCoin ω)}
    {nTotalLower : CAmount} (hlower : nTotalLower = (v.map Prod.fst).sum)
    (hreach : nTargetValue ≤ nTotalLower) (hcent : nTargetValue ≤ nTargetValue + cent) :
    nTargetValue ≤
      markedSum Prod.fst (bestSubset source v nTotalLower nTargetValue).vfBest v := by
  obtain ⟨hbest, hle⟩ := approximateBestSubset_spec source.firstBits v 1000 hlower hreach
  rw [bestSubset]
  split_ifs with hmore
  · obtain ⟨hbest', hle'⟩ :=
      approximateBestSubset_spec source.secondBits v 1000 hlower hmore.2
    exact Int64.le_trans hcent (hbest' ▸ hle')
  · exact hbest ▸ hle

/-- What the loop over all eligible coins has found gives a selection, when the target leaves
room for a cent. -/
theorem selectScanned_isSelection (source : SelectionSource) (order : ValueSort ω)
    {s : CoinScan ω} (h : CoinPurse w eligible) (hs : s.Inv nTargetValue eligible)
    (hroom : nTargetValue ≤ nTargetValue + cent) :
    IsSelection w nTargetValue eligible (selectScanned source order nTargetValue s) := by
  have hlower : s.vValue.Subperm eligible := by
    rw [hs.lower]
    exact List.filter_sublist.subperm
  have hlarger : ∀ key, s.coinLowestLarger.2 = some key →
      IsSelection w nTargetValue eligible (true, takeCoins [(s.coinLowestLarger.1, key)]) := by
    intro key hkey
    rcases hs.larger with ⟨hnone, -⟩ | ⟨coin, hcoin, hsome, hlarge⟩
    · simp [hnone] at hkey
    · obtain rfl : coin.2 = key := by simpa [hsome] using hkey
      refine isSelection_takeCoins h ?_ ?_
      · rw [hsome]
        exact (List.singleton_sublist.mpr hcoin).subperm
      · rw [hsome]
        simpa using Int64.le_trans hroom (Int64.not_lt.mp hlarge)
  rw [selectScanned]
  split_ifs with hexact hless
  · exact isSelection_takeCoins h hlower (by rw [← hs.total, hexact]; exact Int64.le_refl _)
  · cases hkey : s.coinLowestLarger.2 with
    | some key => exact hlarger key hkey
    | none =>
        -- then no coin is larger, and the sum of all is below the target
        have hall : s.vValue = eligible := by
          rcases hs.larger with ⟨-, hall⟩ | ⟨coin, _, hsome, _⟩
          · rw [hs.lower]
            exact List.filter_eq_self.mpr fun coin hcoin => decide_eq_true (hall coin hcoin)
          · simp [hsome] at hkey
        have hshort : ¬nTargetValue.toInt ≤ integerSum (eligible.map Prod.fst) := by
          rw [← h.bounded.toInt_sum, ← hall, ← hs.total, Int.not_le]
          exact Int64.lt_iff_toInt_lt.mp hless
        exact isSelection_none hshort
  · have hperm := order.perm s.vValue
    have hsubset : IsSelection w nTargetValue eligible (true, takeCoins
        (chosen (bestSubset source (order.sort s.vValue) s.nTotalLower nTargetValue).vfBest
          (order.sort s.vValue))) := by
      refine isSelection_takeCoins h ?_ (bestSubset_spec source ?_ (Int64.not_lt.mp hless) hroom)
      · exact ((chosen_sublist _ _).subperm.trans hperm.subperm).trans hlower
      · rw [hs.total]
        exact (hperm.map Prod.fst).sum_eq.symm
    cases hkey : s.coinLowestLarger.2 with
    | none => simpa [hkey] using hsubset
    | some key =>
        simp only [Option.elim_some]
        split_ifs
        · exact hlarger key hkey
        · exact hsubset

omit [DecidableEq ω] in
theorem eligibleCoins_perm {vCoins vCoins' : List (COutput w)} (h : vCoins.Perm vCoins')
    (nConfMine nConfTheirs : Int32) :
    (eligibleCoins nConfMine nConfTheirs vCoins).Perm
      (eligibleCoins nConfMine nConfTheirs vCoins') := (h.filter _).map _

omit [DecidableEq ω] in
theorem coinPurse_eligibleCoins {vCoins : List (COutput w)} (nConfMine nConfTheirs : Int32)
    (hdistinct : (vCoins.map fun out => out.toCoin.2).Nodup)
    (hbounded : Bounded (vCoins.map COutput.nValue)) :
    CoinPurse w (eligibleCoins nConfMine nConfTheirs vCoins) := by
  have hsub : (vCoins.filter (COutput.isEligible nConfMine nConfTheirs)).Sublist vCoins :=
    List.filter_sublist
  refine ⟨fun coin hcoin => ?_, ?_, ?_⟩
  · obtain ⟨out, _, rfl⟩ := List.mem_map.mp hcoin
    exact out.valueAt_toCoin
  · rw [eligibleCoins, List.map_map]
    exact hdistinct.sublist (hsub.map _)
  · rw [eligibleCoins, List.map_map]
    exact hbounded.sublist (hsub.map _)

/-- Without the room for a cent every coin counts as a larger one, and one is taken though it
does not reach the target. -/
theorem selectScanned_fst_of_overflow (source : SelectionSource) (order : ValueSort ω)
    {s : CoinScan ω} (hs : s.Inv nTargetValue eligible) (hne : eligible ≠ [])
    (hall : ∀ coin ∈ eligible, ¬coin.1 < nTargetValue + cent) (htarget : 0 < nTargetValue) :
    (selectScanned source order nTargetValue s).1 = true := by
  have hempty : s.vValue = [] := by
    rw [hs.lower]
    exact List.filter_eq_nil_iff.mpr fun coin hcoin => by simpa using hall coin hcoin
  have hzero : s.nTotalLower = 0 := by rw [hs.total, hempty, List.map_nil, List.sum_nil]
  obtain ⟨first, hfirst⟩ := List.exists_mem_of_ne_nil _ hne
  have hexact : ¬s.nTotalLower = nTargetValue := by
    rw [hzero]
    exact Int64.ne_of_lt htarget
  rcases hs.larger with ⟨-, hlower⟩ | ⟨coin, _, hsome, _⟩
  · exact absurd (hlower first hfirst) (hall first hfirst)
  · rw [selectScanned, if_neg hexact, if_pos (hzero ▸ htarget), hsome]
    rfl

/-- With no coin seen, a target above zero is not reached. -/
theorem selectScanned_isSelection_nil (source : SelectionSource) (order : ValueSort ω)
    {s : CoinScan ω} (hs : s.Inv nTargetValue []) (htarget : 0 < nTargetValue) :
    IsSelection w nTargetValue [] (selectScanned source order nTargetValue s) := by
  have hzero : s.nTotalLower = 0 := by
    rw [hs.total, hs.lower, List.filter_nil, List.map_nil, List.sum_nil]
  have hexact : ¬s.nTotalLower = nTargetValue := by
    rw [hzero]
    exact Int64.ne_of_lt htarget
  have hshort : ¬nTargetValue.toInt ≤ 0 := Int.not_le.mpr (Int64.lt_iff_toInt_lt.mp htarget)
  rcases hs.larger with ⟨hnone, -⟩ | ⟨coin, hcoin, -⟩
  · rw [selectScanned, if_neg hexact, if_pos (hzero ▸ htarget), hnone]
    exact isSelection_none hshort
  · exact absurd hcoin List.not_mem_nil

theorem toInt_add_cent {v : CAmount} (h : 0 ≤ v.toInt) :
    (v + cent).toInt = if v.toInt ≤ Int64.maxValue.toInt - cent.toInt then v.toInt + cent.toInt
      else v.toInt + cent.toInt - 2 ^ 64 := by
  have hcent : cent.toInt = 1000000 := by decide
  have hmax : Int64.maxValue.toInt = 9223372036854775807 := by decide
  have hle := Int64.toInt_le v
  rw [Int64.toInt_add, hcent, hmax]
  split_ifs with hroom
  · rw [Int.bmod_eq_of_le] <;> omega
  · rw [Int.bmod_eq_iff (by decide)]
    omega

/-- The coins are all shuffled, and the loop over them ends early or has seen all of them. -/
theorem selectCoinsMinConf_cases (source : SelectionSource) (order : ValueSort ω)
    (nTargetValue : CAmount) (nConfMine nConfTheirs : Int32) {vCoins : List (COutput w)}
    (hbounded : Bounded (vCoins.map COutput.nValue)) :
    ∃ eligible : List (ValuedCoin ω),
      eligible.Perm (eligibleCoins nConfMine nConfTheirs vCoins) ∧
      ((∃ coin ∈ eligible, coin.1 = nTargetValue ∧
          selectCoinsMinConf source order nTargetValue nConfMine nConfTheirs vCoins =
            (true, takeCoins [coin])) ∨
        ∃ s : CoinScan ω, s.Inv nTargetValue eligible ∧
          selectCoinsMinConf source order nTargetValue nConfMine nConfTheirs vCoins =
            selectScanned source order nTargetValue s) := by
  have hshuffle := Shuffles.shuffle_perm (fun i => (source.getRandInt i).val) vCoins vCoins.length
  have hbelow : ∀ out ∈ Shuffles.shuffle (fun i => (source.getRandInt i).val) vCoins
      vCoins.length, out.nValue < Int64.maxValue := by
    intro out hout
    have hmem := List.mem_map_of_mem (f := COutput.nValue) (hshuffle.subset hout)
    have hsingle := (hbounded.sublist (List.singleton_sublist.mpr hmem)).sum_le
    have hmax : Int64.maxValue.toInt = 9223372036854775807 := by decide
    simp only [integerSum_cons, integerSum_nil] at hsingle
    rw [Int64.lt_iff_toInt_lt, hmax]
    omega
  have hstart : ({} : CoinScan ω).Inv nTargetValue [] :=
    ⟨rfl, rfl, .inl ⟨rfl, fun coin hcoin => absurd hcoin List.not_mem_nil⟩⟩
  refine ⟨_, eligibleCoins_perm hshuffle nConfMine nConfTheirs, ?_⟩
  rcases scanCoins_spec nConfMine nConfTheirs hstart hbelow with
    ⟨coin, hcoin, hexact, hscan⟩ | ⟨s, hscan, hs⟩
  · exact .inl ⟨coin, hcoin, hexact, by rw [selectCoinsMinConf, hscan, Sum.elim_inl]⟩
  · exact .inr ⟨s, hs, by rw [selectCoinsMinConf, hscan, Sum.elim_inr]⟩

/-- **The result is a selection exactly when the target leaves room for a cent**, or there is
nothing to select. -/
theorem selectCoinsMinConf_isSelection_iff (source : SelectionSource) (order : ValueSort ω)
    (nTargetValue : CAmount) (nConfMine nConfTheirs : Int32) (vCoins : List (COutput w))
    (hdistinct : (vCoins.map fun out => out.toCoin.2).Nodup)
    (hpositive : ∀ out ∈ vCoins, 0 < out.nValue.toInt)
    (htotal : integerSum (vCoins.map COutput.nValue) ≤ maxMoney.toInt)
    (htarget : 0 ≤ nTargetValue.toInt) :
    IsSelection w nTargetValue (eligibleCoins nConfMine nConfTheirs vCoins)
        (selectCoinsMinConf source order nTargetValue nConfMine nConfTheirs vCoins) ↔
      nTargetValue.toInt ≤ Int64.maxValue.toInt - cent.toInt ∨
        eligibleCoins nConfMine nConfTheirs vCoins = [] := by
  have hcent : cent.toInt = 1000000 := by decide
  have hmax : Int64.maxValue.toInt = 9223372036854775807 := by decide
  have hmoney : maxMoney.toInt = 2100000000000000 := by decide
  have hbounded : Bounded (vCoins.map COutput.nValue) := by
    refine ⟨fun v hv => ?_, hmoney ▸ htotal⟩
    obtain ⟨out, hout, rfl⟩ := List.mem_map.mp hv
    exact (hpositive out hout).le
  have hpurse := coinPurse_eligibleCoins (w := w) nConfMine nConfTheirs hdistinct hbounded
  obtain ⟨eligible, hperm, hcases⟩ := selectCoinsMinConf_cases source order nTargetValue
    nConfMine nConfTheirs hbounded
  have hpurse' := hpurse.subperm hperm.subperm
  have hsum := hpurse.bounded.sum_le
  constructor
  · intro hselection
    by_contra! hnot
    obtain ⟨hbig, hne⟩ := hnot
    -- the target is above all the money there is
    have hshort : ¬nTargetValue.toInt ≤
        integerSum ((eligibleCoins nConfMine nConfTheirs vCoins).map Prod.fst) := by omega
    refine hshort (hselection.found_iff.mp ?_)
    rcases hcases with ⟨coin, _, _, heq⟩ | ⟨s, hs, heq⟩
    · rw [heq]
    · rw [heq]
      refine selectScanned_fst_of_overflow source order hs ?_ ?_ ?_
      · rintro rfl
        exact hne hperm.nil_eq.symm
      · intro coin hcoin
        have hnonneg := hpurse'.bounded.nonneg _ (List.mem_map_of_mem hcoin)
        have hle := Int64.toInt_le nTargetValue
        rw [Int64.lt_iff_toInt_lt, toInt_add_cent htarget, if_neg (by omega)]
        omega
      · rw [Int64.lt_iff_toInt_lt, Int64.toInt_zero]
        omega
  · intro hroom
    refine IsSelection.perm hperm ?_
    rcases hcases with ⟨coin, hcoin, rfl, heq⟩ | ⟨s, hs, heq⟩
    · rw [heq]
      refine isSelection_takeCoins hpurse' (List.singleton_sublist.mpr hcoin).subperm ?_
      simp
    · rw [heq]
      by_cases hcentRoom : nTargetValue.toInt ≤ Int64.maxValue.toInt - cent.toInt
      · refine selectScanned_isSelection source order hpurse' hs ?_
        rw [Int64.le_iff_toInt_le, toInt_add_cent htarget, if_pos hcentRoom]
        omega
      · have hnil : eligible = [] := by
          rw [hroom.resolve_left hcentRoom] at hperm
          exact hperm.eq_nil
        subst hnil
        exact selectScanned_isSelection_nil source order hs
          (by rw [Int64.lt_iff_toInt_lt, Int64.toInt_zero]; omega)

end Selection

/-- A stable sort is one way. -/
def stableSort (ω : Type) : ValueSort ω where
  sort v := v.mergeSort fun a b => b.1 ≤ a.1
  perm v := List.mergeSort_perm v _
  descending v := by
    refine (List.pairwise_mergeSort ?_ ?_ v).imp fun h => of_decide_eq_true h
    · intro a b c hab hbc
      exact decide_eq_true (Int64.le_trans (of_decide_eq_true hbc) (of_decide_eq_true hab))
    · intro a b
      rw [Bool.or_eq_true, decide_eq_true_eq, decide_eq_true_eq]
      exact Int64.le_total b.1 a.1

/-- A wallet with one transaction, which has one output of value 1. -/
def exampleWalletTxs : WalletTxs Unit where
  vout := fun _ => [⟨1, []⟩]
  isFromMe := fun _ => true

def exampleCoinOutput : COutput exampleWalletTxs where
  tx := ()
  i := 0
  i_lt := Nat.one_pos
  nDepth := 6
  fSpendable := true

def exampleSelectionSource : SelectionSource where
  getRandInt := fun i => ⟨0, i.succ_pos⟩
  firstBits := fun _ => false
  secondBits := fun _ => false

/-- A wallet with a transaction of four outputs. -/
def severalWalletTxs : WalletTxs Unit where
  vout := fun _ => [⟨3 * coin, []⟩, ⟨5 * coin, []⟩, ⟨7 * coin, []⟩, ⟨20 * coin, []⟩]
  isFromMe := fun _ => true

def severalOutput (i : Nat) (i_lt : i < 4) : COutput severalWalletTxs where
  tx := ()
  i := i
  i_lt := i_lt
  nDepth := 6
  fSpendable := true

def severalOutputs : List (COutput severalWalletTxs) :=
  (List.finRange 4).map fun i : Fin 4 => severalOutput i.val i.isLt

/-- No output is worth nine coins, and a subset of the three smaller ones is searched for. -/
theorem selectCoinsMinConf_isSelection_iff_several :
    IsSelection severalWalletTxs (9 * coin) (eligibleCoins 1 6 severalOutputs)
      (selectCoinsMinConf exampleSelectionSource (stableSort Unit) (9 * coin) 1 6 severalOutputs) ∧
    (selectCoinsMinConf exampleSelectionSource (stableSort Unit) (9 * coin) 1 6
      severalOutputs).1 = true := by
  have hselection := (selectCoinsMinConf_isSelection_iff exampleSelectionSource (stableSort Unit)
    (9 * coin) 1 6 severalOutputs (by decide) (by decide) (by decide) (by decide)).mpr
      (.inl (by decide))
  exact ⟨hselection, hselection.found_iff.mpr (by decide)⟩

/-- The coin of value 1 is taken for the greatest amount there is. -/
theorem selectCoinsMinConf_maxValue :
    ((∀ out ∈ [exampleCoinOutput], 0 < out.nValue.toInt) ∧
      integerSum ([exampleCoinOutput].map COutput.nValue) ≤ maxMoney.toInt ∧
      0 ≤ (Int64.maxValue : CAmount).toInt) ∧
    ¬IsSelection exampleWalletTxs Int64.maxValue (eligibleCoins 1 6 [exampleCoinOutput])
      (selectCoinsMinConf exampleSelectionSource (stableSort Unit) Int64.maxValue 1 6
        [exampleCoinOutput]) := by
  refine ⟨by decide, fun h => ?_⟩
  have hfound : (selectCoinsMinConf exampleSelectionSource (stableSort Unit) Int64.maxValue 1 6
      [exampleCoinOutput]).1 = true := rfl
  exact absurd (h.found_iff.mp hfound) (by decide)

end Hivemind
