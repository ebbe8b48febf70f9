import Hivemind.Lib.States
import Hivemind.Miner.Outcome

/-!
# What the trades of a market are paid

A share of a market stands for one state of the market's decisions, and pays the product of what
each decision gives to its bit of the state.  The payouts of `calc_coin_tx` are added up here
over all states.

The bounds of a decision are `int64_t`, and the settlement phase compares and divides them as
`uint64_t`: a range across zero looks empty, and the quotient is that of integers.  A decision
that is not scaled and ends at one half pays both of its states.

By the lemma on sums over states, all states together pay the product of what the two states of
each decision pay, so the face value is paid when every decision gives its two states a whole,
and the amounts are those that are rounded down at the end.  A state of a decision that no
earlier one rules out is shifted by its number, and the shift is undefined from the width of the
state on.

* `payoutLoop_eq`: the loop is a product over the decisions.
* `payoutLoop_shift`: some state of more than 32 decisions makes it shift too far.
* `SettledDecision.share_add_scaled`: the shares of a scaled decision.
* `paysFaceValue_iff`: **when all states together pay the face value.**
* `tiedDecision_pays_twice`: a decision that ends at one half.
-/

namespace Hivemind

open Outcomes States

/-- What the settlement phase knows of one decision of a market. -/
structure SettledDecision where
  final : UInt64
  isScaled : UInt64
  min : Int64
  max : Int64
  deriving DecidableEq

/-- The four vectors of the settlement phase. -/
def Finals.ofDecisions (ds : List SettledDecision) : Finals :=
  ⟨ds.map (·.final), ds.map (·.isScaled), ds.map (·.min.toUInt64), ds.map (·.max.toUInt64)⟩

/-- One turn of the loop over the decisions adds one decision. -/
theorem Finals.push_ofDecisions (ds : List SettledDecision) (final isScaled : UInt64)
    (min max : Int64) :
    (Finals.ofDecisions ds).push final isScaled min.toUInt64 max.toUInt64 =
      Finals.ofDecisions (ds ++ [⟨final, isScaled, min, max⟩]) := by
  simp [Finals.push, Finals.ofDecisions]

/-- What a trade of `nShares` is paid in a state, before it is rounded to an amount. -/
def tradeAmount (ds : List SettledDecision) (nShares : Nat) (decisionState : UInt32) :
    Except Fault Nat :=
  (payoutLoop (Finals.ofDecisions ds) decisionState 0 (ds.map (·.final)) 1).map (nShares * ·)

/-! ## One decision -/

/-- What a decision gives to a bit of the state. -/
def SettledDecision.share (d : SettledDecision) (state : Nat) : Nat :=
  if d.isScaled ≠ 0 then
    if state = 0 ∧ d.min.toUInt64 < d.max.toUInt64 then
      ((d.max.toUInt64 - d.final) / (d.max.toUInt64 - d.min.toUInt64)).toNat
    else if state = 1 ∧ d.min.toUInt64 < d.max.toUInt64 then
      ((d.final - d.min.toUInt64) / (d.max.toUInt64 - d.min.toUInt64)).toNat
    else 1
  else if state = 0 ∧ 50000000 < d.final then 0
  else if state = 1 ∧ d.final < 50000000 then 0
  else 1

/-- A decision that is not scaled rules out a state. -/
def SettledDecision.RulesOut (d : SettledDecision) (state : Nat) : Prop :=
  d.isScaled = 0 ∧ (state = 0 ∧ 50000000 < d.final ∨ state = 1 ∧ d.final < 50000000)

instance SettledDecision.instDecidableRulesOut (d : SettledDecision) (state : Nat) :
    Decidable (d.RulesOut state) :=
  inferInstanceAs (Decidable (_ ∧ _))

theorem SettledDecision.share_rulesOut {d : SettledDecision} {state : Nat}
    (hout : d.RulesOut state) : d.share state = 0 := by
  obtain ⟨hbinary, h | h⟩ := hout <;> simp [SettledDecision.share, hbinary, h]

theorem element_append {α : Type} (pre : List α) (x : α) (suf : List α) :
    element (pre ++ x :: suf) pre.length = .ok x := by
  simp [element]

theorem divide_ok (a : UInt64) {min max : UInt64} (h : min < max) :
    divide a (max - min) = .ok (a / (max - min)) := by
  have hno := divide_noDivide a h
  unfold divide at hno ⊢
  split_ifs with hzero
  · rw [if_pos hzero] at hno
    exact absurd rfl (hno.not_bad _ rfl)
  · rfl

/-- **One turn of the loop**: a state that is ruled out is worth nothing, and what is left
of the share is multiplied otherwise. -/
theorem payoutStep_eq (pre suf : List SettledDecision) (d : SettledDecision)
    (decisionState : UInt32) (payout : Nat) (hlt : pre.length < 32) :
    payoutStep (Finals.ofDecisions (pre ++ d :: suf)) decisionState pre.length d.final payout =
      .ok (if d.RulesOut (decisionState.toNat / 2 ^ pre.length % 2) then none
        else some (payout * d.share (decisionState.toNat / 2 ^ pre.length % 2))) := by
  have hel : ∀ {α : Type} (f : SettledDecision → α),
      element ((pre ++ d :: suf).map f) pre.length = .ok (f d) := by
    intro α f
    rw [List.map_append, List.map_cons]
    simpa using element_append (pre.map f) (f d) (suf.map f)
  simp only [payoutStep, Finals.ofDecisions, hel, Nat.not_le.mpr hlt, if_false, bind, Except.bind,
    Nat.shiftRight_eq_div_pow, SettledDecision.RulesOut, SettledDecision.share]
  generalize decisionState.toNat / 2 ^ pre.length % 2 = state
  by_cases hscaled : d.isScaled = 0
  · by_cases h0 : state = 0 ∧ 50000000 < d.final
    · simp [hscaled, h0]
    · by_cases h1 : state = 1 ∧ d.final < 50000000
      · simp [hscaled, h1]
      · simp [hscaled, h0, h1]
  · simp only [ne_eq, hscaled, not_false_eq_true, if_true, false_and, if_false]
    split_ifs with h0 h1
    · simp [divide_ok _ h0.2, Except.map]
    · simp [divide_ok _ h1.2, Except.map]
    · simp

/-! ## All decisions -/

/-- **The loop is a product** of what the decisions give to the bits of the state. -/
theorem payoutLoop_eq (pre suf : List SettledDecision) (decisionState : UInt32) (payout : Nat)
    (hlen : (pre ++ suf).length ≤ 32) :
    payoutLoop (Finals.ofDecisions (pre ++ suf)) decisionState pre.length (suf.map (·.final))
        payout =
      .ok (payout * stateProduct (suf.map SettledDecision.share)
        (decisionState.toNat / 2 ^ pre.length)) := by
  induction suf generalizing pre payout with
  | nil => simp [payoutLoop, stateProduct]
  | cons d suf ih =>
      have hlt : pre.length < 32 := by
        rw [List.length_append, List.length_cons] at hlen
        omega
      rw [List.map_cons, payoutLoop, payoutStep_eq pre suf d decisionState payout hlt,
        List.map_cons, stateProduct]
      by_cases hout : d.RulesOut (decisionState.toNat / 2 ^ pre.length % 2)
      · simp [hout, bind, Except.bind, SettledDecision.share_rulesOut hout]
      · have hih := ih (pre ++ [d]) (payout * d.share (decisionState.toNat / 2 ^ pre.length % 2))
          (by simpa using hlen)
        rw [List.append_assoc, List.singleton_append, List.length_append, List.length_singleton,
          pow_succ, ← Nat.div_div_eq_div_mul, mul_assoc] at hih
        simpa [hout, bind, Except.bind] using hih

/-- The bit of a state that a decision does not rule out. -/
def SettledDecision.winner (d : SettledDecision) : Bool := d.isScaled = 0 && 50000000 < d.final

theorem SettledDecision.not_rulesOut_winner (d : SettledDecision) : ¬d.RulesOut d.winner.toNat := by
  rintro ⟨hbinary, ⟨hstate, hfinal⟩ | ⟨hstate, hfinal⟩⟩
  · simp [SettledDecision.winner, hbinary, hfinal] at hstate
  · have hnot : ¬50000000 < d.final := fun h => UInt64.lt_irrefl _ (UInt64.lt_trans h hfinal)
    simp [SettledDecision.winner, hnot] at hstate

/-- **Too many decisions** make the loop shift by the width of the state, in the state
that no decision before that rules out. -/
theorem payoutLoop_shift (pre suf : List SettledDecision) (decisionState : UInt32) (payout : Nat)
    (hpre : pre.length ≤ 32) (hlen : 32 < (pre ++ suf).length)
    (hstate : decisionState.toNat / 2 ^ pre.length =
      stateOf ((suf.take (32 - pre.length)).map SettledDecision.winner)) :
    payoutLoop (Finals.ofDecisions (pre ++ suf)) decisionState pre.length (suf.map (·.final))
        payout = .error .shift := by
  induction suf generalizing pre payout with
  | nil => exact absurd hlen (by simpa using hpre)
  | cons d suf ih =>
      by_cases hlt : pre.length < 32
      · -- the decision does not end the loop, and the rest shifts too far
        obtain ⟨n, hn⟩ : ∃ n, 32 - pre.length = n + 1 := ⟨31 - pre.length, by omega⟩
        rw [hn, List.take_succ_cons, List.map_cons] at hstate
        have hin := d.not_rulesOut_winner
        rw [← stateOf_cons_mod, ← hstate] at hin
        have hrest : decisionState.toNat / 2 ^ (pre ++ [d]).length =
            stateOf ((suf.take (32 - (pre ++ [d]).length)).map SettledDecision.winner) := by
          have hn' : 32 - (pre ++ [d]).length = n := by simp; omega
          rw [hn', List.length_append, List.length_singleton, pow_succ,
            ← Nat.div_div_eq_div_mul, hstate, stateOf_cons_div]
        have hih := ih (pre ++ [d]) (payout * d.share (decisionState.toNat / 2 ^ pre.length % 2))
          (by simpa using hlt) (by simpa using hlen) hrest
        rw [List.append_assoc, List.singleton_append, List.length_append,
          List.length_singleton] at hih
        rw [List.map_cons, payoutLoop, payoutStep_eq pre suf d decisionState payout hlt]
        simpa [hin, bind, Except.bind] using hih
      · have hstep : payoutStep (Finals.ofDecisions (pre ++ d :: suf)) decisionState pre.length
            d.final payout = .error .shift := by
          rw [payoutStep, if_pos (by omega)]
        rw [List.map_cons, payoutLoop, hstep]
        rfl

/-! ## The two shares of a decision -/

/-- A signed word as an unsigned one. -/
theorem toNat_toUInt64 (x : Int64) :
    (x.toUInt64.toNat : Int) = if x < 0 then x.toInt + 2 ^ 64 else x.toInt := by
  have hmod : (x.toUInt64.toNat : Int) = x.toInt % 2 ^ 64 := by
    have hlt : x.toUInt64.toNat < 2 ^ 64 := x.toUInt64.toNat_lt
    have htoInt : x.toInt = (x.toUInt64.toNat : Int).bmod (2 ^ 64) :=
      BitVec.toInt_eq_toNat_bmod x.toBitVec
    rw [htoInt, Int.bmod]
    omega
  have hlo := x.le_toInt
  have hhi := x.toInt_lt
  rw [hmod]
  split_ifs with hneg
  · rw [Int64.lt_iff_toInt_lt, Int64.toInt_zero] at hneg
    omega
  · rw [Int64.lt_iff_toInt_lt, Int64.toInt_zero] at hneg
    omega

/-- What a settled decision is promised to be: a scaled one ends between its bounds. -/
def SettledDecision.Valid (d : SettledDecision) : Prop :=
  d.isScaled ≠ 0 → d.min < d.max ∧ d.min ≤ d.final.toInt64 ∧ d.final.toInt64 ≤ d.max

/-- A scaled decision with bounds on one side of zero that ends at one of them, or
another one that does not end at one half. -/
def SettledDecision.Exact (d : SettledDecision) : Prop :=
  (d.isScaled ≠ 0 →
    (d.min < 0 ↔ d.max < 0) ∧ (d.final = d.min.toUInt64 ∨ d.final = d.max.toUInt64)) ∧
  (d.isScaled = 0 → d.final ≠ 50000000)

instance SettledDecision.instDecidableValid (d : SettledDecision) : Decidable d.Valid :=
  inferInstanceAs (Decidable (_ → _))

instance SettledDecision.instDecidableExact (d : SettledDecision) : Decidable d.Exact :=
  inferInstanceAs (Decidable (_ ∧ _))

/-- The words of the bounds are in order when the bounds are on one side of zero. -/
theorem toUInt64_lt_iff {x y : Int64} (h : x < y) : x.toUInt64 < y.toUInt64 ↔ (x < 0 ↔ y < 0) := by
  have hx := toNat_toUInt64 x
  have hy := toNat_toUInt64 y
  have hxlo := x.le_toInt
  have hyhi := y.toInt_lt
  rw [Int64.lt_iff_toInt_lt] at h
  rw [UInt64.lt_iff_toNat_lt]
  simp only [Int64.lt_iff_toInt_lt, Int64.toInt_zero] at *
  split_ifs at hx hy <;> omega

theorem toUInt64_le {x y : Int64} (h : x ≤ y) (hside : x < 0 ↔ y < 0) :
    x.toUInt64 ≤ y.toUInt64 := by
  have hx := toNat_toUInt64 x
  have hy := toNat_toUInt64 y
  rw [Int64.le_iff_toInt_le] at h
  rw [UInt64.le_iff_toNat_le]
  simp only [Int64.lt_iff_toInt_lt, Int64.toInt_zero] at *
  split_ifs at hx hy <;> omega

/-- Two parts of a whole, in integer quotients. -/
theorem div_add_div_eq_one_iff {x y w : Nat} (hsum : x + y = w) (hpos : 0 < w) :
    x / w + y / w = 1 ↔ x = 0 ∨ y = 0 := by
  rcases Nat.eq_zero_or_pos x with hx | hx
  · have hy : y = w := by omega
    simp [hx, hy, Nat.div_self hpos]
  · rcases Nat.eq_zero_or_pos y with hy | hy
    · have hx : x = w := by omega
      simp [hx, hy, Nat.div_self hpos]
    · rw [Nat.div_eq_of_lt (by omega), Nat.div_eq_of_lt (by omega)]
      omega

/-- **The shares of a scaled decision** add up to one when it is exact. -/
theorem SettledDecision.share_add_scaled {d : SettledDecision} (hvalid : d.Valid)
    (hscaled : d.isScaled ≠ 0) : d.share 0 + d.share 1 = 1 ↔ d.Exact := by
  obtain ⟨hlt, hmin, hmax⟩ := hvalid hscaled
  have hexact : d.Exact ↔
      (d.min < 0 ↔ d.max < 0) ∧ (d.final = d.min.toUInt64 ∨ d.final = d.max.toUInt64) := by
    simp [Exact, hscaled]
  rw [hexact]
  by_cases hside : d.min < 0 ↔ d.max < 0
  · have hwords := (toUInt64_lt_iff hlt).mpr hside
    -- the final value is on the same side of zero
    have hmid : d.min < 0 ↔ d.final.toInt64 < 0 := by
      constructor
      · intro h
        exact Int64.lt_of_le_of_lt hmax (hside.mp h)
      · exact Int64.lt_of_le_of_lt hmin
    have hlo := toUInt64_le hmin hmid
    have hhi := toUInt64_le hmax (hmid.symm.trans hside)
    rw [UInt64.toUInt64_toInt64] at hlo hhi
    have hlt' := UInt64.lt_iff_toNat_lt.mp hwords
    have hlo' := UInt64.le_iff_toNat_le.mp hlo
    have hhi' := UInt64.le_iff_toNat_le.mp hhi
    have hshare0 : d.share 0 = (d.max.toUInt64.toNat - d.final.toNat) /
        (d.max.toUInt64.toNat - d.min.toUInt64.toNat) := by
      simp [share, hscaled, hwords, UInt64.toNat_div, UInt64.toNat_sub_of_le _ _ hhi,
        UInt64.toNat_sub_of_le _ _ (UInt64.le_of_lt hwords)]
    have hshare1 : d.share 1 = (d.final.toNat - d.min.toUInt64.toNat) /
        (d.max.toUInt64.toNat - d.min.toUInt64.toNat) := by
      simp [share, hscaled, hwords, UInt64.toNat_div, UInt64.toNat_sub_of_le _ _ hlo,
        UInt64.toNat_sub_of_le _ _ (UInt64.le_of_lt hwords)]
    rw [hshare0, hshare1, div_add_div_eq_one_iff (by omega) (by omega), ← UInt64.toNat_inj,
      ← UInt64.toNat_inj]
    simp only [hside, true_and]
    omega
  · -- the range looks empty, and both states are paid in full
    have hwords : ¬d.min.toUInt64 < d.max.toUInt64 := by
      rw [toUInt64_lt_iff hlt]
      exact hside
    simp [share, hscaled, hwords, hside]

theorem SettledDecision.share_add_binary {d : SettledDecision} (hbinary : d.isScaled = 0) :
    d.share 0 + d.share 1 = if d.final = 50000000 then 2 else 1 := by
  simp only [share, hbinary, ne_eq, not_true_eq_false, if_false, true_and, one_ne_zero, false_and,
    zero_ne_one]
  by_cases hlt : 50000000 < d.final
  · have hnot : ¬d.final < 50000000 := fun h => UInt64.lt_irrefl _ (UInt64.lt_trans h hlt)
    have hne : d.final ≠ 50000000 := fun h => UInt64.lt_irrefl _ (h ▸ hlt)
    simp [hlt, hnot, hne]
  · by_cases hgt : d.final < 50000000
    · have hne : d.final ≠ 50000000 := fun h => UInt64.lt_irrefl _ (h ▸ hgt)
      simp [hlt, hgt, hne]
    · have heq : d.final = 50000000 := UInt64.le_antisymm (UInt64.not_lt.mp hlt) (UInt64.not_lt.mp hgt)
      simp [heq]

theorem SettledDecision.share_add_of_exact {d : SettledDecision} (hvalid : d.Valid)
    (hexact : d.Exact) : d.share 0 + d.share 1 = 1 := by
  by_cases hscaled : d.isScaled ≠ 0
  · exact (d.share_add_scaled hvalid hscaled).mpr hexact
  · rw [d.share_add_binary (not_not.mp hscaled), if_neg (hexact.2 (not_not.mp hscaled))]

/-- A decision whose fractions add up leaves at least the whole to its two states, and
twice the whole when it is tied. -/
theorem SettledDecision.share_add_pos {d : SettledDecision}
    (hfractions : d.isScaled ≠ 0 → d.share 0 + d.share 1 = 1) : 1 ≤ d.share 0 + d.share 1 := by
  by_cases hscaled : d.isScaled ≠ 0
  · rw [hfractions hscaled]
  · rw [d.share_add_binary (not_not.mp hscaled)]
    split_ifs <;> simp

/-! ## All states together -/

/-- What a trade is paid in a state of at most 32 decisions. -/
theorem tradeAmount_eq {ds : List SettledDecision} (hlen : ds.length ≤ 32) (nShares : Nat)
    {s : Nat} (hs : s < 2 ^ ds.length) :
    tradeAmount ds nShares (UInt32.ofNat s) =
      .ok (nShares * stateProduct (ds.map SettledDecision.share) s) := by
  have hsize : s < 2 ^ 32 := lt_of_lt_of_le hs (Nat.pow_le_pow_right (by decide) hlen)
  have hloop := payoutLoop_eq [] ds (UInt32.ofNat s) 1 (by simpa using hlen)
  rw [List.nil_append, List.length_nil, pow_zero, Nat.div_one, one_mul,
    UInt32.toNat_ofNat_of_lt' hsize] at hloop
  rw [tradeAmount, hloop]
  rfl

theorem sum_tradeAmount (ds : List SettledDecision) (nShares : Nat) :
    ∑ s ∈ Finset.range (2 ^ ds.length), nShares * stateProduct (ds.map SettledDecision.share) s =
      nShares * (ds.map fun d => d.share 0 + d.share 1).prod := by
  have hsum := sum_stateProduct (ds.map SettledDecision.share)
  rw [List.length_map, List.map_map] at hsum
  rw [← Finset.mul_sum, hsum]
  rfl

/-- Some state of more than 32 decisions has no amount. -/
theorem tradeAmount_shift {ds : List SettledDecision} (hlen : 32 < ds.length) (nShares : Nat) :
    ∃ s < 2 ^ ds.length, tradeAmount ds nShares (UInt32.ofNat s) = .error .shift := by
  have hstate := stateOf_lt ((ds.take 32).map SettledDecision.winner)
  rw [List.length_map, List.length_take, min_eq_left hlen.le] at hstate
  refine ⟨_, lt_trans hstate (Nat.pow_lt_pow_right (by decide) hlen), ?_⟩
  have hloop := payoutLoop_shift [] ds
    (UInt32.ofNat (stateOf ((ds.take 32).map SettledDecision.winner))) 1 (by simp) hlen
    (by rw [UInt32.toNat_ofNat_of_lt' hstate, List.length_nil, pow_zero, Nat.div_one])
  rw [List.nil_append, List.length_nil] at hloop
  rw [tradeAmount, hloop]
  rfl

/-- The factor of a decision alone, in the state of its bit. -/
theorem payoutStep_alone {d : SettledDecision} (hscaled : d.isScaled ≠ 0) {state : UInt32}
    (hstate : state.toNat < 2) :
    payoutStep (Finals.ofDecisions [d]) state 0 d.final 1 = .ok (some (d.share state.toNat)) := by
  have hstep := payoutStep_eq [] [] d state 1 (by decide)
  have hin : ¬d.RulesOut (state.toNat % 2) := fun hout => hscaled hout.1
  rw [List.nil_append, List.length_nil, pow_zero, Nat.div_one, if_neg hin, one_mul,
    Nat.mod_eq_of_lt hstate] at hstep
  exact hstep

/-- Settlement pays the face value of a market's shares: every state has an amount, all
states together get no more than the shares, and the two fractions of a scaled decision
add up to one. -/
structure PaysFaceValue (ds : List SettledDecision) : Prop where
  total : ∀ nShares : UInt64, ∃ amounts : Nat → Nat,
    (∀ s < 2 ^ ds.length, tradeAmount ds nShares.toNat (UInt32.ofNat s) = .ok (amounts s)) ∧
      ∑ s ∈ Finset.range (2 ^ ds.length), amounts s ≤ nShares.toNat
  fractions : ∀ d ∈ ds, d.isScaled ≠ 0 → ∃ p q,
    payoutStep (Finals.ofDecisions [d]) 0 0 d.final 1 = .ok (some p) ∧
      payoutStep (Finals.ofDecisions [d]) 1 0 d.final 1 = .ok (some q) ∧ p + q = 1

theorem PaysFaceValue.share_add {ds : List SettledDecision} (h : PaysFaceValue ds)
    {d : SettledDecision} (hd : d ∈ ds) (hscaled : d.isScaled ≠ 0) : d.share 0 + d.share 1 = 1 := by
  obtain ⟨p, q, hp, hq, hpq⟩ := h.fractions d hd hscaled
  rw [payoutStep_alone hscaled (by decide)] at hp hq
  obtain rfl := Option.some.inj (Except.ok.inj hp)
  obtain rfl := Option.some.inj (Except.ok.inj hq)
  exact hpq

/-- **When settlement pays the face value**: at most 32 decisions, the scaled ones end
at a bound and have bounds on one side of zero, and no other one is tied. -/
theorem paysFaceValue_iff (ds : List SettledDecision) (hvalid : ∀ d ∈ ds, d.Valid) :
    PaysFaceValue ds ↔ ds.length ≤ 32 ∧ ∀ d ∈ ds, d.Exact := by
  constructor
  · intro h
    obtain ⟨amounts, hamounts, htotal⟩ := h.total 1
    have hlen : ds.length ≤ 32 := by
      by_contra hlong
      obtain ⟨s, hs, hshift⟩ := tradeAmount_shift (not_le.mp hlong) (1 : UInt64).toNat
      rw [hamounts s hs] at hshift
      cases hshift
    refine ⟨hlen, fun d hd => ?_⟩
    by_cases hscaled : d.isScaled ≠ 0
    · exact (d.share_add_scaled (hvalid d hd) hscaled).mp (h.share_add hd hscaled)
    · -- a tied decision alone doubles what one share is paid
      have hsum : ∑ s ∈ Finset.range (2 ^ ds.length), amounts s =
          (ds.map fun d => d.share 0 + d.share 1).prod := by
        rw [← one_mul (List.prod _), ← sum_tradeAmount]
        refine Finset.sum_congr rfl fun s hs => ?_
        have hs := Finset.mem_range.mp hs
        have hamount := hamounts s hs
        rw [tradeAmount_eq hlen _ hs] at hamount
        exact (Except.ok.inj hamount).symm
      have hpos : ∀ n ∈ ds.map fun d => d.share 0 + d.share 1, 1 ≤ n := by
        intro n hn
        obtain ⟨d', hd', rfl⟩ := List.mem_map.mp hn
        exact d'.share_add_pos (h.share_add hd')
      have hone := List.single_le_prod hpos _ (List.mem_map_of_mem hd)
      rw [← hsum] at hone
      have hone := hone.trans htotal
      rw [d.share_add_binary (not_not.mp hscaled)] at hone
      refine ⟨fun h => absurd h hscaled, fun _ htie => ?_⟩
      simp [htie] at hone
  · rintro ⟨hlen, hexact⟩
    refine ⟨fun nShares => ⟨_, fun s hs => tradeAmount_eq hlen _ hs, ?_⟩, fun d hd hscaled => ?_⟩
    · -- every factor is one
      have hall : (ds.map fun d => d.share 0 + d.share 1) = List.replicate ds.length 1 := by
        rw [List.eq_replicate_iff]
        refine ⟨List.length_map _, fun n hn => ?_⟩
        obtain ⟨d, hd, rfl⟩ := List.mem_map.mp hn
        exact d.share_add_of_exact (hvalid d hd) (hexact d hd)
      rw [sum_tradeAmount, hall, List.prod_replicate, one_pow, mul_one]
    · exact ⟨_, _, payoutStep_alone hscaled (by decide), payoutStep_alone hscaled (by decide),
        d.share_add_of_exact (hvalid d hd) (hexact d hd)⟩

/-- A decision from 0 to 100 that ends at its upper bound, and one that ends with yes. -/
def exactDecisions : List SettledDecision := [⟨100, 1, 0, 100⟩, ⟨100000000, 0, 0, 1⟩]

theorem paysFaceValue_example : PaysFaceValue exactDecisions :=
  (paysFaceValue_iff exactDecisions (by decide)).mpr (by decide)

/-- A decision that ends at one half. -/
def tiedDecision : SettledDecision := ⟨50000000, 0, 0, 1⟩

/-- **A tied decision pays twice**: ten shares are paid ten in each of the two states. -/
theorem tiedDecision_pays_twice :
    tiedDecision.Valid ∧
      tradeAmount [tiedDecision] 10 0 = .ok 10 ∧ tradeAmount [tiedDecision] 10 1 = .ok 10 ∧
      ¬PaysFaceValue [tiedDecision] := by
  refine ⟨by decide, by decide, by decide, fun h => ?_⟩
  obtain ⟨amounts, hamounts, htotal⟩ := h.total 10
  have h0 : amounts 0 = 10 := by
    have hpaid : tradeAmount [tiedDecision] 10 0 = .ok 10 := by decide
    exact Except.ok.inj ((hamounts 0 (by decide)).symm.trans hpaid)
  have h1 : amounts 1 = 10 := by
    have hpaid : tradeAmount [tiedDecision] 10 1 = .ok 10 := by decide
    exact Except.ok.inj ((hamounts 1 (by decide)).symm.trans hpaid)
  have hsum : ∑ s ∈ Finset.range (2 ^ 1), amounts s = 20 := by
    rw [pow_one, Finset.sum_range_succ, Finset.sum_range_one, h0, h1]
  rw [List.length_singleton, hsum] at htotal
  exact absurd htotal (by decide)

end Hivemind
