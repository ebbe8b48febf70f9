import Hivemind.Primitives.Market
import Mathlib.Algebra.BigOperators.Fin
import Mathlib.Algebra.Field.Basic
import Mathlib.Tactic.Ring

/-!
# The shares of a market

`marketNStates` and `marketNShares`: the number of states of a market, and the tally of its
trades in a buffer of `double`s, which are read as exact numbers of a field.

`marketNShares` returns early when there is a buffer, where its siblings return early when there
is none.  A null buffer is then written to.  The loops behind the check are modelled all the
same, on a pointer that may be null or point to a number of entries, so that it is known what
they would write if the check were the other way round; a sale would still be counted with the
wrong amount, since the number of shares is negated as an unsigned number.

* `marketNStates_toNat`: the state count is a power of two, wrapped to 32 bits.
* `Tallies`: what a tally is for: code zero, and in each state the purchases less the sales.
* `tallies_iff`: **a tally comes out only of a null buffer of no states.**
* `tallyLoops_some`: what the loops behind the check would write.
* `amount_eq`: a sale would count as `2 ^ 64` more than it takes away.
-/

namespace Hivemind

/-! ## States -/

/-- `for (i < nDecisions) nStates *= 2`. -/
def doubled : Nat → UInt32 → UInt32
  | 0, nStates => nStates
  | n + 1, nStates => doubled n (nStates * 2)

/-- `marketNStates`. -/
def marketNStates (market : Option MarketMarket) : UInt32 :=
  market.elim 0 fun m => doubled m.decisionIDs.length 1

theorem doubled_toNat (n : Nat) (nStates : UInt32) :
    (doubled n nStates).toNat = nStates.toNat * 2 ^ n % 2 ^ 32 := by
  induction n generalizing nStates with
  | zero => rw [doubled, pow_zero, Nat.mul_one, Nat.mod_eq_of_lt nStates.toNat_lt]
  | succ n ih =>
    have hassoc : nStates.toNat * 2 * 2 ^ n = nStates.toNat * 2 ^ (n + 1) := by
      rw [Nat.pow_succ', Nat.mul_assoc]
    rw [doubled, ih, UInt32.toNat_mul, Nat.mod_mul_mod, ← hassoc]
    rfl

/-- **The state count is a power of two, wrapped to 32 bits.** -/
theorem marketNStates_toNat (m : MarketMarket) :
    (marketNStates (some m)).toNat = 2 ^ m.decisionIDs.length % 2 ^ 32 := by
  rw [marketNStates, Option.elim_some, doubled_toNat, UInt32.toNat_one, one_mul]

/-- The count does not wrap as long as the states fit in 32 bits. -/
theorem marketNStates_of_lt {m : MarketMarket} (h : m.decisionIDs.length < 32) :
    (marketNStates (some m)).toNat = 2 ^ m.decisionIDs.length := by
  rw [marketNStates_toNat, Nat.mod_eq_of_lt (Nat.pow_lt_pow_right (by decide) h)]

/-- From 32 decisions on the count is zero, the value of an error. -/
theorem marketNStates_of_le {m : MarketMarket} (h : 32 ≤ m.decisionIDs.length) :
    marketNStates (some m) = 0 := by
  apply UInt32.toNat_inj.mp
  rw [marketNStates_toNat, UInt32.toNat_zero]
  exact Nat.mod_eq_zero_of_dvd (Nat.pow_dvd_pow 2 h)

/-! ## Buffers -/

/-- A `double *`: null, or the start of `n` numbers. -/
abbrev DoublePtr (K : Type) (n : Nat) := Option (Fin n → K)

/-- What an access through a pointer can do wrong. -/
inductive PointerFault where
  | nullPointer
  deriving DecidableEq

namespace DoublePtr

variable {K : Type} {n : Nat}

/-- `p[i]`. -/
def load (p : DoublePtr K n) (i : Fin n) : Except PointerFault K :=
  p.elim (.error .nullPointer) fun q => .ok (q i)

/-- `p[i] = x`. -/
def store (p : DoublePtr K n) (i : Fin n) (x : K) : Except PointerFault (DoublePtr K n) :=
  p.elim (.error .nullPointer) fun q => .ok (some (Function.update q i x))

@[simp] theorem load_some (q : Fin n → K) (i : Fin n) : load (some q) i = .ok (q i) := rfl

@[simp] theorem store_some (q : Fin n → K) (i : Fin n) (x : K) :
    store (some q) i x = .ok (some (Function.update q i x)) := rfl

@[simp] theorem store_none (i : Fin n) (x : K) :
    store (none : DoublePtr K n) i x = .error .nullPointer := rfl

/-- A loop whose turns work on a buffer is a fold over its contents. -/
theorem foldlM_some {α : Type} {turn : DoublePtr K n → α → Except PointerFault (DoublePtr K n)}
    {f : (Fin n → K) → α → Fin n → K} (hturn : ∀ q a, turn (some q) a = .ok (some (f q a)))
    (l : List α) (q : Fin n → K) : l.foldlM turn (some q) = .ok (some (l.foldl f q)) := by
  induction l generalizing q with
  | nil => rfl
  | cons a l ih =>
    rw [List.foldlM_cons, hturn, List.foldl_cons]
    exact ih (f q a)

/-- A loop that replaces each entry by what it makes of it. -/
theorem foldl_update (g : K → K) (q : Fin n → K) :
    (List.finRange n).foldl (fun q i => Function.update q i (g (q i))) q = fun i => g (q i) := by
  have hlist : ∀ (l : List (Fin n)), l.Nodup → ∀ q : Fin n → K,
      l.foldl (fun q i => Function.update q i (g (q i))) q =
        fun i => if i ∈ l then g (q i) else q i := by
    intro l
    induction l with
    | nil => intro _ q; simp
    | cons i l ih =>
      intro hnodup q
      obtain ⟨hi, hl⟩ := List.nodup_cons.mp hnodup
      rw [List.foldl_cons, ih hl]
      funext j
      by_cases hj : j = i
      · subst hj
        simp [hi]
      · simp [hj]
  rw [hlist _ (List.nodup_finRange n)]
  simp

end DoublePtr

/-! ## The tally -/

section Tally

variable {K : Type} [Field K]

/-- `1e-8`. -/
def eMinus8 : K := ((100000000 : ℕ) : K)⁻¹

/-- `(trade->isBuy)? trade->nShares: -trade->nShares`, of type `uint64_t`. -/
def MarketTrade.amount (trade : MarketTrade) : UInt64 :=
  if trade.isBuy then trade.nShares else -trade.nShares

/-- A turn of the loop over the trades. -/
def tallyTurn (nStates : UInt32) (nShares : DoublePtr K nStates.toNat) (trade : MarketTrade) :
    Except PointerFault (DoublePtr K nStates.toNat) :=
  if h : trade.decisionState.toNat < nStates.toNat then do
    let x ← nShares.load ⟨_, h⟩
    nShares.store ⟨_, h⟩ (x + (trade.amount.toNat : K))
  else .ok nShares

/-- The three loops of `marketNShares`. -/
def tallyLoops (trades : List MarketTrade) (nStates : UInt32)
    (nShares : DoublePtr K nStates.toNat) : Except PointerFault (DoublePtr K nStates.toNat) := do
  let nShares ← (List.finRange nStates.toNat).foldlM (fun p i => p.store i 0) nShares
  let nShares ← trades.foldlM (tallyTurn nStates) nShares
  (List.finRange nStates.toNat).foldlM (fun p i => do
    let x ← p.load i
    p.store i (x * eMinus8)) nShares

/-- `marketNShares`: the return code, and the buffer afterwards. -/
def marketNShares (trades : List MarketTrade) (nStates : UInt32)
    (nShares : DoublePtr K nStates.toNat) :
    Except PointerFault (Int × DoublePtr K nStates.toNat) :=
  if nShares.isSome then .ok (-1, nShares)
  else do
    let nShares ← tallyLoops trades nStates nShares
    .ok (0, nShares)

/-- The shares that the trades of one side have in a state. -/
def sharesIn (isBuy : Bool) (trades : List MarketTrade) (state : Nat) : ℕ :=
  ((trades.filter fun t => t.isBuy = isBuy ∧ t.decisionState.toNat = state).map
    fun t => t.nShares.toNat).sum

/-- What a tally is for: code zero, and in each state the purchases less the sales. -/
def Tallies (trades : List MarketTrade) (nStates : UInt32)
    (nShares : DoublePtr K nStates.toNat) : Prop :=
  ∃ p, marketNShares trades nStates nShares = .ok (0, p) ∧ ∀ s : Fin nStates.toNat,
    p.load s = .ok (eMinus8 * ((sharesIn true trades s : K) - (sharesIn false trades s : K)))

/-- A buffer is left as it is. -/
@[simp] theorem marketNShares_some (trades : List MarketTrade) (nStates : UInt32)
    (q : Fin nStates.toNat → K) : marketNShares trades nStates (some q) = .ok (-1, some q) := rfl

/-- Without a buffer the first store of the first loop is through a null pointer. -/
theorem tallyLoops_none (trades : List MarketTrade) {nStates : UInt32} (h : nStates ≠ 0) :
    tallyLoops trades nStates (none : DoublePtr K nStates.toNat) = .error .nullPointer := by
  obtain ⟨n, hn⟩ : ∃ n, nStates.toNat = n + 1 :=
    Nat.exists_eq_succ_of_ne_zero fun h0 => h (UInt32.toNat_inj.mp h0)
  obtain ⟨i, l, hl⟩ : ∃ i l, List.finRange nStates.toNat = i :: l :=
    List.exists_cons_of_length_pos (by rw [List.length_finRange]; omega)
  rw [tallyLoops, hl, List.foldlM_cons, DoublePtr.store_none]
  rfl

/-- With no states there is nothing to write. -/
theorem tallyLoops_zero (trades : List MarketTrade) :
    tallyLoops trades 0 (none : DoublePtr K (0 : UInt32).toNat) = .ok none := by
  have htrades : trades.foldlM (tallyTurn 0) (none : DoublePtr K (0 : UInt32).toNat) =
      .ok none := by
    induction trades with
    | nil => rfl
    | cons t trades ih =>
      rw [List.foldlM_cons, tallyTurn, dif_neg (by simp)]
      exact ih
  have hempty : List.finRange (0 : UInt32).toNat = [] := rfl
  rw [tallyLoops, hempty]
  simp only [List.foldlM_nil, pure_bind, htrades]
  rfl

/-- **When the tally comes out**: of a null buffer, for a market of no states. -/
theorem tallies_iff (trades : List MarketTrade) (nStates : UInt32)
    (nShares : DoublePtr K nStates.toNat) :
    Tallies trades nStates nShares ↔ nShares = none ∧ nStates = 0 := by
  constructor
  · rintro ⟨p, hrun, -⟩
    cases nShares with
    | some q =>
      rw [marketNShares_some] at hrun
      have hcode : (-1 : Int) = 0 := (Prod.mk.inj (Except.ok.inj hrun)).1
      omega
    | none =>
      refine ⟨rfl, ?_⟩
      by_contra h
      rw [marketNShares, if_neg (by simp), tallyLoops_none trades h] at hrun
      cases hrun
  · rintro ⟨rfl, rfl⟩
    refine ⟨none, ?_, fun s => s.elim0⟩
    rw [marketNShares, if_neg (by simp), tallyLoops_zero]
    rfl

/-! ## What the loops would write -/

/-- The amounts of the trades in a state. -/
def amountsIn (trades : List MarketTrade) (state : Nat) : ℕ :=
  ((trades.filter fun t => t.decisionState.toNat = state).map fun t => t.amount.toNat).sum

/-- The second loop on a buffer. -/
theorem tallyTurn_foldl (trades : List MarketTrade) (nStates : UInt32)
    (q : Fin nStates.toNat → K) :
    trades.foldlM (tallyTurn nStates) (some q) =
      .ok (some fun s => q s + (amountsIn trades s : K)) := by
  induction trades generalizing q with
  | nil => simp [amountsIn]; rfl
  | cons t trades ih =>
    rw [List.foldlM_cons, tallyTurn]
    split_ifs with h
    · simp only [DoublePtr.load_some, DoublePtr.store_some, bind, Except.bind]
      refine (ih _).trans (congrArg (fun q => Except.ok (some q)) (funext fun s => ?_))
      by_cases hs : t.decisionState.toNat = s
      · have hfin : s = ⟨t.decisionState.toNat, h⟩ := Fin.ext hs.symm
        subst hfin
        simp [amountsIn, add_assoc]
      · have hfin : s ≠ ⟨t.decisionState.toNat, h⟩ := fun heq => hs (by rw [heq])
        simp [amountsIn, hs, hfin]
    · refine (ih _).trans (congrArg (fun q => Except.ok (some q)) (funext fun s => ?_))
      have hs : t.decisionState.toNat ≠ s := fun heq => h (heq ▸ s.isLt)
      simp [amountsIn, hs]

/-- **The loops write the amounts of the trades**, whatever the buffer held. -/
theorem tallyLoops_some (trades : List MarketTrade) (nStates : UInt32)
    (q : Fin nStates.toNat → K) :
    tallyLoops trades nStates (some q) =
      .ok (some fun s => (amountsIn trades s : K) * eMinus8) := by
  have hclear : (List.finRange nStates.toNat).foldlM
      (fun (p : DoublePtr K nStates.toNat) i => p.store i 0) (some q) = .ok (some fun _ => 0) := by
    rw [DoublePtr.foldlM_some (f := fun q i => Function.update q i 0) fun _ _ => rfl,
      DoublePtr.foldl_update fun _ => 0]
  have hscale : ∀ q : Fin nStates.toNat → K, (List.finRange nStates.toNat).foldlM
      (fun (p : DoublePtr K nStates.toNat) i => do
        let x ← p.load i
        p.store i (x * eMinus8)) (some q) = .ok (some fun s => q s * eMinus8) := by
    intro q
    rw [DoublePtr.foldlM_some (f := fun q i => Function.update q i (q i * eMinus8))
      fun _ _ => rfl, DoublePtr.foldl_update fun x => x * eMinus8]
  rw [tallyLoops, hclear]
  simp only [bind, Except.bind]
  rw [tallyTurn_foldl]
  simp only [zero_add]
  exact hscale _

/-- **A sale is counted with the wrong amount**: `2 ^ 64` above what it takes away. -/
theorem amount_eq (trade : MarketTrade) (h : trade.nShares ≠ 0) :
    (trade.amount.toNat : ℤ) =
      if trade.isBuy then (trade.nShares.toNat : ℤ) else 2 ^ 64 - trade.nShares.toNat := by
  have hpos : 0 < trade.nShares.toNat :=
    Nat.pos_of_ne_zero fun h0 => h (UInt64.toNat_inj.mp h0)
  have hlt := trade.nShares.toNat_lt
  cases hbuy : trade.isBuy
  · have hneg : (-trade.nShares).toNat = 2 ^ 64 - trade.nShares.toNat := by
      rw [UInt64.toNat_neg]
      exact Nat.mod_eq_of_lt (Nat.sub_lt (by decide) hpos)
    simp only [MarketTrade.amount, hbuy, Bool.false_eq_true, if_false, hneg]
    omega
  · simp [MarketTrade.amount, hbuy]

/-- A purchase of one share in the first of two states. -/
def examplePurchase : MarketTrade where
  keyID := Blob.null
  marketid := Blob.null
  isBuy := true
  nShares := 100000000
  price := 0
  decisionState := 0
  nonce := 0

/-- A purchase in a market of two states is not tallied. -/
theorem examplePurchase_not_tallied :
    ¬ Tallies [examplePurchase] 2 (some fun _ => (0 : ℚ)) := by
  rintro ⟨p, hrun, -⟩
  rw [marketNShares_some] at hrun
  have hcode : (-1 : Int) = 0 := (Prod.mk.inj (Except.ok.inj hrun)).1
  omega

end Tally

end Hivemind
