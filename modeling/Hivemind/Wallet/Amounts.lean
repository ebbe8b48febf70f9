import Hivemind.Lib.OrdMap
import Hivemind.Script.Destination
import Hivemind.Validation.Balance

/-!
# The amounts of a wallet transaction

`CWalletTx::GetAmounts` of `wallet.cpp`: what a transaction of the wallet sent, what it received,
and the fee.  What `::IsMine` answers for a script is a parameter.

The fee is what is left of the debit after the outputs that `GetValueOut` adds up, and it skips
the market outputs; the sent list has every output that is not change.  So the market outputs of
a transaction that is ours are counted twice, once in the list and once in the fee.  Everything
else of the balance is right, to the last unit, and is proved with the arithmetic of amounts,
which is that of a group.

The debit is cached by the two kinds of ownership.  A cache is filled on the first use, with an
amount in money range, and a value that is not in range raises an exception.

* `getAmounts_isOk_iff`: when the function returns.
* `outputLoop_sent`: with a debit, sent and change are all the outputs.
* `getAmounts_balance`: the debit, the lists and the fee, to the last unit.
* `accountsFor_iff`: **when sent, change and fee make up the debit.**
* `exampleMarketSpend_not_accounted`: a coin that is spent into a market output and change.
-/

namespace Hivemind

open Codecs Ordered Outcomes

/-! ## The wallet -/

/-- `isminetype`. -/
inductive IsMineType where
  | no | watchOnly | spendable
  deriving DecidableEq

namespace IsMineType

/-- The value of the enumeration. -/
def bits : IsMineType → UInt8
  | no => 0
  | watchOnly => 1
  | spendable => 2

/-- `fIsMine & filter`, as a condition. -/
def passes (fIsMine : IsMineType) (filter : UInt8) : Bool := fIsMine.bits &&& filter != 0

end IsMineType

/-- What `GetAmounts` and `GetAddressGroupings` read of a `CWallet`. -/
structure CWallet where
  /-- the transactions of the wallet, by hash -/
  mapWallet : OrdMap Uint256 CTransaction
  /-- `mapAddressBook.count` -/
  mapAddressBook : CTxDestination → Bool
  /-- `::IsMine` -/
  isMine : CScript → Except Raised IsMineType
  hash160 : Bytes → Blob 20
  carrier : DataCarrier := {}

/-- An amount in money range. -/
abbrev MoneyAmount := { v : CAmount // moneyRange v = true }

/-- `CWalletTx`: the caches hold what `CWallet::GetDebit` returned. -/
structure CWalletTx where
  tx : CTransaction
  strFromAccount : Bytes := []
  /-- `nDebitCached`, when `fDebitCached` is set -/
  debitCached : Option MoneyAmount := none
  /-- `nWatchDebitCached`, when `fWatchDebitCached` is set -/
  watchDebitCached : Option MoneyAmount := none

namespace CWallet

variable (w : CWallet)

/-- `ExtractDestination` of an output script. -/
def destination (script : CScript) : Except Raised (Option CTxDestination) :=
  (extractDestination w.hash160 w.carrier script).mapError .stream

/-- `CWallet::GetDebit` of an input. -/
def getDebitIn (filter : UInt8) (txin : CTxIn) : Except Raised CAmount :=
  match w.mapWallet.find txin.prevout.hash with
  | none => .ok 0
  | some prev => match prev.vout[txin.prevout.n.toNat]? with
    | none => .ok 0
    | some txout => do
      let mine ← w.isMine txout.scriptPubKey
      .ok (if mine.passes filter then txout.nValue else 0)

/-- The loop of `CWallet::GetDebit` over the inputs. -/
def debitLoop (filter : UInt8) : MoneyAmount → List CTxIn → Except Raised MoneyAmount
  | nDebit, [] => .ok nDebit
  | nDebit, txin :: vin => do
    let d ← w.getDebitIn filter txin
    if h : moneyRange (nDebit.val + d) = true then debitLoop filter ⟨_, h⟩ vin
    else .error .valueOutOfRange

/-- `CWallet::GetDebit` of a transaction. -/
def getDebit (tx : CTransaction) (filter : UInt8) : Except Raised MoneyAmount :=
  w.debitLoop filter ⟨0, moneyRange_zero⟩ tx.vin

/-- `CWallet::IsChange`. -/
def isChange (txout : CTxOut) : Except Raised Bool := do
  let mine ← w.isMine txout.scriptPubKey
  if mine = .no then .ok false
  else do
    let address ← w.destination txout.scriptPubKey
    .ok (address.elim true fun a => !w.mapAddressBook a)

end CWallet

/-- `ISMINE_SPENDABLE`. -/
def ismineSpendable : UInt8 := IsMineType.spendable.bits

/-- `ISMINE_WATCH_ONLY`. -/
def ismineWatchOnly : UInt8 := IsMineType.watchOnly.bits

namespace CWalletTx

variable (w : CWallet)

/-- `nDebitCached`, computed on the first use. -/
def spendableDebit (wtx : CWalletTx) : Except Raised (MoneyAmount × CWalletTx) :=
  wtx.debitCached.elim
    ((w.getDebit wtx.tx ismineSpendable).map fun d => (d, { wtx with debitCached := some d }))
    fun d => .ok (d, wtx)

/-- `nWatchDebitCached`, computed on the first use. -/
def watchDebit (wtx : CWalletTx) : Except Raised (MoneyAmount × CWalletTx) :=
  wtx.watchDebitCached.elim
    ((w.getDebit wtx.tx ismineWatchOnly).map fun d =>
      (d, { wtx with watchDebitCached := some d }))
    fun d => .ok (d, wtx)

/-- `if (filter & flag) debit += part`. -/
def addDebit (part : CWalletTx → Except Raised (MoneyAmount × CWalletTx)) (flag filter : UInt8)
    (debit : CAmount) (wtx : CWalletTx) : Except Raised (CAmount × CWalletTx) :=
  if filter &&& flag ≠ 0 then (part wtx).map fun p => (debit + p.1.val, p.2)
  else .ok (debit, wtx)

/-- `CWalletTx::GetDebit`, with the transaction as its caches are afterwards. -/
def getDebit (wtx : CWalletTx) (filter : UInt8) : Except Raised (CAmount × CWalletTx) :=
  if wtx.tx.vin.isEmpty then .ok (0, wtx)
  else do
    let (debit, wtx) ← addDebit (spendableDebit w) ismineSpendable filter 0 wtx
    addDebit (watchDebit w) ismineWatchOnly filter debit wtx

end CWalletTx

/-! ## `GetAmounts` -/

/-- `COutputEntry`. -/
structure COutputEntry where
  destination : CTxDestination
  amount : CAmount
  vout : Nat
  deriving DecidableEq

/-- The output arguments of `GetAmounts`. -/
structure Amounts where
  listReceived : List COutputEntry := []
  listSent : List COutputEntry := []
  nFee : CAmount := 0
  strSentAccount : Bytes := []

/-- The outputs that the loop continues at: change, or what is not for us. -/
def skips (w : CWallet) (filter : UInt8) (nDebit : CAmount) (fIsMine : IsMineType)
    (txout : CTxOut) : Except Raised Bool :=
  if 0 < nDebit then w.isChange txout else .ok (!fIsMine.passes filter)

/-- A turn of the loop over the outputs. -/
def outputTurn (w : CWallet) (filter : UInt8) (nDebit : CAmount) (r : Amounts) (i : Nat)
    (txout : CTxOut) : Except Raised Amounts := do
  let fIsMine ← w.isMine txout.scriptPubKey
  let skip ← skips w filter nDebit fIsMine txout
  if skip then .ok r
  else do
    let address ← w.destination txout.scriptPubKey
    let output : COutputEntry := ⟨address.getD .noDestination, txout.nValue, i⟩
    .ok { r with
      listSent := if 0 < nDebit then r.listSent ++ [output] else r.listSent
      listReceived := if fIsMine.passes filter then r.listReceived ++ [output]
        else r.listReceived }

/-- The loop over the outputs, from the `i`-th on. -/
def outputLoop (w : CWallet) (filter : UInt8) (nDebit : CAmount) :
    Nat → List CTxOut → Amounts → Except Raised Amounts
  | _, [], r => .ok r
  | i, txout :: vout, r => do
    let r ← outputTurn w filter nDebit r i txout
    outputLoop w filter nDebit (i + 1) vout r

/-- The fee: debit above zero means that the transaction is ours. -/
def feeOf (nDebit : CAmount) (tx : CTransaction) : Except Raised CAmount :=
  if 0 < nDebit then tx.getValueOut.map fun nValueOut => nDebit - nValueOut else .ok 0

/-- `CWalletTx::GetAmounts`, with the transaction as its caches are afterwards. -/
def CWalletTx.getAmounts (wtx : CWalletTx) (w : CWallet) (filter : UInt8) :
    Except Raised (Amounts × CWalletTx) := do
  let (nDebit, wtx) ← wtx.getDebit w filter
  let nFee ← feeOf nDebit wtx.tx
  let r ← outputLoop w filter nDebit 0 wtx.tx.vout
    { nFee := nFee, strSentAccount := wtx.strFromAccount }
  .ok (r, wtx)

/-! ## What is added up -/

/-- The amounts of the sent list. -/
def Amounts.sent (r : Amounts) : Int := (r.listSent.map fun o => o.amount.toInt).sum

/-- The outputs that are change. -/
def CWallet.changeValue (w : CWallet) (vout : List CTxOut) : Int :=
  outputSum (fun o => (w.isChange o).toOption.getD false) vout

theorem outputSum_cons (p : CTxOut → Bool) (o : CTxOut) (vout : List CTxOut) :
    outputSum p (o :: vout) = (if p o then o.nValue.toInt else 0) + outputSum p vout := by
  rw [outputSum, outputSum, List.map_cons, List.sum_cons]

/-- All that the loop needs to know of an output can be read. -/
def CWallet.Readable (w : CWallet) (filter : UInt8) (nDebit : CAmount) (o : CTxOut) : Prop :=
  ∃ mine, w.isMine o.scriptPubKey = .ok mine ∧
    (0 < nDebit ∨ mine.passes filter = true → ∃ a, w.destination o.scriptPubKey = .ok a)

section Loop

variable {w : CWallet} {filter : UInt8} {nDebit : CAmount}

theorem isChange_isOk {o : CTxOut} (h : w.Readable filter nDebit o) (hd : 0 < nDebit) :
    ∃ b, w.isChange o = .ok b := by
  obtain ⟨mine, hmine, hdest⟩ := h
  obtain ⟨a, ha⟩ := hdest (Or.inl hd)
  by_cases hno : mine = .no
  · exact ⟨false, by simp [CWallet.isChange, hmine, hno]⟩
  · exact ⟨a.elim true fun a => !w.mapAddressBook a, by simp [CWallet.isChange, hmine, hno, ha]⟩

/-- Change that is ours has been read for its destination. -/
theorem destination_of_isChange {o : CTxOut} (h : w.isChange o = .ok true) :
    ∃ a, w.destination o.scriptPubKey = .ok a := by
  simp only [CWallet.isChange, bind_eq_ok] at h
  obtain ⟨mine, -, h⟩ := h
  split_ifs at h with hno
  · cases Except.ok.inj h
  · obtain ⟨a, ha, -⟩ := bind_eq_ok.mp h
    exact ⟨a, ha⟩

/-- A turn returns when its output can be read. -/
theorem outputTurn_isOk_iff {r : Amounts} {i : Nat} {o : CTxOut} :
    (∃ r', outputTurn w filter nDebit r i o = .ok r') ↔ w.Readable filter nDebit o := by
  constructor
  · rintro ⟨r', hr'⟩
    simp only [outputTurn, bind_eq_ok] at hr'
    obtain ⟨mine, hmine, skip, hskip, hr'⟩ := hr'
    refine ⟨mine, hmine, fun hneed => ?_⟩
    cases hs : skip with
    | true =>
      rw [skips, hs] at hskip
      split_ifs at hskip with hd
      · exact destination_of_isChange hskip
      · have hpass := hneed.resolve_left hd
        simp [hpass] at hskip
    | false =>
      simp only [hs, Bool.false_eq_true, if_false, bind_eq_ok] at hr'
      obtain ⟨a, ha, -⟩ := hr'
      exact ⟨a, ha⟩
  · intro h
    obtain ⟨mine, hmine, hdest⟩ := h
    have hskip : ∃ skip, skips w filter nDebit mine o = .ok skip := by
      by_cases hd : 0 < nDebit
      · rw [skips, if_pos hd]
        exact isChange_isOk ⟨mine, hmine, hdest⟩ hd
      · exact ⟨_, if_neg hd⟩
    obtain ⟨skip, hskip⟩ := hskip
    simp only [outputTurn, bind_eq_ok]
    cases hs : skip with
    | true => exact ⟨r, mine, hmine, true, hs ▸ hskip, rfl⟩
    | false =>
      have hneed : 0 < nDebit ∨ mine.passes filter = true := by
        by_cases hd : 0 < nDebit
        · exact Or.inl hd
        · rw [skips, if_neg hd, hs] at hskip
          exact Or.inr (by simpa using hskip)
      obtain ⟨a, ha⟩ := hdest hneed
      exact ⟨_, mine, hmine, false, hs ▸ hskip, by
        rw [if_neg Bool.false_ne_true, ha]
        rfl⟩

/-- With a debit, an output is sent or it is change. -/
theorem outputTurn_sent {r r' : Amounts} {i : Nat} {o : CTxOut} (hd : 0 < nDebit)
    (h : outputTurn w filter nDebit r i o = .ok r') :
    r'.sent + w.changeValue [o] = r.sent + o.nValue.toInt ∧ r'.nFee = r.nFee := by
  simp only [outputTurn, bind_eq_ok] at h
  obtain ⟨mine, -, skip, hskip, h⟩ := h
  rw [skips, if_pos hd] at hskip
  cases hs : skip with
  | true =>
    simp only [hs, if_true, Except.ok.injEq] at h
    subst h
    simp [CWallet.changeValue, outputSum, hskip, hs, Except.toOption]
  | false =>
    simp only [hs, Bool.false_eq_true, if_false, bind_eq_ok] at h
    obtain ⟨a, -, h⟩ := h
    obtain rfl := Except.ok.inj h
    simp [CWallet.changeValue, outputSum, hskip, hs, Except.toOption, Amounts.sent, hd]

/-- Without a debit nothing is sent. -/
theorem outputTurn_idle {r r' : Amounts} {i : Nat} {o : CTxOut} (hd : ¬ 0 < nDebit)
    (h : outputTurn w filter nDebit r i o = .ok r') :
    r'.listSent = r.listSent ∧ r'.nFee = r.nFee := by
  simp only [outputTurn, bind_eq_ok] at h
  obtain ⟨mine, -, skip, -, h⟩ := h
  cases hs : skip with
  | true =>
    simp only [hs, if_true, Except.ok.injEq] at h
    subst h
    exact ⟨rfl, rfl⟩
  | false =>
    simp only [hs, Bool.false_eq_true, if_false, bind_eq_ok] at h
    obtain ⟨a, -, h⟩ := h
    obtain rfl := Except.ok.inj h
    exact ⟨if_neg hd, rfl⟩

theorem outputLoop_isOk_iff {i : Nat} {vout : List CTxOut} {r : Amounts} :
    (∃ r', outputLoop w filter nDebit i vout r = .ok r') ↔
      ∀ o ∈ vout, w.Readable filter nDebit o := by
  induction vout generalizing i r with
  | nil => simp [outputLoop]
  | cons o vout ih =>
    simp only [outputLoop, bind_eq_ok, List.forall_mem_cons]
    constructor
    · rintro ⟨r', t, hturn, hloop⟩
      exact ⟨outputTurn_isOk_iff.mp ⟨t, hturn⟩, ih.mp ⟨r', hloop⟩⟩
    · rintro ⟨ho, hvout⟩
      obtain ⟨t, hturn⟩ := outputTurn_isOk_iff.mpr ho
      obtain ⟨r', hloop⟩ := ih.mpr hvout
      exact ⟨r', t, hturn, hloop⟩

/-- **With a debit, sent and change are all the outputs.** -/
theorem outputLoop_sent {i : Nat} {vout : List CTxOut} {r r' : Amounts} (hd : 0 < nDebit)
    (h : outputLoop w filter nDebit i vout r = .ok r') :
    r'.sent + w.changeValue vout = r.sent + outputSum (fun _ => true) vout ∧
      r'.nFee = r.nFee := by
  induction vout generalizing i r with
  | nil =>
    obtain rfl := Except.ok.inj h
    exact ⟨rfl, rfl⟩
  | cons o vout ih =>
    simp only [outputLoop, bind_eq_ok] at h
    obtain ⟨t, hturn, hloop⟩ := h
    obtain ⟨hsum, hfee⟩ := outputTurn_sent hd hturn
    obtain ⟨hrest, hfee'⟩ := ih hloop
    refine ⟨?_, hfee'.trans hfee⟩
    have hchange : w.changeValue (o :: vout) = w.changeValue [o] + w.changeValue vout := by
      simp [CWallet.changeValue, outputSum]
    rw [hchange, outputSum_cons, if_pos rfl]
    omega

theorem outputLoop_idle {i : Nat} {vout : List CTxOut} {r r' : Amounts} (hd : ¬ 0 < nDebit)
    (h : outputLoop w filter nDebit i vout r = .ok r') :
    r'.listSent = r.listSent ∧ r'.nFee = r.nFee := by
  induction vout generalizing i r with
  | nil =>
    obtain rfl := Except.ok.inj h
    exact ⟨rfl, rfl⟩
  | cons o vout ih =>
    simp only [outputLoop, bind_eq_ok] at h
    obtain ⟨t, hturn, hloop⟩ := h
    obtain ⟨hsent, hfee⟩ := outputTurn_idle hd hturn
    obtain ⟨hsent', hfee'⟩ := ih hloop
    exact ⟨hsent'.trans hsent, hfee'.trans hfee⟩

end Loop

/-! ## The balance -/

section Balance

variable {w : CWallet} {wtx : CWalletTx} {filter : UInt8}

theorem spendableDebit_tx {p : MoneyAmount × CWalletTx}
    (h : CWalletTx.spendableDebit w wtx = .ok p) : p.2.tx = wtx.tx := by
  cases hc : wtx.debitCached with
  | none =>
    simp only [CWalletTx.spendableDebit, hc, Option.elim_none, map_eq_ok] at h
    obtain ⟨d, -, rfl⟩ := h
    rfl
  | some d =>
    simp only [CWalletTx.spendableDebit, hc, Option.elim_some] at h
    obtain rfl := Except.ok.inj h
    rfl

theorem watchDebit_tx {p : MoneyAmount × CWalletTx}
    (h : CWalletTx.watchDebit w wtx = .ok p) : p.2.tx = wtx.tx := by
  cases hc : wtx.watchDebitCached with
  | none =>
    simp only [CWalletTx.watchDebit, hc, Option.elim_none, map_eq_ok] at h
    obtain ⟨d, -, rfl⟩ := h
    rfl
  | some d =>
    simp only [CWalletTx.watchDebit, hc, Option.elim_some] at h
    obtain rfl := Except.ok.inj h
    rfl

/-- Each part of the debit leaves the transaction itself alone. -/
theorem addDebit_ok {part : CWalletTx → Except Raised (MoneyAmount × CWalletTx)}
    (hpart : ∀ {p}, part wtx = .ok p → p.2.tx = wtx.tx) {flag : UInt8} {debit d : CAmount}
    {wtx' : CWalletTx} (h : CWalletTx.addDebit part flag filter debit wtx = .ok (d, wtx')) :
    wtx'.tx = wtx.tx ∧ (d = debit ∨ ∃ a : MoneyAmount, d = debit + a.val) := by
  rw [CWalletTx.addDebit] at h
  split_ifs at h
  · obtain ⟨p, hp, heq⟩ := map_eq_ok.mp h
    obtain ⟨rfl, rfl⟩ := Prod.mk.inj heq
    exact ⟨hpart hp, Or.inr ⟨p.1, rfl⟩⟩
  · obtain ⟨rfl, rfl⟩ := Prod.mk.inj (Except.ok.inj h)
    exact ⟨rfl, Or.inl rfl⟩

/-- `GetDebit` leaves the transaction itself alone, and adds up two amounts in money range. -/
theorem getDebit_ok {d : CAmount} {wtx' : CWalletTx} (h : wtx.getDebit w filter = .ok (d, wtx')) :
    wtx'.tx = wtx.tx ∧ 0 ≤ d.toInt ∧ d.toInt ≤ 4200000000000000 := by
  rw [CWalletTx.getDebit] at h
  split_ifs at h
  · obtain ⟨rfl, rfl⟩ := Prod.mk.inj (Except.ok.inj h)
    exact ⟨rfl, by decide, by decide⟩
  obtain ⟨⟨debit, t⟩, hfirst, hsecond⟩ := bind_eq_ok.mp h
  obtain ⟨htx, hdebit⟩ := addDebit_ok (fun hp => spendableDebit_tx hp) hfirst
  obtain ⟨htx', hd⟩ := addDebit_ok (fun hp => watchDebit_tx hp) hsecond
  have hrange : moneyRange debit = true := by
    rcases hdebit with rfl | ⟨a, rfl⟩
    · exact moneyRange_zero
    · rw [Int64.zero_add]
      exact a.property
  obtain ⟨hdebit0, hdebit1⟩ := moneyRange_iff.mp hrange
  refine ⟨htx'.trans htx, ?_⟩
  rcases hd with rfl | ⟨a, rfl⟩
  · exact ⟨hdebit0, by omega⟩
  · obtain ⟨ha0, ha1⟩ := moneyRange_iff.mp a.property
    rw [toInt_add_of_moneyRange hrange a.property]
    exact ⟨by omega, by omega⟩

/-- **When `GetAmounts` returns**: the debit and, if there is one, the value of the outputs
are in range, and the outputs can be read. -/
theorem getAmounts_isOk_iff :
    (∃ p, wtx.getAmounts w filter = .ok p) ↔ ∃ d wtx', wtx.getDebit w filter = .ok (d, wtx') ∧
      (0 < d → ∃ v, wtx.tx.getValueOut = .ok v) ∧ ∀ o ∈ wtx.tx.vout, w.Readable filter d o := by
  constructor
  · rintro ⟨p, hp⟩
    simp only [CWalletTx.getAmounts, bind_eq_ok] at hp
    obtain ⟨⟨d, wtx'⟩, hd, nFee, hfee, r, hloop, -⟩ := hp
    obtain ⟨htx, -⟩ := getDebit_ok hd
    simp only [htx] at hfee hloop
    refine ⟨d, wtx', hd, fun hpos => ?_, outputLoop_isOk_iff.mp ⟨r, hloop⟩⟩
    rw [feeOf, if_pos hpos] at hfee
    obtain ⟨v, hv, -⟩ := map_eq_ok.mp hfee
    exact ⟨v, hv⟩
  · rintro ⟨d, wtx', hd, hvalue, hread⟩
    obtain ⟨htx, -⟩ := getDebit_ok hd
    have hfee : ∃ nFee, feeOf d wtx.tx = .ok nFee := by
      by_cases hpos : 0 < d
      · obtain ⟨v, hv⟩ := hvalue hpos
        exact ⟨d - v, by rw [feeOf, if_pos hpos, hv]; rfl⟩
      · exact ⟨0, if_neg hpos⟩
    obtain ⟨nFee, hfee⟩ := hfee
    obtain ⟨r, hloop⟩ := outputLoop_isOk_iff.mpr hread
    simp only [CWalletTx.getAmounts, bind_eq_ok]
    exact ⟨_, (d, wtx'), hd, nFee, htx ▸ hfee, r, htx ▸ hloop, rfl⟩

/-- The outputs are the market outputs and the others. -/
theorem outputSum_all (vout : List CTxOut) : outputSum (fun _ => true) vout =
    outputSum (fun o => isMarket o.scriptPubKey) vout +
      outputSum (fun o => !isMarket o.scriptPubKey) vout := by
  induction vout with
  | nil => rfl
  | cons o vout ih =>
    rw [outputSum_cons, outputSum_cons, outputSum_cons, ih, if_pos rfl]
    by_cases hm : isMarket o.scriptPubKey = true
    · simp only [hm, if_true, Bool.not_true, Bool.false_eq_true, if_false]
      omega
    · simp only [hm, Bool.not_false, Bool.false_eq_true, if_false, if_true]
      omega

/-- **The balance of `GetAmounts`**: with a debit, the market outputs are counted twice. -/
theorem getAmounts_balance {d : CAmount} {wtx' wtx'' : CWalletTx} {r : Amounts}
    (hd : wtx.getDebit w filter = .ok (d, wtx'))
    (hr : wtx.getAmounts w filter = .ok (r, wtx'')) :
    r.sent + w.changeValue wtx.tx.vout + r.nFee.toInt =
      if 0 < d then d.toInt + wtx.tx.marketDeposits else w.changeValue wtx.tx.vout := by
  obtain ⟨htx, hd0, hd1⟩ := getDebit_ok hd
  simp only [CWalletTx.getAmounts, bind_eq_ok, hd, Except.ok.injEq, exists_eq_left'] at hr
  obtain ⟨nFee, hfee, r', hloop, heq⟩ := hr
  obtain ⟨rfl, rfl⟩ := Prod.mk.inj heq
  rw [htx] at hfee hloop
  by_cases hpos : 0 < d
  · rw [feeOf, if_pos hpos] at hfee
    obtain ⟨v, hv, rfl⟩ := map_eq_ok.mp hfee
    obtain ⟨hvrange, hvsum⟩ := getValueOut_ok hv
    obtain ⟨hv0, hv1⟩ := moneyRange_iff.mp hvrange
    obtain ⟨hsum, hrfee⟩ := outputLoop_sent hpos hloop
    have hsub : (d - v).toInt = d.toInt - v.toInt := by
      rw [Int64.toInt_sub, Int.bmod_eq_of_le] <;> omega
    have hall := outputSum_all wtx.tx.vout
    have hstart : Amounts.sent { nFee := d - v, strSentAccount := wtx'.strFromAccount } = 0 := rfl
    rw [if_pos hpos, hrfee, hsub, hvsum, hsum, hstart, hall]
    simp only [CTransaction.marketDeposits, CTransaction.ordinaryValue]
    omega
  · rw [feeOf, if_neg hpos] at hfee
    obtain rfl := Except.ok.inj hfee
    obtain ⟨hsent, hrfee⟩ := outputLoop_idle hpos hloop
    have hzero : r'.sent = 0 := by rw [Amounts.sent, hsent]; rfl
    rw [if_neg hpos, hrfee, hzero]
    simp

/-- `GetAmounts` returns, and sent, change and fee make up the debit. -/
def AccountsFor (w : CWallet) (wtx : CWalletTx) (filter : UInt8) : Prop :=
  ∃ d wtx' r wtx'', wtx.getDebit w filter = .ok (d, wtx') ∧
    wtx.getAmounts w filter = .ok (r, wtx'') ∧
    d.toInt = r.sent + w.changeValue wtx.tx.vout + r.nFee.toInt

/-- **When sent, change and fee make up the debit**: the amounts can be read, and the market
outputs are worth nothing; without a debit, the change is worth nothing. -/
theorem accountsFor_iff (w : CWallet) (wtx : CWalletTx) (filter : UInt8) :
    AccountsFor w wtx filter ↔ ∃ d wtx', wtx.getDebit w filter = .ok (d, wtx') ∧
      (0 < d → ∃ v, wtx.tx.getValueOut = .ok v) ∧ (∀ o ∈ wtx.tx.vout, w.Readable filter d o) ∧
      if 0 < d then wtx.tx.marketDeposits = 0 else w.changeValue wtx.tx.vout = 0 := by
  constructor
  · rintro ⟨d, wtx', r, wtx'', hd, hr, heq⟩
    obtain ⟨d', t, hd', hvalue, hread⟩ := getAmounts_isOk_iff.mp ⟨_, hr⟩
    obtain ⟨rfl, rfl⟩ := Prod.mk.inj (Except.ok.inj (hd.symm.trans hd'))
    refine ⟨d, wtx', hd, hvalue, hread, ?_⟩
    rw [getAmounts_balance hd hr] at heq
    split_ifs at heq ⊢ with hpos
    · omega
    · obtain ⟨-, hd0, -⟩ := getDebit_ok hd
      have hle : d.toInt ≤ 0 := not_lt.mp fun h => hpos (Int64.lt_iff_toInt_lt.mpr h)
      omega
  · rintro ⟨d, wtx', hd, hvalue, hread, hcond⟩
    obtain ⟨⟨r, wtx''⟩, hr⟩ := getAmounts_isOk_iff.mpr ⟨d, wtx', hd, hvalue, hread⟩
    refine ⟨d, wtx', r, wtx'', hd, hr, ?_⟩
    rw [getAmounts_balance hd hr]
    split_ifs at hcond ⊢ with hpos
    · omega
    · obtain ⟨-, hd0, -⟩ := getDebit_ok hd
      have hle : d.toInt ≤ 0 := not_lt.mp fun h => hpos (Int64.lt_iff_toInt_lt.mpr h)
      omega

end Balance

/-! ## A trade of the wallet -/

/-- A payment to the key whose id is all `b`. -/
def examplePayTo (b : UInt8) : CScript :=
  [opDup, opHash160] ++ pushData (Blob.fill b : CKeyID).val ++ [opEqualVerify, opCheckSig]

/-- A wallet of one key, with one coin of value 1000. -/
def exampleWallet : CWallet where
  mapWallet := OrdMap.empty.put (Blob.fill 1) { vout := [⟨1000, examplePayTo 7⟩] }
  mapAddressBook := fun _ => false
  isMine := fun script => .ok (if script = examplePayTo 7 then .spendable else .no)
  hash160 := fun _ => Blob.null

/-- The coin is spent into a market output of 300 and change of 600: the fee is 100. -/
def exampleMarketSpend : CWalletTx where
  tx := {
    vin := [{ prevout := ⟨Blob.fill 1, 0⟩ }]
    vout := [⟨300, exampleStealVote.getScript⟩, ⟨600, examplePayTo 7⟩] }

/-- The input is ours, and what was sent, the change and the fee make up 1300. -/
theorem exampleMarketSpend_not_accounted :
    (∀ txin ∈ exampleMarketSpend.tx.vin,
        exampleWallet.getDebitIn ismineSpendable txin = .ok 1000) ∧
      ¬ AccountsFor exampleWallet exampleMarketSpend ismineSpendable := by
  constructor
  · intro txin htxin
    obtain rfl := List.mem_singleton.mp htxin
    rfl
  · rintro ⟨d, wtx', r, wtx'', hd, hr, heq⟩
    have hbalance := getAmounts_balance hd hr
    obtain ⟨t, ht⟩ : ∃ t, exampleMarketSpend.getDebit exampleWallet ismineSpendable =
        .ok (1000, t) := ⟨_, rfl⟩
    obtain ⟨rfl, rfl⟩ := Prod.mk.inj (Except.ok.inj (ht.symm.trans hd))
    have hmarket : exampleMarketSpend.tx.marketDeposits = 300 := by decide +kernel
    rw [← heq, if_pos (by decide), hmarket] at hbalance
    omega

end Hivemind
