import Hivemind.Primitives.Transaction

/-!
# Market objects

The eight record types of `primitives/market.h`, their field lists, and the two directions of
`primitives/market.cpp`: `GetScript` writes an object as a script and `marketObjCtr` reads one
back from the first push of a script.

`marketObj` and its derived classes are one family: `MarketObj op` is the class whose `marketop`
is `op`, with the members of the base class (`nHeight`, `txid`) and the data of the derived
class.  `AnyMarketObj` is a `marketObj *`.

A field list names the members that are written, in their order; the class of a revealed vote
does not list its `voteid`, and only that of an outcome lists `nHeight`.  So what comes back from
a script is the *stored form* of an object: the listed members, and the others as the constructor
leaves them.  `UnlistedDefault` says of an object that this loses nothing.

* `MarketOp.view`: the field list of each class, from the macros of the source.
* `MarketObj.getHash`: the id of an object is the hash of its field list.
* `stored_data_iff`, `stored_of_unserialize`: what comes back, and that it stays the same.
* `marketObjCtr_eq_some`: **what `marketObjCtr` returns** for a script.
* `isMarketScript`: the last byte is `OP_MARKET` and the first push is a market object.
-/

namespace Hivemind

open Codecs

/-! ## Records -/

/-- `marketBranch`. -/
structure MarketBranch where
  name : Bytes
  description : Bytes
  baseListingFee : UInt64
  freeDecisions : UInt16
  targetDecisions : UInt16
  maxDecisions : UInt16
  minTradingFee : UInt64
  tau : UInt16
  ballotTime : UInt16
  unsealTime : UInt16
  consensusThreshold : UInt64
  alpha : UInt64
  tol : UInt64
  deriving DecidableEq

/-- `marketDecision`. -/
structure MarketDecision where
  keyID : CKeyID
  branchid : Uint256
  prompt : Bytes
  eventOverBy : UInt32
  isScaled : UInt8
  min : Int64
  max : Int64
  answerOptionality : UInt8
  deriving DecidableEq

/-- `marketStealVote`: `voteid` is the vote to be stolen. -/
structure MarketStealVote where
  branchid : Uint256
  height : UInt32
  voteid : Uint256
  deriving DecidableEq

/-- `marketMarket`. -/
structure MarketMarket where
  keyID : CKeyID
  B : UInt64
  tradingFee : UInt64
  maxCommission : UInt64
  title : Bytes
  description : Bytes
  tags : Bytes
  maturation : UInt32
  branchid : Uint256
  decisionIDs : List Uint256
  decisionFunctionIDs : List UInt8
  txPoWh : UInt32
  txPoWd : UInt32
  deriving DecidableEq

/-- `marketOutcome`. -/
structure MarketOutcome where
  branchid : Uint256
  nVoters : UInt32
  voterIDs : List CKeyID
  oldRep : List UInt64
  thisRep : List UInt64
  smoothedRep : List UInt64
  NARow : List UInt64
  particRow : List UInt64
  particRel : List UInt64
  rowBonus : List UInt64
  nDecisions : UInt32
  decisionIDs : List Uint256
  isScaled : List UInt64
  firstLoading : List UInt64
  decisionsRaw : List UInt64
  consensusReward : List UInt64
  certainty : List UInt64
  NACol : List UInt64
  particCol : List UInt64
  authorBonus : List UInt64
  decisionsFinal : List UInt64
  voteMatrix : List UInt64
  NA : UInt64
  alpha : UInt64
  tol : UInt64
  tx : CTransaction := {}
  deriving DecidableEq

/-- `marketRevealVote`: `voteid` is the sealed vote that is revealed. -/
structure MarketRevealVote where
  branchid : Uint256
  height : UInt32
  voteid : Uint256 := Blob.null
  decisionIDs : List Uint256
  decisionVotes : List UInt64
  NA : UInt64
  keyID : CKeyID
  deriving DecidableEq

/-- `marketSealedVote`. -/
structure MarketSealedVote where
  branchid : Uint256
  height : UInt32
  voteid : Uint256
  deriving DecidableEq

/-- `marketTrade`. -/
structure MarketTrade where
  keyID : CKeyID
  marketid : Uint256
  isBuy : Bool
  nShares : UInt64
  price : UInt64
  decisionState : UInt32
  nonce : UInt32
  deriving DecidableEq

/-! ## The object family -/

/-- The values of `marketop`. -/
inductive MarketOp where
  | branch | decision | stealVote | market | outcome | revealVote | sealedVote | trade
  deriving DecidableEq, Repr

namespace MarketOp

/-- The character of a `marketop`. -/
def byte : MarketOp → UInt8
  | branch => 0x42      -- 'B'
  | decision => 0x44    -- 'D'
  | stealVote => 0x4c   -- 'L'
  | market => 0x4d      -- 'M'
  | outcome => 0x4f     -- 'O'
  | revealVote => 0x52  -- 'R'
  | sealedVote => 0x53  -- 'S'
  | trade => 0x54       -- 'T'

/-- The `if` chain on the first character in `marketObjCtr`. -/
def ofByte (b : UInt8) : Option MarketOp :=
  if b = 0x42 then some branch
  else if b = 0x44 then some decision
  else if b = 0x4c then some stealVote
  else if b = 0x4d then some market
  else if b = 0x4f then some outcome
  else if b = 0x52 then some revealVote
  else if b = 0x53 then some sealedVote
  else if b = 0x54 then some trade
  else none

@[simp] theorem ofByte_byte (op : MarketOp) : ofByte op.byte = some op := by
  cases op <;> rfl

theorem ofByte_eq_some {b : UInt8} {op : MarketOp} : ofByte b = some op ↔ b = op.byte := by
  constructor
  · intro h
    unfold ofByte at h
    split_ifs at h with h1 h2 h3 h4 h5 h6 h7 h8 <;> obtain rfl := Option.some.inj h <;> assumption
  · rintro rfl
    exact ofByte_byte op

/-- The data of the derived class. -/
abbrev Data : MarketOp → Type
  | branch => MarketBranch
  | decision => MarketDecision
  | stealVote => MarketStealVote
  | market => MarketMarket
  | outcome => MarketOutcome
  | revealVote => MarketRevealVote
  | sealedVote => MarketSealedVote
  | trade => MarketTrade

instance instDecidableEqData (op : MarketOp) : DecidableEq op.Data := by
  cases op <;> exact inferInstance

end MarketOp

/-- An object of the derived class `op`: the base members and its own data. -/
structure MarketObj (op : MarketOp) where
  nHeight : UInt32 := 0x7fffffff
  txid : Uint256 := Blob.null
  data : op.Data
  deriving DecidableEq

/-- `marketObj *`. -/
abbrev AnyMarketObj := (op : MarketOp) × MarketObj op

/-! ## Field lists -/

/-- `nHeight` of a freshly constructed `marketObj`. -/
def intMax : UInt32 := 0x7fffffff

/-- The part of an object that a field list may name: `nHeight` and the data. -/
abbrev MarketOp.Body (op : MarketOp) := UInt32 × op.Data

namespace MarketOp

abbrev str : Codec Bytes := stringCodec
abbrev bytes : Codec (List UInt8) := vectorCodec Codec.u8
abbrev u64s : Codec (List UInt64) := vectorCodec Codec.u64
abbrev hashes : Codec (List Uint256) := vectorCodec Blob.codec
abbrev keyIDs : Codec (List CKeyID) := vectorCodec Blob.codec

open Codec in
/-- `marketBranch::SerializationOp`. -/
def branchView : View (UInt32 × MarketBranch) where
  Fields := Unit × Bytes × Bytes × UInt64 × UInt16 × UInt16 × UInt16 × UInt64 × UInt16 × UInt16 ×
    UInt16 × UInt64 × UInt64 × UInt64
  codec := (tag branch.byte).prod <| str.prod <| str.prod <| u64.prod <| u16.prod <| u16.prod <|
    u16.prod <| u64.prod <| u16.prod <| u16.prod <| u16.prod <| u64.prod <| u64.prod u64
  get := fun (_, b) => ((), b.name, b.description, b.baseListingFee, b.freeDecisions,
    b.targetDecisions, b.maxDecisions, b.minTradingFee, b.tau, b.ballotTime, b.unsealTime,
    b.consensusThreshold, b.alpha, b.tol)
  build := fun (_, name, description, baseListingFee, freeDecisions, targetDecisions, maxDecisions,
      minTradingFee, tau, ballotTime, unsealTime, consensusThreshold, alpha, tol) =>
    (intMax, ⟨name, description, baseListingFee, freeDecisions, targetDecisions, maxDecisions,
      minTradingFee, tau, ballotTime, unsealTime, consensusThreshold, alpha, tol⟩)
  get_build := fun _ => rfl

open Codec in
/-- `marketDecision::SerializationOp`. -/
def decisionView : View (UInt32 × MarketDecision) where
  Fields := Unit × CKeyID × Uint256 × Bytes × UInt32 × UInt8 × Int64 × Int64 × UInt8
  codec := (tag decision.byte).prod <| Blob.codec.prod <| Blob.codec.prod <| str.prod <|
    u32.prod <| u8.prod <| i64.prod <| i64.prod u8
  get := fun (_, d) => ((), d.keyID, d.branchid, d.prompt, d.eventOverBy, d.isScaled, d.min, d.max,
    d.answerOptionality)
  build := fun (_, keyID, branchid, prompt, eventOverBy, isScaled, min, max, answerOptionality) =>
    (intMax, { keyID, branchid, prompt, eventOverBy, isScaled, min, max, answerOptionality })
  get_build := fun _ => rfl

open Codec in
/-- `marketStealVote::SerializationOp`. -/
def stealVoteView : View (UInt32 × MarketStealVote) where
  Fields := Unit × Uint256 × UInt32 × Uint256
  codec := (tag stealVote.byte).prod <| Blob.codec.prod <| u32.prod Blob.codec
  get := fun (_, v) => ((), v.branchid, v.height, v.voteid)
  build := fun (_, branchid, height, voteid) => (intMax, { branchid, height, voteid })
  get_build := fun _ => rfl

open Codec in
/-- `marketMarket::SerializationOp`. -/
def marketView : View (UInt32 × MarketMarket) where
  Fields := Unit × CKeyID × UInt64 × UInt64 × UInt64 × Bytes × Bytes × Bytes × UInt32 × Uint256 ×
    List Uint256 × List UInt8 × UInt32 × UInt32
  codec := (tag market.byte).prod <| Blob.codec.prod <| u64.prod <| u64.prod <| u64.prod <|
    str.prod <| str.prod <| str.prod <| u32.prod <| Blob.codec.prod <| hashes.prod <|
    bytes.prod <| u32.prod u32
  get := fun (_, m) => ((), m.keyID, m.B, m.tradingFee, m.maxCommission, m.title, m.description,
    m.tags, m.maturation, m.branchid, m.decisionIDs, m.decisionFunctionIDs, m.txPoWh, m.txPoWd)
  build := fun (_, keyID, B, tradingFee, maxCommission, title, description, tags, maturation,
      branchid, decisionIDs, decisionFunctionIDs, txPoWh, txPoWd) =>
    (intMax, ⟨keyID, B, tradingFee, maxCommission, title, description, tags, maturation,
      branchid, decisionIDs, decisionFunctionIDs, txPoWh, txPoWd⟩)
  get_build := fun _ => rfl

open Codec in
/-- `marketOutcome::SerializationOp`, the only field list with `nHeight`.  The
member `tx` is not in it, and a read leaves it as constructed. -/
def outcomeView : View (UInt32 × MarketOutcome) where
  Fields := Unit × UInt32 × Uint256 × UInt32 × List CKeyID × List UInt64 × List UInt64 ×
    List UInt64 × List UInt64 × List UInt64 × List UInt64 × List UInt64 × UInt32 × List Uint256 ×
    List UInt64 × List UInt64 × List UInt64 × List UInt64 × List UInt64 × List UInt64 ×
    List UInt64 × List UInt64 × List UInt64 × List UInt64 × UInt64 × UInt64 × UInt64
  codec := (tag outcome.byte).prod <| u32.prod <| Blob.codec.prod <| u32.prod <| keyIDs.prod <|
    u64s.prod <| u64s.prod <| u64s.prod <| u64s.prod <| u64s.prod <| u64s.prod <| u64s.prod <|
    u32.prod <| hashes.prod <| u64s.prod <| u64s.prod <| u64s.prod <| u64s.prod <| u64s.prod <|
    u64s.prod <| u64s.prod <| u64s.prod <| u64s.prod <| u64s.prod <| u64.prod <| u64.prod u64
  get := fun (nHeight, o) => ((), nHeight, o.branchid, o.nVoters, o.voterIDs, o.oldRep, o.thisRep,
    o.smoothedRep, o.NARow, o.particRow, o.particRel, o.rowBonus, o.nDecisions, o.decisionIDs,
    o.isScaled, o.firstLoading, o.decisionsRaw, o.consensusReward, o.certainty, o.NACol,
    o.particCol, o.authorBonus, o.decisionsFinal, o.voteMatrix, o.NA, o.alpha, o.tol)
  build := fun (_, nHeight, branchid, nVoters, voterIDs, oldRep, thisRep, smoothedRep, NARow,
      particRow, particRel, rowBonus, nDecisions, decisionIDs, isScaled, firstLoading,
      decisionsRaw, consensusReward, certainty, NACol, particCol, authorBonus, decisionsFinal,
      voteMatrix, NA, alpha, tol) =>
    (nHeight, ⟨branchid, nVoters, voterIDs, oldRep, thisRep, smoothedRep, NARow, particRow,
      particRel, rowBonus, nDecisions, decisionIDs, isScaled, firstLoading, decisionsRaw,
      consensusReward, certainty, NACol, particCol, authorBonus, decisionsFinal, voteMatrix,
      NA, alpha, tol, {}⟩)
  get_build := fun _ => rfl

open Codec in
/-- `marketRevealVote::SerializationOp`.  The member `voteid` is not in it. -/
def revealVoteView : View (UInt32 × MarketRevealVote) where
  Fields := Unit × Uint256 × UInt32 × List Uint256 × List UInt64 × UInt64 × CKeyID
  codec := (tag revealVote.byte).prod <| Blob.codec.prod <| u32.prod <| hashes.prod <|
    u64s.prod <| u64.prod Blob.codec
  get := fun (_, v) => ((), v.branchid, v.height, v.decisionIDs, v.decisionVotes, v.NA, v.keyID)
  build := fun (_, branchid, height, decisionIDs, decisionVotes, NA, keyID) =>
    (intMax, { branchid, height, decisionIDs, decisionVotes, NA, keyID })
  get_build := fun _ => rfl

open Codec in
/-- `marketSealedVote::SerializationOp`. -/
def sealedVoteView : View (UInt32 × MarketSealedVote) where
  Fields := Unit × Uint256 × UInt32 × Uint256
  codec := (tag sealedVote.byte).prod <| Blob.codec.prod <| u32.prod Blob.codec
  get := fun (_, v) => ((), v.branchid, v.height, v.voteid)
  build := fun (_, branchid, height, voteid) => (intMax, { branchid, height, voteid })
  get_build := fun _ => rfl

open Codec in
/-- `marketTrade::SerializationOp`. -/
def tradeView : View (UInt32 × MarketTrade) where
  Fields := Unit × CKeyID × Uint256 × Bool × UInt64 × UInt64 × UInt32 × UInt32
  codec := (tag trade.byte).prod <| Blob.codec.prod <| Blob.codec.prod <| bool.prod <|
    u64.prod <| u64.prod <| u32.prod u32
  get := fun (_, t) => ((), t.keyID, t.marketid, t.isBuy, t.nShares, t.price, t.decisionState,
    t.nonce)
  build := fun (_, keyID, marketid, isBuy, nShares, price, decisionState, nonce) =>
    (intMax, { keyID, marketid, isBuy, nShares, price, decisionState, nonce })
  get_build := fun _ => rfl

/-- The field list of each class. -/
def view : (op : MarketOp) → View op.Body
  | branch => branchView
  | decision => decisionView
  | stealVote => stealVoteView
  | market => marketView
  | outcome => outcomeView
  | revealVote => revealVoteView
  | sealedVote => sealedVoteView
  | trade => tradeView

/-- Every string and vector of the record has at most `MAX_SIZE` elements. -/
def SizesOk : (op : MarketOp) → op.Data → Prop
  | branch, b => b.name.length ≤ maxSize ∧ b.description.length ≤ maxSize
  | decision, d => d.prompt.length ≤ maxSize
  | stealVote, _ => True
  | market, m => m.title.length ≤ maxSize ∧ m.description.length ≤ maxSize ∧
      m.tags.length ≤ maxSize ∧ m.decisionIDs.length ≤ maxSize ∧
      m.decisionFunctionIDs.length ≤ maxSize
  | outcome, o => o.voterIDs.length ≤ maxSize ∧ o.oldRep.length ≤ maxSize ∧
      o.thisRep.length ≤ maxSize ∧ o.smoothedRep.length ≤ maxSize ∧ o.NARow.length ≤ maxSize ∧
      o.particRow.length ≤ maxSize ∧ o.particRel.length ≤ maxSize ∧ o.rowBonus.length ≤ maxSize ∧
      o.decisionIDs.length ≤ maxSize ∧ o.isScaled.length ≤ maxSize ∧
      o.firstLoading.length ≤ maxSize ∧ o.decisionsRaw.length ≤ maxSize ∧
      o.consensusReward.length ≤ maxSize ∧ o.certainty.length ≤ maxSize ∧
      o.NACol.length ≤ maxSize ∧ o.particCol.length ≤ maxSize ∧ o.authorBonus.length ≤ maxSize ∧
      o.decisionsFinal.length ≤ maxSize ∧ o.voteMatrix.length ≤ maxSize
  | revealVote, v => v.decisionIDs.length ≤ maxSize ∧ v.decisionVotes.length ≤ maxSize
  | sealedVote, _ => True
  | trade, _ => True

/-- The members that no field list names are as the constructor leaves them. -/
def UnlistedDefault : (op : MarketOp) → op.Data → Prop
  | outcome, o => o.tx = {}
  | revealVote, v => v.voteid = Blob.null
  | _, _ => True

theorem fits_view_iff {op : MarketOp} {nHeight : UInt32} {d : op.Data} :
    op.view.Fits (nHeight, d) ↔ op.SizesOk d := by
  cases op <;>
    simp [view, View.Fits, SizesOk, branchView, decisionView, stealVoteView, marketView,
      outcomeView, revealVoteView, sealedVoteView, tradeView, Codec.fits_prod]

/-- The data that comes back from a field list: unlisted members are reset. -/
theorem stored_data_iff {op : MarketOp} {nHeight : UInt32} {d : op.Data} :
    (op.view.stored (nHeight, d)).2 = d ↔ op.UnlistedDefault d := by
  cases op with
  | outcome =>
      obtain ⟨⟩ := d
      simp [view, View.stored, outcomeView, UnlistedDefault, eq_comm]
  | revealVote =>
      obtain ⟨⟩ := d
      simp [view, View.stored, revealVoteView, UnlistedDefault, eq_comm]
  | _ => exact ⟨fun _ => trivial, fun _ => rfl⟩

theorem head_ser (op : MarketOp) (b : op.Body) : ∃ t, op.view.ser b = op.byte :: t := by
  cases op <;> exact ⟨_, rfl⟩

end MarketOp

/-! ## Objects and scripts -/

namespace MarketObj

variable {op : MarketOp}

/-- The serialized object. -/
def ser (o : MarketObj op) : Bytes := op.view.ser (o.nHeight, o.data)

/-- `marketObj::GetHash`: the id of an object is the hash of its field list. -/
def getHash (hash : Bytes → Uint256) (o : MarketObj op) : Uint256 := hash o.ser

/-- `marketObj::GetScript`. -/
def getScript (o : MarketObj op) : CScript := pushData o.ser ++ [opMarket]

/-- `Unserialize` into a freshly constructed object. -/
def unserialize (op : MarketOp) : Reader (MarketObj op) := fun s =>
  (op.view.de s).map fun p => ({ nHeight := p.1.1, data := p.1.2 }, p.2)

/-- What `Unserialize` makes of the serialized object: the listed fields, and
everything else as constructed. -/
def stored (o : MarketObj op) : MarketObj op :=
  { nHeight := (op.view.stored (o.nHeight, o.data)).1,
    data := (op.view.stored (o.nHeight, o.data)).2 }

theorem unserialize_ok {s r : Bytes} {o : MarketObj op} :
    unserialize op s = .ok (o, r) ↔
      op.view.de s = .ok ((o.nHeight, o.data), r) ∧ o.txid = Blob.null := by
  unfold unserialize
  obtain ⟨nHeight, txid, d⟩ := o
  cases h : op.view.de s with
  | error e => simp [Except.map]
  | ok p =>
      obtain ⟨⟨n, d'⟩, r'⟩ := p
      simp only [Except.map, Except.ok.injEq, Prod.mk.injEq, MarketObj.mk.injEq]
      constructor
      · rintro ⟨⟨rfl, rfl, rfl⟩, rfl⟩
        exact ⟨⟨⟨rfl, rfl⟩, rfl⟩, rfl⟩
      · rintro ⟨⟨⟨rfl, rfl⟩, rfl⟩, rfl⟩
        exact ⟨⟨rfl, rfl, rfl⟩, rfl⟩

theorem unserialize_ser {o : MarketObj op} (h : op.SizesOk o.data) (r : Bytes) :
    unserialize op (o.ser ++ r) = .ok (o.stored, r) :=
  unserialize_ok.mpr ⟨View.de_ser (MarketOp.fits_view_iff.mpr h) r, rfl⟩

theorem sizesOk_of_unserialize {s r : Bytes} {o : MarketObj op}
    (h : unserialize op s = .ok (o, r)) : op.SizesOk o.data :=
  MarketOp.fits_view_iff.mp (View.fits_of_de (unserialize_ok.mp h).1).1

/-- An object that was read is its own stored form. -/
theorem stored_of_unserialize {s r : Bytes} {o : MarketObj op}
    (h : unserialize op s = .ok (o, r)) : o.stored = o := by
  obtain ⟨hde, htxid⟩ := unserialize_ok.mp h
  have hst := (View.fits_of_de hde).2
  obtain ⟨nHeight, txid, d⟩ := o
  simp only at htxid hst
  subst htxid
  rw [stored, hst]

theorem length_of_unserialize {s r : Bytes} {o : MarketObj op}
    (h : unserialize op s = .ok (o, r)) : s.length = o.ser.length + r.length :=
  View.length_of_de (unserialize_ok.mp h).1

@[simp] theorem ser_stored (o : MarketObj op) : o.stored.ser = o.ser :=
  View.ser_stored (v := op.view) (o.nHeight, o.data)

end MarketObj

/-- `marketObjCtr`: the object in the first push of a script, if its first byte
names a class.  Reading the fields of the class may raise. -/
def marketObjCtr (script : CScript) : Except ReadError (Option AnyMarketObj) :=
  match getOp script with
  | none => .ok none
  | some i => match i.data with
    | [] => .ok none
    | b :: _ => match MarketOp.ofByte b with
      | none => .ok none
      | some op => (MarketObj.unserialize op i.data).map fun p => some ⟨op, p.1⟩

/-- The first push of the script starts with the `marketop` of a class. -/
def Tagged (script : CScript) (op : MarketOp) (data : Bytes) : Prop :=
  (getOp script).map Instr.data = some data ∧ data.head? = some op.byte

theorem Tagged.unique {script : CScript} {op op' : MarketOp} {data data' : Bytes}
    (h : Tagged script op data) (h' : Tagged script op' data') : op = op' ∧ data = data' := by
  obtain rfl : data = data' := Option.some.inj (h.1.symm.trans h'.1)
  refine ⟨?_, rfl⟩
  have hbyte : op.byte = op'.byte := Option.some.inj (h.2.symm.trans h'.2)
  have hop := MarketOp.ofByte_byte op
  rw [hbyte, MarketOp.ofByte_byte] at hop
  exact (Option.some.inj hop).symm

theorem marketObjCtr_of_tagged {script : CScript} {op : MarketOp} {data : Bytes}
    (h : Tagged script op data) :
    marketObjCtr script = (MarketObj.unserialize op data).map fun p => some ⟨op, p.1⟩ := by
  obtain ⟨hop, hhead⟩ := h
  obtain ⟨i, hi, rfl⟩ := Option.map_eq_some_iff.mp hop
  unfold marketObjCtr
  cases hdata : i.data with
  | nil => simp [hdata] at hhead
  | cons b t =>
      rw [hdata] at hhead
      obtain rfl : b = op.byte := Option.some.inj hhead
      simp only [hi, hdata, MarketOp.ofByte_byte]

theorem marketObjCtr_of_not_tagged {script : CScript} (h : ∀ op data, ¬ Tagged script op data) :
    marketObjCtr script = .ok none := by
  unfold marketObjCtr
  cases hop : getOp script with
  | none => rfl
  | some i =>
      cases hdata : i.data with
      | nil => simp only [hdata]
      | cons b t =>
          cases hbyte : MarketOp.ofByte b with
          | none => simp only [hdata, hbyte]
          | some op =>
              obtain rfl := MarketOp.ofByte_eq_some.mp hbyte
              exact absurd ⟨by simp [hop], by simp [hdata]⟩ (h op i.data)

/-- **What `marketObjCtr` returns**: the object in the first push, whose first
byte is the `marketop` of its class. -/
theorem marketObjCtr_eq_some {script : CScript} {op : MarketOp} {o : MarketObj op} :
    marketObjCtr script = .ok (some ⟨op, o⟩) ↔
      ∃ data r, Tagged script op data ∧ MarketObj.unserialize op data = .ok (o, r) := by
  by_cases htag : ∃ op data, Tagged script op data
  · obtain ⟨op', data, ht⟩ := htag
    rw [marketObjCtr_of_tagged ht]
    constructor
    · intro h
      cases hun : MarketObj.unserialize op' data with
      | error e =>
          rw [hun] at h
          cases h
      | ok q =>
          obtain ⟨o', r⟩ := q
          rw [hun] at h
          simp only [Except.map, Except.ok.injEq, Option.some.injEq] at h
          obtain ⟨rfl, ho⟩ := Sigma.mk.inj h
          obtain rfl := eq_of_heq ho
          exact ⟨data, r, ht, hun⟩
    · rintro ⟨data', r, ht', hun⟩
      obtain ⟨rfl, rfl⟩ := ht.unique ht'
      rw [hun]
      rfl
  · rw [marketObjCtr_of_not_tagged fun op data ht => htag ⟨op, data, ht⟩]
    constructor
    · intro h
      cases h
    · rintro ⟨data, r, ht, -⟩
      exact absurd ⟨op, data, ht⟩ htag

/-- `CScript::IsMarketScript`: the last byte is `OP_MARKET` and the first push is
a market object. -/
def isMarketScript (script : CScript) : Except ReadError Bool :=
  if script.length < 2 then .ok false
  else if script.getLast? ≠ some opMarket then .ok false
  else match marketObjCtr script with
    | .error e => .error e
    | .ok none => .ok false
    | .ok (some _) => .ok true

end Hivemind
