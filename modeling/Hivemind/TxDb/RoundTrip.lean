import Hivemind.TxDb.ListingsBasic

/-!
# The market object codec

An object goes through its script (`GetScript`, then `marketObjCtr`) and through the database
(`WriteMarketIndex`, then the matching `Get` function).  It comes back as it was exactly when its
strings and vectors are within `MAX_SIZE`, its script can be pushed with a 32-bit size, and the
members that its field list leaves out (`marketRevealVote::voteid`, `marketOutcome::tx`) are as
the constructor sets them.

An outcome is compared with its `nHeight` and its `txid` too.  The database keeps the `txid`
beside the object; the script has no place for it, so that an outcome survives its script only as
long as it has none.

A push of `2 ^ 32 - 1` bytes or more is read short: `GetOp` counts what is left of the script in
32 bits, and the `OP_MARKET` at the end of the script is one byte of it.

* `SameData`: the data of two objects agree, and for an outcome also its height and `txid`.
* `marketObjCtr_getScript`: a stored object comes back from its script as its stored form.
* `object_round_trip_iff`: **the exact condition for both trips.**
* `reveal_vote_loses_voteid`: a reveal vote comes back without its `voteid`.
-/

namespace Hivemind

open Codecs Ordered

/-! ## The trip through a script -/

/-- The data of two objects agree, and for an outcome also `nHeight`, which is a
field of its list, and `txid`, which is not. -/
def SameData {op : MarketOp} (o o' : MarketObj op) : Prop :=
  o.data = o'.data ∧ (op = .outcome → o.nHeight = o'.nHeight ∧ o.txid = o'.txid)

theorem SameData.ser_eq {op : MarketOp} {o o' : MarketObj op} (h : SameData o o') :
    o.ser = o'.ser := by
  obtain ⟨nHeight, txid, d⟩ := o
  obtain ⟨nHeight', txid', d'⟩ := o'
  obtain ⟨hd, hn⟩ := h
  simp only at hd hn
  subst hd
  cases op with
  | outcome => rw [MarketObj.ser, MarketObj.ser, (hn rfl).1]
  | _ => rfl

/-- The members that no field list names come back as constructed. -/
theorem stored_data_eq_iff {op : MarketOp} {o : MarketObj op} :
    o.stored.data = o.data ↔ op.UnlistedDefault o.data := MarketOp.stored_data_iff

theorem stored_nHeight {o : MarketObj .outcome} : o.stored.nHeight = o.nHeight := rfl

theorem unlistedDefault_of_stored {op : MarketOp} {o : MarketObj op} (h : o.stored = o) :
    op.UnlistedDefault o.data := by
  refine stored_data_eq_iff.mp ?_
  rw [h]

/-- `GetOp` reads a push of `2 ^ 32 - 1` bytes or more short. -/
theorem getOp_pushData_long {b : Bytes} (hb : 2 ^ 32 ≤ b.length + 1) {x : UInt8} {i : Instr}
    (h : getOp (pushData b ++ [x]) = some i) : i.data.length < b.length := by
  have hpush : pushData b = opPushData4 :: (leBytes 4 b.length ++ b) := by
    rw [pushData, if_neg (by omega), if_neg (by omega), if_neg (by omega)]
    rfl
  have hdata : getData opPushData4 (leNat (leBytes 4 b.length)) (b ++ [x]) = some i := by
    rw [hpush, List.cons_append, List.append_assoc, getOp, if_pos (by decide)] at h
    simpa [getPushSize, opPushData1, opPushData2, opPushData4] using h
  rw [leNat_leBytes, getData] at hdata
  split_ifs at hdata with hlt
  obtain rfl := Option.some.inj hdata
  simp only [List.length_take, List.length_append, List.length_singleton] at hlt ⊢
  omega

/-- The object comes back from its script. -/
def ScriptRoundTrip {op : MarketOp} (o : MarketObj op) : Prop :=
  ∃ o', marketObjCtr o.getScript = .ok (some ⟨op, o'⟩) ∧ SameData o' o

theorem tagged_getScript {op : MarketOp} {o : MarketObj op} (h : o.ser.length + 1 < 2 ^ 32) :
    Tagged o.getScript op o.ser := by
  obtain ⟨opcode, -, hop⟩ := getOp_pushData (b := o.ser) (by omega) [opMarket]
    (by rw [List.length_append, List.length_singleton]; omega)
  obtain ⟨t, ht⟩ := op.head_ser (o.nHeight, o.data)
  refine ⟨?_, ?_⟩
  · rw [MarketObj.getScript, hop]
    rfl
  · rw [MarketObj.ser, ht]
    rfl

/-- A stored object comes back from its script as its stored form. -/
theorem marketObjCtr_getScript {op : MarketOp} {o : MarketObj op} (hs : op.SizesOk o.data)
    (hlen : o.ser.length + 1 < 2 ^ 32) : marketObjCtr o.getScript = .ok (some ⟨op, o.stored⟩) := by
  have hun := MarketObj.unserialize_ser hs []
  rw [List.append_nil] at hun
  exact marketObjCtr_eq_some.mpr ⟨o.ser, [], tagged_getScript hlen, hun⟩

/-- The script has no place for the `txid`. -/
theorem txid_of_marketObjCtr {op : MarketOp} {o o' : MarketObj op}
    (h : marketObjCtr o.getScript = .ok (some ⟨op, o'⟩)) : o'.txid = Blob.null := by
  obtain ⟨data, r, -, hun⟩ := marketObjCtr_eq_some.mp h
  exact (MarketObj.unserialize_ok.mp hun).2

theorem scriptRoundTrip_iff {op : MarketOp} (o : MarketObj op) :
    ScriptRoundTrip o ↔ op.SizesOk o.data ∧ o.ser.length + 1 < 2 ^ 32 ∧
      op.UnlistedDefault o.data ∧ (op = .outcome → o.txid = Blob.null) := by
  constructor
  · rintro ⟨o', hctr, hsame⟩
    obtain ⟨data, r, htag, hun⟩ := marketObjCtr_eq_some.mp hctr
    have hlen : o.ser.length + 1 < 2 ^ 32 := by
      by_contra hlong
      obtain ⟨i, hi, rfl⟩ := Option.map_eq_some_iff.mp htag.1
      have hshort := getOp_pushData_long (by omega) hi
      have hread := MarketObj.length_of_unserialize hun
      rw [hsame.ser_eq] at hread
      omega
    refine ⟨hsame.1 ▸ MarketObj.sizesOk_of_unserialize hun, hlen, ?_, fun hop => ?_⟩
    · rw [← hsame.1]
      exact unlistedDefault_of_stored (MarketObj.stored_of_unserialize hun)
    · rw [← (hsame.2 hop).2]
      exact txid_of_marketObjCtr hctr
  · rintro ⟨hs, hlen, hd, htxid⟩
    refine ⟨o.stored, marketObjCtr_getScript hs hlen, stored_data_eq_iff.mpr hd, ?_⟩
    rintro rfl
    exact ⟨stored_nHeight, (htxid rfl).symm⟩

/-! ## The trip through the database -/

/-- The object, written to a database under some id, comes back from it with its
origin transaction. -/
def StoreRoundTrip {op : MarketOp} (objid : Uint256) (db : LevelDB) (o : MarketObj op) : Prop :=
  ∃ o', getObj op objid (writeMarketIndex [(objid, ⟨op, o⟩)] db) = some o' ∧ SameData o' o ∧
    o'.txid = o.txid

theorem storeRoundTrip_iff {op : MarketOp} (objid : Uint256) (db : LevelDB) (o : MarketObj op) :
    StoreRoundTrip objid db o ↔ op.SizesOk o.data ∧ op.UnlistedDefault o.data := by
  rw [StoreRoundTrip, getObj_writeMarketIndex]
  constructor
  · rintro ⟨o', hget, hsame, -⟩
    cases hun : MarketObj.unserialize op (objValue o) with
    | error e => simp [readValue, hun, Except.toOption] at hget
    | ok q =>
        obtain ⟨o₁, r⟩ := q
        have hdata : o₁.data = o.data := by
          rw [← hsame.1]
          rw [readValue, hun] at hget
          cases htx : (Blob.codec : Codec Uint256).de r with
          | error e => simp [htx, Except.toOption] at hget
          | ok t =>
              simp only [htx, Except.toOption, Option.some.injEq] at hget
              rw [← hget]
        refine ⟨hdata ▸ MarketObj.sizesOk_of_unserialize hun, ?_⟩
        rw [← hdata]
        exact unlistedDefault_of_stored (MarketObj.stored_of_unserialize hun)
  · rintro ⟨hs, hd⟩
    refine ⟨o.persisted, by rw [readValue_objValue hs]; rfl, ⟨?_, ?_⟩, rfl⟩
    · exact stored_data_eq_iff.mpr hd
    · rintro rfl
      exact ⟨stored_nHeight, rfl⟩

/-! ## Both trips -/

/-- **When an object survives both trips**: its strings and vectors are within
`MAX_SIZE`, its payload is shorter than `2 ^ 32 - 1` bytes, the members that no
field list names are as constructed, and an outcome has no `txid` yet, since the
script does not carry it. -/
theorem object_round_trip_iff {op : MarketOp} (o : MarketObj op) :
    ((ScriptRoundTrip o ∧ ∀ objid db, StoreRoundTrip objid db o) ↔
      op.SizesOk o.data ∧ o.ser.length + 1 < 2 ^ 32 ∧ op.UnlistedDefault o.data ∧
        (op = .outcome → o.txid = Blob.null)) ∧
    ∀ o', marketObjCtr o.getScript = .ok (some ⟨op, o'⟩) → o'.txid = Blob.null := by
  refine ⟨⟨fun h => (scriptRoundTrip_iff o).mp h.1, fun h => ?_⟩,
    fun o' hctr => txid_of_marketObjCtr hctr⟩
  exact ⟨(scriptRoundTrip_iff o).mpr h, fun objid db =>
    (storeRoundTrip_iff objid db o).mpr ⟨h.1, h.2.2.1⟩⟩

/-- A reveal vote for the sealed vote whose id is all ones. -/
def exampleRevealVote : MarketObj .revealVote where
  data := { branchid := Blob.null, height := 0, voteid := Blob.fill 1, decisionIDs := [],
            decisionVotes := [], NA := 0, keyID := Blob.null }

/-- **A reveal vote loses its `voteid`**: it comes back from its script, and from
the database, with the null id instead. -/
theorem reveal_vote_loses_voteid :
    ¬ ScriptRoundTrip exampleRevealVote ∧
      ∀ objid db, ¬ StoreRoundTrip objid db exampleRevealVote := by
  have hne : exampleRevealVote.data.voteid ≠ Blob.null := by decide
  constructor
  · intro h
    exact hne ((scriptRoundTrip_iff exampleRevealVote).mp h).2.2.1
  · intro objid db h
    exact hne ((storeRoundTrip_iff objid db exampleRevealVote).mp h).2

end Hivemind
