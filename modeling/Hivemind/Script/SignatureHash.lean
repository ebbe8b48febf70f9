import Hivemind.Primitives.Transaction
import Hivemind.Script.Interpreter
import Mathlib.Data.List.Induction

/-!
# What a signature signs

`SignatureHash` serializes the parts of a transaction that a signature covers without copying the
transaction.  Beside it stands the function it replaced, which the tests keep: it copies the
transaction, blanks what is not covered and serializes the copy.

The serializer writes the script of the signed input segment by segment between its separators,
where the function of the tests deletes the separators; it takes the number of inputs and outputs
from the type of the signature, where the other resizes vectors.  Each of these is one lemma, and
the comparison is made piece by piece in the order in which the bytes are written.  A script that
cannot be read to its end is cut differently by the two, so the agreement is about scripts that
can.

* `findAndDeleteAux_eq`, `writeSegments_eq`: both ways to leave out the separators are skipping
  them.
* `serializeScriptCode_eq`: skipping the separators is deleting them.
* `serialize_eq`, `signOld_eq`: what each of the two writes.
* `signatureData_eq`: **both functions hash the same bytes.**
-/

namespace Hivemind

open Codecs

def opCodeSeparator : UInt8 := 0xab

def sigHashNone : Int32 := 2
def sigHashSingle : Int32 := 3
def sigHashAnyoneCanPay : Int32 := 0x80

/-- What is hashed; `one` is the hash that stands for a bad request. -/
inductive SignatureData where
  | one
  | bytes (b : Bytes)
  deriving DecidableEq

/-- The hash itself. -/
def SignatureData.getHash (hash : Bytes → Uint256) : SignatureData → Uint256
  | one => ⟨leBytes 32 1, length_leBytes ..⟩
  | bytes b => hash b

/-! ## The serializer -/

/-- `CTransactionSignatureSerializer`.  The counts of inputs and outputs do not wrap. -/
structure CTransactionSignatureSerializer where
  txTo : CTransaction
  scriptCode : CScript
  nIn : Nat
  fAnyoneCanPay : Bool
  fHashSingle : Bool
  fHashNone : Bool

/-- Where `GetOp` leaves the iterator when it fails. -/
def getOpStop : Bytes → Bytes
  | [] => []
  | opcode :: s => ((getPushSize opcode s).map Prod.snd).getD s

/-- The first loop of `SerializeScriptCode`. -/
def countSeparators : Nat → CScript → Nat
  | 0, _ => 0
  | fuel + 1, it => match getOp it with
    | none => 0
    | some i => (if i.opcode = opCodeSeparator then 1 else 0) + countSeparators fuel i.rest

/-- The second loop of `SerializeScriptCode`, and the write after it.  The iterators are what is
left of the script. -/
def writeSegments : Nat → CScript → CScript → Bytes
  | 0, _, _ => []
  | fuel + 1, itBegin, it => match getOp it with
    | none => itBegin.take (itBegin.length - (getOpStop it).length)
    | some i =>
      if i.opcode = opCodeSeparator then
        itBegin.take (itBegin.length - i.rest.length - 1) ++ writeSegments fuel i.rest i.rest
      else writeSegments fuel itBegin i.rest

namespace CTransactionSignatureSerializer

/-- The constructor. -/
def create (txTo : CTransaction) (scriptCode : CScript) (nIn : Nat) (nHashType : Int32) :
    CTransactionSignatureSerializer where
  txTo := txTo
  scriptCode := scriptCode
  nIn := nIn
  fAnyoneCanPay := nHashType &&& sigHashAnyoneCanPay != 0
  fHashSingle := nHashType &&& 0x1f == sigHashSingle
  fHashNone := nHashType &&& 0x1f == sigHashNone

variable (s : CTransactionSignatureSerializer)

/-- `SerializeScriptCode`. -/
def serializeScriptCode : Bytes :=
  let n := s.scriptCode.length
  Codec.writeSize (UInt64.ofNat (n - countSeparators n s.scriptCode)) ++
    writeSegments (n + 1) s.scriptCode s.scriptCode

/-- `SerializeInput`; `none` is an access outside of the inputs. -/
def serializeInput (nInput : Nat) : Option Bytes :=
  let nInput := if s.fAnyoneCanPay then s.nIn else nInput
  s.txTo.vin[nInput]?.map fun txin =>
    COutPoint.codec.ser txin.prevout ++
    (if nInput ≠ s.nIn then stringCodec.ser [] else s.serializeScriptCode) ++
    (if nInput ≠ s.nIn ∧ (s.fHashSingle || s.fHashNone) then Codec.i32.ser 0
      else Codec.u32.ser txin.nSequence)

/-- `SerializeOutput`. -/
def serializeOutput (nOutput : Nat) : Option Bytes :=
  if s.fHashSingle ∧ nOutput ≠ s.nIn then some (CTxOut.codec.ser CTxOut.null)
  else s.txTo.vout[nOutput]?.map CTxOut.codec.ser

/-- `Serialize`. -/
def serialize : Option Bytes := do
  let nInputs := if s.fAnyoneCanPay then 1 else s.txTo.vin.length
  let vin ← (List.range nInputs).mapM s.serializeInput
  let nOutputs :=
    if s.fHashNone then 0 else if s.fHashSingle then s.nIn + 1 else s.txTo.vout.length
  let vout ← (List.range nOutputs).mapM s.serializeOutput
  some (Codec.i32.ser s.txTo.nVersion ++
    (Codec.writeSize (UInt64.ofNat nInputs) ++ vin.flatten) ++
    (Codec.writeSize (UInt64.ofNat nOutputs) ++ vout.flatten) ++
    Codec.u32.ser s.txTo.nLockTime)

end CTransactionSignatureSerializer

/-- What `SignatureHash` hashes. -/
def signatureData (scriptCode : CScript) (txTo : CTransaction) (nIn : Nat) (nHashType : Int32) :
    Option SignatureData :=
  if txTo.vin.length ≤ nIn then some .one
  else if nHashType &&& 0x1f = sigHashSingle ∧ txTo.vout.length ≤ nIn then some .one
  else (CTransactionSignatureSerializer.create txTo scriptCode nIn nHashType).serialize.map
    fun b => .bytes (b ++ Codec.i32.ser nHashType)

/-- `SignatureHash`. -/
def signatureHash (hash : Bytes → Uint256) (scriptCode : CScript) (txTo : CTransaction)
    (nIn : Nat) (nHashType : Int32) : Option Uint256 :=
  (signatureData scriptCode txTo nIn nHashType).map (SignatureData.getHash hash)

/-! ## The function of the tests -/

/-- Let the others update at will. -/
def clearSequences (nIn : Nat) (vin : List CTxIn) : List CTxIn :=
  vin.mapIdx fun i txin => if i ≠ nIn then { txin with nSequence := 0 } else txin

/-- The end of `SignatureHashOld`: blank out other inputs, serialize and hash. -/
def signOld (txTo : CTransaction) (nIn : Nat) (nHashType : Int32) (vin : List CTxIn)
    (vout : List CTxOut) : SignatureData :=
  let vin := if nHashType &&& sigHashAnyoneCanPay ≠ 0 then vin[nIn]?.toList else vin
  .bytes (CTransaction.codec.ser { txTo with vin, vout } ++ Codec.i32.ser nHashType)

/-- What `SignatureHashOld` hashes. -/
def signatureDataOld (scriptCode : CScript) (txTo : CTransaction) (nIn : Nat)
    (nHashType : Int32) : SignatureData :=
  if txTo.vin.length ≤ nIn then .one
  else
    let scriptCode := findAndDelete [opCodeSeparator] scriptCode
    let vin := txTo.vin.map fun txin => { txin with scriptSig := [] }
    let vin := vin.modify nIn fun txin => { txin with scriptSig := scriptCode }
    if nHashType &&& 0x1f = sigHashNone then
      signOld txTo nIn nHashType (clearSequences nIn vin) []
    else if nHashType &&& 0x1f = sigHashSingle then
      if txTo.vout.length ≤ nIn then .one
      else
        let vout := txTo.vout.take (nIn + 1)
        let vout := vout.mapIdx fun i txout => if i < nIn then CTxOut.null else txout
        signOld txTo nIn nHashType (clearSequences nIn vin) vout
    else signOld txTo nIn nHashType vin txTo.vout

/-! ## Separators -/

/-- A script without its separators. -/
def skipSeparators : Nat → CScript → CScript
  | 0, _ => []
  | fuel + 1, s => match getOp s with
    | none => []
    | some i =>
      (if i.opcode = opCodeSeparator then [] else s.take (s.length - i.rest.length)) ++
        skipSeparators fuel i.rest

/-- One instruction of a script that reads to its end. -/
theorem readScript_cases {s : CScript} {is : List Instr} (h : readScript s = some is) :
    (s = [] ∧ is = []) ∨ ∃ op pushed i is', is = i :: is' ∧ getOp s = some i ∧ i.opcode = op ∧
      s = op :: pushed ++ i.rest ∧ (op = opCodeSeparator → pushed = []) ∧
      readScript i.rest = some is' := by
  by_cases hs : s = []
  · subst hs
    exact Or.inl ⟨rfl, (Option.some.inj h).symm⟩
  · rw [readScript_eq hs, Option.bind_eq_some_iff] at h
    obtain ⟨i, hop, h⟩ := h
    obtain ⟨is', hrest, rfl⟩ := Option.map_eq_some_iff.mp h
    refine Or.inr ?_
    rcases getOp_some hop with ⟨-, -, heq⟩ | ⟨hle, p, heq⟩
    · exact ⟨_, [], i, is', rfl, hop, rfl, heq, fun _ => rfl, hrest⟩
    · refine ⟨_, p ++ i.data, i, is', rfl, hop, rfl, by rw [heq]; simp, fun hsep => ?_, hrest⟩
      rw [hsep] at hle
      exact absurd hle (by decide)

theorem take_front {op : UInt8} {pushed rest : Bytes} :
    (op :: pushed ++ rest).take ((op :: pushed ++ rest).length - rest.length) = op :: pushed := by
  rw [List.length_append, Nat.add_sub_cancel]
  exact List.take_left

/-- **Deleting** the separators is skipping them. -/
theorem findAndDeleteAux_eq {s : CScript} {is : List Instr} (h : readScript s = some is)
    {fuel fuel' : Nat} (hf : s.length < fuel) (hf' : s.length ≤ fuel') :
    findAndDeleteAux [opCodeSeparator] fuel s = skipSeparators fuel' s := by
  induction is generalizing s fuel fuel' with
  | nil =>
    rcases readScript_cases h with ⟨rfl, -⟩ | ⟨op, pushed, i, is', hcons, -⟩
    · obtain ⟨fuel, rfl⟩ : ∃ f, fuel = f + 1 := ⟨fuel - 1, by omega⟩
      cases fuel' <;> rfl
    · exact absurd hcons (by simp)
  | cons i is ih =>
    rcases readScript_cases h with ⟨-, hnil⟩ | ⟨op, pushed, i', is', hcons, hop, hopcode, heq, hsep,
      hrest⟩
    · exact absurd hnil (by simp)
    · obtain ⟨rfl, rfl⟩ := List.cons.inj hcons
      have hlen := getOp_rest_lt hop
      obtain ⟨fuel, rfl⟩ : ∃ f, fuel = f + 1 := ⟨fuel - 1, by omega⟩
      obtain ⟨fuel', rfl⟩ : ∃ f, fuel' = f + 1 := ⟨fuel' - 1, by omega⟩
      rw [skipSeparators, hop]
      simp only [hopcode]
      by_cases hop' : op = opCodeSeparator
      · -- the separator is erased, and the turn goes on behind it
        obtain rfl : pushed = [] := hsep hop'
        subst hop'
        have hskip : findAndDeleteAux [opCodeSeparator] (fuel + 1) i.rest =
            skipSeparators fuel' i.rest := ih hrest (by omega) (by omega)
        rw [if_pos rfl, List.nil_append, ← hskip, heq, List.singleton_append, findAndDeleteAux, findAndDeleteAux, List.length_cons,
          eraseFront, if_pos (by simp)]
        rfl
      · have herase : eraseFront [opCodeSeparator] s.length s = s := by
          rw [heq]
          cases hn : (op :: pushed ++ i.rest).length with
          | zero => rfl
          | succ n =>
            have hne : ¬ [opCodeSeparator] <+: op :: pushed ++ i.rest := by
              rw [List.cons_append, List.cons_prefix_cons]
              exact fun hpre => hop' hpre.1.symm
            rw [eraseFront, if_neg hne]
        have hskip : findAndDeleteAux [opCodeSeparator] fuel i.rest =
            skipSeparators fuel' i.rest := ih hrest (by omega) (by omega)
        rw [if_neg hop', findAndDeleteAux, herase, hop]
        simp only [hskip]

/-- **Writing** segment by segment is skipping the separators, behind what is already in the
segment. -/
theorem writeSegments_eq {s : CScript} {is : List Instr} (h : readScript s = some is)
    {fuel fuel' : Nat} (hf : s.length < fuel) (hf' : s.length ≤ fuel') (segment : Bytes) :
    writeSegments fuel (segment ++ s) s = segment ++ skipSeparators fuel' s := by
  induction is generalizing s fuel fuel' segment with
  | nil =>
    rcases readScript_cases h with ⟨rfl, -⟩ | ⟨op, pushed, i, is', hcons, -⟩
    · obtain ⟨fuel, rfl⟩ : ∃ f, fuel = f + 1 := ⟨fuel - 1, by omega⟩
      have hskip : skipSeparators fuel' [] = [] := by cases fuel' <;> rfl
      rw [writeSegments, hskip]
      simp [getOp, getOpStop]
    · exact absurd hcons (by simp)
  | cons i is ih =>
    rcases readScript_cases h with ⟨-, hnil⟩ | ⟨op, pushed, i', is', hcons, hop, hopcode, heq, hsep,
      hrest⟩
    · exact absurd hnil (by simp)
    · obtain ⟨rfl, rfl⟩ := List.cons.inj hcons
      have hlen := getOp_rest_lt hop
      obtain ⟨fuel, rfl⟩ : ∃ f, fuel = f + 1 := ⟨fuel - 1, by omega⟩
      obtain ⟨fuel', rfl⟩ : ∃ f, fuel' = f + 1 := ⟨fuel' - 1, by omega⟩
      rw [writeSegments, skipSeparators, hop]
      simp only [hopcode]
      by_cases hop' : op = opCodeSeparator
      · obtain rfl : pushed = [] := hsep hop'
        rw [if_pos hop', if_pos hop', List.nil_append]
        have hwrite : writeSegments fuel i.rest i.rest = skipSeparators fuel' i.rest :=
          ih hrest (by omega) (by omega) []
        have hcount : (segment ++ s).length - i.rest.length - 1 = segment.length := by
          rw [heq, List.length_append, List.length_append, List.length_singleton]
          omega
        rw [hwrite, hcount, List.take_left]
      · rw [if_neg hop', if_neg hop']
        have hfront : s.take (s.length - i.rest.length) = op :: pushed := by
          rw [heq]
          exact take_front
        have hsplit : segment ++ s = (segment ++ op :: pushed) ++ i.rest := by
          rw [List.append_assoc, ← heq]
        have hwrite : writeSegments fuel ((segment ++ op :: pushed) ++ i.rest) i.rest =
            (segment ++ op :: pushed) ++ skipSeparators fuel' i.rest :=
          ih hrest (by omega) (by omega) _
        rw [hsplit, hwrite, hfront, List.append_assoc]

theorem countSeparators_add {s : CScript} {is : List Instr} (h : readScript s = some is)
    {fuel : Nat} (hf : s.length ≤ fuel) :
    countSeparators fuel s + (skipSeparators fuel s).length = s.length := by
  induction is generalizing s fuel with
  | nil =>
    rcases readScript_cases h with ⟨rfl, -⟩ | ⟨op, pushed, i, is', hcons, -⟩
    · cases fuel <;> rfl
    · exact absurd hcons (by simp)
  | cons i is ih =>
    rcases readScript_cases h with ⟨-, hnil⟩ | ⟨op, pushed, i', is', hcons, hop, hopcode, heq, hsep,
      hrest⟩
    · exact absurd hnil (by simp)
    · obtain ⟨rfl, rfl⟩ := List.cons.inj hcons
      have hlen := getOp_rest_lt hop
      obtain ⟨fuel, rfl⟩ : ∃ f, fuel = f + 1 := ⟨fuel - 1, by omega⟩
      have hcount : countSeparators fuel i.rest + (skipSeparators fuel i.rest).length =
          i.rest.length := ih hrest (by omega)
      rw [countSeparators, skipSeparators, hop]
      simp only [hopcode]
      by_cases hop' : op = opCodeSeparator
      · obtain rfl : pushed = [] := hsep hop'
        rw [if_pos hop', if_pos hop', heq, List.nil_append, List.length_append,
          List.length_singleton]
        omega
      · have hfront : s.take (s.length - i.rest.length) = op :: pushed := by
          rw [heq]
          exact take_front
        rw [if_neg hop', if_neg hop', hfront, List.length_append, heq, List.length_append]
        omega

/-- **The script of the signed input**, as the copy has it. -/
theorem serializeScriptCode_eq (s : CTransactionSignatureSerializer) {is : List Instr}
    (h : readScript s.scriptCode = some is) :
    s.serializeScriptCode = stringCodec.ser (findAndDelete [opCodeSeparator] s.scriptCode) := by
  have hdelete : findAndDelete [opCodeSeparator] s.scriptCode =
      skipSeparators s.scriptCode.length s.scriptCode :=
    findAndDeleteAux_eq h (Nat.lt_succ_self _) (Nat.le_refl _)
  have hwrite := writeSegments_eq h (Nat.lt_succ_self _) (Nat.le_refl _) []
  have hcount := countSeparators_add h (Nat.le_refl _)
  rw [List.nil_append, List.nil_append] at hwrite
  have hlen : s.scriptCode.length - countSeparators s.scriptCode.length s.scriptCode =
      (skipSeparators s.scriptCode.length s.scriptCode).length := by omega
  rw [CTransactionSignatureSerializer.serializeScriptCode, hdelete]
  have hbytes : ∀ b : Bytes, b.flatMap Codec.u8.ser = b := fun b => List.flatMap_singleton' b
  rw [hwrite, hlen]
  show _ = _ ++ (skipSeparators s.scriptCode.length s.scriptCode).flatMap Codec.u8.ser
  rw [hbytes]

/-! ## The same bytes -/

/-- The elements of a vector, one index after the other. -/
theorem mapM_range_ser {α : Type} {c : Codec α} {xs : List α} {f : Nat → Option Bytes}
    (h : ∀ i x, xs[i]? = some x → f i = some (c.ser x)) :
    (List.range xs.length).mapM f = some (xs.map c.ser) := by
  induction xs using List.reverseRecOn with
  | nil => rfl
  | append_singleton xs x ih =>
    have hbefore : ∀ i y, xs[i]? = some y → f i = some (c.ser y) := by
      intro i y hy
      have hlt := (List.getElem?_eq_some_iff.mp hy).1
      exact h i y (by rw [List.getElem?_append_left hlt, hy])
    have hlast : f xs.length = some (c.ser x) := h xs.length x (by simp)
    rw [List.length_append, List.length_singleton, List.range_succ, List.mapM_append, ih hbefore]
    simp [hlast]

/-- An input as it is signed. -/
def signedInput (s : CTransactionSignatureSerializer) (code : CScript) (i : Nat) (txin : CTxIn) :
    CTxIn :=
  { txin with
    scriptSig := if i = s.nIn then code else []
    nSequence := if i ≠ s.nIn ∧ (s.fHashSingle || s.fHashNone) then 0 else txin.nSequence }

theorem serializeInput_eq {s : CTransactionSignatureSerializer} {is : List Instr}
    (h : readScript s.scriptCode = some is) {i : Nat} {txin : CTxIn}
    (hi : s.txTo.vin[if s.fAnyoneCanPay then s.nIn else i]? = some txin) :
    s.serializeInput i = some (CTxIn.codec.ser
      (signedInput s (findAndDelete [opCodeSeparator] s.scriptCode)
        (if s.fAnyoneCanPay then s.nIn else i) txin)) := by
  rw [CTransactionSignatureSerializer.serializeInput]
  simp only [hi, Option.map_some, serializeScriptCode_eq s h]
  generalize (if s.fAnyoneCanPay then s.nIn else i) = k
  have hzero : Codec.i32.ser 0 = Codec.u32.ser 0 := by decide
  have hser : ∀ txin : CTxIn, CTxIn.codec.ser txin = COutPoint.codec.ser txin.prevout ++
      (stringCodec.ser txin.scriptSig ++ Codec.u32.ser txin.nSequence) := fun _ => rfl
  rw [hser, signedInput, hzero, List.append_assoc]
  simp only
  by_cases hk : k = s.nIn
  · rw [if_neg (not_not.mpr hk), if_neg (fun hne => hne.1 hk), if_pos hk,
      if_neg (fun hne => hne.1 hk)]
  · rw [if_pos hk, if_neg hk, apply_ite Codec.u32.ser]

/-- The inputs and the outputs of the copy. -/
def signedInputs (s : CTransactionSignatureSerializer) (code : CScript) : List CTxIn :=
  let vin := s.txTo.vin.mapIdx (signedInput s code)
  if s.fAnyoneCanPay then vin[s.nIn]?.toList else vin

def signedOutputs (s : CTransactionSignatureSerializer) : List CTxOut :=
  if s.fHashNone then []
  else if s.fHashSingle then
    (s.txTo.vout.take (s.nIn + 1)).mapIdx fun i txout => if i < s.nIn then CTxOut.null else txout
  else s.txTo.vout

theorem serializeInputs_eq {s : CTransactionSignatureSerializer} {is : List Instr}
    (h : readScript s.scriptCode = some is) (hin : s.nIn < s.txTo.vin.length) :
    (List.range (if s.fAnyoneCanPay then 1 else s.txTo.vin.length)).mapM s.serializeInput =
      some ((signedInputs s (findAndDelete [opCodeSeparator] s.scriptCode)).map
        CTxIn.codec.ser) ∧
    (signedInputs s (findAndDelete [opCodeSeparator] s.scriptCode)).length =
      if s.fAnyoneCanPay then 1 else s.txTo.vin.length := by
  have hget := List.getElem?_eq_getElem hin
  have hlen : (signedInputs s (findAndDelete [opCodeSeparator] s.scriptCode)).length =
      if s.fAnyoneCanPay then 1 else s.txTo.vin.length := by
    rw [signedInputs]
    split_ifs
    · rw [List.getElem?_mapIdx, hget]
      rfl
    · rw [List.length_mapIdx]
  refine ⟨?_, hlen⟩
  rw [← hlen]
  refine mapM_range_ser fun i txin hi => ?_
  rw [signedInputs] at hi
  cases hany : s.fAnyoneCanPay with
  | true =>
    -- the one input of the copy is the signed one
    rw [if_pos hany, List.getElem?_mapIdx, hget, Option.map_some, Option.toList_some] at hi
    obtain ⟨hone, heq⟩ := List.getElem?_eq_some_iff.mp hi
    have hser := serializeInput_eq (s := s) h (i := i)
      (show s.txTo.vin[if s.fAnyoneCanPay then s.nIn else i]? = some s.txTo.vin[s.nIn] by
        rw [if_pos hany, hget])
    rw [if_pos hany] at hser
    rw [hser, ← heq]
    congr 2
    have hzero : i = 0 := by simpa using hone
    subst hzero
    rfl
  | false =>
    have hno : ¬ s.fAnyoneCanPay = true := by rw [hany]; exact Bool.false_ne_true
    rw [if_neg hno, List.getElem?_mapIdx] at hi
    obtain ⟨x, hx, rfl⟩ := Option.map_eq_some_iff.mp hi
    have hser := serializeInput_eq (s := s) h (i := i)
      (show s.txTo.vin[if s.fAnyoneCanPay then s.nIn else i]? = some x by rw [if_neg hno, hx])
    rwa [if_neg hno] at hser

theorem serializeOutputs_eq {s : CTransactionSignatureSerializer}
    (hout : s.fHashSingle = true → s.nIn < s.txTo.vout.length) :
    (List.range (if s.fHashNone then 0 else if s.fHashSingle then s.nIn + 1
        else s.txTo.vout.length)).mapM s.serializeOutput =
      some ((signedOutputs s).map CTxOut.codec.ser) ∧
    (signedOutputs s).length =
      if s.fHashNone then 0 else if s.fHashSingle then s.nIn + 1 else s.txTo.vout.length := by
  have hlen : (signedOutputs s).length =
      if s.fHashNone then 0 else if s.fHashSingle then s.nIn + 1 else s.txTo.vout.length := by
    rw [signedOutputs]
    split_ifs with hnone hsingle
    · rfl
    · have := hout hsingle
      rw [List.length_mapIdx, List.length_take]
      omega
    · rfl
  refine ⟨?_, hlen⟩
  rw [← hlen]
  refine mapM_range_ser fun i txout hi => ?_
  rw [signedOutputs] at hi
  rw [CTransactionSignatureSerializer.serializeOutput]
  split_ifs at hi with hnone hsingle
  · cases hi
  · rw [List.getElem?_mapIdx] at hi
    obtain ⟨x, hx, rfl⟩ := Option.map_eq_some_iff.mp hi
    have hle : i < s.nIn + 1 := by
      have hlt := (List.getElem?_eq_some_iff.mp hx).1
      rw [List.length_take] at hlt
      omega
    rw [List.getElem?_take_of_lt hle] at hx
    by_cases hi' : i = s.nIn
    · rw [if_neg (fun hne => hne.2 hi'), if_neg (by omega), hx]
      rfl
    · rw [if_pos ⟨hsingle, hi'⟩, if_pos (by omega)]
  · rw [if_neg (fun hne => hsingle hne.1), hi]
    rfl

/-- **`Serialize`** writes the copy. -/
theorem serialize_eq {s : CTransactionSignatureSerializer} {is : List Instr}
    (h : readScript s.scriptCode = some is) (hin : s.nIn < s.txTo.vin.length)
    (hout : s.fHashSingle = true → s.nIn < s.txTo.vout.length) :
    s.serialize = some (CTransaction.codec.ser { s.txTo with
      vin := signedInputs s (findAndDelete [opCodeSeparator] s.scriptCode)
      vout := signedOutputs s }) := by
  obtain ⟨hvin, hvinlen⟩ := serializeInputs_eq h hin
  obtain ⟨hvout, hvoutlen⟩ := serializeOutputs_eq hout
  rw [CTransactionSignatureSerializer.serialize]
  simp only [hvin, hvout, Option.bind_eq_bind, Option.bind_some]
  rw [← hvinlen, ← hvoutlen, List.append_assoc, List.append_assoc]
  rfl

/-- The scripts of the copy. -/
theorem blankScripts_eq (vin : List CTxIn) (nIn : Nat) (code : CScript) :
    ((vin.map fun txin => { txin with scriptSig := [] }).modify nIn
        fun txin => { txin with scriptSig := code }) =
      vin.mapIdx fun i txin => { txin with scriptSig := if i = nIn then code else [] } := by
  apply List.ext_getElem?
  intro i
  rw [List.getElem?_modify, List.getElem?_map, List.getElem?_mapIdx]
  cases vin[i]? with
  | none => simp
  | some txin =>
    by_cases hi : nIn = i
    · simp [hi]
    · have hi' : ¬ i = nIn := fun h => hi h.symm
      simp [hi, hi']

/-- `SignatureHashOld` signs what the serializer writes. -/
theorem signOld_eq {scriptCode : CScript} {txTo : CTransaction} {nIn : Nat} {nHashType : Int32}
    {ser : CTransactionSignatureSerializer} {vin : List CTxIn} {vout : List CTxOut}
    (hser : ser = CTransactionSignatureSerializer.create txTo scriptCode nIn nHashType)
    (hvin : vin = txTo.vin.mapIdx (signedInput ser (findAndDelete [opCodeSeparator] scriptCode)))
    (hvout : vout = signedOutputs ser) :
    signOld txTo nIn nHashType vin vout = .bytes (CTransaction.codec.ser { txTo with
      vin := signedInputs ser (findAndDelete [opCodeSeparator] scriptCode)
      vout := signedOutputs ser } ++ Codec.i32.ser nHashType) := by
  rw [signOld, signedInputs, hvin, hvout, hser]
  simp only [CTransactionSignatureSerializer.create, bne_iff_ne]

/-- What the function of the tests signs, when the request is a good one. -/
theorem signatureDataOld_eq {scriptCode : CScript} {txTo : CTransaction} {nIn : Nat}
    {nHashType : Int32} {ser : CTransactionSignatureSerializer}
    (hser : ser = CTransactionSignatureSerializer.create txTo scriptCode nIn nHashType)
    (hin : ¬ txTo.vin.length ≤ nIn)
    (hout : ¬ (nHashType &&& 0x1f = sigHashSingle ∧ txTo.vout.length ≤ nIn)) :
    signatureDataOld scriptCode txTo nIn nHashType = .bytes (CTransaction.codec.ser { txTo with
      vin := signedInputs ser (findAndDelete [opCodeSeparator] scriptCode)
      vout := signedOutputs ser } ++ Codec.i32.ser nHashType) := by
  have hnIn : ser.nIn = nIn := by rw [hser]; rfl
  have htx : ser.txTo = txTo := by rw [hser]; rfl
  have hnoneIff : ser.fHashNone = true ↔ nHashType &&& 0x1f = sigHashNone := by
    rw [hser]
    exact beq_iff_eq
  have hsingleIff : ser.fHashSingle = true ↔ nHashType &&& 0x1f = sigHashSingle := by
    rw [hser]
    exact beq_iff_eq
  rw [signatureDataOld, if_neg hin]
  simp only [blankScripts_eq]
  by_cases hnone : nHashType &&& 0x1f = sigHashNone
  · rw [if_pos hnone]
    have hnone' := hnoneIff.mpr hnone
    refine signOld_eq hser ?_ ?_
    · rw [clearSequences, List.mapIdx_mapIdx]
      congr 1
      funext i txin
      by_cases hi : i = nIn <;> simp [signedInput, hnIn, hnone', hi]
    · rw [signedOutputs, if_pos hnone']
  · have hnone' : ¬ ser.fHashNone = true := fun h => hnone (hnoneIff.mp h)
    rw [if_neg hnone]
    by_cases hsingle : nHashType &&& 0x1f = sigHashSingle
    · have hsingle' := hsingleIff.mpr hsingle
      rw [if_pos hsingle, if_neg fun hle => hout ⟨hsingle, hle⟩]
      refine signOld_eq hser ?_ ?_
      · rw [clearSequences, List.mapIdx_mapIdx]
        congr 1
        funext i txin
        by_cases hi : i = nIn <;> simp [signedInput, hnIn, hsingle', hi]
      · rw [signedOutputs, if_neg hnone', if_pos hsingle', htx, hnIn]
    · have hsingle' : ¬ ser.fHashSingle = true := fun h => hsingle (hsingleIff.mp h)
      rw [if_neg hsingle]
      refine signOld_eq hser ?_ ?_
      · congr 1
        funext i txin
        simp [signedInput, hnIn, hsingle', hnone']
      · rw [signedOutputs, if_neg hnone', if_neg hsingle', htx]

/-- **The two functions agree**: for a script that reads to its end, `SignatureHash` hashes the
bytes that the function of the tests hashes, and returns one where that function does. -/
theorem signatureData_eq (scriptCode : CScript) (txTo : CTransaction) (nIn : Nat)
    (nHashType : Int32) (hread : (readScript scriptCode).isSome) :
    signatureData scriptCode txTo nIn nHashType =
      some (signatureDataOld scriptCode txTo nIn nHashType) ∧
    ∀ hash, signatureHash hash scriptCode txTo nIn nHashType =
      some ((signatureDataOld scriptCode txTo nIn nHashType).getHash hash) := by
  have hdata : signatureData scriptCode txTo nIn nHashType =
      some (signatureDataOld scriptCode txTo nIn nHashType) := by
    obtain ⟨is, his⟩ := Option.isSome_iff_exists.mp hread
    rw [signatureData]
    by_cases hin : txTo.vin.length ≤ nIn
    · rw [if_pos hin, signatureDataOld, if_pos hin]
    · rw [if_neg hin]
      by_cases hout : nHashType &&& 0x1f = sigHashSingle ∧ txTo.vout.length ≤ nIn
      · have hnone : ¬ nHashType &&& 0x1f = sigHashNone := by
          rw [hout.1]
          decide
        rw [if_pos hout, signatureDataOld, if_neg hin, if_neg hnone, if_pos hout.1, if_pos hout.2]
      · have hser : (CTransactionSignatureSerializer.create txTo scriptCode nIn
            nHashType).serialize = some (CTransaction.codec.ser _) :=
          serialize_eq his (not_le.mp hin) fun hsingle =>
            not_le.mp fun hle => hout ⟨beq_iff_eq.mp hsingle, hle⟩
        rw [if_neg hout, hser, Option.map_some, signatureDataOld_eq rfl hin hout]
        rfl
  refine ⟨hdata, fun hash => ?_⟩
  rw [signatureHash, hdata]
  rfl

/-- A script with two separators, signed for the second of three inputs. -/
theorem signatureData_example :
    signatureData [opCodeSeparator, 1, 0xab, opCodeSeparator, opCheckSig]
        { vin := [⟨⟨Blob.null, 0⟩, [], 1⟩, ⟨⟨Blob.null, 1⟩, [], 2⟩, ⟨⟨Blob.null, 2⟩, [], 3⟩]
          vout := [⟨5, []⟩, ⟨6, []⟩] } 1 sigHashSingle =
      some (signatureDataOld [opCodeSeparator, 1, 0xab, opCodeSeparator, opCheckSig]
        { vin := [⟨⟨Blob.null, 0⟩, [], 1⟩, ⟨⟨Blob.null, 1⟩, [], 2⟩, ⟨⟨Blob.null, 2⟩, [], 3⟩]
          vout := [⟨5, []⟩, ⟨6, []⟩] } 1 sigHashSingle) :=
  (signatureData_eq [opCodeSeparator, 1, 0xab, opCodeSeparator, opCheckSig] _ 1 sigHashSingle
    (by decide)).1

end Hivemind
