import Hivemind.Primitives.Market

/-!
# Standard output scripts

`Solver` of `script/standard.cpp`: the type of an output script and the keys or hashes in it.  A
script is compared with templates, one opcode at a time; the market scripts and
pay-to-script-hash are recognised before that.

A template is a list of opcodes, of which some stand for a key, for a key hash, for a number or
for a run of keys.  The comparison goes through the script and a template together and collects
the solutions; the loop for a run of keys takes instructions as long as they push something of
the length of a key.  For `TX_MULTISIG` the numbers around the keys are compared with their count
afterwards, and a failure there ends the scan over the templates.

* `mTemplates`: the templates, in the order of the multimap.
* `matchTemplate`, `scanTemplates`: one template, and all of them.
* `marketSolution`: the owner of the object, for a market script.
* `solver`: all of it.
* `scanTemplates_failed`, `solver_failed`: a script that is refused has no type that pays to a
  key.
-/

namespace Hivemind

open Codecs

/-- `txnouttype`. -/
inductive TxnOutType where
  | nonstandard | pubkey | pubkeyhash | scripthash | multisig | market | nullData
  deriving DecidableEq, Repr

def opDup : UInt8 := 0x76
def opEqualVerify : UInt8 := 0x88
def opSmallData : UInt8 := 0xf9
def opSmallInteger : UInt8 := 0xfa
def opPubKeys : UInt8 := 0xfb
def opPubKeyHash : UInt8 := 0xfd
def opPubKey : UInt8 := 0xfe

/-- The settings that `Solver` reads: `-datacarrier` and `nMaxDatacarrierBytes`. -/
structure DataCarrier where
  enabled : Bool := true
  nMaxDatacarrierBytes : Nat := 40

/-- `mTemplates`, in the order of the multimap.  None of the opcodes pushes data. -/
def mTemplates (carrier : DataCarrier) : List (TxnOutType × List UInt8) :=
  [(.pubkey, [opPubKey, opCheckSig]),
    (.pubkeyhash, [opDup, opHash160, opPubKeyHash, opEqualVerify, opCheckSig]),
    (.multisig, [opSmallInteger, opPubKeys, opSmallInteger, opCheckMultiSig])] ++
  (if carrier.enabled then [(.nullData, [opReturn, opSmallData])] else []) ++
  [(.nullData, [opReturn])]

/-- `CScript::DecodeOP_N` on `OP_0` and `OP_1` to `OP_16`. -/
def smallInteger (opcode : UInt8) : UInt8 :=
  if opcode = 0 then 0 else UInt8.ofNat (decodeOpN opcode)

/-- One opcode of a template against one instruction: the solutions, or `none` for a
mismatch. -/
def matchOp (carrier : DataCarrier) (opcode2 opcode1 : UInt8) (vch1 : Bytes)
    (vSolutions : List Bytes) : Option (List Bytes) :=
  if opcode2 = opPubKey then
    if vch1.length < 33 ∨ 65 < vch1.length then none else some (vSolutions ++ [vch1])
  else if opcode2 = opPubKeyHash then
    if vch1.length ≠ 20 then none else some (vSolutions ++ [vch1])
  else if opcode2 = opSmallInteger then
    if opcode1 = 0 ∨ (op1 ≤ opcode1 ∧ opcode1 ≤ op16) then
      some (vSolutions ++ [[smallInteger opcode1]])
    else none
  else if opcode2 = opSmallData then
    if carrier.nMaxDatacarrierBytes < vch1.length then none else some vSolutions
  else if opcode1 ≠ opcode2 ∨ vch1 ≠ [] then none
  else some vSolutions

/-- The loop that `OP_PUBKEYS` starts: take instructions as long as they push
something of the size of a key.  The bound is the length of the script. -/
def takeKeys : Nat → Instr → List Bytes → Instr × List Bytes
  | 0, i, vSolutions => (i, vSolutions)
  | n + 1, i, vSolutions =>
    if 33 ≤ i.data.length ∧ i.data.length ≤ 65 then
      match getOp i.rest with
      | none => (⟨opInvalidOpcode, [], i.rest⟩, vSolutions ++ [i.data])
      | some i' => takeKeys n i' (vSolutions ++ [i.data])
    else (i, vSolutions)

/-- The comparison of a script with a template. -/
def matchTemplate (carrier : DataCarrier) : List UInt8 → CScript → List Bytes → Option (List Bytes)
  | [], script, vSolutions => if script = [] then some vSolutions else none
  | opcode2 :: template, script, vSolutions => match getOp script with
    | none => none
    | some i =>
      if opcode2 = opPubKeys then
        let (i, vSolutions) := takeKeys script.length i vSolutions
        match template with
        | [] => none
        | opcode2 :: template => match matchOp carrier opcode2 i.opcode i.data vSolutions with
          | none => none
          | some vSolutions => matchTemplate carrier template i.rest vSolutions
      else match matchOp carrier opcode2 i.opcode i.data vSolutions with
        | none => none
        | some vSolutions => matchTemplate carrier template i.rest vSolutions

/-- The first byte of a solution. -/
def solutionByte (s : Option Bytes) : Nat := ((s.bind List.head?).getD 0).toNat

/-- The additional checks for `TX_MULTISIG`. -/
def multisigOk (vSolutions : List Bytes) : Bool :=
  let m := solutionByte vSolutions.head?
  let n := solutionByte vSolutions.getLast?
  1 ≤ m && 1 ≤ n && m ≤ n && vSolutions.length - 2 == n

/-- The result of `Solver` with its two output arguments. -/
structure Solution where
  found : Bool
  typeRet : TxnOutType
  vSolutions : List Bytes
  deriving DecidableEq

/-- The scan over the templates. -/
def scanTemplates (carrier : DataCarrier) (script : CScript) :
    List (TxnOutType × List UInt8) → Solution
  | [] => ⟨false, .nonstandard, []⟩
  | (type, template) :: templates => match matchTemplate carrier template script [] with
    | none => scanTemplates carrier script templates
    | some vSolutions => ⟨type != .multisig || multisigOk vSolutions, type, vSolutions⟩

/-- `hashBytes` of `IsMarketScript`: the key that owns the object. -/
def marketHashBytes : AnyMarketObj → Bytes
  | ⟨.decision, o⟩ => o.data.keyID.val
  | ⟨.market, o⟩ => o.data.keyID.val
  | ⟨.trade, o⟩ => o.data.keyID.val
  | _ => []

/-- The market script shortcut: the owner of the object, for a market script. -/
def marketSolution (script : CScript) : Except ReadError (Option Bytes) :=
  if script.length < 2 ∨ script.getLast? ≠ some opMarket then .ok none
  else match marketObjCtr script with
    | .error e => .error e
    | .ok none => .ok none
    | .ok (some o) => .ok (some (marketHashBytes o))

/-- `Solver`. -/
def solver (carrier : DataCarrier) (script : CScript) : Except ReadError Solution :=
  if isPayToScriptHash script then .ok ⟨true, .scripthash, [(script.drop 2).take 20]⟩
  else match marketSolution script with
    | .error e => .error e
    | .ok (some hashBytes) => .ok ⟨true, .market, [hashBytes]⟩
    | .ok none => .ok (scanTemplates carrier script (mTemplates carrier))

/-- A scan fails with no type, or at the additional checks of `TX_MULTISIG`. -/
theorem scanTemplates_failed {carrier : DataCarrier} {script : CScript}
    {templates : List (TxnOutType × List UInt8)}
    (h : (scanTemplates carrier script templates).found = false) :
    (scanTemplates carrier script templates).typeRet = .nonstandard ∨
      (scanTemplates carrier script templates).typeRet = .multisig := by
  induction templates with
  | nil => exact Or.inl rfl
  | cons t templates ih =>
      obtain ⟨type, template⟩ := t
      rw [scanTemplates] at h ⊢
      cases hm : matchTemplate carrier template script [] with
      | none =>
          rw [hm] at h
          exact ih h
      | some vSolutions =>
          rw [hm] at h
          simp only [Bool.or_eq_false_iff, bne_eq_false_iff_eq] at h
          exact Or.inr h.1

/-- A script that `Solver` refuses pays to no key and no script hash. -/
theorem solver_failed {carrier : DataCarrier} {script : CScript} {s : Solution}
    (hs : solver carrier script = .ok s) (h : s.found = false) :
    s.typeRet = .nonstandard ∨ s.typeRet = .multisig := by
  unfold solver at hs
  split_ifs at hs
  · obtain rfl := Except.ok.inj hs
    simp at h
  · split at hs
    · cases hs
    · obtain rfl := Except.ok.inj hs
      simp at h
    · obtain rfl := Except.ok.inj hs
      exact scanTemplates_failed h

end Hivemind
