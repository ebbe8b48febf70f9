import Hivemind.Primitives.Basic

/-!
# Scripts as byte strings

The reading and writing side of `script.h` and `script.cpp`: opcodes, pushes, `GetOp`, the script
predicates and the signature-operation count.

A script is a byte string, and an instruction is what `GetOp` takes off its front: an opcode, the
bytes that it pushes, and what is left.  The size of a push is compared with what is left of the
script as an `unsigned int`, and `operator<<` writes the size of a push in four bytes at most, so
scripts from `2 ^ 32` bytes on behave in their own way; the lemmas say where a bound is needed.

* `getOp_some`: what `GetOp` returns, case by case.
* `getOp_rest_lt`: reading an instruction moves forward.
* `getOp_pushData`: `GetOp` reads back what `operator<<` wrote.
* `readScript_eq`: a script is read one instruction at a time.
* `isPushOnly`, `isPayToScriptHash`, `isUnspendable`, `getSigOpCount`: what is asked of a script
  without running it.
-/

namespace Hivemind

open Codecs

/-- Serialized script (`CScript`). -/
abbrev CScript := Bytes

/-! ## Opcodes -/

def opPushData1 : UInt8 := 0x4c
def opPushData2 : UInt8 := 0x4d
def opPushData4 : UInt8 := 0x4e
def op1Negate : UInt8 := 0x4f
def op1 : UInt8 := 0x51
def op16 : UInt8 := 0x60
def opIf : UInt8 := 0x63
def opEndIf : UInt8 := 0x68
def opReturn : UInt8 := 0x6a
def opEqual : UInt8 := 0x87
def opHash160 : UInt8 := 0xa9
def opCheckSig : UInt8 := 0xac
def opCheckSigVerify : UInt8 := 0xad
def opCheckMultiSig : UInt8 := 0xae
def opCheckMultiSigVerify : UInt8 := 0xaf
def opMarket : UInt8 := 0xc0
def opInvalidOpcode : UInt8 := 0xff

/-- `MAX_SCRIPT_ELEMENT_SIZE`. -/
def maxScriptElementSize : Nat := 520

/-! ## Instructions -/

/-- One instruction as `GetOp` returns it: the opcode, the bytes it pushes, and
what is left of the script. -/
structure Instr where
  opcode : UInt8
  data : Bytes
  rest : Bytes
  deriving DecidableEq, Repr

/-- The part of `GetOp2` that follows an opcode with an immediate operand of
`nSize` bytes.  The comparison is one of `unsigned int`s. -/
def getData (opcode : UInt8) (nSize : Nat) (s : Bytes) : Option Instr :=
  if s.length % 2 ^ 32 < nSize then none else some ⟨opcode, s.take nSize, s.drop nSize⟩

/-- The size of the immediate operand of a push, and what follows it. -/
def getPushSize (opcode : UInt8) (s : Bytes) : Option (Nat × Bytes) :=
  if opcode < opPushData1 then some (opcode.toNat, s)
  else if opcode = opPushData1 then
    if s.length < 1 then none else some (leNat (s.take 1), s.drop 1)
  else if opcode = opPushData2 then
    if s.length < 2 then none else some (leNat (s.take 2), s.drop 2)
  else
    if s.length < 4 then none else some (leNat (s.take 4), s.drop 4)

/-- `CScript::GetOp2`: read one instruction off the front. -/
def getOp : Bytes → Option Instr
  | [] => none
  | opcode :: s =>
    if opcode ≤ opPushData4 then
      match getPushSize opcode s with
      | none => none
      | some (nSize, s') => getData opcode nSize s'
    else some ⟨opcode, [], s⟩

/-- `CScript::operator<<(const std::vector<unsigned char>&)`: the bytes that push
`b`.  The widest size field is an `unsigned int`. -/
def pushData (b : Bytes) : CScript :=
  if b.length < 0x4c then UInt8.ofNat b.length :: b
  else if b.length ≤ 0xff then opPushData1 :: leBytes 1 b.length ++ b
  else if b.length ≤ 0xffff then opPushData2 :: leBytes 2 b.length ++ b
  else opPushData4 :: leBytes 4 b.length ++ b

/-! ## Reading lemmas -/

theorem getData_some {opcode : UInt8} {nSize : Nat} {s : Bytes} {i : Instr}
    (h : getData opcode nSize s = some i) :
    nSize ≤ s.length ∧ i = ⟨opcode, s.take nSize, s.drop nSize⟩ := by
  unfold getData at h
  split_ifs at h with hlt
  have hle : s.length % 2 ^ 32 ≤ s.length := Nat.mod_le ..
  exact ⟨by omega, (Option.some.inj h).symm⟩

theorem getPushSize_some {opcode : UInt8} {s s' : Bytes} {nSize : Nat}
    (h : getPushSize opcode s = some (nSize, s')) :
    ∃ p, s = p ++ s' ∧ (p = [] ∨ (p ≠ [] ∧ nSize = leNat p)) := by
  have hdrop : ∀ k, s = s.take k ++ s.drop k := fun k => (List.take_append_drop k s).symm
  have htake : ∀ k, 0 < k → ¬ s.length < k → s.take k ≠ [] := by
    intro k hk hlen hnil
    rcases List.take_eq_nil_iff.mp hnil with h0 | h0
    · omega
    · simp [h0] at hlen
      omega
  unfold getPushSize at h
  split_ifs at h with h1 h2 hlen h3 hlen hlen
  all_goals
    simp only [Option.some.injEq, Prod.mk.injEq] at h
    obtain ⟨rfl, rfl⟩ := h
  · exact ⟨[], rfl, Or.inl rfl⟩
  · exact ⟨_, hdrop 1, Or.inr ⟨htake 1 (by omega) hlen, rfl⟩⟩
  · exact ⟨_, hdrop 2, Or.inr ⟨htake 2 (by omega) hlen, rfl⟩⟩
  · exact ⟨_, hdrop 4, Or.inr ⟨htake 4 (by omega) hlen, rfl⟩⟩

/-- What `GetOp` returns, case by case. -/
theorem getOp_some {s : Bytes} {i : Instr} (h : getOp s = some i) :
    (opPushData4 < i.opcode ∧ i.data = [] ∧ s = i.opcode :: i.rest) ∨
    (i.opcode ≤ opPushData4 ∧ ∃ p, s = i.opcode :: p ++ i.data ++ i.rest) := by
  cases s with
  | nil => simp [getOp] at h
  | cons opcode s =>
      rw [getOp] at h
      by_cases hop : opcode ≤ opPushData4
      · rw [if_pos hop] at h
        cases hsize : getPushSize opcode s with
        | none => simp [hsize] at h
        | some q =>
            obtain ⟨nSize, s'⟩ := q
            simp only [hsize] at h
            obtain ⟨p, rfl, -⟩ := getPushSize_some hsize
            obtain ⟨-, rfl⟩ := getData_some h
            exact Or.inr ⟨hop, p, by simp⟩
      · rw [if_neg hop] at h
        obtain rfl := Option.some.inj h
        exact Or.inl ⟨not_le.mp hop, rfl, rfl⟩

theorem getOp_rest_lt {s : Bytes} {i : Instr} (h : getOp s = some i) :
    i.rest.length < s.length := by
  rcases getOp_some h with ⟨-, -, hs⟩ | ⟨-, p, hs⟩
  · rw [hs]
    simp
  · rw [hs]
    simp only [List.cons_append, List.length_cons, List.length_append]
    omega

theorem eq_zero_of_leNat {p : Bytes} (h : leNat p = 0) : ∀ b ∈ p, b = 0 := by
  induction p with
  | nil => simp
  | cons c p ih =>
      rw [leNat] at h
      refine List.forall_mem_cons.mpr ⟨?_, ih (by omega)⟩
      apply UInt8.toNat_inj.mp
      show c.toNat = 0
      omega

/-- A push of nothing at the end of a script ends in its opcode or in a zero size. -/
theorem getOp_push_nil {t : Bytes} {i : Instr} (h : getOp t = some i)
    (hop : i.opcode ≤ opPushData4) (hdata : i.data = []) (hrest : i.rest = []) :
    t.getLast? = some i.opcode ∨ t.getLast? = some 0 := by
  cases t with
  | nil => simp [getOp] at h
  | cons opcode s =>
      rw [getOp] at h
      by_cases hle : opcode ≤ opPushData4
      · rw [if_pos hle] at h
        cases hsize : getPushSize opcode s with
        | none => simp [hsize] at h
        | some q =>
            obtain ⟨nSize, s'⟩ := q
            simp only [hsize] at h
            obtain ⟨p, rfl, hp⟩ := getPushSize_some hsize
            obtain ⟨hlen, rfl⟩ := getData_some h
            simp only at hdata hrest
            have hs' : s' = [] := by
              rw [← List.take_append_drop nSize s', hdata, hrest]
              rfl
            subst hs'
            have hzero : nSize = 0 := by simpa using hlen
            rcases hp with rfl | ⟨hne, hval⟩
            · exact Or.inl rfl
            · right
              have hall := eq_zero_of_leNat (hval.symm.trans hzero)
              rw [List.append_nil, List.getLast?_cons, List.getLast?_eq_getLast_of_ne_nil hne]
              simp [hall _ (List.getLast_mem hne)]
      · rw [if_neg hle] at h
        obtain rfl := Option.some.inj h
        exact absurd hop hle

theorem getOp_of_gt {opcode : UInt8} (h : opPushData4 < opcode) (s : Bytes) :
    getOp (opcode :: s) = some ⟨opcode, [], s⟩ := by
  rw [getOp, if_neg (not_le.mpr h)]

/-- The opcode that `operator<<` takes for a push of `n` bytes. -/
def pushOpcode (n : Nat) : UInt8 :=
  if n < 0x4c then UInt8.ofNat n
  else if n ≤ 0xff then opPushData1
  else if n ≤ 0xffff then opPushData2
  else opPushData4

theorem pushOpcode_le (n : Nat) : pushOpcode n ≤ opPushData4 := by
  unfold pushOpcode
  split_ifs with h1
  · have hn : (UInt8.ofNat n).toNat = n := by
      rw [UInt8.toNat_ofNat']
      omega
    rw [UInt8.le_iff_toNat_le, hn]
    exact Nat.le_trans h1.le (by decide)
  · decide
  · decide
  · decide

/-- A push is read by its size field.  The bytes that are left are counted as an
`unsigned int`. -/
theorem getOp_pushData_append {b : Bytes} (hb : b.length < 2 ^ 32) (s : Bytes) :
    getOp (pushData b ++ s) = getData (pushOpcode b.length) b.length (b ++ s) := by
  have hle := pushOpcode_le b.length
  -- the operand in `k` bytes, before the data
  have hroom : ∀ k, ¬ (leBytes k b.length ++ (b ++ s)).length < k := by
    intro k
    rw [List.length_append, length_leBytes]
    omega
  have htake : ∀ k, (leBytes k b.length ++ (b ++ s)).take k = leBytes k b.length :=
    fun k => List.take_left' (length_leBytes ..)
  have hdrop : ∀ k, (leBytes k b.length ++ (b ++ s)).drop k = b ++ s :=
    fun k => List.drop_left' (length_leBytes ..)
  unfold pushData pushOpcode at *
  split_ifs at hle ⊢ with h1 h2 h3
  · have hn : (UInt8.ofNat b.length).toNat = b.length := by
      rw [UInt8.toNat_ofNat']
      omega
    have hlt : UInt8.ofNat b.length < opPushData1 := by
      rw [UInt8.lt_iff_toNat_lt, hn]
      exact h1
    rw [List.cons_append, getOp, if_pos hle]
    simp only [getPushSize, if_pos hlt, hn]
  · have hn : leNat (leBytes 1 b.length) = b.length := leNat_leBytes_of_lt (by omega)
    rw [List.cons_append, List.cons_append, List.append_assoc, getOp, if_pos (by decide),
      getPushSize, if_neg (by decide), if_pos rfl, if_neg (hroom 1), htake, hdrop, hn]
  · have hn : leNat (leBytes 2 b.length) = b.length := leNat_leBytes_of_lt (by omega)
    rw [List.cons_append, List.cons_append, List.append_assoc, getOp, if_pos (by decide),
      getPushSize, if_neg (by decide), if_neg (by decide), if_pos rfl, if_neg (hroom 2), htake,
      hdrop, hn]
  · have hn : leNat (leBytes 4 b.length) = b.length := leNat_leBytes_of_lt (by omega)
    rw [List.cons_append, List.cons_append, List.append_assoc, getOp, if_pos (by decide),
      getPushSize, if_neg (by decide), if_neg (by decide), if_neg (by decide), if_neg (hroom 4),
      htake, hdrop, hn]

/-- Reading back a push.  Sizes from `2 ^ 32` on are written modulo `2 ^ 32`. -/
theorem getOp_pushData {b : Bytes} (hb : b.length < 2 ^ 32) (s : Bytes)
    (hs : (b ++ s).length < 2 ^ 32) :
    ∃ opcode, opcode ≤ opPushData4 ∧ getOp (pushData b ++ s) = some ⟨opcode, b, s⟩ := by
  refine ⟨pushOpcode b.length, pushOpcode_le _, ?_⟩
  rw [getOp_pushData_append hb, getData, Nat.mod_eq_of_lt hs, if_neg (by simp)]
  simp

/-! ## Reading a whole script -/

/-- Read instructions until the script ends; `none` when one cannot be read.
`fuel` bounds their number, and the length of the script is always enough. -/
def readScriptAux : Nat → Bytes → Option (List Instr)
  | _, [] => some []
  | 0, _ :: _ => none
  | fuel + 1, s => match getOp s with
    | none => none
    | some i => (readScriptAux fuel i.rest).map (i :: ·)

/-- All instructions of a script, when it reads to its end. -/
def readScript (s : CScript) : Option (List Instr) := readScriptAux s.length s

theorem readScriptAux_fuel {s : Bytes} {m n : Nat} (hm : s.length ≤ m) (hn : s.length ≤ n) :
    readScriptAux m s = readScriptAux n s := by
  induction m generalizing s n with
  | zero =>
      obtain rfl := List.length_eq_zero_iff.mp (Nat.le_zero.mp hm)
      cases n <;> rfl
  | succ m ih =>
      cases s with
      | nil => cases n <;> rfl
      | cons b s =>
          cases n with
          | zero => simp at hn
          | succ n =>
              rw [readScriptAux, readScriptAux]
              · cases hop : getOp (b :: s) with
                | none => rfl
                | some i =>
                    have hlt := getOp_rest_lt hop
                    simp only [List.length_cons] at hm hn hlt
                    simp only
                    rw [ih (n := n) (by omega) (by omega)]
              · simp
              · simp

@[simp] theorem readScript_nil : readScript [] = some [] := rfl

theorem readScript_eq {s : Bytes} (hs : s ≠ []) :
    readScript s = (getOp s).bind fun i => (readScript i.rest).map (i :: ·) := by
  cases s with
  | nil => exact absurd rfl hs
  | cons b s =>
      rw [readScript, List.length_cons, readScriptAux]
      · cases hop : getOp (b :: s) with
        | none => rfl
        | some i =>
            have hlt := getOp_rest_lt hop
            simp only [List.length_cons] at hlt
            simp only [Option.bind_some, readScript]
            rw [readScriptAux_fuel (by omega) (le_refl _)]
      · simp

/-- The script reads to its end and its last instruction is a push, so its last
byte is pushed data and not an opcode. -/
def EndsInPush (s : CScript) : Prop :=
  ∃ is i, readScript s = some (is ++ [i]) ∧ i.opcode ≤ opPushData4

/-! ## Script predicates -/

/-- `CScript::IsPushOnly`. -/
def isPushOnly (s : CScript) : Bool :=
  match readScript s with
  | none => false
  | some is => is.all fun i => i.opcode ≤ op16

/-- `CScript::IsPayToScriptHash`. -/
def isPayToScriptHash (s : CScript) : Bool :=
  s.length == 23 && s[0]? == some opHash160 && s[1]? == some 0x14 && s[22]? == some opEqual

/-- `CScript::IsUnspendable`. -/
def isUnspendable (s : CScript) : Bool := s.head? == some opReturn

/-- `CScript::DecodeOP_N` where it is used, on `OP_1` to `OP_16`. -/
def decodeOpN (opcode : UInt8) : Nat := opcode.toNat - 0x50

/-- The loop of `CScript::GetSigOpCount(bool)`, which stops at the first
instruction that cannot be read.  Its `unsigned int` is a number here, see `getSigOpCount_lt`. -/
def sigOpCountAux (fAccurate : Bool) : Nat → UInt8 → Bytes → Nat
  | 0, _, _ => 0
  | fuel + 1, lastOpcode, s => match getOp s with
    | none => 0
    | some i =>
      let n :=
        if i.opcode = opCheckSig ∨ i.opcode = opCheckSigVerify then 1
        else if i.opcode = opCheckMultiSig ∨ i.opcode = opCheckMultiSigVerify then
          if fAccurate && (op1 ≤ lastOpcode && lastOpcode ≤ op16) then decodeOpN lastOpcode else 20
        else 0
      n + sigOpCountAux fAccurate fuel i.opcode i.rest

/-- `CScript::GetSigOpCount(bool fAccurate)`. -/
def getSigOpCount (fAccurate : Bool) (s : CScript) : Nat :=
  sigOpCountAux fAccurate s.length opInvalidOpcode s

/-- `CScript::GetSigOpCount(const CScript& scriptSig)`: for a pay-to-script-hash
output, the operations of the script that `scriptSig` pushes last. -/
def getP2SHSigOpCountOf (s scriptSig : CScript) : Nat :=
  if !isPayToScriptHash s then getSigOpCount true s
  else match readScript scriptSig with
    | none => 0
    | some is =>
      if is.all (fun i => i.opcode ≤ op16) then
        getSigOpCount true ((is.getLast?.map Instr.data).getD [])
      else 0

end Hivemind
