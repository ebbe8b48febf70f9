import Hivemind.Coins.Coins
import Hivemind.Coins.Compressor
import Hivemind.Lib.BitMask
import Hivemind.Primitives.WireFormat

/-!
# The codec of the coins database

`CCoins::Serialize`, `Unserialize` and `GetSerializeSize` of `coins.h`, with `CalcMaskSize`.  A
header code says whether the first two outputs are unspent and how many bytes of the mask of the
others are not zero; when neither of the two is unspent, there must be one, and one less is
written.

So the bytes depend on which outputs are unspent in three ways, and the reader has to recover all
of them from the header code and the mask: how many mask bytes to read, which outputs to read
after them, and how long the vector is.  The functions assert that the coins are not pruned.  A
count that is kept in an `unsigned int` is cut to 32 bits, as the source does it; `SizeFits` says
that nothing is lost, and is shown of all coins that come from a transaction in a message.

* `headerCode_spec`: what the header code says.
* `flags_eq`: what the bits of the mask say, after those of the header.
* `unserialize_serialize`: **coins that are clean and not pruned come back.**
* `getSerializeSize_eq`: the size is the number of bytes that are written.
* `SizeFits.fromTx`, `SizeFits.spend`: coins never outgrow the transaction they are from.
-/

namespace Hivemind

open Codecs

namespace CCoins

/-- Is there an unspent output at `i`? -/
def avail (c : CCoins) (i : Nat) : Bool := (c.vout[i]?.map fun o => !o.isNull).getD false

/-- `CalcMaskSize`: the number of bytes of the mask, and the number of non-zero ones. -/
def calcMaskSize (c : CCoins) : Nat × Nat :=
  scanMask (fun b => (List.range 8).any fun i => c.avail (2 + b * 8 + i))
    ((c.vout.length - 2 + 7) / 8)

/-- The header code, an `unsigned int`. -/
def headerCode (c : CCoins) : Nat :=
  let fFirst := c.avail 0
  let fSecond := c.avail 1
  (8 * (c.calcMaskSize.2 - if fFirst || fSecond then 0 else 1) + (if c.fCoinBase then 1 else 0) +
    (if fFirst then 2 else 0) + if fSecond then 4 else 0) % 2 ^ 32

/-- The bytes of the mask. -/
def maskBytes (c : CCoins) : Bytes :=
  (List.range c.calcMaskSize.1).map fun b => packBits fun i => c.avail (2 + b * 8 + i)

/-- What both `Serialize` and `GetSerializeSize` assert. -/
def serializable (c : CCoins) : Bool := c.avail 0 || c.avail 1 || c.calcMaskSize.2 != 0

/-- `Serialize`; `none` when the assertion fails. -/
def serialize (secp : Secp256k1) (c : CCoins) : Option Bytes :=
  if c.serializable then
    some (writeVarIntOfInt c.nVersion ++ writeVarInt 32 c.headerCode ++ c.maskBytes ++
      c.vout.flatMap (fun o => if o.isNull then [] else serTxOut secp o) ++
      writeVarIntOfInt (Int32.ofInt c.nHeight))
  else none

/-- `GetSizeOfVarInt<int>`. -/
def sizeOfVarIntOfInt (n : Int32) : Nat := if n ≤ 0x7f then 1 else sizeOfVarInt n.toUInt32.toNat

/-- `GetSerializeSize` of a `CTxOutCompressor`: `Serialize` on a `CSizeComputer`, cut to
an `unsigned int`. -/
def sizeOfTxOut (secp : Secp256k1) (o : CTxOut) : UInt32 :=
  (Sink.size.write 0 (serTxOut secp o)).toUInt32

/-- `GetSerializeSize`; `none` when the assertion fails. -/
def getSerializeSize (secp : Secp256k1) (c : CCoins) : Option UInt32 :=
  if c.serializable then
    let nSize := UInt32.ofNat (sizeOfVarIntOfInt c.nVersion)
    let nSize := nSize + UInt32.ofNat (sizeOfVarInt c.headerCode)
    let nSize := nSize + UInt32.ofNat c.calcMaskSize.1
    let nSize := c.vout.foldl (fun n o => if o.isNull then n else n + sizeOfTxOut secp o) nSize
    some (nSize + UInt32.ofNat (sizeOfVarIntOfInt (Int32.ofInt c.nHeight)))
  else none

/-- The outputs whose positions are marked; the others are spent. -/
def readOutputs (secp : Secp256k1) : List Bool → Reader (List CTxOut)
  | [], s => .ok ([], s)
  | false :: vAvail, s => do
    let (vout, s) ← readOutputs secp vAvail s
    return (CTxOut.null :: vout, s)
  | true :: vAvail, s => do
    let (o, s) ← deTxOut secp s
    let (vout, s) ← readOutputs secp vAvail s
    return (o :: vout, s)

/-- A `VARINT` that is read into an `int`. -/
def readVarIntAsInt : Reader Int32 := fun s => do
  let (n, s) ← readVarInt 32 s
  return ((UInt32.ofNat n).toInt32, s)

/-- `Unserialize`. -/
def unserialize (secp : Secp256k1) : Reader CCoins := fun s => do
  let (nVersion, s) ← readVarIntAsInt s
  let (nCode, s) ← readVarInt 32 s
  let nMaskCode := nCode / 8 + if nCode &&& 6 != 0 then 0 else 1
  let (mask, s) ← readMask nMaskCode s
  let (vout, s) ← readOutputs secp ((nCode &&& 2 != 0) :: (nCode &&& 4 != 0) :: mask) s
  let (nHeight, s) ← readVarIntAsInt s
  return (cleanup { fCoinBase := nCode &&& 1 != 0, vout, nHeight := nHeight.toInt, nVersion }, s)

/-! ## The mask -/

theorem avail_eq_true_iff {c : CCoins} {i : Nat} :
    c.avail i = true ↔ ∃ o, c.vout[i]? = some o ∧ o.isNull = false := by
  rw [avail]
  cases c.vout[i]? <;> simp

/-- A byte of the mask is zero when `CalcMaskSize` sees no unspent output in it. -/
theorem any_avail_eq (c : CCoins) (b : Nat) :
    ((List.range 8).any fun i => c.avail (2 + b * 8 + i)) =
      (packBits (fun i => c.avail (2 + b * 8 + i)) != 0) := by
  rw [Bool.eq_iff_iff, List.any_eq_true, bne_iff_ne, ne_eq, packBits_eq_zero_iff]
  simp

theorem calcMaskSize_spec (c : CCoins) :
    c.calcMaskSize.1 ≤ (c.vout.length - 2 + 7) / 8 ∧
    (∀ b, c.calcMaskSize.1 ≤ b → b < (c.vout.length - 2 + 7) / 8 →
      ((List.range 8).any fun i => c.avail (2 + b * 8 + i)) = false) ∧
    (∀ b, c.calcMaskSize.1 = b + 1 →
      ((List.range 8).any fun i => c.avail (2 + b * 8 + i)) = true) ∧
    c.calcMaskSize.2 = (List.range c.calcMaskSize.1).countP fun b =>
      (List.range 8).any fun i => c.avail (2 + b * 8 + i) :=
  scanMask_spec ..

theorem countP_maskBytes (c : CCoins) : c.maskBytes.countP (· != 0) = c.calcMaskSize.2 := by
  obtain ⟨-, -, -, hcount⟩ := c.calcMaskSize_spec
  rw [maskBytes, List.countP_map, hcount]
  congr 1
  funext b
  exact (any_avail_eq c b).symm

theorem getLast?_maskBytes (c : CCoins) : ∀ ch ∈ c.maskBytes.getLast?, ch ≠ 0 := by
  obtain ⟨-, -, hlast, -⟩ := c.calcMaskSize_spec
  intro ch hch
  rw [maskBytes] at hch
  cases hk : c.calcMaskSize.1 with
  | zero => simp [hk] at hch
  | succ k =>
      rw [hk, List.range_succ, List.map_append, List.map_singleton, List.getLast?_concat] at hch
      obtain rfl := Option.some.inj hch
      have hused := hlast k hk
      rw [any_avail_eq] at hused
      simpa using hused

/-- Every unspent output but the first two has its bit in the mask. -/
theorem lt_of_avail {c : CCoins} {i : Nat} (h : c.avail i = true) :
    i < 2 + c.calcMaskSize.1 * 8 := by
  obtain ⟨-, hzero, -, -⟩ := c.calcMaskSize_spec
  by_contra hge
  obtain ⟨o, ho, -⟩ := avail_eq_true_iff.mp h
  have hi := (List.getElem?_eq_some_iff.mp ho).1
  have hb := hzero ((i - 2) / 8) (by omega) (by omega)
  rw [List.any_eq_false] at hb
  have hbit := hb ((i - 2) % 8) (List.mem_range.mpr (by omega))
  have hpos : 2 + (i - 2) / 8 * 8 + (i - 2) % 8 = i := by omega
  rw [hpos] at hbit
  exact hbit h

/-- What the bits of the mask say, after those of the header. -/
theorem flags_eq (c : CCoins) :
    c.avail 0 :: c.avail 1 :: c.maskBytes.flatMap unpackBits =
      (List.range (2 + c.calcMaskSize.1 * 8)).map c.avail := by
  have hmask : c.maskBytes.flatMap unpackBits =
      (List.range (c.calcMaskSize.1 * 8)).map fun i => c.avail (2 + i) := by
    rw [← flatMap_range_blocks (fun i => c.avail (2 + i)), maskBytes, List.flatMap_map]
    congr 1
    funext b
    simp only [unpackBits_packBits, Nat.add_assoc]
  rw [hmask, List.range_add, List.map_append, List.map_map]
  rfl

/-! ## Coins that are written -/

/-- Coins as the database gets them: cleaned, not pruned, with the blanked outputs of
`SetNull` where an output is spent. -/
structure Storable (c : CCoins) : Prop where
  clean : c.cleanup = c
  unpruned : c.isPruned = false
  values : ∀ o ∈ c.vout, o = CTxOut.null ∨ moneyRange o.nValue = true
  height : 0 ≤ c.nHeight ∧ c.nHeight < 2 ^ 31
  version : 0 ≤ c.nVersion

/-- The outputs take less than 4 GiB, so that every count is an `unsigned int`. -/
def SizeFits (c : CCoins) : Prop :=
  (c.vout.map fun o => o.scriptPubKey.length + 16).sum + 16 < 2 ^ 32

variable {secp : Secp256k1} {c : CCoins}

theorem SizeFits.script (h : c.SizeFits) {o : CTxOut} (ho : o ∈ c.vout) :
    o.scriptPubKey.length + 6 < 2 ^ 32 := by
  have hle := List.single_le_sum (by simp) _ (List.mem_map_of_mem
    (f := fun o : CTxOut => o.scriptPubKey.length + 16) ho)
  rw [SizeFits] at h
  omega

theorem SizeFits.length (h : c.SizeFits) : c.vout.length * 16 + 16 < 2 ^ 32 := by
  have hle : (c.vout.map fun _ => 16).sum ≤
      (c.vout.map fun o : CTxOut => o.scriptPubKey.length + 16).sum :=
    List.sum_le_sum fun o _ => Nat.le_add_left ..
  have hconst : (c.vout.map fun _ => 16).sum = c.vout.length * 16 := by simp
  rw [SizeFits] at h
  omega

/-- The last output is unspent. -/
theorem Storable.avail_last (h : c.Storable) :
    0 < c.vout.length ∧ c.avail (c.vout.length - 1) = true := by
  have hne : c.vout ≠ [] := by
    intro hnil
    have hpruned := h.unpruned
    simp [isPruned, hnil] at hpruned
  have hclean : c.vout.rdropWhile CTxOut.isNull = c.vout := congrArg vout h.clean
  have hlast := List.rdropWhile_eq_self_iff.mp hclean hne
  have hpos := List.length_pos_iff.mpr hne
  refine ⟨hpos, avail_eq_true_iff.mpr ⟨c.vout.getLast hne, ?_, by simpa using hlast⟩⟩
  rw [← List.getLast?_eq_getElem?, List.getLast?_eq_some_getLast hne]

theorem Storable.length_le (h : c.Storable) : c.vout.length ≤ 2 + c.calcMaskSize.1 * 8 := by
  obtain ⟨hpos, hlast⟩ := h.avail_last
  have hlt := lt_of_avail hlast
  omega

/-- Where neither of the first two outputs is unspent, the mask is not empty. -/
theorem Storable.mask_pos (h : c.Storable) (h0 : c.avail 0 = false) (h1 : c.avail 1 = false) :
    0 < c.calcMaskSize.2 := by
  obtain ⟨hpos, hlast⟩ := h.avail_last
  obtain ⟨-, -, hused, hcount⟩ := c.calcMaskSize_spec
  have hlt := lt_of_avail hlast
  cases hk : c.calcMaskSize.1 with
  | zero =>
      have hcases : c.vout.length - 1 = 0 ∨ c.vout.length - 1 = 1 := by omega
      rcases hcases with heq | heq
      · simp [heq, h0] at hlast
      · simp [heq, h1] at hlast
  | succ k =>
      rw [hcount, List.countP_pos_iff]
      exact ⟨k, List.mem_range.mpr (by omega), hused k hk⟩

theorem Storable.serializable (h : c.Storable) : c.serializable = true := by
  rw [CCoins.serializable]
  cases h0 : c.avail 0 with
  | true => rfl
  | false =>
      cases h1 : c.avail 1 with
      | true => rfl
      | false =>
          have hpos := h.mask_pos h0 h1
          simp
          omega

/-! ## Reading them back -/

/-- The outputs with the blank ones that the mask has room for. -/
def padded (c : CCoins) : List CTxOut :=
  c.vout ++ List.replicate (2 + c.calcMaskSize.1 * 8 - c.vout.length) CTxOut.null

theorem Storable.flags (h : c.Storable) :
    (List.range (2 + c.calcMaskSize.1 * 8)).map c.avail = c.padded.map fun o => !o.isNull := by
  have hle := h.length_le
  apply List.ext_getElem?
  intro i
  rw [List.getElem?_map, List.getElem?_map, padded, List.getElem?_append]
  by_cases hi : i < c.vout.length
  · rw [if_pos hi, List.getElem?_range (by omega), List.getElem?_eq_getElem hi]
    simp [avail, List.getElem?_eq_getElem hi]
  · rw [if_neg hi, List.getElem?_replicate]
    by_cases hi' : i < 2 + c.calcMaskSize.1 * 8
    · rw [List.getElem?_range hi', if_pos (by omega)]
      simp [avail, List.getElem?_eq_none (Nat.not_lt.mp hi)]
    · rw [if_neg (by omega), List.getElem?_eq_none (by simpa using hi')]
      rfl

theorem flatMap_padded (c : CCoins) (f : CTxOut → Bytes) (hf : f CTxOut.null = []) :
    c.padded.flatMap f = c.vout.flatMap f := by
  rw [padded, List.flatMap_append, List.flatMap_replicate, hf]
  simp

theorem cleanup_padded (h : c.Storable) : c.padded.rdropWhile CTxOut.isNull = c.vout := by
  have hclean : c.vout.rdropWhile CTxOut.isNull = c.vout := congrArg vout h.clean
  have hdrop : ∀ n, (c.vout ++ List.replicate n CTxOut.null).rdropWhile CTxOut.isNull = c.vout := by
    intro n
    induction n with
    | zero => simpa using hclean
    | succ n ih =>
        rw [List.replicate_succ', ← List.append_assoc, List.rdropWhile_concat_pos _ _ _ rfl, ih]
  exact hdrop _

theorem isNull_of_moneyRange {o : CTxOut} (h : moneyRange o.nValue = true) : o.isNull = false := by
  obtain ⟨h0, -⟩ := moneyRange_iff.mp h
  rw [CTxOut.isNull, beq_eq_false_iff_ne]
  intro heq
  rw [heq] at h0
  exact absurd h0 (by decide)

/-- Outputs are read back by their marks. -/
theorem readOutputs_flatMap (hsecp : secp.Inverts) {vout : List CTxOut}
    (hvalues : ∀ o ∈ vout, o = CTxOut.null ∨
      moneyRange o.nValue = true ∧ o.scriptPubKey.length + 6 < 2 ^ 32) (s : Bytes) :
    readOutputs secp (vout.map fun o => !o.isNull)
      (vout.flatMap (fun o => if o.isNull then [] else serTxOut secp o) ++ s) = .ok (vout, s) := by
  induction vout with
  | nil => rfl
  | cons o vout ih =>
      have ih := ih fun o' ho' => hvalues o' (List.mem_cons_of_mem o ho')
      rw [List.map_cons, List.flatMap_cons]
      rcases hvalues o List.mem_cons_self with rfl | ⟨hvalue, hscript⟩
      · simp only [CTxOut.isNull_null, Bool.not_true, if_true, List.nil_append, readOutputs, ih]
        rfl
      · simp only [isNull_of_moneyRange hvalue, Bool.not_false, Bool.false_eq_true, if_false,
          List.append_assoc, readOutputs, deTxOut_serTxOut hsecp hvalue hscript]
        simp only [Bind.bind, Except.bind, ih]
        rfl

theorem readVarIntAsInt_append {n : Int32} (h : 0 ≤ n) (s : Bytes) :
    readVarIntAsInt (writeVarIntOfInt n ++ s) = .ok (n, s) := by
  rw [readVarIntAsInt, writeVarIntOfInt_eq h,
    readVarInt_writeVarInt n.toUInt32.toNat_lt (by decide)]
  simp [Bind.bind, Except.bind, pure, Except.pure]

/-- The lowest three bits of a header code. -/
theorem and_header (a : Nat) {d m : Nat} (hd : d < 8) (hm : 7 &&& m = m) :
    (8 * a + d) &&& m = d &&& m := by
  have hmod : ∀ n : Nat, n &&& m = n % 8 &&& m := by
    intro n
    have h7 : n &&& 7 = n % 8 := Nat.and_two_pow_sub_one_eq_mod n 3
    rw [← hm, ← Nat.and_assoc, h7, hm]
  rw [hmod, Nat.mul_add_mod, Nat.mod_eq_of_lt hd]

/-- The number that the mask adds to the header code. -/
theorem SizeFits.mask_lt (h : c.SizeFits) : c.calcMaskSize.2 < 2 ^ 28 := by
  have hlen := h.length
  obtain ⟨hle, -, -, hcount⟩ := c.calcMaskSize_spec
  have hcountle : c.calcMaskSize.2 ≤ c.calcMaskSize.1 := by
    rw [hcount]
    exact le_trans List.countP_le_length (by simp)
  omega

/-- **What the header code says**: who minted the coins, whether the first two outputs
are unspent, and how many bytes of the mask are not zero. -/
theorem headerCode_spec (h : c.Storable) (hsize : c.SizeFits) :
    c.headerCode < 2 ^ 32 ∧ ((c.headerCode &&& 1 != 0) = c.fCoinBase) ∧
    ((c.headerCode &&& 2 != 0) = c.avail 0) ∧ ((c.headerCode &&& 4 != 0) = c.avail 1) ∧
    (c.headerCode / 8 + if c.headerCode &&& 6 != 0 then 0 else 1) = c.calcMaskSize.2 := by
  have hlt := hsize.mask_lt
  have hpos := h.mask_pos
  -- the code is eight times a number, plus the three flags
  obtain ⟨d, hd, hcode, h1, h2, h4, h6⟩ : ∃ d, d < 8 ∧
      c.headerCode = 8 * (c.calcMaskSize.2 - if c.avail 0 || c.avail 1 then 0 else 1) + d ∧
      ((d &&& 1 != 0) = c.fCoinBase) ∧ ((d &&& 2 != 0) = c.avail 0) ∧
      ((d &&& 4 != 0) = c.avail 1) ∧ ((d &&& 6 != 0) = (c.avail 0 || c.avail 1)) := by
    refine ⟨(if c.fCoinBase then 1 else 0) + (if c.avail 0 then 2 else 0) +
      (if c.avail 1 then 4 else 0), ?_, ?_, ?_⟩
    · split_ifs <;> decide
    · rw [headerCode, Nat.mod_eq_of_lt]
      · simp only [Nat.add_assoc]
      · split_ifs <;> omega
    · cases c.fCoinBase <;> cases c.avail 0 <;> cases c.avail 1 <;> decide
  rw [hcode, and_header _ hd rfl, and_header _ hd rfl, and_header _ hd rfl, and_header _ hd rfl,
    h1, h2, h4, h6]
  refine ⟨by omega, rfl, rfl, rfl, ?_⟩
  have hdiv : ∀ n, (8 * n + d) / 8 = n := by omega
  rw [hdiv]
  by_cases hfirst : (c.avail 0 || c.avail 1) = true
  · simp only [if_pos hfirst]
    omega
  · simp only [if_neg hfirst]
    simp only [Bool.or_eq_true, not_or, Bool.not_eq_true] at hfirst
    have := hpos hfirst.1 hfirst.2
    omega

theorem height_ofInt (h : c.Storable) :
    0 ≤ Int32.ofInt c.nHeight ∧ (Int32.ofInt c.nHeight).toInt = c.nHeight := by
  obtain ⟨h0, h1⟩ := h.height
  have heq : (Int32.ofInt c.nHeight).toInt = c.nHeight :=
    Int32.toInt_ofInt_of_le (by omega) (by omega)
  refine ⟨Int32.le_iff_toInt_le.mpr ?_, heq⟩
  rw [heq]
  exact h0

/-- Coins come back from the bytes that `Serialize` writes. -/
theorem unserialize_append (hsecp : secp.Inverts) (h : c.Storable) (hsize : c.SizeFits)
    {b : Bytes} (hb : c.serialize secp = some b) (s : Bytes) :
    unserialize secp (b ++ s) = .ok (c, s) := by
  obtain ⟨hlt, hcoinbase, hfirst, hsecond, hmask⟩ := headerCode_spec h hsize
  obtain ⟨hheight, hheight'⟩ := height_ofInt h
  have hmaskread := readMask_append (getLast?_maskBytes c)
  have hread : ∀ t, readOutputs secp (c.avail 0 :: c.avail 1 :: c.maskBytes.flatMap unpackBits)
      (c.vout.flatMap (fun o => if o.isNull then [] else serTxOut secp o) ++ t) =
      .ok (c.padded, t) := by
    intro t
    rw [flags_eq, h.flags, ← flatMap_padded c _ (by simp)]
    refine readOutputs_flatMap hsecp ?_ t
    intro o ho
    rcases List.mem_append.mp ho with ho | ho
    · exact (h.values o ho).imp id fun hvalue => ⟨hvalue, hsize.script ho⟩
    · exact Or.inl (List.eq_of_mem_replicate ho)
  rw [serialize, if_pos h.serializable] at hb
  obtain rfl := Option.some.inj hb
  rw [countP_maskBytes] at hmaskread
  simp only [unserialize, List.append_assoc, readVarIntAsInt_append h.version,
    readVarInt_writeVarInt hlt (by decide : 0 < 32), Bind.bind, Except.bind, hcoinbase, hfirst,
    hsecond, hmask, hmaskread, hread, readVarIntAsInt_append hheight, hheight', pure, Except.pure]
  simp only [cleanup, cleanup_padded h]

/-! ## The size -/

theorem sizeOfVarIntOfInt_eq (n : Int32) : sizeOfVarIntOfInt n = (writeVarIntOfInt n).length := by
  rw [sizeOfVarIntOfInt, writeVarIntOfInt]
  by_cases h : n ≤ 0x7f
  · rw [if_pos h, if_pos h]
    rfl
  · rw [if_neg h, if_neg h, length_writeVarInt n.toUInt32.toNat_lt (by decide)]

theorem sizeOfTxOut_eq (secp : Secp256k1) (o : CTxOut) :
    sizeOfTxOut secp o = UInt32.ofNat (serTxOut secp o).length := by
  show (0 + UInt64.ofNat (serTxOut secp o).length).toUInt32 = _
  rw [UInt64.zero_add, UInt64.toUInt32_ofNat']

theorem foldl_sizeOfTxOut (secp : Secp256k1) (vout : List CTxOut) (n : UInt32) :
    vout.foldl (fun n o => if o.isNull then n else n + sizeOfTxOut secp o) n =
      n + UInt32.ofNat (vout.flatMap fun o => if o.isNull then [] else serTxOut secp o).length := by
  induction vout generalizing n with
  | nil => simp
  | cons o vout ih =>
      rw [List.foldl_cons, ih, List.flatMap_cons, List.length_append, UInt32.ofNat_add]
      by_cases ho : o.isNull = true
      · simp [ho]
      · simp [ho, sizeOfTxOut_eq, UInt32.add_assoc]

/-- **The size is the number of bytes that are written**, as an `unsigned int`. -/
theorem getSerializeSize_eq (secp : Secp256k1) (c : CCoins) :
    c.getSerializeSize secp = (c.serialize secp).map fun b => UInt32.ofNat b.length := by
  rw [getSerializeSize, serialize]
  by_cases h : c.serializable = true
  · have hcode : sizeOfVarInt c.headerCode = (writeVarInt 32 c.headerCode).length :=
      (length_writeVarInt (Nat.mod_lt _ (by decide)) (by decide)).symm
    have hmask : c.calcMaskSize.1 = c.maskBytes.length := by simp [maskBytes]
    simp only [if_pos h, Option.map_some, foldl_sizeOfTxOut, sizeOfVarIntOfInt_eq, hcode, hmask,
      List.length_append, UInt32.ofNat_add]
  · simp [h]

theorem length_writeVarIntOfInt_le (n : Int32) : (writeVarIntOfInt n).length ≤ 5 := by
  rw [writeVarIntOfInt]
  by_cases h : n ≤ 0x7f
  · simp [h]
  · rw [if_neg h]
    exact length_writeVarInt_le ..

theorem SizeFits.length_lt (h : c.SizeFits) {b : Bytes} (hb : c.serialize secp = some b) :
    b.length < 2 ^ 32 := by
  rw [serialize] at hb
  split_ifs at hb
  obtain rfl := Option.some.inj hb
  have hversion := length_writeVarIntOfInt_le c.nVersion
  have hheight := length_writeVarIntOfInt_le (Int32.ofInt c.nHeight)
  have hcode := length_writeVarInt_le 32 c.headerCode
  have hmask : c.maskBytes.length ≤ (c.vout.length - 2 + 7) / 8 := by
    simpa [maskBytes] using c.calcMaskSize_spec.1
  have hout : (c.vout.flatMap fun o => if o.isNull then [] else serTxOut secp o).length +
      c.vout.length ≤ (c.vout.map fun o => o.scriptPubKey.length + 16).sum := by
    induction c.vout with
    | nil => simp
    | cons o vout ih =>
        rw [List.flatMap_cons, List.length_append, List.map_cons, List.sum_cons, List.length_cons]
        have ho : (if o.isNull then [] else serTxOut secp o).length ≤
            o.scriptPubKey.length + 15 := by
          by_cases hnull : o.isNull = true
          · simp [hnull]
          · simp only [if_neg hnull]
            exact length_serTxOut_le secp o
        omega
  rw [SizeFits] at h
  simp only [List.length_append]
  omega

/-- **The codec of the coins database**: coins that are clean and not pruned come back
from what is written for them, whatever follows, and as many bytes are written as
`GetSerializeSize` says. -/
theorem unserialize_serialize (hsecp : secp.Inverts) (h : c.Storable) (hsize : c.SizeFits) :
    ∃ b, c.serialize secp = some b ∧ (∀ s, unserialize secp (b ++ s) = .ok (c, s)) ∧
      (c.getSerializeSize secp).map UInt32.toNat = some b.length := by
  obtain ⟨b, hb⟩ : ∃ b, c.serialize secp = some b := by
    rw [serialize, if_pos h.serializable]
    exact ⟨_, rfl⟩
  refine ⟨b, hb, unserialize_append hsecp h hsize hb, ?_⟩
  have hlt : b.length < 2 ^ 32 := hsize.length_lt hb
  rw [getSerializeSize_eq, hb, Option.map_some, Option.map_some, UInt32.toNat_ofNat_of_lt' hlt]

/-- The two coordinates of the generator, as they stand in an uncompressed key. -/
def generatorX : Bytes :=
  [121, 190, 102, 126, 249, 220, 187, 172, 85, 160, 98, 149, 206, 135, 11, 7,
    2, 155, 252, 219, 45, 206, 40, 217, 89, 242, 129, 91, 22, 248, 23, 152]

def generatorY : Bytes :=
  [72, 58, 218, 119, 38, 163, 196, 101, 93, 164, 251, 252, 14, 17, 8, 168,
    253, 23, 180, 72, 166, 133, 84, 25, 156, 71, 208, 143, 251, 16, 212, 184]

/-- A `secp256k1` that knows the generator only. -/
def generatorOnly : Secp256k1 where
  isFullyValid := fun pubkey => pubkey == 4 :: generatorX ++ generatorY
  decompress := fun pubkey =>
    if pubkey == 2 :: generatorX then some (4 :: generatorX ++ generatorY) else none

/-- Coins whose first three outputs are spent. -/
def partlySpent : CCoins where
  fCoinBase := true
  vout := [CTxOut.null, CTxOut.null, CTxOut.null,
    ⟨50 * coin, [65] ++ (4 :: generatorX ++ generatorY) ++ [opCheckSig]⟩, CTxOut.null,
    ⟨7, [opReturn + 1]⟩]
  nHeight := 120891
  nVersion := 1

theorem partlySpent_unserialize :
    ∃ b, partlySpent.serialize generatorOnly = some b ∧
      (∀ s, unserialize generatorOnly (b ++ s) = .ok (partlySpent, s)) ∧
      (partlySpent.getSerializeSize generatorOnly).map UInt32.toNat = some b.length := by
  have hsecp : generatorOnly.Inverts := by
    intro key hlen hvalid
    obtain rfl : key = generatorX ++ generatorY := by
      have heq := beq_iff_eq.mp hvalid
      rw [List.cons_append] at heq
      exact (List.cons.inj heq).2
    decide +kernel
  have hstorable : partlySpent.Storable :=
    ⟨by decide +kernel, by decide +kernel, by decide +kernel, by decide +kernel, by decide +kernel⟩
  have hsize : partlySpent.SizeFits := by
    rw [SizeFits]
    decide +kernel
  exact unserialize_serialize hsecp hstorable hsize

/-! ## Where coins come from -/

theorem SizeFits.cleanup (h : c.SizeFits) : c.cleanup.SizeFits := by
  have hsub := ((List.rdropWhile_prefix CTxOut.isNull c.vout).sublist.map
    fun o => o.scriptPubKey.length + 16).sum_le_sum (by simp)
  rw [SizeFits] at h ⊢
  exact lt_of_le_of_lt (Nat.add_le_add_right hsub 16) h

/-- Spent outputs take no more room than unspent ones. -/
theorem SizeFits.spend (h : c.SizeFits) (nPos : UInt32) : (c.spend nPos).SizeFits := by
  have hset : ∀ (vout : List CTxOut) (n : Nat),
      ((vout.set n CTxOut.null).map fun o => o.scriptPubKey.length + 16).sum ≤
        (vout.map fun o => o.scriptPubKey.length + 16).sum := by
    intro vout
    induction vout with
    | nil => simp
    | cons o vout ih =>
        intro n
        cases n with
        | zero => simp [CTxOut.null]
        | succ n =>
            have := ih n
            simp only [List.set_cons_succ, List.map_cons, List.sum_cons]
            omega
  rw [CCoins.spend]
  by_cases havail : c.isAvailable nPos = true
  · rw [if_pos havail]
    refine SizeFits.cleanup ?_
    rw [SizeFits] at h ⊢
    exact lt_of_le_of_lt (Nat.add_le_add_right (hset c.vout nPos.toNat) 16) h
  · rw [if_neg havail]
    exact h

/-- The coins of a transaction that came in a message fit. -/
theorem SizeFits.fromTx {tx : CTransaction} (h : tx.serialized.length ≤ maxSize) (nHeight : Int) :
    (CCoins.fromTx tx nHeight).SizeFits := by
  refine SizeFits.cleanup ?_
  have hmax : maxSize = 33554432 := rfl
  -- an output takes nine bytes and its script
  have hout : ∀ vout : List CTxOut,
      ((vout.map fun o => if isUnspendable o.scriptPubKey then CTxOut.null else o).map
        fun o => o.scriptPubKey.length + 16).sum ≤ 2 * (vout.flatMap CTxOut.codec.ser).length := by
    intro vout
    induction vout with
    | nil => simp
    | cons o vout ih =>
        have hlen : o.scriptPubKey.length + 9 ≤ (CTxOut.codec.ser o).length := by
          show _ ≤ (leBytes 8 _ ++ (Codec.writeSize _ ++ o.scriptPubKey.flatMap fun b => [b])).length
          have hpos : 0 < (Codec.writeSize (UInt64.ofNat o.scriptPubKey.length)).length := by
            unfold Codec.writeSize
            split_ifs <;> simp
          simp only [List.length_append, length_leBytes, List.flatMap_singleton']
          omega
        have hblank : (if isUnspendable o.scriptPubKey then CTxOut.null else o).scriptPubKey.length ≤
            o.scriptPubKey.length := by
          split_ifs <;> simp [CTxOut.null]
        simp only [List.map_cons, List.sum_cons, List.flatMap_cons, List.length_append]
        omega
  have hle : (tx.vout.flatMap CTxOut.codec.ser).length ≤ tx.serialized.length := by
    rw [CTransaction.serialized_eq]
    show _ ≤ (_ ++ (_ ++ ((_ ++ tx.vout.flatMap CTxOut.codec.ser) ++ _))).length
    simp only [List.length_append]
    omega
  rw [SizeFits]
  refine lt_of_le_of_lt (Nat.add_le_add_right (hout tx.vout) 16) ?_
  omega

end CCoins
end Hivemind
