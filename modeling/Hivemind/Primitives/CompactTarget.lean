import Mathlib.Algebra.Order.Floor.Semifield
import Mathlib.Data.Rat.Floor
import Mathlib.Tactic.Positivity
import Hivemind.Primitives.ArithUint256
import Hivemind.Primitives.Block

/-!
# The compact form of a target

`SetCompact` and `GetCompact` of `arith_uint256.cpp` and `GetBlockProof` of `pow.cpp`, on the
words that they work on.

A compact number is a size in bytes and the three leading bytes of a number of that size, of
which the top bit is the sign.  The functions move the leading bytes up or down, by shifts of
words or of a 64-bit number where the size is small.  On numbers that is one product by a power
of 256, or one quotient; the words are brought to that first, and everything else is said of
numbers.

`GetCompact` keeps three bytes, or two where the top bit of the third would be read as a sign, so
decoding what it writes clears the bytes below the leading ones and nothing else.

* `setCompact_eq`, `getCompact_eq`: on words they do what they do on numbers.
* `overflow_iff`, `target_eq`: the number that a compact form stands for.
* `setCompact_getCompact`: what is left of a number in its compact form.
* `setCompact_spec`: **compact targets**, with their overflows and signs.
* `getBlockProof_of_proper`, `getBlockProof_spec`: the work of a block.
-/

namespace Hivemind

open Limbs

/-! ## The numbers that the compact form stands for -/

/-- `mantissa * 256 ^ (exponent - 3)`, what a compact number stands for. -/
def compactValue (nCompact : UInt32) : ℚ :=
  (nCompact.toNat % 2 ^ 23 : ℕ) * 256 ^ (((nCompact.toNat / 2 ^ 24 : ℕ) : ℤ) - 3)

theorem compactValue_eq (nCompact : UInt32) :
    compactValue nCompact =
      (nCompact.toNat % 2 ^ 23 * 256 ^ (nCompact.toNat / 2 ^ 24) : ℕ) / (256 ^ 3 : ℕ) := by
  rw [compactValue, zpow_sub₀ (by norm_num), zpow_natCast]
  push_cast
  rw [mul_div_assoc]

theorem pow_bytes (n : Nat) : 2 ^ (8 * n) = 256 ^ n := by rw [Nat.pow_mul]

/-- Moving a number by a difference of bytes, in one direction or the other. -/
theorem moved_eq (m k : Nat) :
    (if k ≤ 3 then m / 2 ^ (8 * (3 - k)) else m * 2 ^ (8 * (k - 3))) = m * 256 ^ k / 256 ^ 3 := by
  rw [pow_bytes, pow_bytes]
  split_ifs with hk
  · conv_rhs => rw [show 3 = 3 - k + k by omega, Nat.pow_add]
    rw [Nat.mul_div_mul_right _ _ (by positivity)]
  · conv_rhs => rw [show k = k - 3 + 3 by omega, Nat.pow_add, ← Nat.mul_assoc]
    rw [Nat.mul_div_cancel _ (by positivity)]

theorem overflow_iff (nCompact : UInt32) :
    (setCompact nCompact).2.2 = true ↔
      2 ^ 256 * 256 ^ 3 ≤ nCompact.toNat % 2 ^ 23 * 256 ^ (nCompact.toNat / 2 ^ 24) := by
  have hm : nCompact.toNat % 2 ^ 23 < 2 ^ 23 := Nat.mod_lt _ (by norm_num)
  unfold setCompact
  simp only [decide_eq_true_eq]
  generalize nCompact.toNat % 2 ^ 23 = m at hm ⊢
  generalize nCompact.toNat / 2 ^ 24 = n
  rcases Nat.lt_or_ge n 35 with hn | hn
  · rcases Nat.lt_or_ge n 33 with hsmall | hlarge
    · -- no mantissa is large enough
      have hpow : 256 ^ n ≤ 256 ^ 32 := Nat.pow_le_pow_right (by norm_num) (by omega)
      have hprod : m * 256 ^ n ≤ 2 ^ 23 * 256 ^ 32 := Nat.mul_le_mul (by omega) hpow
      constructor
      · omega
      · intro h
        omega
    · rw [if_neg (by omega)]
      rcases (by omega : n = 33 ∨ n = 34) with rfl | rfl <;> omega
  · have hpow : 256 ^ 35 ≤ 256 ^ n := Nat.pow_le_pow_right (by norm_num) hn
    rw [if_neg (by omega)]
    constructor
    · rintro ⟨hpos, -⟩
      exact (by norm_num : 2 ^ 256 * 256 ^ 3 = 1 * 256 ^ 35).trans_le
        (Nat.mul_le_mul (by omega) hpow)
    · intro hle
      refine ⟨?_, by omega⟩
      rintro rfl
      omega

/-- The target, where it does not overflow. -/
theorem target_eq {nCompact : UInt32} (h : (setCompact nCompact).2.2 = false) :
    (setCompact nCompact).1 =
      nCompact.toNat % 2 ^ 23 * 256 ^ (nCompact.toNat / 2 ^ 24) / 256 ^ 3 := by
  have hsmall : nCompact.toNat % 2 ^ 23 * 256 ^ (nCompact.toNat / 2 ^ 24) / 256 ^ 3 < 2 ^ 256 := by
    apply Nat.div_lt_of_lt_mul
    rw [Nat.mul_comm (256 ^ 3)]
    exact Nat.lt_of_not_le fun hle => by simp [(overflow_iff nCompact).mpr hle] at h
  rw [← moved_eq] at hsmall ⊢
  unfold setCompact
  dsimp only
  split_ifs at hsmall ⊢
  · rfl
  · exact Nat.mod_eq_of_lt hsmall

/-- The number of bytes that `GetCompact` writes, one more than the number has where its
top bit would be taken for the sign. -/
def compactSize (v : Nat) : Nat := if v = 0 then 0 else v.size / 8 + 1

/-- The leading three bytes of a number. -/
theorem leading_eq (v n : Nat) :
    (if n ≤ 3 then v * 2 ^ (8 * (3 - n)) else v / 2 ^ (8 * (n - 3))) = v * 256 ^ 3 / 256 ^ n := by
  rw [pow_bytes, pow_bytes]
  split_ifs with hn
  · conv_rhs => rw [show 3 = 3 - n + n by omega, Nat.pow_add, ← Nat.mul_assoc]
    rw [Nat.mul_div_cancel _ (by positivity)]
  · conv_rhs => rw [show n = n - 3 + 3 by omega, Nat.pow_add]
    rw [Nat.mul_div_mul_right _ _ (by positivity)]

/-- The top bit of the leading bytes is set where the size is a whole number of bytes. -/
theorem sign_iff {v n : Nat} (hn : 0 < n) :
    2 ^ 23 ≤ v * 256 ^ 3 / 256 ^ n ↔ 8 * n ≤ v.size := by
  have hpow : 2 ^ 23 * 256 ^ n = 2 ^ (8 * n - 1) * 256 ^ 3 := by
    rw [← pow_bytes, ← pow_bytes, ← Nat.pow_add, ← Nat.pow_add]
    congr 1
    omega
  rw [Nat.le_div_iff_mul_le (by positivity), hpow,
    Nat.mul_le_mul_right_iff (show 0 < 256 ^ 3 by norm_num), ← Nat.lt_size]
  omega

/-- The leading bytes of a number of at most `n` bytes are three. -/
theorem lt_of_size_le {v n : Nat} (hv : v < 2 ^ (8 * n)) :
    (if n ≤ 3 then v * 2 ^ (8 * (3 - n)) else v / 2 ^ (8 * (n - 3))) < 2 ^ 24 := by
  split_ifs with hn
  · calc v * 2 ^ (8 * (3 - n)) < 2 ^ (8 * n) * 2 ^ (8 * (3 - n)) :=
          Nat.mul_lt_mul_of_pos_right hv (Nat.two_pow_pos _)
      _ = 2 ^ 24 := by rw [← Nat.pow_add]; congr 1; omega
  · apply Nat.div_lt_of_lt_mul
    rw [← Nat.pow_add]
    exact hv.trans_eq (by congr 1; omega)

/-- What `GetCompact` writes. -/
theorem getCompact_toNat {v : Nat} (hv : v < 2 ^ 256) :
    v * 256 ^ 3 / 256 ^ compactSize v < 2 ^ 23 ∧
      (getCompact v).toNat =
        v * 256 ^ 3 / 256 ^ compactSize v + compactSize v * 2 ^ 24 := by
  have hbits : v.size ≤ 256 := Nat.size_le.mpr hv
  have hlt := lt_of_size_le (v := v) (n := (v.size + 7) / 8) (Nat.size_le.mp (by omega))
  unfold getCompact
  dsimp only
  rw [leading_eq] at hlt ⊢
  by_cases hzero : v = 0
  · subst hzero
    decide
  have hpos : 0 < v.size := Nat.size_pos.mpr (Nat.pos_of_ne_zero hzero)
  rw [compactSize, if_neg hzero]
  by_cases hsign : 8 * ((v.size + 7) / 8) ≤ v.size
  · -- the mantissa has two bytes
    have hn : v.size / 8 + 1 = (v.size + 7) / 8 + 1 := by omega
    have hbit := (sign_iff (by omega)).mpr hsign
    have hnext : v * 256 ^ 3 / 256 ^ ((v.size + 7) / 8 + 1) =
        v * 256 ^ 3 / 256 ^ ((v.size + 7) / 8) / 2 ^ 8 := (Nat.div_div_eq_div_mul ..).symm
    rw [hn, hnext]
    generalize v * 256 ^ 3 / 256 ^ ((v.size + 7) / 8) = m at hlt hbit ⊢
    rw [if_pos (by omega)]
    refine ⟨by omega, ?_⟩
    rw [UInt32.toNat_ofNat', Nat.mod_eq_of_lt (by omega)]
  · have hn : v.size / 8 + 1 = (v.size + 7) / 8 := by omega
    have hbit := mt (sign_iff (v := v) (n := (v.size + 7) / 8) (by omega)).mp hsign
    rw [hn]
    generalize v * 256 ^ 3 / 256 ^ ((v.size + 7) / 8) = m at hlt hbit ⊢
    rw [if_neg (by omega)]
    refine ⟨by omega, ?_⟩
    rw [UInt32.toNat_ofNat', Nat.mod_eq_of_lt (by omega)]

/-! ## The functions on words -/

/-- `arith_uint256`. -/
abbrev ArithUint256 := BaseUint 8

namespace ArithUint256

open BaseUint

/-- `arith_uint256::SetCompact`: the number, `fNegative` and `fOverflow`. -/
def setCompact (nCompact : UInt32) : ArithUint256 × Bool × Bool :=
  let nSize := (nCompact >>> 24).toNat
  let nWord := nCompact &&& 0x007fffff
  let nWord := if nSize ≤ 3 then nWord >>> UInt32.ofNat (8 * (3 - nSize)) else nWord
  let bn := if nSize ≤ 3 then ofUInt64 nWord.toUInt64
    else (ofUInt64 nWord.toUInt64).shl (8 * (nSize - 3))
  let fNegative := nWord ≠ 0 ∧ nCompact &&& 0x00800000 ≠ 0
  let fOverflow :=
    nWord ≠ 0 ∧ (34 < nSize ∨ (0xff < nWord ∧ 33 < nSize) ∨ (0xffff < nWord ∧ 32 < nSize))
  (bn, fNegative, fOverflow)

/-- `arith_uint256::GetCompact`; `none` is a failed assertion. -/
def getCompact (a : ArithUint256) (fNegative : Bool) : Option UInt32 :=
  let nSize := (a.bits + 7) / 8
  let nCompact := if nSize ≤ 3 then (a.getLow64 <<< UInt64.ofNat (8 * (3 - nSize))).toUInt32
    else (a.shr (8 * (nSize - 3))).getLow64.toUInt32
  -- the bit 0x00800000 is the sign
  let fSigned : Bool := nCompact &&& 0x00800000 ≠ 0
  let nSize := if fSigned then nSize + 1 else nSize
  let nCompact := if fSigned then nCompact >>> 8 else nCompact
  if nCompact &&& ~~~0x007fffff = 0 ∧ nSize < 256 then
    let nCompact := nCompact ||| UInt32.ofNat nSize <<< 24
    some (nCompact ||| if fNegative ∧ nCompact &&& 0x007fffff ≠ 0 then 0x00800000 else 0)
  else none

/-- `GetBlockProof`; `none` is the exception for a division by zero. -/
def getBlockProof (nBits : UInt32) : Option ArithUint256 :=
  let (bnTarget, fNegative, fOverflow) := setCompact nBits
  if fNegative || fOverflow || bnTarget.equalTo 0 then some (ofUInt64 0)
  else (bnTarget.not.div (bnTarget.add (ofUInt64 1))).map fun q => q.add (ofUInt64 1)

theorem and_sign_ne_zero (x : UInt32) : x &&& 0x00800000 ≠ 0 ↔ x.toNat / 2 ^ 23 % 2 ≠ 0 := by
  have hbit := and_bit_ne_zero x (show 23 < 32 by norm_num)
  rw [show (1 : UInt32) <<< UInt32.ofNat 23 = 0x00800000 from rfl] at hbit
  rw [hbit, Nat.testBit_eq_decide_div_mod_eq, decide_eq_true_eq]
  omega

theorem toNat_and_mantissa (x : UInt32) : (x &&& 0x007fffff).toNat = x.toNat % 2 ^ 23 := by
  rw [UInt32.toNat_and, show (0x007fffff : UInt32).toNat = 2 ^ 23 - 1 from rfl,
    Nat.and_two_pow_sub_one_eq_mod]

theorem toNat_size (nCompact : UInt32) : (nCompact >>> 24).toNat = nCompact.toNat / 2 ^ 24 := by
  rw [UInt32.toNat_shiftRight, Nat.shiftRight_eq_div_pow]
  rfl

/-- **`SetCompact` on words** is `SetCompact` on numbers. -/
theorem setCompact_eq (nCompact : UInt32) :
    ((setCompact nCompact).1.value, (setCompact nCompact).2) = Hivemind.setCompact nCompact := by
  unfold setCompact Hivemind.setCompact
  simp only [toNat_size]
  have hsize : nCompact.toNat / 2 ^ 24 < 256 := by have := nCompact.toNat_lt; omega
  generalize hn : nCompact.toNat / 2 ^ 24 = nSize at hsize
  generalize hW : (if nSize ≤ 3 then
    (nCompact &&& 0x007fffff) >>> UInt32.ofNat (8 * (3 - nSize)) else nCompact &&& 0x007fffff) = W
  have hword : W.toNat = if nSize ≤ 3 then nCompact.toNat % 2 ^ 23 / 2 ^ (8 * (3 - nSize))
      else nCompact.toNat % 2 ^ 23 := by
    rw [← hW, apply_ite UInt32.toNat, toNat_shiftRight (by omega), toNat_and_mantissa]
  rw [← hword]
  have hzero : W ≠ 0 ↔ W.toNat ≠ 0 := by rw [ne_eq, ← UInt32.toNat_inj]; rfl
  have hvalue : (if nSize ≤ 3 then ofUInt64 W.toUInt64
      else (ofUInt64 W.toUInt64).shl (8 * (nSize - 3)) : ArithUint256).value =
      if nSize ≤ 3 then W.toNat else W.toNat * 2 ^ (8 * (nSize - 3)) % 2 ^ 256 := by
    rw [apply_ite BaseUint.value, value_shl, value_ofUInt64 (by norm_num), UInt32.toNat_toUInt64]
  simp only [hvalue, and_sign_ne_zero, hzero, UInt32.lt_iff_toNat_lt]
  rfl

/-- Bits below the sign are no others. -/
theorem and_not_mantissa {x : UInt32} (hx : x.toNat < 2 ^ 23) : x &&& ~~~0x007fffff = 0 := by
  have hmask : x &&& 0x007fffff = x := by
    rw [← UInt32.toNat_inj, toNat_and_mantissa, Nat.mod_eq_of_lt hx]
  rw [← hmask, UInt32.and_assoc, show (0x007fffff : UInt32) &&& ~~~0x007fffff = 0 from rfl,
    UInt32.and_zero]

/-- A mantissa and a size, in one word. -/
theorem or_size {x : UInt32} {nSize : Nat} (hx : x.toNat < 2 ^ 23) (hsize : nSize < 256) :
    x ||| UInt32.ofNat nSize <<< 24 = UInt32.ofNat (x.toNat + nSize * 2 ^ 24) := by
  have hshift : (UInt32.ofNat nSize <<< 24).toNat = 2 ^ 24 * nSize := by
    rw [UInt32.toNat_shiftLeft, UInt32.toNat_ofNat', show (24 : UInt32).toNat % 32 = 24 from rfl,
      Nat.shiftLeft_eq, Nat.mod_eq_of_lt (show nSize < 2 ^ 32 by omega),
      Nat.mod_eq_of_lt (by omega), Nat.mul_comm]
  rw [← UInt32.toNat_inj, UInt32.toNat_or, hshift, Nat.or_comm,
    ← Nat.two_pow_add_eq_or_of_lt (show x.toNat < 2 ^ 24 by omega), UInt32.toNat_ofNat',
    Nat.mod_eq_of_lt (by omega)]
  omega

/-- The words that `GetCompact` takes the mantissa from. -/
theorem toNat_leading (a : ArithUint256) {n : Nat} (hv : a.value < 2 ^ (8 * n)) :
    (if n ≤ 3 then (a.getLow64 <<< UInt64.ofNat (8 * (3 - n))).toUInt32
      else (a.shr (8 * (n - 3))).getLow64.toUInt32).toNat =
    if n ≤ 3 then a.value * 2 ^ (8 * (3 - n)) else a.value / 2 ^ (8 * (n - 3)) := by
  have hlt := lt_of_size_le hv
  rw [apply_ite UInt32.toNat]
  split_ifs with hn
  · have hsmall : a.value < 2 ^ 64 :=
      hv.trans_le (Nat.pow_le_pow_right (by norm_num) (by omega))
    rw [if_pos hn] at hlt
    rw [UInt64.toNat_toUInt32, UInt64.toNat_shiftLeft, toNat_getLow64, UInt64.toNat_ofNat',
      Nat.mod_eq_of_lt (show 8 * (3 - n) < 2 ^ 64 by omega),
      Nat.mod_eq_of_lt (show 8 * (3 - n) < 64 by omega), Nat.mod_eq_of_lt hsmall,
      Nat.shiftLeft_eq, Nat.mod_eq_of_lt (by omega), Nat.mod_eq_of_lt (by omega)]
  · rw [if_neg hn] at hlt
    have hlow : a.value / 2 ^ (8 * (n - 3)) % 2 ^ 64 = a.value / 2 ^ (8 * (n - 3)) :=
      Nat.mod_eq_of_lt (hlt.trans (by norm_num))
    rw [UInt64.toNat_toUInt32, toNat_getLow64, value_shr, hlow,
      Nat.mod_eq_of_lt (hlt.trans (by norm_num))]

/-- **`GetCompact` on words** is `GetCompact` on numbers, and its assertions hold. -/
theorem getCompact_eq (a : ArithUint256) :
    a.getCompact false = some (Hivemind.getCompact a.value) := by
  have hbits : a.value.size ≤ 256 := Nat.size_le.mpr a.value_lt
  have hv : a.value < 2 ^ (8 * ((a.value.size + 7) / 8)) := Nat.size_le.mp (by omega)
  unfold getCompact Hivemind.getCompact
  rw [bits_eq]
  have hword := toNat_leading a hv
  have hlt := lt_of_size_le hv
  rw [← hword] at hlt
  simp only [← hword]
  have hsize : (a.value.size + 7) / 8 ≤ 32 := by omega
  generalize (a.value.size + 7) / 8 = nSize at hsize hlt ⊢
  generalize (if nSize ≤ 3 then (a.getLow64 <<< UInt64.ofNat (8 * (3 - nSize))).toUInt32
      else (a.shr (8 * (nSize - 3))).getLow64.toUInt32) = x at hlt ⊢
  have hresult : ∀ (y : UInt32) (n : Nat), y.toNat < 2 ^ 23 → n < 256 →
      (if y &&& ~~~0x007fffff = 0 ∧ n < 256 then
        some (y ||| UInt32.ofNat n <<< 24 |||
          if (false : Bool) ∧ (y ||| UInt32.ofNat n <<< 24) &&& 0x007fffff ≠ 0 then 0x00800000
          else 0)
      else none) = some (UInt32.ofNat (y.toNat + n * 2 ^ 24)) := by
    intro y n hy hn
    rw [if_pos ⟨and_not_mantissa hy, hn⟩, if_neg (by simp), UInt32.or_zero, or_size hy hn]
  by_cases hsign : x &&& 0x00800000 ≠ 0
  · -- the mantissa has lost its last byte
    have hshift : (x >>> 8).toNat = x.toNat / 2 ^ 8 := toNat_shiftRight (s := 8) (by norm_num)
    have h := hresult (x >>> 8) (nSize + 1) (by rw [hshift]; omega) (by omega)
    rw [hshift] at h
    simp only [decide_eq_true hsign, if_true, if_pos ((and_sign_ne_zero x).mp hsign)]
    exact h
  · have hsmall : x.toNat < 2 ^ 23 := by
      have := mt (and_sign_ne_zero x).mpr hsign
      omega
    simp only [decide_eq_false hsign, if_neg (mt (and_sign_ne_zero x).mpr hsign)]
    exact hresult x nSize hsmall (by omega)

end ArithUint256

/-! ## Encoding and decoding -/

/-- The bytes that `GetCompact` keeps of a number, moved back. -/
theorem leading_back (v : Nat) :
    v * 256 ^ 3 / 256 ^ compactSize v * 256 ^ compactSize v / 256 ^ 3 =
      v / 256 ^ (v.size / 8 - 2) * 256 ^ (v.size / 8 - 2) := by
  by_cases hzero : v = 0
  · simp [hzero]
  rw [compactSize, if_neg hzero]
  by_cases hsmall : v.size / 8 < 2
  · -- all bytes are kept
    have hpow : 256 ^ 3 = 256 ^ (3 - (v.size / 8 + 1)) * 256 ^ (v.size / 8 + 1) := by
      rw [← Nat.pow_add]
      congr 1
      omega
    rw [show v.size / 8 - 2 = 0 by omega, Nat.pow_zero, Nat.div_one, Nat.mul_one, hpow,
      ← Nat.mul_assoc, Nat.mul_div_cancel _ (by positivity), Nat.mul_assoc,
      Nat.mul_div_cancel _ (by positivity)]
  · have hpow : 256 ^ (v.size / 8 + 1) = 256 ^ (v.size / 8 - 2) * 256 ^ 3 := by
      rw [← Nat.pow_add]
      congr 1
      omega
    rw [hpow, Nat.mul_div_mul_right _ _ (by positivity), ← Nat.mul_assoc,
      Nat.mul_div_cancel _ (by positivity)]

/-- Clearing bytes below the leading ones keeps the size. -/
theorem size_leading {v k : Nat} (hk : k < v.size) : (v / 2 ^ k * 2 ^ k).size = v.size := by
  apply le_antisymm
  · exact Nat.size_le_size (Nat.div_mul_le_self ..)
  · have hlow : 2 ^ (v.size - 1 - k) ≤ v / 2 ^ k := by
      rw [Nat.le_div_iff_mul_le (Nat.two_pow_pos _), ← Nat.pow_add,
        show v.size - 1 - k + k = v.size - 1 by omega]
      exact Nat.lt_size.mp (by omega)
    have hle : 2 ^ (v.size - 1) ≤ v / 2 ^ k * 2 ^ k := by
      calc 2 ^ (v.size - 1) = 2 ^ (v.size - 1 - k) * 2 ^ k := by
            rw [← Nat.pow_add]
            congr 1
            omega
        _ ≤ v / 2 ^ k * 2 ^ k := Nat.mul_le_mul_right _ hlow
    have := Nat.lt_size.mpr hle
    omega

/-- `GetCompact` reads the leading bytes only. -/
theorem getCompact_leading {v : Nat} (hv : v < 2 ^ 256) :
    getCompact (v / 256 ^ (v.size / 8 - 2) * 256 ^ (v.size / 8 - 2)) = getCompact v := by
  by_cases hsmall : v.size / 8 ≤ 2
  · rw [show v.size / 8 - 2 = 0 by omega, Nat.pow_zero, Nat.div_one, Nat.mul_one]
  have hle : v / 256 ^ (v.size / 8 - 2) * 256 ^ (v.size / 8 - 2) ≤ v := Nat.div_mul_le_self ..
  have hsize : (v / 256 ^ (v.size / 8 - 2) * 256 ^ (v.size / 8 - 2)).size = v.size := by
    rw [← pow_bytes]
    exact size_leading (by omega)
  have hcompact : compactSize (v / 256 ^ (v.size / 8 - 2) * 256 ^ (v.size / 8 - 2)) =
      v.size / 8 + 1 := by
    rw [compactSize, hsize, if_neg]
    intro h
    rw [h, Nat.size_zero] at hsize
    omega
  have hvsize : compactSize v = v.size / 8 + 1 := by
    rw [compactSize, if_neg]
    rintro rfl
    simp at hsmall
  have hpow : 256 ^ (v.size / 8 + 1) = 256 ^ (v.size / 8 - 2) * 256 ^ 3 := by
    rw [← Nat.pow_add]
    congr 1
    omega
  rw [← UInt32.toNat_inj, (getCompact_toNat hv).2, (getCompact_toNat (hle.trans_lt hv)).2,
    hcompact, hvsize, hpow, Nat.mul_div_mul_right _ _ (by positivity),
    Nat.mul_div_mul_right _ _ (by positivity), Nat.mul_div_cancel _ (by positivity)]

/-- Decoding what `GetCompact` writes. -/
theorem setCompact_getCompact {v : Nat} (hv : v < 2 ^ 256) :
    setCompact (getCompact v) =
      (v / 256 ^ (v.size / 8 - 2) * 256 ^ (v.size / 8 - 2), false, false) := by
  obtain ⟨hlt, heq⟩ := getCompact_toNat hv
  have hback := leading_back v
  have hle := Nat.div_mul_le_self (v * 256 ^ 3) (256 ^ compactSize v)
  generalize v * 256 ^ 3 / 256 ^ compactSize v = m at hlt heq hback hle
  have hmantissa : (getCompact v).toNat % 2 ^ 23 = m := by omega
  have hsize : (getCompact v).toNat / 2 ^ 24 = compactSize v := by omega
  have hover : (setCompact (getCompact v)).2.2 = false := by
    rw [Bool.eq_false_iff]
    intro h
    have hlarge := (overflow_iff _).mp h
    rw [hmantissa, hsize] at hlarge
    have := hlarge.trans hle
    omega
  have hneg : (setCompact (getCompact v)).2.1 = false := by
    refine decide_eq_false ?_
    rintro ⟨-, h⟩
    omega
  have htarget := target_eq hover
  rw [hmantissa, hsize, hback] at htarget
  exact Prod.ext htarget (Prod.ext hneg hover)

namespace ArithUint256

open BaseUint

/-- **Compact targets.**  `SetCompact` reports an overflow exactly where the number that
the compact form stands for needs more than 256 bits, and stores its integral part
otherwise.  `GetCompact` of a number gives it back without the bytes below its leading ones,
and gives the same for what it gives back. -/
theorem setCompact_spec :
    (∀ nCompact : UInt32,
      ((setCompact nCompact).2.2 = true ↔ 2 ^ 256 ≤ compactValue nCompact) ∧
      ((setCompact nCompact).2.2 = false →
        (setCompact nCompact).1.value = ⌊compactValue nCompact⌋₊)) ∧
    ∀ v : ArithUint256, ∃ nCompact, v.getCompact false = some nCompact ∧
      (setCompact nCompact).1.value =
        v.value / 256 ^ (v.value.size / 8 - 2) * 256 ^ (v.value.size / 8 - 2) ∧
      (setCompact nCompact).1.value ≤ v.value ∧
      (setCompact nCompact).2 = (false, false) ∧
      (setCompact nCompact).1.getCompact false = some nCompact := by
  refine ⟨fun nCompact => ?_, fun v => ?_⟩
  · have heq := setCompact_eq nCompact
    have hvalue : (setCompact nCompact).1.value = (Hivemind.setCompact nCompact).1 :=
      congrArg Prod.fst heq
    have hflags : (setCompact nCompact).2 = (Hivemind.setCompact nCompact).2 :=
      congrArg Prod.snd heq
    rw [hvalue, hflags, overflow_iff, compactValue_eq]
    refine ⟨?_, fun h => ?_⟩
    · rw [le_div_iff₀ (by norm_num)]
      exact_mod_cast Iff.rfl
    · rw [target_eq h, Nat.floor_div_eq_div]
  · have heq := setCompact_eq (Hivemind.getCompact v.value)
    rw [setCompact_getCompact v.value_lt] at heq
    have hvalue := congrArg Prod.fst heq
    have hflags := congrArg Prod.snd heq
    refine ⟨_, getCompact_eq v, hvalue, ?_, hflags, ?_⟩
    · exact hvalue.trans_le (Nat.div_mul_le_self ..)
    · rw [getCompact_eq]
      dsimp only at hvalue
      rw [hvalue, getCompact_leading v.value_lt]

/-! ## The work of a block -/

/-- No target is the largest number: its last byte is zero, or it is a mantissa. -/
theorem target_lt (nCompact : UInt32) : (Hivemind.setCompact nCompact).1 + 1 < 2 ^ 256 := by
  have hm : nCompact.toNat % 2 ^ 23 < 2 ^ 23 := Nat.mod_lt _ (by norm_num)
  unfold Hivemind.setCompact
  dsimp only
  split_ifs with hsize
  · have := Nat.div_le_self (nCompact.toNat % 2 ^ 23) (2 ^ (8 * (3 - nCompact.toNat / 2 ^ 24)))
    omega
  · have hbyte : 2 ^ (8 * (nCompact.toNat / 2 ^ 24 - 3)) =
        2 ^ (8 * (nCompact.toNat / 2 ^ 24 - 4)) * 256 := by
      rw [show 256 = 2 ^ 8 by norm_num, ← Nat.pow_add]
      congr 1
      omega
    rw [hbyte, ← Nat.mul_assoc]
    omega

/-- What is wrong with the target of a block, if anything. -/
def badTarget (nBits : UInt32) : Prop :=
  (setCompact nBits).1.value = 0 ∨ (setCompact nBits).2.1 = true ∨ (setCompact nBits).2.2 = true

instance decidableBadTarget (nBits : UInt32) : Decidable (badTarget nBits) :=
  inferInstanceAs (Decidable (_ ∨ _ ∨ _))

theorem getBlockProof_of_bad {nBits : UInt32} (h : badTarget nBits) :
    ∃ p, getBlockProof nBits = some p ∧ p.value = 0 := by
  refine ⟨ofUInt64 0, ?_, value_ofUInt64 (by norm_num) 0⟩
  unfold getBlockProof
  dsimp only
  rw [if_pos]
  rw [Bool.or_eq_true, Bool.or_eq_true, equalTo_iff (by norm_num)]
  rcases h with h | h | h
  · exact Or.inr h
  · exact Or.inl (Or.inl h)
  · exact Or.inl (Or.inr h)

/-- The work of a block with a proper target. -/
theorem getBlockProof_of_proper {nBits : UInt32} (h : ¬badTarget nBits) :
    ∃ p, getBlockProof nBits = some p ∧
      p.value = 2 ^ 256 / ((setCompact nBits).1.value + 1) := by
  obtain ⟨hpos, hrest⟩ := not_or.mp h
  obtain ⟨hneg, hover⟩ := not_or.mp hrest
  have hlt : (setCompact nBits).1.value + 1 < 2 ^ 256 := by
    have hlt := target_lt nBits
    rwa [← setCompact_eq nBits] at hlt
  unfold getBlockProof
  dsimp only
  rw [if_neg]
  swap
  · rw [Bool.or_eq_true, Bool.or_eq_true, equalTo_iff (by norm_num)]
    rintro ((h | h) | h)
    · exact hneg h
    · exact hover h
    · exact hpos h
  generalize (setCompact nBits).1 = bnTarget at hpos hlt ⊢
  have hone : (ofUInt64 1 : ArithUint256).value = 1 := value_ofUInt64 (by norm_num) 1
  have hadd : (bnTarget.add (ofUInt64 1)).value = bnTarget.value + 1 := by
    rw [value_add, hone, Nat.mod_eq_of_lt hlt]
  obtain ⟨q, hdiv, hq⟩ := (div_spec bnTarget.not (bnTarget.add (ofUInt64 1))).2 (by omega)
  have hqvalue : q.value + 1 = 2 ^ 256 / (bnTarget.value + 1) := by
    rw [hq, hadd, value_not, Nat.div_eq_sub_div (Nat.succ_pos _) hlt.le]
    congr 2
    omega
  refine ⟨q.add (ofUInt64 1), by rw [hdiv, Option.map_some], ?_⟩
  rw [value_add, hone, hqvalue]
  exact Nat.mod_eq_of_lt (Nat.div_lt_self (by norm_num) (by omega))

/-- **The work of a block.**  No division is by zero; the work is zero exactly for a target
that is zero, negative or too large, and `2 ^ 256 / (T + 1)` for every other target `T`, so
that a smaller target is more work.  Division is exact, and multiplication is exact up to
the width. -/
theorem getBlockProof_spec :
    (∀ nBits, ∃ p, getBlockProof nBits = some p ∧ (p.value = 0 ↔ badTarget nBits) ∧
      (¬badTarget nBits → p.value = 2 ^ 256 / ((setCompact nBits).1.value + 1))) ∧
    (∀ nBits nBits' p p', ¬badTarget nBits → ¬badTarget nBits' →
      getBlockProof nBits = some p → getBlockProof nBits' = some p' →
      (setCompact nBits).1.value ≤ (setCompact nBits').1.value → p'.value ≤ p.value) ∧
    (∀ a b : ArithUint256, (b.value = 0 → a.div b = none) ∧
      (b.value ≠ 0 → ∃ q, a.div b = some q ∧ q.value = a.value / b.value)) ∧
    (∀ a b : ArithUint256, (a.mul b).value = a.value * b.value % 2 ^ 256) ∧
    ∀ (a : ArithUint256) (b32 : UInt32), (a.mul32 b32).value = a.value * b32.toNat % 2 ^ 256 := by
  have hproper : ∀ {nBits p}, ¬badTarget nBits → getBlockProof nBits = some p →
      p.value = 2 ^ 256 / ((setCompact nBits).1.value + 1) := by
    intro nBits p h hp
    obtain ⟨p', hp', hvalue⟩ := getBlockProof_of_proper h
    rw [hp] at hp'
    cases hp'
    exact hvalue
  refine ⟨fun nBits => ?_, ?_, fun a b => div_spec a b, fun a b => value_mul a b,
    fun a b32 => value_mul32 a b32⟩
  · by_cases hbad : badTarget nBits
    · obtain ⟨p, hp, hzero⟩ := getBlockProof_of_bad hbad
      exact ⟨p, hp, iff_of_true hzero hbad, fun h => absurd hbad h⟩
    · obtain ⟨p, hp, hvalue⟩ := getBlockProof_of_proper hbad
      refine ⟨p, hp, iff_of_false ?_ hbad, fun _ => hvalue⟩
      have hlt := (setCompact nBits).1.value_lt
      rw [hvalue]
      exact (Nat.div_pos hlt (Nat.succ_pos _)).ne'
  · intro nBits nBits' p p' h h' hp hp' hle
    rw [hproper h hp, hproper h' hp']
    exact Nat.div_le_div_left (by omega) (Nat.succ_pos _)

end ArithUint256
end Hivemind
