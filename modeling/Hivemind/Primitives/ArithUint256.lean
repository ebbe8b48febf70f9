import Hivemind.Lib.Limbs
import Mathlib.Data.List.GetD
import Mathlib.Data.Nat.Bitwise
import Mathlib.Data.Nat.ModEq

/-!
# Unsigned 256-bit arithmetic

`base_uint` of `arith_uint256.h` and `arith_uint256.cpp`: numbers as arrays of 32-bit words.  The
loops are those of the source, and every one of them computes what its operator says of the
number that the words make.

The width is a parameter, as it is in the template.  A product of two words and a carry is formed
in 64 bits, and the next carry is its upper half; that these never wrap is part of each proof.
The operators cut what does not fit, so sums, products and shifts are stated modulo the width,
and subtraction is addition of the negative.

Division is by shifting and subtracting, from a shift that is found by the sizes of the two
numbers; the general lemma on such divisions takes over once the loop is seen to be one.

* `value_add`, `value_mul`, `value_mul32`: sums and products, up to the width.
* `value_shl`, `value_shr`: shifts in both directions.
* `compareTo_nonneg`: `CompareTo` orders the numbers.
* `bits_eq`: the size of a number.
* `div_spec`: **division is exact**, and a division by zero is refused.
-/

namespace Hivemind

open Limbs

/-! ## The operators -/

/-- `base_uint`, of `width` words; the least significant word comes first. -/
structure BaseUint (width : Nat) where
  pn : List UInt32
  length_pn : pn.length = width
  deriving DecidableEq

namespace BaseUint

variable {width : Nat}

/-- `pn[i]`. -/
def word (a : BaseUint width) (i : Nat) : UInt32 := a.pn.getD i 0

/-- `base_uint()`. -/
def zero : BaseUint width := ⟨List.replicate width 0, List.length_replicate⟩

/-- `base_uint(uint64_t)`. -/
def ofUInt64 (b : UInt64) : BaseUint width where
  pn := ((List.replicate width 0).set 0 b.toUInt32).set 1 (b >>> 32).toUInt32
  length_pn := by rw [List.length_set, List.length_set, List.length_replicate]

/-- `operator~`. -/
def not (a : BaseUint width) : BaseUint width :=
  ⟨a.pn.map fun x => ~~~x, by rw [List.length_map, a.length_pn]⟩

/-- The loop of `operator++`: it goes on while a word becomes zero. -/
def incWords : List UInt32 → List UInt32
  | [] => []
  | x :: xs => if x + 1 = 0 then (x + 1) :: incWords xs else (x + 1) :: xs

@[simp] theorem length_incWords (xs : List UInt32) : (incWords xs).length = xs.length := by
  induction xs with
  | nil => rfl
  | cons x xs ih =>
      rw [incWords]
      split
      · rw [List.length_cons, ih, List.length_cons]
      · rfl

/-- `operator++`. -/
def inc (a : BaseUint width) : BaseUint width :=
  ⟨incWords a.pn, by rw [length_incWords, a.length_pn]⟩

/-- `operator-`, of one operand. -/
def neg (a : BaseUint width) : BaseUint width := a.not.inc

/-- The loop of `operator+=`. -/
def addWords : UInt64 → List UInt32 → List UInt32 → List UInt32
  | carry, x :: xs, y :: ys =>
    let n := carry + x.toUInt64 + y.toUInt64
    (n &&& 0xffffffff).toUInt32 :: addWords (n >>> 32) xs ys
  | _, xs, _ => xs

@[simp] theorem length_addWords (carry : UInt64) (xs ys : List UInt32) :
    (addWords carry xs ys).length = xs.length := by
  induction xs generalizing carry ys with
  | nil => rfl
  | cons x xs ih =>
      cases ys with
      | nil => rfl
      | cons y ys => rw [addWords, List.length_cons, ih, List.length_cons]

/-- `operator+=`. -/
def add (a b : BaseUint width) : BaseUint width :=
  ⟨addWords 0 a.pn b.pn, by rw [length_addWords, a.length_pn]⟩

/-- `operator-=`. -/
def sub (a b : BaseUint width) : BaseUint width := a.add b.neg

/-- The loop of `operator*=` with one word. -/
def mulWords (b32 : UInt32) : UInt64 → List UInt32 → List UInt32
  | _, [] => []
  | carry, x :: xs =>
    let n := carry + b32.toUInt64 * x.toUInt64
    (n &&& 0xffffffff).toUInt32 :: mulWords b32 (n >>> 32) xs

@[simp] theorem length_mulWords (b32 : UInt32) (carry : UInt64) (xs : List UInt32) :
    (mulWords b32 carry xs).length = xs.length := by
  induction xs generalizing carry with
  | nil => rfl
  | cons x xs ih => rw [mulWords, List.length_cons, ih, List.length_cons]

/-- `operator*=(uint32_t)`. -/
def mul32 (a : BaseUint width) (b32 : UInt32) : BaseUint width :=
  ⟨mulWords b32 0 a.pn, by rw [length_mulWords, a.length_pn]⟩

/-- The inner loop of `operator*=`: the product of one word with `b` is added to the words
from its place on. -/
def mulRow (aj : UInt32) : UInt64 → List UInt32 → List UInt32 → List UInt32
  | carry, p :: ps, y :: ys =>
    let n := carry + p.toUInt64 + aj.toUInt64 * y.toUInt64
    (n &&& 0xffffffff).toUInt32 :: mulRow aj (n >>> 32) ps ys
  | _, ps, _ => ps

@[simp] theorem length_mulRow (aj : UInt32) (carry : UInt64) (ps ys : List UInt32) :
    (mulRow aj carry ps ys).length = ps.length := by
  induction ps generalizing carry ys with
  | nil => rfl
  | cons p ps ih =>
      cases ys with
      | nil => rfl
      | cons y ys => rw [mulRow, List.length_cons, ih, List.length_cons]

/-- One turn of the outer loop of `operator*=`. -/
def mulTurn (a b : BaseUint width) (r : BaseUint width) (j : Nat) : BaseUint width where
  pn := r.pn.take j ++ mulRow (a.word j) 0 (r.pn.drop j) b.pn
  length_pn := by
    rw [List.length_append, length_mulRow, ← List.length_append, List.take_append_drop,
      r.length_pn]

/-- `operator*=(const base_uint&)`. -/
def mul (a b : BaseUint width) : BaseUint width := (List.range width).foldl (a.mulTurn b) zero

/-- `pn[i] |= x`. -/
def orWord (a : BaseUint width) (i : Nat) (x : UInt32) : BaseUint width :=
  ⟨a.pn.modify i fun y => y ||| x, by rw [List.length_modify, a.length_pn]⟩

/-- One turn of the loop of `operator<<=`. -/
def shlTurn (a : BaseUint width) (k shift : Nat) (r : BaseUint width) (i : Nat) :
    BaseUint width :=
  let r := if i + k + 1 < width ∧ shift ≠ 0 then
      r.orWord (i + k + 1) (a.word i >>> UInt32.ofNat (32 - shift))
    else r
  if i + k < width then r.orWord (i + k) (a.word i <<< UInt32.ofNat shift) else r

/-- `operator<<=`. -/
def shl (a : BaseUint width) (shift : Nat) : BaseUint width :=
  (List.range width).foldl (a.shlTurn (shift / 32) (shift % 32)) zero

/-- One turn of the loop of `operator>>=`. -/
def shrTurn (a : BaseUint width) (k shift : Nat) (r : BaseUint width) (i : Nat) :
    BaseUint width :=
  let r := if k + 1 ≤ i ∧ shift ≠ 0 then
      r.orWord (i - k - 1) (a.word i <<< UInt32.ofNat (32 - shift))
    else r
  if k ≤ i then r.orWord (i - k) (a.word i >>> UInt32.ofNat shift) else r

/-- `operator>>=`. -/
def shr (a : BaseUint width) (shift : Nat) : BaseUint width :=
  (List.range width).foldl (a.shrTurn (shift / 32) (shift % 32)) zero

/-- The loop of `CompareTo` over the lowest `n` words, from the highest of them. -/
def compareWords (a b : BaseUint width) : Nat → Int
  | 0 => 0
  | i + 1 =>
    if a.word i < b.word i then -1
    else if b.word i < a.word i then 1
    else a.compareWords b i

/-- `CompareTo`. -/
def compareTo (a b : BaseUint width) : Int := a.compareWords b width

/-- `EqualTo`. -/
def equalTo (a : BaseUint width) (b : UInt64) : Bool :=
  (a.pn.drop 2).all (fun x => x == 0) && (a.word 1).toUInt64 == b >>> 32 &&
    (a.word 0).toUInt64 == b &&& 0xffffffff

/-- The bits of a word that is not zero, looked for from bit `n` on down. -/
def wordBits (x : UInt32) : Nat → Nat
  | 0 => 1
  | n + 1 => if x &&& 1 <<< UInt32.ofNat (n + 1) ≠ 0 then n + 2 else wordBits x n

/-- The loop of `bits` over the lowest `n` words, from the highest of them. -/
def bitsWords (a : BaseUint width) : Nat → Nat
  | 0 => 0
  | pos + 1 => if a.word pos ≠ 0 then 32 * pos + wordBits (a.word pos) 31 else a.bitsWords pos

/-- `bits`. -/
def bits (a : BaseUint width) : Nat := a.bitsWords width

/-- The loop of `operator/=`, with `shift + 1` turns to come: the remainder, the shifted
divisor and the quotient. -/
def divLoop : Nat → BaseUint width → BaseUint width → BaseUint width → BaseUint width
  | 0, _, _, q => q
  | shift + 1, num, div, q =>
    if 0 ≤ num.compareTo div then
      divLoop shift (num.sub div) (div.shr 1)
        (q.orWord (shift / 32) (1 <<< UInt32.ofNat (shift % 32)))
    else divLoop shift num (div.shr 1) q

/-- `operator/=`; `none` is the exception for a division by zero. -/
def div (a b : BaseUint width) : Option (BaseUint width) :=
  if b.bits = 0 then none
  else if a.bits < b.bits then some zero
  else some (divLoop (a.bits - b.bits + 1) a (b.shl (a.bits - b.bits)) zero)

/-- `GetLow64`. -/
def getLow64 (a : BaseUint width) : UInt64 := (a.word 0).toUInt64 ||| (a.word 1).toUInt64 <<< 32

/-! ## What they compute -/

/-- The number. -/
def value (a : BaseUint width) : Nat := Nat.ofDigits (2 ^ 32) (a.pn.map UInt32.toNat)

theorem words_lt (xs : List UInt32) : ∀ d ∈ xs.map UInt32.toNat, d < 2 ^ 32 := by
  intro d hd
  obtain ⟨x, -, rfl⟩ := List.mem_map.mp hd
  exact x.toNat_lt

theorem value_lt (a : BaseUint width) : a.value < 2 ^ (32 * width) := by
  have hlt := Nat.ofDigits_lt_base_pow_length (by norm_num) (words_lt a.pn)
  rwa [List.length_map, a.length_pn, ← Nat.pow_mul] at hlt

theorem toNat_word (a : BaseUint width) (i : Nat) :
    (a.word i).toNat = (a.pn.map UInt32.toNat).getD i 0 := by
  rw [word, ← UInt32.toNat_zero, List.getD_map]

/-- Two numbers of one width with the same value are the same. -/
theorem value_inj {a b : BaseUint width} : a.value = b.value ↔ a = b := by
  refine ⟨fun h => ?_, fun h => by rw [h]⟩
  obtain ⟨xs, hxs⟩ := a
  obtain ⟨ys, hys⟩ := b
  have hwords := Nat.ofDigits_inj_of_len_eq (by norm_num) (by simp [hxs, hys]) (words_lt xs)
    (words_lt ys) h
  have heq : xs = ys := (List.map_inj_right fun _ _ h => UInt32.toNat_inj.mp h).mp hwords
  subst heq
  rfl

/-- The number that the lowest `n` words make. -/
def low (a : BaseUint width) (n : Nat) : Nat :=
  Nat.ofDigits (2 ^ 32) ((a.pn.map UInt32.toNat).take n)

@[simp] theorem low_zero (a : BaseUint width) : a.low 0 = 0 := by simp [low]

theorem low_succ (a : BaseUint width) (n : Nat) :
    a.low (n + 1) = a.low n + 2 ^ (32 * n) * (a.word n).toNat := by
  rw [low, ofDigits_take_succ, ← low, ← toNat_word, Nat.pow_mul]

theorem low_lt (a : BaseUint width) (n : Nat) : a.low n < 2 ^ (32 * n) := by
  rw [Nat.pow_mul]
  exact ofDigits_take_lt (by norm_num) (words_lt a.pn) n

@[simp] theorem low_width (a : BaseUint width) : a.low width = a.value := by
  rw [low, List.take_of_length_le (by rw [List.length_map, a.length_pn]), value]

/-- A bit of the number. -/
theorem testBit_value (a : BaseUint width) (i : Nat) :
    a.value.testBit i = (a.word (i / 32)).toNat.testBit (i % 32) := by
  rw [value, testBit_ofDigits (by norm_num) (words_lt a.pn), toNat_word]

@[simp] theorem value_zero : (zero : BaseUint width).value = 0 := by
  simp [zero, value, Nat.ofDigits_replicate_zero]

@[simp] theorem value_ofUInt64 (hwidth : 2 ≤ width) (b : UInt64) :
    (ofUInt64 b : BaseUint width).value = b.toNat := by
  obtain ⟨n, rfl⟩ := Nat.exists_eq_add_of_le' hwidth
  have hlow : b.toUInt32.toNat = b.toNat % 2 ^ 32 := UInt64.toNat_toUInt32 b
  have hhigh : (b >>> 32).toUInt32.toNat = b.toNat / 2 ^ 32 % 2 ^ 32 := by
    rw [UInt64.toNat_toUInt32, UInt64.toNat_shiftRight, Nat.shiftRight_eq_div_pow]
    rfl
  have hb := b.toNat_lt
  rw [value, ofUInt64]
  simp only [List.replicate_succ, List.set_cons_zero, List.set_cons_succ, List.map_cons,
    Nat.ofDigits_cons, List.map_replicate, UInt32.toNat_zero, Nat.ofDigits_replicate_zero, hlow,
    hhigh]
  omega

/-! ### Carries -/

/-- A column's total, cut in two. -/
theorem toNat_split (n : UInt64) :
    (n &&& 0xffffffff).toUInt32.toNat = n.toNat % 2 ^ 32 ∧ (n >>> 32).toNat = n.toNat / 2 ^ 32 := by
  refine ⟨?_, ?_⟩
  · rw [UInt64.toNat_toUInt32, UInt64.toNat_and,
      show (0xffffffff : UInt64).toNat = 2 ^ 32 - 1 from rfl, Nat.and_two_pow_sub_one_eq_mod,
      Nat.mod_mod]
  · rw [UInt64.toNat_shiftRight, Nat.shiftRight_eq_div_pow]
    rfl

theorem value_not (a : BaseUint width) : a.not.value = 2 ^ (32 * width) - 1 - a.value := by
  have hmap : a.not.pn.map UInt32.toNat =
      (a.pn.map UInt32.toNat).map fun d => 2 ^ 32 - 1 - d := by
    rw [not, List.map_map, List.map_map]
    exact List.map_congr_left fun x _ => by simp [UInt32.toNat_not]
  have hsum := ofDigits_complement (words_lt a.pn)
  rw [← hmap, List.length_map, a.length_pn, ← Nat.pow_mul] at hsum
  simp only [value]
  omega

theorem map_incWords (xs : List UInt32) :
    (incWords xs).map UInt32.toNat = propagate (2 ^ 32) 1 (xs.map UInt32.toNat) := by
  induction xs with
  | nil => rfl
  | cons x xs ih =>
      have hx := x.toNat_lt
      have hsum : (x + 1).toNat = (1 + x.toNat) % 2 ^ 32 := by
        rw [UInt32.toNat_add, Nat.add_comm]
        rfl
      rw [incWords, List.map_cons, propagate]
      by_cases hzero : x + 1 = 0
      · have hfull : (1 + x.toNat) / 2 ^ 32 = 1 := by
          rw [hzero] at hsum
          have : (0 : UInt32).toNat = 0 := rfl
          omega
        rw [if_pos hzero, List.map_cons, ih, hsum, hfull]
      · have hroom : (1 + x.toNat) / 2 ^ 32 = 0 := by
          have : (x + 1).toNat ≠ 0 := fun h => hzero (UInt32.toNat_inj.mp h)
          omega
        rw [if_neg hzero, List.map_cons, hsum, hroom, propagate_zero (words_lt xs)]

theorem value_inc (a : BaseUint width) : a.inc.value = (a.value + 1) % 2 ^ (32 * width) := by
  rw [value, inc, map_incWords, ofDigits_propagate (by norm_num), List.length_map, a.length_pn,
    ← Nat.pow_mul, Nat.add_comm, value]

theorem value_neg (a : BaseUint width) :
    a.neg.value = (2 ^ (32 * width) - a.value) % 2 ^ (32 * width) := by
  have hlt := a.value_lt
  rw [neg, value_inc, value_not]
  congr 1
  omega

theorem map_addWords {carry : UInt64} {xs ys : List UInt32} (hlen : xs.length = ys.length)
    (hcarry : carry.toNat < 2 ^ 32) :
    (addWords carry xs ys).map UInt32.toNat =
      propagate (2 ^ 32) carry.toNat
        ((xs.map UInt32.toNat).zipWith (· + ·) (ys.map UInt32.toNat)) := by
  induction xs generalizing carry ys with
  | nil => simp [addWords, propagate]
  | cons x xs ih =>
      cases ys with
      | nil => simp at hlen
      | cons y ys =>
          have hx := x.toNat_lt
          have hy := y.toNat_lt
          have hn : (carry + x.toUInt64 + y.toUInt64).toNat =
              carry.toNat + (x.toNat + y.toNat) := by
            simp only [UInt64.toNat_add, UInt32.toNat_toUInt64]
            omega
          have hsplit := toNat_split (carry + x.toUInt64 + y.toUInt64)
          rw [hn] at hsplit
          rw [addWords, List.map_cons, hsplit.1,
            ih (Nat.succ.inj hlen) (by rw [hsplit.2]; omega), hsplit.2]
          rfl

theorem value_add (a b : BaseUint width) :
    (a.add b).value = (a.value + b.value) % 2 ^ (32 * width) := by
  have hlen : a.pn.length = b.pn.length := by rw [a.length_pn, b.length_pn]
  rw [value, add, map_addWords hlen (by decide), ofDigits_propagate (by norm_num),
    ← Nat.ofDigits_add_ofDigits_eq_ofDigits_zipWith_of_length_eq (by simpa using hlen),
    List.length_zipWith, List.length_map, List.length_map, a.length_pn, b.length_pn, Nat.min_self,
    ← Nat.pow_mul]
  simp [value]

/-- Subtraction, of what fits. -/
theorem value_sub {a b : BaseUint width} (hle : b.value ≤ a.value) :
    (a.sub b).value = a.value - b.value := by
  have ha := a.value_lt
  rw [sub, value_add, value_neg, Nat.add_mod_mod, ← Nat.add_sub_assoc (by omega),
    Nat.add_comm a.value, Nat.add_sub_assoc hle, Nat.add_mod_left, Nat.mod_eq_of_lt (by omega)]

theorem map_mulWords {b32 : UInt32} {carry : UInt64} {xs : List UInt32}
    (hcarry : carry.toNat < 2 ^ 32) :
    (mulWords b32 carry xs).map UInt32.toNat =
      propagate (2 ^ 32) carry.toNat ((xs.map UInt32.toNat).map (b32.toNat * ·)) := by
  induction xs generalizing carry with
  | nil => rfl
  | cons x xs ih =>
      have hprod : b32.toNat * x.toNat ≤ (2 ^ 32 - 1) * (2 ^ 32 - 1) :=
        Nat.mul_le_mul (by have := b32.toNat_lt; omega) (by have := x.toNat_lt; omega)
      have hn : (carry + b32.toUInt64 * x.toUInt64).toNat = carry.toNat + b32.toNat * x.toNat := by
        simp only [UInt64.toNat_add, UInt64.toNat_mul, UInt32.toNat_toUInt64]
        omega
      have hsplit := toNat_split (carry + b32.toUInt64 * x.toUInt64)
      rw [hn] at hsplit
      rw [mulWords, List.map_cons, hsplit.1, ih (by rw [hsplit.2]; omega), hsplit.2]
      rfl

/-- **Multiplication by one word**, up to the width. -/
theorem value_mul32 (a : BaseUint width) (b32 : UInt32) :
    (a.mul32 b32).value = a.value * b32.toNat % 2 ^ (32 * width) := by
  rw [value, mul32, map_mulWords (by decide), ofDigits_propagate (by norm_num),
    ← Nat.mul_ofDigits, List.length_map, List.length_map, a.length_pn, ← Nat.pow_mul,
    Nat.mul_comm a.value]
  simp [value]

/-! ### Multiplication -/

theorem map_mulRow {aj : UInt32} {carry : UInt64} {ps ys : List UInt32}
    (hlen : ps.length ≤ ys.length) (hcarry : carry.toNat < 2 ^ 32) :
    (mulRow aj carry ps ys).map UInt32.toNat =
      propagate (2 ^ 32) carry.toNat ((ps.map UInt32.toNat).zipWith (· + ·)
        (((ys.map UInt32.toNat).take ps.length).map (aj.toNat * ·))) := by
  induction ps generalizing carry ys with
  | nil => simp [mulRow, propagate]
  | cons p ps ih =>
      cases ys with
      | nil => simp at hlen
      | cons y ys =>
          have hp := p.toNat_lt
          have hprod : aj.toNat * y.toNat ≤ (2 ^ 32 - 1) * (2 ^ 32 - 1) :=
            Nat.mul_le_mul (by have := aj.toNat_lt; omega) (by have := y.toNat_lt; omega)
          have hn : (carry + p.toUInt64 + aj.toUInt64 * y.toUInt64).toNat =
              carry.toNat + (p.toNat + aj.toNat * y.toNat) := by
            simp only [UInt64.toNat_add, UInt64.toNat_mul, UInt32.toNat_toUInt64]
            omega
          have hsplit := toNat_split (carry + p.toUInt64 + aj.toUInt64 * y.toUInt64)
          rw [hn] at hsplit
          rw [mulRow, List.map_cons, hsplit.1,
            ih (Nat.le_of_succ_le_succ hlen) (by rw [hsplit.2]; omega), hsplit.2]
          rfl

/-- One row adds its product, up to the width. -/
theorem value_mulTurn (a b r : BaseUint width) {j : Nat} (hj : j < width) :
    (a.mulTurn b r j).value ≡
      r.value + 2 ^ (32 * j) * (a.word j).toNat * b.value [MOD 2 ^ (32 * width)] := by
  have hdrop : (r.pn.drop j).length = width - j := by rw [List.length_drop, r.length_pn]
  have htake : (r.pn.take j).length = j := by
    rw [List.length_take, r.length_pn, Nat.min_eq_left hj.le]
  -- the words from `j` on hold the sum up to the rest of the width
  have hrow : Nat.ofDigits (2 ^ 32)
      ((mulRow (a.word j) 0 (r.pn.drop j) b.pn).map UInt32.toNat) ≡
      Nat.ofDigits (2 ^ 32) ((r.pn.drop j).map UInt32.toNat) + (a.word j).toNat * b.value
        [MOD 2 ^ (32 * (width - j))] := by
    have hlen : (r.pn.drop j).length ≤ b.pn.length := by rw [hdrop, b.length_pn]; omega
    rw [map_mulRow hlen (by decide), ofDigits_propagate (by norm_num),
      ← Nat.ofDigits_add_ofDigits_eq_ofDigits_zipWith_of_length_eq
        (by simp [b.length_pn, r.length_pn]),
      ← Nat.mul_ofDigits, hdrop,
      ← Nat.ofDigits_mod_pow_eq_ofDigits_take _ (by norm_num) _ (words_lt b.pn)]
    have hcols : (List.zipWith (· + ·) ((r.pn.drop j).map UInt32.toNat)
        (((b.pn.map UInt32.toNat).take (width - j)).map ((a.word j).toNat * ·))).length =
        width - j := by
      simp [r.length_pn, b.length_pn]
    rw [hcols, ← Nat.pow_mul, ← value]
    refine (Nat.mod_modEq _ _).trans ?_
    rw [show (0 : UInt64).toNat = 0 from rfl, Nat.zero_add]
    exact Nat.ModEq.add_left _ (Nat.ModEq.mul_left _ (Nat.mod_modEq _ _))
  have hwidth : 2 ^ (32 * j) * 2 ^ (32 * (width - j)) = 2 ^ (32 * width) := by
    rw [← Nat.pow_add]
    congr 1
    omega
  have hsplit : r.value = Nat.ofDigits (2 ^ 32) ((r.pn.take j).map UInt32.toNat) +
      2 ^ (32 * j) * Nat.ofDigits (2 ^ 32) ((r.pn.drop j).map UInt32.toNat) := by
    conv_lhs => rw [value, ← List.take_append_drop j r.pn]
    rw [List.map_append, Nat.ofDigits_append, List.length_map, htake, ← Nat.pow_mul]
  have hrow' := hrow.mul_left' (2 ^ (32 * j))
  rw [hwidth] at hrow'
  rw [value, mulTurn, List.map_append, Nat.ofDigits_append, List.length_map, htake,
    ← Nat.pow_mul, hsplit, Nat.add_assoc, Nat.mul_assoc, ← Nat.mul_add]
  exact hrow'.add_left _

/-- **Multiplication**, up to the width. -/
theorem value_mul (a b : BaseUint width) :
    (a.mul b).value = a.value * b.value % 2 ^ (32 * width) := by
  have hrows : ∀ n ≤ width, ((List.range n).foldl (a.mulTurn b) zero).value ≡
      a.low n * b.value [MOD 2 ^ (32 * width)] := by
    intro n
    induction n with
    | zero => intro _; simp; rfl
    | succ n ih =>
        intro hn
        rw [List.range_succ, List.foldl_append, List.foldl_cons, List.foldl_nil, low_succ,
          Nat.add_mul]
        exact (value_mulTurn a b _ hn).trans ((ih (by omega)).add_right _)
  have hall := hrows width le_rfl
  rw [low_width] at hall
  rw [← Nat.mod_eq_of_lt (a.mul b).value_lt]
  exact hall

/-! ### Shifts -/

theorem word_eq_zero (a : BaseUint width) {i : Nat} (hi : width ≤ i) : a.word i = 0 := by
  rw [word, List.getD_eq_default _ _ (by rw [a.length_pn]; exact hi)]

@[simp] theorem word_zero (i : Nat) : (zero : BaseUint width).word i = 0 := by
  rw [word, zero, List.getD_eq_getElem?_getD, List.getElem?_replicate]
  split <;> rfl

theorem word_orWord (a : BaseUint width) (i j : Nat) (x : UInt32) :
    (a.orWord i x).word j = if i = j ∧ j < width then a.word j ||| x else a.word j := by
  simp only [word, orWord, List.getD_eq_getElem?_getD, List.getElem?_modify]
  have hlen := a.length_pn
  by_cases hj : j < width
  · rw [List.getElem?_eq_getElem (show j < a.pn.length by omega)]
    by_cases hij : i = j <;> simp [hij, hj]
  · rw [List.getElem?_eq_none (show a.pn.length ≤ j by omega)]
    simp [hj]

/-- Two numbers with the same bits. -/
theorem value_eq_of_testBit {a : BaseUint width} {n : Nat} (hn : n < 2 ^ (32 * width))
    (h : ∀ i < width, ∀ j < 32, (a.word i).toNat.testBit j = n.testBit (32 * i + j)) :
    a.value = n := by
  apply Nat.eq_of_testBit_eq
  intro p
  rw [testBit_value]
  have hp := Nat.div_add_mod p 32
  by_cases hlt : p / 32 < width
  · rw [h _ hlt _ (Nat.mod_lt _ (by norm_num)), hp]
  · rw [word_eq_zero a (by omega), UInt32.toNat_zero, Nat.zero_testBit]
    refine (Nat.testBit_lt_two_pow (hn.trans_le (Nat.pow_le_pow_right (by norm_num) ?_))).symm
    omega

/-- The bits of a word that has been moved up within the word. -/
theorem testBit_shiftLeft {x : UInt32} {s r : Nat} (hs : s < 32) (hr : r < 32) :
    (x <<< UInt32.ofNat s).toNat.testBit r = (decide (s ≤ r) && x.toNat.testBit (r - s)) := by
  rw [UInt32.toNat_shiftLeft, UInt32.toNat_ofNat', Nat.testBit_mod_two_pow, Nat.testBit_shiftLeft,
    Nat.mod_eq_of_lt (show s < 2 ^ 32 by omega), Nat.mod_eq_of_lt hs]
  simp [hr]

theorem toNat_shiftRight {x : UInt32} {s : Nat} (hs : s < 32) :
    (x >>> UInt32.ofNat s).toNat = x.toNat / 2 ^ s := by
  rw [UInt32.toNat_shiftRight, UInt32.toNat_ofNat', Nat.mod_eq_of_lt (show s < 2 ^ 32 by omega),
    Nat.mod_eq_of_lt hs, Nat.shiftRight_eq_div_pow]

theorem testBit_shiftRight {x : UInt32} {s r : Nat} (hs : s < 32) :
    (x >>> UInt32.ofNat s).toNat.testBit r = x.toNat.testBit (r + s) := by
  rw [toNat_shiftRight hs, Nat.testBit_div_two_pow]

theorem testBit_shiftRight_high {x : UInt32} {s r : Nat} (hs : s < 32) (hr : 32 ≤ r + s) :
    (x >>> UInt32.ofNat s).toNat.testBit r = false := by
  rw [testBit_shiftRight hs]
  exact Nat.testBit_lt_two_pow (x.toNat_lt.trans_le (Nat.pow_le_pow_right (by norm_num) hr))

/-- What one turn of `operator<<=` adds to a word. -/
theorem word_shlTurn (a r : BaseUint width) (k shift i : Nat) {j : Nat} (hj : j < width) :
    (a.shlTurn k shift r i).word j =
      (r.word j ||| (if j = i + k + 1 ∧ shift ≠ 0 then
        a.word i >>> UInt32.ofNat (32 - shift) else 0)) |||
      (if j = i + k then a.word i <<< UInt32.ofNat shift else 0) := by
  have hhigh : ((if i + k + 1 < width ∧ shift ≠ 0 then
        r.orWord (i + k + 1) (a.word i >>> UInt32.ofNat (32 - shift)) else r).word j) =
      r.word j ||| (if j = i + k + 1 ∧ shift ≠ 0 then
        a.word i >>> UInt32.ofNat (32 - shift) else 0) := by
    by_cases heq : j = i + k + 1 ∧ shift ≠ 0
    · rw [if_pos (by omega), word_orWord, if_pos (by omega), if_pos heq]
    · rw [if_neg heq, UInt32.or_zero]
      split
      · rw [word_orWord, if_neg (by omega)]
      · rfl
  rw [shlTurn, ← hhigh]
  by_cases heq : j = i + k
  · rw [if_pos (by omega), word_orWord, if_pos (by omega), if_pos heq]
  · rw [if_neg heq, UInt32.or_zero]
    split
    · rw [word_orWord, if_neg (by omega)]
    · rfl

/-- The words after `n` turns of `operator<<=`. -/
theorem word_shlTurns (a : BaseUint width) (k shift n : Nat) {j : Nat} (hj : j < width) :
    ((List.range n).foldl (a.shlTurn k shift) zero).word j =
      (if k + 1 ≤ j ∧ j < n + k + 1 ∧ shift ≠ 0 then
        a.word (j - k - 1) >>> UInt32.ofNat (32 - shift) else 0) |||
      (if k ≤ j ∧ j < n + k then a.word (j - k) <<< UInt32.ofNat shift else 0) := by
  induction n with
  | zero =>
      rw [if_neg (by omega), if_neg (by omega)]
      simp
  | succ n ih =>
      rw [List.range_succ, List.foldl_append, List.foldl_cons, List.foldl_nil,
        word_shlTurn a _ k shift n hj, ih]
      -- the turn writes the low half of one word and the high half of the next
      rcases lt_trichotomy j (n + k) with hlt | rfl | hgt
      · rw [if_neg (by omega : ¬(j = n + k + 1 ∧ shift ≠ 0)), UInt32.or_zero,
          if_neg (by omega : ¬j = n + k), UInt32.or_zero]
        congr 1 <;> exact if_congr (by omega) rfl rfl
      · rw [if_neg (by omega : ¬(n + k = n + k + 1 ∧ shift ≠ 0)), UInt32.or_zero, if_pos rfl,
          if_neg (by omega : ¬(k ≤ n + k ∧ n + k < n + k)), UInt32.or_zero,
          if_pos (by omega : k ≤ n + k ∧ n + k < n + 1 + k), Nat.add_sub_cancel]
        congr 1
        exact if_congr (by omega) rfl rfl
      · rw [if_neg (by omega : ¬j = n + k), UInt32.or_zero,
          if_neg (by omega : ¬(k + 1 ≤ j ∧ j < n + k + 1 ∧ shift ≠ 0)), UInt32.zero_or,
          if_neg (by omega : ¬(k ≤ j ∧ j < n + k)), UInt32.zero_or,
          if_neg (by omega : ¬(k ≤ j ∧ j < n + 1 + k)), UInt32.or_zero]
        by_cases heq : j = n + k + 1
        · rw [heq, show n + k + 1 - k - 1 = n by omega]
          exact if_congr (by omega) rfl rfl
        · rw [if_neg (by omega), if_neg (by omega)]

/-- **Shifting up**, up to the width. -/
theorem value_shl (a : BaseUint width) (shift : Nat) :
    (a.shl shift).value = a.value * 2 ^ shift % 2 ^ (32 * width) := by
  refine value_eq_of_testBit (Nat.mod_lt _ (Nat.two_pow_pos _)) fun i hi r hr => ?_
  have hshift := Nat.div_add_mod shift 32
  have hmod := Nat.mod_lt shift (show 0 < 32 by norm_num)
  rw [shl, word_shlTurns a _ _ _ hi, UInt32.toNat_or, Nat.testBit_or, Nat.testBit_mod_two_pow,
    Nat.testBit_mul_two_pow, testBit_value, decide_eq_true (by omega : 32 * i + r < 32 * width),
    Bool.true_and]
  generalize shift / 32 = k at *
  generalize shift % 32 = s at *
  by_cases hlow : s ≤ r
  · -- the bit comes from the word `k` places below
    have hnext : (if k + 1 ≤ i ∧ i < width + k + 1 ∧ s ≠ 0 then
        a.word (i - k - 1) >>> UInt32.ofNat (32 - s) else 0).toNat.testBit r = false := by
      split
      · exact testBit_shiftRight_high (by omega) (by omega)
      · simp
    rw [hnext, Bool.false_or]
    by_cases hk : k ≤ i
    · rw [if_pos (by omega), testBit_shiftLeft hmod hr, decide_eq_true hlow,
        decide_eq_true (by omega : shift ≤ 32 * i + r),
        show (32 * i + r - shift) / 32 = i - k by omega,
        show (32 * i + r - shift) % 32 = r - s by omega]
    · rw [if_neg (by omega), decide_eq_false (by omega : ¬shift ≤ 32 * i + r)]
      simp
  · -- the bit comes from the word before that
    have hsame : (if k ≤ i ∧ i < width + k then
        a.word (i - k) <<< UInt32.ofNat s else 0).toNat.testBit r = false := by
      split
      · rw [testBit_shiftLeft hmod hr, decide_eq_false hlow, Bool.false_and]
      · simp
    rw [hsame, Bool.or_false]
    by_cases hk : k + 1 ≤ i
    · rw [if_pos (by omega), testBit_shiftRight (by omega),
        decide_eq_true (by omega : shift ≤ 32 * i + r), Bool.true_and,
        show (32 * i + r - shift) / 32 = i - k - 1 by omega,
        show (32 * i + r - shift) % 32 = r + (32 - s) by omega]
    · rw [if_neg (by omega), decide_eq_false (by omega : ¬shift ≤ 32 * i + r)]
      simp

/-- What one turn of `operator>>=` adds to a word. -/
theorem word_shrTurn (a r : BaseUint width) (k shift : Nat) {i j : Nat} (hi : i < width) :
    (a.shrTurn k shift r i).word j =
      (r.word j ||| (if i = j + k + 1 ∧ shift ≠ 0 then
        a.word i <<< UInt32.ofNat (32 - shift) else 0)) |||
      (if i = j + k then a.word i >>> UInt32.ofNat shift else 0) := by
  have hlow : ((if k + 1 ≤ i ∧ shift ≠ 0 then
        r.orWord (i - k - 1) (a.word i <<< UInt32.ofNat (32 - shift)) else r).word j) =
      r.word j ||| (if i = j + k + 1 ∧ shift ≠ 0 then
        a.word i <<< UInt32.ofNat (32 - shift) else 0) := by
    by_cases heq : i = j + k + 1 ∧ shift ≠ 0
    · rw [if_pos (by omega), word_orWord, if_pos (by omega), if_pos heq]
    · rw [if_neg heq, UInt32.or_zero]
      split
      · rw [word_orWord, if_neg (by omega)]
      · rfl
  rw [shrTurn, ← hlow]
  by_cases heq : i = j + k
  · rw [if_pos (by omega), word_orWord, if_pos (by omega), if_pos heq]
  · rw [if_neg heq, UInt32.or_zero]
    split
    · rw [word_orWord, if_neg (by omega)]
    · rfl

/-- The words after `n` turns of `operator>>=`. -/
theorem word_shrTurns (a : BaseUint width) (k shift : Nat) {n : Nat} (hn : n ≤ width) (j : Nat) :
    ((List.range n).foldl (a.shrTurn k shift) zero).word j =
      (if j + k + 1 < n ∧ shift ≠ 0 then
        a.word (j + k + 1) <<< UInt32.ofNat (32 - shift) else 0) |||
      (if j + k < n then a.word (j + k) >>> UInt32.ofNat shift else 0) := by
  induction n with
  | zero =>
      rw [if_neg (by omega), if_neg (by omega)]
      simp
  | succ n ih =>
      rw [List.range_succ, List.foldl_append, List.foldl_cons, List.foldl_nil,
        word_shrTurn a _ k shift (by omega), ih (by omega)]
      -- the turn writes the high half of one word and the low half of the one below
      rcases lt_trichotomy n (j + k) with hlt | rfl | hgt
      · rw [if_neg (by omega), if_neg (by omega), if_neg (by omega), if_neg (by omega),
          if_neg (by omega), if_neg (by omega)]
        rfl
      · rw [if_neg (by omega : ¬(j + k + 1 < j + k ∧ shift ≠ 0)),
          if_neg (by omega : ¬j + k < j + k),
          if_neg (by omega : ¬(j + k = j + k + 1 ∧ shift ≠ 0)), if_pos rfl,
          if_neg (by omega : ¬(j + k + 1 < j + k + 1 ∧ shift ≠ 0)),
          if_pos (by omega : j + k < j + k + 1), UInt32.or_zero, UInt32.or_zero]
      · rw [if_neg (by omega : ¬n = j + k), UInt32.or_zero, if_pos hgt,
          if_pos (by omega : j + k < n + 1), UInt32.or_assoc,
          UInt32.or_comm (a.word (j + k) >>> _), ← UInt32.or_assoc]
        congr 1
        by_cases heq : n = j + k + 1
        · rw [heq, if_neg (by omega : ¬(j + k + 1 < j + k + 1 ∧ shift ≠ 0)), UInt32.zero_or]
          exact if_congr (by omega) rfl rfl
        · rw [if_neg (by omega : ¬(n = j + k + 1 ∧ shift ≠ 0)), UInt32.or_zero]
          exact if_congr (by omega) rfl rfl

/-- **Shifting down**. -/
theorem value_shr (a : BaseUint width) (shift : Nat) :
    (a.shr shift).value = a.value / 2 ^ shift := by
  refine value_eq_of_testBit ((Nat.div_le_self ..).trans_lt a.value_lt) fun i hi r hr => ?_
  have hshift := Nat.div_add_mod shift 32
  have hmod := Nat.mod_lt shift (show 0 < 32 by norm_num)
  rw [shr, word_shrTurns a _ _ le_rfl, UInt32.toNat_or, Nat.testBit_or, Nat.testBit_div_two_pow,
    testBit_value]
  generalize shift / 32 = k at *
  generalize shift % 32 = s at *
  by_cases hlow : r + s < 32
  · -- the bit comes from the word `k` places above
    have hnext : (if i + k + 1 < width ∧ s ≠ 0 then
        a.word (i + k + 1) <<< UInt32.ofNat (32 - s) else 0).toNat.testBit r = false := by
      split
      · rw [testBit_shiftLeft (by omega) hr, decide_eq_false (by omega), Bool.false_and]
      · simp
    rw [hnext, Bool.false_or, show (32 * i + r + shift) / 32 = i + k by omega,
      show (32 * i + r + shift) % 32 = r + s by omega]
    split
    · rw [testBit_shiftRight hmod]
    · rw [word_eq_zero a (by omega)]
      simp
  · -- the bit comes from the word after that
    have hsame : (if i + k < width then
        a.word (i + k) >>> UInt32.ofNat s else 0).toNat.testBit r = false := by
      split
      · exact testBit_shiftRight_high hmod (by omega)
      · simp
    rw [hsame, Bool.or_false, show (32 * i + r + shift) / 32 = i + k + 1 by omega,
      show (32 * i + r + shift) % 32 = r - (32 - s) by omega]
    split
    · rw [testBit_shiftLeft (by omega) hr, decide_eq_true (by omega), Bool.true_and]
    · rw [word_eq_zero a (by omega)]
      simp

/-! ### Comparisons and sizes -/

theorem compareWords_eq (a b : BaseUint width) (n : Nat) :
    a.compareWords b n =
      if a.low n < b.low n then -1 else if b.low n < a.low n then 1 else 0 := by
  induction n with
  | zero => simp [compareWords]
  | succ n ih =>
      rw [compareWords, low_succ, low_succ]
      simp only [UInt32.lt_iff_toNat_lt]
      rcases lt_trichotomy (a.word n).toNat (b.word n).toNat with hlt | heq | hgt
      · rw [if_pos hlt, if_pos (add_mul_lt_add_mul (a.low_lt n) hlt)]
      · rw [heq, if_neg (lt_irrefl _), if_neg (lt_irrefl _), ih]
        simp only [Nat.add_lt_add_iff_right]
      · have hmore : b.low n + 2 ^ (32 * n) * (b.word n).toNat <
            a.low n + 2 ^ (32 * n) * (a.word n).toNat := add_mul_lt_add_mul (b.low_lt n) hgt
        rw [if_neg (by omega), if_pos hgt, if_neg (by omega), if_pos hmore]

/-- `CompareTo` orders the numbers. -/
theorem compareTo_nonneg {a b : BaseUint width} : 0 ≤ a.compareTo b ↔ b.value ≤ a.value := by
  rw [compareTo, compareWords_eq, low_width, low_width]
  split_ifs <;> omega

theorem compareTo_pos {a b : BaseUint width} : 0 < a.compareTo b ↔ b.value < a.value := by
  rw [compareTo, compareWords_eq, low_width, low_width]
  split_ifs <;> omega

theorem equalTo_iff (hwidth : 2 ≤ width) (a : BaseUint width) (b : UInt64) :
    a.equalTo b = true ↔ a.value = b.toNat := by
  obtain ⟨n, rfl⟩ := Nat.exists_eq_add_of_le' hwidth
  rw [← value_ofUInt64 hwidth b, value_inj]
  obtain ⟨pn, hlen⟩ := a
  rcases pn with _ | ⟨x, _ | ⟨y, rest⟩⟩
  · simp at hlen
  · simp at hlen
  · have hrest : rest.length = n := by simpa using hlen
    have hlow : x.toUInt64 = b &&& 0xffffffff ↔ x = b.toUInt32 := by
      rw [← UInt64.toNat_inj, ← UInt32.toNat_inj, UInt32.toNat_toUInt64, UInt64.toNat_toUInt32,
        UInt64.toNat_and, show (0xffffffff : UInt64).toNat = 2 ^ 32 - 1 from rfl,
        Nat.and_two_pow_sub_one_eq_mod]
    have hhigh : y.toUInt64 = b >>> 32 ↔ y = (b >>> 32).toUInt32 := by
      have hlt : (b >>> 32).toNat < 2 ^ 32 := by
        rw [(toNat_split b).2]
        have := b.toNat_lt
        omega
      rw [← UInt64.toNat_inj, ← UInt32.toNat_inj, UInt32.toNat_toUInt64, UInt64.toNat_toUInt32,
        Nat.mod_eq_of_lt hlt]
    simp only [equalTo, word, ofUInt64, BaseUint.mk.injEq, List.replicate_succ,
      List.set_cons_zero, List.set_cons_succ, List.cons.injEq, Bool.and_eq_true, beq_iff_eq,
      List.drop_succ_cons, List.drop_zero, List.all_eq_true, List.getD_cons_zero,
      List.getD_cons_succ, hlow, hhigh, List.eq_replicate_iff, hrest, true_and]
    tauto

/-- A bit of a word. -/
theorem and_bit_ne_zero (x : UInt32) {n : Nat} (hn : n < 32) :
    x &&& 1 <<< UInt32.ofNat n ≠ 0 ↔ x.toNat.testBit n = true := by
  have hbit : ((1 : UInt32) <<< UInt32.ofNat n).toNat = 2 ^ n := by
    rw [UInt32.toNat_shiftLeft, UInt32.toNat_ofNat', Nat.mod_eq_of_lt (show n < 2 ^ 32 by omega),
      Nat.mod_eq_of_lt hn, UInt32.toNat_one, Nat.shiftLeft_eq, Nat.one_mul,
      Nat.mod_eq_of_lt (Nat.pow_lt_pow_right (by norm_num) hn)]
  rw [ne_eq, ← UInt32.toNat_inj, UInt32.toNat_and, hbit, Nat.and_two_pow, UInt32.toNat_zero]
  cases x.toNat.testBit n <;> simp

theorem wordBits_eq {x : UInt32} (hx : x ≠ 0) {n : Nat} (hn : n < 32)
    (hlt : x.toNat < 2 ^ (n + 1)) : wordBits x n = x.toNat.size := by
  induction n with
  | zero =>
      have hpos : x.toNat ≠ 0 := fun h => hx (UInt32.toNat_inj.mp h)
      rw [wordBits, show x.toNat = 1 by omega, Nat.size_one]
  | succ n ih =>
      rw [wordBits]
      by_cases hbit : x.toNat.testBit (n + 1) = true
      · rw [if_pos ((and_bit_ne_zero x hn).mpr hbit)]
        have hlow : n + 1 < x.toNat.size := Nat.lt_size.mpr (Nat.ge_two_pow_of_testBit hbit)
        have hhigh : x.toNat.size ≤ n + 2 := Nat.size_le.mpr hlt
        omega
      · rw [if_neg fun h => hbit ((and_bit_ne_zero x hn).mp h), ih (by omega) ?_]
        by_contra hge
        refine hbit (Nat.testBit_of_two_pow_le_and_two_pow_add_one_gt (by omega) hlt)

theorem bitsWords_eq (a : BaseUint width) (n : Nat) : a.bitsWords n = (a.low n).size := by
  induction n with
  | zero => simp [bitsWords]
  | succ n ih =>
      rw [bitsWords, low_succ]
      by_cases hword : a.word n = 0
      · rw [if_neg (not_not.mpr hword), ih, hword, UInt32.toNat_zero, Nat.mul_zero, Nat.add_zero]
      · have hne : (a.word n).toNat ≠ 0 := fun h => hword (UInt32.toNat_inj.mp h)
        rw [if_pos hword, wordBits_eq hword (by norm_num) (a.word n).toNat_lt,
          size_add_mul (a.low_lt n) hne]

/-- **`bits` is the size of the number.** -/
theorem bits_eq (a : BaseUint width) : a.bits = a.value.size := by
  rw [bits, bitsWords_eq, low_width]

theorem toNat_getLow64 (a : BaseUint width) : a.getLow64.toNat = a.value % 2 ^ 64 := by
  have hlow : a.value % 2 ^ 64 = a.low 2 :=
    Nat.ofDigits_mod_pow_eq_ofDigits_take 2 (by norm_num) _ (words_lt a.pn)
  have h0 := (a.word 0).toNat_lt
  have h1 := (a.word 1).toNat_lt
  have hhigh : ((a.word 1).toUInt64 <<< 32).toNat = 2 ^ 32 * (a.word 1).toNat := by
    rw [UInt64.toNat_shiftLeft, UInt32.toNat_toUInt64, Nat.shiftLeft_eq,
      show (32 : UInt64).toNat % 64 = 32 from rfl, Nat.mod_eq_of_lt (by omega), Nat.mul_comm]
  rw [hlow, low_succ, low_succ, low_zero, getLow64, UInt64.toNat_or, hhigh, UInt32.toNat_toUInt64,
    Nat.or_comm, ← Nat.two_pow_add_eq_or_of_lt h0]
  omega

/-! ### Division -/

/-- Setting a bit below all that are set. -/
theorem value_orBit {q : BaseUint width} {n : Nat} (hn : n < 32 * width)
    (hq : 2 ^ (n + 1) ∣ q.value) :
    (q.orWord (n / 32) (1 <<< UInt32.ofNat (n % 32))).value = q.value + 2 ^ n := by
  obtain ⟨t, ht⟩ := hq
  have hsum : q.value + 2 ^ n = q.value ||| 2 ^ n := by
    rw [ht, Nat.two_pow_add_eq_or_of_lt (Nat.pow_lt_pow_right (by norm_num) (by omega))]
  rw [hsum]
  refine value_eq_of_testBit (Nat.or_lt_two_pow q.value_lt
    (Nat.pow_lt_pow_right (by norm_num) hn)) fun i hi j hj => ?_
  have hmod := Nat.mod_lt n (show 0 < 32 by norm_num)
  rw [word_orWord, Nat.testBit_or, Nat.testBit_two_pow, testBit_value,
    show (32 * i + j) / 32 = i by omega, show (32 * i + j) % 32 = j by omega]
  by_cases hword : n / 32 = i
  · rw [if_pos ⟨hword, hi⟩, UInt32.toNat_or, Nat.testBit_or, testBit_shiftLeft hmod hj,
      UInt32.toNat_one, ← Nat.pow_zero 2, Nat.testBit_two_pow]
    congr 1
    rw [← Bool.decide_and]
    exact decide_eq_decide.mpr (by omega)
  · rw [if_neg fun h => hword h.1, decide_eq_false (by omega), Bool.or_false]

/-- The loop of `operator/=` is a division by shifting and subtracting. -/
theorem value_divLoop (k : Nat) (num div q : BaseUint width) (hk : k ≤ 32 * width)
    (hq : 2 ^ k ∣ q.value) :
    (divLoop k num div q).value = q.value + longDiv k num.value div.value := by
  induction k generalizing num div q with
  | zero => simp [divLoop, longDiv]
  | succ k ih =>
      have hdvd : 2 ^ k ∣ q.value := (Nat.pow_dvd_pow 2 k.le_succ).trans hq
      rw [divLoop, longDiv]
      by_cases hle : div.value ≤ num.value
      · rw [if_pos (compareTo_nonneg.mpr hle), if_pos hle, ih _ _ _ (by omega) ?_,
          value_orBit (by omega) hq, value_sub hle, value_shr, Nat.pow_one, Nat.add_assoc]
        rw [value_orBit (by omega) hq]
        exact Nat.dvd_add hdvd (dvd_refl _)
      · rw [if_neg fun h => hle (compareTo_nonneg.mp h), if_neg hle, ih _ _ _ (by omega) hdvd,
          value_shr, Nat.pow_one]

/-- **Division.**  A division by zero is refused, any other is exact. -/
theorem div_spec (a b : BaseUint width) :
    (b.value = 0 → a.div b = none) ∧
    (b.value ≠ 0 → ∃ q, a.div b = some q ∧ q.value = a.value / b.value) := by
  rw [div, bits_eq, bits_eq]
  constructor
  · intro hb
    rw [if_pos (Nat.size_eq_zero.mpr hb)]
  · intro hb
    have hpos : 0 < b.value := Nat.pos_of_ne_zero hb
    rw [if_neg fun h => hb (Nat.size_eq_zero.mp h)]
    by_cases hsmall : a.value.size < b.value.size
    · have hlt : a.value < b.value := (Nat.lt_size_self _).trans_le (Nat.lt_size.mp hsmall)
      rw [if_pos hsmall]
      exact ⟨zero, rfl, by rw [value_zero, Nat.div_eq_of_lt hlt]⟩
    · rw [if_neg hsmall]
      refine ⟨_, rfl, ?_⟩
      have hsize : a.value.size ≤ 32 * width := Nat.size_le.mpr a.value_lt
      have hbsize : 0 < b.value.size := Nat.size_pos.mpr hpos
      have hshift : b.value * 2 ^ (a.value.size - b.value.size) < 2 ^ (32 * width) :=
        calc b.value * 2 ^ (a.value.size - b.value.size)
            < 2 ^ b.value.size * 2 ^ (a.value.size - b.value.size) :=
              Nat.mul_lt_mul_of_pos_right (Nat.lt_size_self _) (Nat.two_pow_pos _)
          _ = 2 ^ a.value.size := by rw [← Nat.pow_add, Nat.add_sub_cancel' (by omega)]
          _ ≤ 2 ^ (32 * width) := Nat.pow_le_pow_right (by norm_num) hsize
      have hnum : a.value < b.value * 2 ^ (a.value.size - b.value.size + 1) :=
        calc a.value < 2 ^ a.value.size := Nat.lt_size_self _
          _ = 2 ^ (b.value.size - 1) * 2 ^ (a.value.size - b.value.size + 1) := by
              rw [← Nat.pow_add]
              congr 1
              omega
          _ ≤ b.value * 2 ^ (a.value.size - b.value.size + 1) :=
              Nat.mul_le_mul_right _ (Nat.lt_size.mp (by omega))
      rw [value_divLoop _ _ _ _ (by omega) (by rw [value_zero]; exact dvd_zero _), value_zero,
        Nat.zero_add, value_shl, Nat.mod_eq_of_lt hshift, longDiv_eq hpos _ hnum]

end BaseUint
end Hivemind
