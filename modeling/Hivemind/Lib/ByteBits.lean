import Hivemind.Lib.Codec
import Mathlib.Data.Nat.Bitwise

/-!
# The bits of a byte string

Bit `n` of a byte string is in byte `n / 8`, at place `n % 8` from its low end.  A bit is set by
a disjunction of its byte with `bitMask`, and looked at by masking the byte and comparing with
zero.

Bits behind the end of the byte string are not set, and setting one of them changes nothing; the
lemma about setting asks for a bit that is there, which is what a caller has that computes its
bit numbers modulo the number of bits.

* `bitMask`, `bitAt`, `setBit`: one bit in a byte, a bit that is read, and one that is set.
* `and_bitMask_ne_zero`: a byte is masked to see one of its bits.
* `bitAt_setBit`: **a bit that is set is set**, and the others stay as they are.
-/

namespace ByteBits

open Codecs

/-- The byte with one bit. -/
def bitMask (n : Nat) : UInt8 := 1 <<< UInt8.ofNat (n % 8)

theorem toNat_bitMask (n : Nat) : (bitMask n).toNat = 2 ^ (n % 8) := by
  have hall : ∀ k < 8, ((1 : UInt8) <<< UInt8.ofNat k).toNat = 2 ^ k := by decide
  exact hall _ (Nat.mod_lt n (by omega))

/-- Bit `n`. -/
def bitAt (v : Bytes) (n : Nat) : Bool := (v.getD (n / 8) 0).toNat.testBit (n % 8)

/-- The byte string with bit `n` set. -/
def setBit (v : Bytes) (n : Nat) : Bytes := v.set (n / 8) (v.getD (n / 8) 0 ||| bitMask n)

@[simp] theorem length_setBit (v : Bytes) (n : Nat) : (setBit v n).length = v.length :=
  List.length_set

theorem and_bitMask_ne_zero {v : Bytes} {n : Nat} {b : UInt8} (h : v[n / 8]? = some b) :
    b &&& bitMask n ≠ 0 ↔ bitAt v n = true := by
  rw [bitAt, List.getD_eq_getElem?_getD, h, Option.getD_some, ne_eq, ← UInt8.toNat_inj,
    UInt8.toNat_and, toNat_bitMask, Nat.and_two_pow, UInt8.toNat_zero]
  cases b.toNat.testBit (n % 8) <;> simp

/-- **Setting a bit.** -/
theorem bitAt_setBit {v : Bytes} {n : Nat} (hn : n < v.length * 8) (m : Nat) :
    bitAt (setBit v n) m = (bitAt v m || decide (m = n)) := by
  have hlt : n / 8 < v.length := by omega
  by_cases hbyte : m / 8 = n / 8
  · rw [bitAt, setBit, hbyte, List.getD_eq_getElem?_getD, List.getElem?_set_self hlt,
      Option.getD_some, UInt8.toNat_or, Nat.testBit_or, toNat_bitMask, Nat.testBit_two_pow, bitAt,
      hbyte]
    congr 1
    rw [decide_eq_decide]
    omega
  · have hne : m ≠ n := by
      rintro rfl
      exact hbyte rfl
    rw [bitAt, setBit, List.getD_eq_getElem?_getD, List.getElem?_set_ne (Ne.symm hbyte),
      ← List.getD_eq_getElem?_getD, ← bitAt, decide_eq_false hne, Bool.or_false]

end ByteBits
