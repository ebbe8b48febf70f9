import Hivemind.Lib.VarInt
import Mathlib.Algebra.BigOperators.Intervals
import Mathlib.Algebra.BigOperators.Ring.Finset

/-!
# `WriteVarInt` and its temporary buffer

`serialize.h` collects the bytes of a number in an array on the stack, that is as long as the
type of the number is wide, and writes them backwards.

The array has `(sizeof(n) * 8 + 6) / 7` places and the loop has no check: it ends when the number
does.  So the store of each byte is one that fails behind the array, and that it does not fail is
shown for every width, not for the widths that are used.  The number that some bytes stand for is
defined apart from the reader, as a sum over all of them, to be able to say that no other bytes
stand for it.

* `fillTmp_eq`: nothing is stored behind the array.
* `numberOf_eq_sum`: the number of a byte sequence, as a sum.
* `varIntBuffer_number`: **the bytes of a number are the only ones that stand for it.**
* `varInt_spec`: the size, the round trip and the uniqueness.
-/

namespace Hivemind

open Codecs

/-- The first loop of `WriteVarInt`, with what has been stored in `tmp` so far; `none` when it
is full. -/
def fillTmp (size n : Nat) (tmp : Bytes) : Option Bytes :=
  if tmp.length < size then
    let tmp := tmp ++ [UInt8.ofNat (n % 128 + if 0 < tmp.length then 128 else 0)]
    if n ≤ 127 then some tmp else fillTmp size (n / 128 - 1) tmp
  else none
termination_by n

/-- `WriteVarInt`, of a type of `width` bytes. -/
def writeVarIntOf (width n : Nat) : Option Bytes :=
  (fillTmp ((width * 8 + 6) / 7) n []).map List.reverse

/-- The number that `len` bytes stand for. -/
def varIntNumber (a : Bytes) : Nat :=
  (a.getD (a.length - 1) 0).toNat % 128 +
    ∑ i ∈ Finset.Ico 1 a.length, 128 ^ i * ((a.getD (a.length - i - 1) 0).toNat % 128 + 1)

/-! ## The buffer -/

/-- **The buffer has room.** -/
theorem fillTmp_eq {size n : Nat} {tmp : Bytes} (hsize : tmp.length < size)
    (hn : n < 128 ^ (size - tmp.length)) :
    fillTmp size n tmp =
      some (tmp ++ varIntBuffer (size - tmp.length) (decide (0 < tmp.length)) n) := by
  fun_induction fillTmp size n tmp with
  | case1 n tmp hroom tmp' hlast =>
      obtain ⟨k, hk⟩ : ∃ k, size - tmp.length = k + 1 := ⟨size - tmp.length - 1, by omega⟩
      rw [hk, varIntBuffer, if_pos hlast]
      simp [tmp']
  | case2 n tmp hroom tmp' hlast ih =>
      obtain ⟨k, hk⟩ : ∃ k, size - tmp.length = k + 1 := ⟨size - tmp.length - 1, by omega⟩
      have hlen : tmp'.length = tmp.length + 1 := by simp [tmp']
      have hrest : size - tmp'.length = k := by omega
      rw [hk] at hn
      obtain ⟨hpos, hlt⟩ := varInt_room hn hlast
      rw [ih (by omega) (hrest ▸ hlt), hrest, hk, varIntBuffer, if_neg hlast, hlen]
      simp [tmp']
  | case3 n tmp hfull => exact absurd hsize hfull

theorem writeVarIntOf_eq {width n : Nat} (hwidth : 0 < width) (hn : n < 256 ^ width) :
    writeVarIntOf width n = some (writeVarInt (width * 8) n) := by
  have hn' : n < 2 ^ (width * 8) := by
    rwa [Nat.mul_comm, Nat.pow_mul]
  have hsize : ([] : Bytes).length < (width * 8 + 6) / 7 := by
    rw [List.length_nil]
    omega
  rw [writeVarIntOf, fillTmp_eq hsize (lt_varInt_room hn'), Option.map_some, writeVarInt]
  rfl

/-! ## The number of a byte sequence -/

/-- The number, with the last byte first. -/
def numberOf : Bytes → Nat
  | [] => 0
  | b :: bs => b.toNat % 128 + if bs = [] then 0 else 128 * (numberOf bs + 1)

/-- The number from its last byte on is the sum over all bytes. -/
theorem numberOf_eq_sum (r : Bytes) :
    numberOf r = (r.getD 0 0).toNat % 128 +
      ∑ i ∈ Finset.Ico 1 r.length, 128 ^ i * ((r.getD i 0).toNat % 128 + 1) := by
  induction r with
  | nil => simp [numberOf]
  | cons b bs ih =>
      by_cases hbs : bs = []
      · simp [numberOf, hbs]
      · have hpos : 0 < bs.length := List.length_pos_iff.mpr hbs
        have hshift : ∑ i ∈ Finset.Ico 1 (b :: bs).length,
              128 ^ i * (((b :: bs).getD i 0).toNat % 128 + 1) =
            128 * ∑ i ∈ Finset.Ico 0 bs.length, 128 ^ i * ((bs.getD i 0).toNat % 128 + 1) := by
          rw [List.length_cons, Finset.mul_sum]
          refine (Finset.sum_Ico_add' _ 0 bs.length 1).symm.trans
            (Finset.sum_congr rfl fun i _ => ?_)
          rw [List.getD_cons_succ]
          ring
        rw [numberOf, if_neg hbs, ih, hshift, Finset.sum_eq_sum_Ico_succ_bot hpos, pow_zero,
          one_mul, List.getD_cons_zero]
        ring

theorem varIntNumber_reverse (r : Bytes) : varIntNumber r.reverse = numberOf r := by
  have hget : ∀ i < r.length, r.reverse.getD (r.length - i - 1) 0 = r.getD i 0 := by
    intro i hi
    rw [List.getD_eq_getElem?_getD, List.getD_eq_getElem?_getD,
      List.getElem?_reverse (by omega)]
    congr 2
    omega
  rw [numberOf_eq_sum, varIntNumber, List.length_reverse]
  congr 1
  · cases r with
    | nil => rfl
    | cons b bs => rw [← hget 0 (by simp), Nat.sub_zero]
  · refine Finset.sum_congr rfl fun i hi => ?_
    rw [hget i (Finset.mem_Ico.mp hi).2]

/-- **The bytes of a number are the only ones that stand for it.** -/
theorem varIntBuffer_number {k : Nat} {b : UInt8} {bs : Bytes} {more : Bool}
    (hk : numberOf (b :: bs) < 128 ^ k) (hpos : 0 < k) (hb : 128 ≤ b.toNat ↔ more = true)
    (hbs : ∀ x ∈ bs, 128 ≤ x.toNat) : varIntBuffer k more (numberOf (b :: bs)) = b :: bs := by
  induction bs generalizing b k more with
  | nil =>
      obtain ⟨k, rfl⟩ : ∃ k', k = k' + 1 := ⟨k - 1, by omega⟩
      have hnumber : numberOf [b] = b.toNat % 128 := by simp [numberOf]
      have hbyte : UInt8.ofNat (b.toNat % 128 % 128 + if more then 128 else 0) = b := by
        have := b.toNat_lt
        refine UInt8.toNat_inj.mp ?_
        rw [UInt8.toNat_ofNat']
        cases more <;> simp_all <;> omega
      rw [hnumber, varIntBuffer, hbyte, if_pos (by omega)]
  | cons b' bs ih =>
      obtain ⟨k, rfl⟩ : ∃ k', k = k' + 1 := ⟨k - 1, by omega⟩
      have hnumber : numberOf (b :: b' :: bs) =
          b.toNat % 128 + 128 * (numberOf (b' :: bs) + 1) := by
        rw [numberOf, if_neg (by simp)]
      have hlarge : ¬ numberOf (b :: b' :: bs) ≤ 127 := by omega
      have hrest : numberOf (b :: b' :: bs) / 128 - 1 = numberOf (b' :: bs) := by omega
      obtain ⟨hpos', hlt⟩ := varInt_room hk hlarge
      have hbyte : UInt8.ofNat (numberOf (b :: b' :: bs) % 128 + if more then 128 else 0) = b := by
        have hmod : numberOf (b :: b' :: bs) % 128 = b.toNat % 128 := by omega
        have := b.toNat_lt
        refine UInt8.toNat_inj.mp ?_
        rw [UInt8.toNat_ofNat', hmod]
        cases more <;> simp_all <;> omega
      have hmore : 128 ≤ b'.toNat ↔ true = true := by simp [hbs b' List.mem_cons_self]
      rw [varIntBuffer, hbyte, if_neg hlarge, hrest,
        ih (hrest ▸ hlt) hpos' hmore fun x hx => hbs x (List.mem_cons_of_mem _ hx)]

/-- **`VARINT`**, of a type of `width` bytes: the writer stays in its array, the size is as
announced, the reader takes what was written, and no other bytes stand for the number. -/
theorem varInt_spec {width : Nat} (hwidth : 0 < width) :
    (∀ n < 256 ^ width, ∃ bytes, writeVarIntOf width n = some bytes ∧
      bytes.length = sizeOfVarInt n ∧
        ∀ s, readVarInt (width * 8) (bytes ++ s) = .ok (n, s)) ∧
      ∀ (init : Bytes) (last : UInt8), (∀ b ∈ init, 128 ≤ b.toNat) → last.toNat < 128 →
        varIntNumber (init ++ [last]) < 256 ^ width →
          writeVarIntOf width (varIntNumber (init ++ [last])) = some (init ++ [last]) := by
  have hbits : ∀ n, n < 256 ^ width → n < 2 ^ (width * 8) := by
    intro n hn
    rwa [Nat.mul_comm, Nat.pow_mul]
  refine ⟨fun n hn => ?_, fun init last hinit hlast hlt => ?_⟩
  · exact ⟨_, writeVarIntOf_eq hwidth hn, length_writeVarInt (hbits n hn) (by omega),
      readVarInt_writeVarInt (hbits n hn) (by omega)⟩
  · have hnumber : varIntNumber (init ++ [last]) = numberOf (last :: init.reverse) := by
      rw [← varIntNumber_reverse, List.reverse_cons, List.reverse_reverse]
    rw [writeVarIntOf_eq hwidth hlt, writeVarInt, hnumber, varIntBuffer_number, List.reverse_cons,
      List.reverse_reverse]
    · exact lt_varInt_room (hnumber ▸ hbits _ hlt)
    · omega
    · simp
      omega
    · exact fun x hx => hinit x (List.mem_reverse.mp hx)

/-- Four bytes. -/
theorem varInt_spec_four :
    (∀ n < 256 ^ 4, ∃ bytes, writeVarIntOf 4 n = some bytes ∧ bytes.length = sizeOfVarInt n ∧
        ∀ s, readVarInt (4 * 8) (bytes ++ s) = .ok (n, s)) ∧
      ∀ (init : Bytes) (last : UInt8), (∀ b ∈ init, 128 ≤ b.toNat) → last.toNat < 128 →
        varIntNumber (init ++ [last]) < 256 ^ 4 →
          writeVarIntOf 4 (varIntNumber (init ++ [last])) = some (init ++ [last]) :=
  varInt_spec (by norm_num)

end Hivemind
