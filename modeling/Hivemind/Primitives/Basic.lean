import Hivemind.Lib.Codec
import Hivemind.Lib.OrdMap
import Hivemind.Lib.VarInt
import Mathlib.Order.Defs.LinearOrder

/-!
# Numbers, hashes and amounts

The ground types of the node: hashes and key ids as byte blobs in the order `memcmp` gives them
(`base_blob`), amounts as 64-bit integers (`amount.h`), and the limits of the serialization layer
(`serialize.h`).

A blob carries its width as a field, so that a hash is always 32 bytes long and its codec never
has to check.  Amounts are `Int64`, with the arithmetic of the machine; whether an amount is
money is the predicate `moneyRange`, and adding two amounts that are does not overflow.

* `Blob`, `Uint256`, `CKeyID`: byte strings of a fixed width, ordered as they are stored.
* `Blob.codec`, `stringCodec`, `vectorCodec`: how they are written, with `MAX_SIZE` as the limit
  of every count.
* `null_le`: the null blob comes first in key order.
* `toInt_add_of_moneyRange`: two amounts in money range are added without overflow.
-/

namespace Hivemind

open Codecs Ordered

/-! ## Bytes and blobs -/

/-- Bytes are compared as unsigned numbers. -/
instance instLinearOrderByte : LinearOrder UInt8 where
  le_refl := UInt8.le_refl
  le_trans := fun _ _ _ => UInt8.le_trans
  lt_iff_le_not_ge := by
    intro a b
    rw [UInt8.lt_iff_toNat_lt, UInt8.le_iff_toNat_le, UInt8.le_iff_toNat_le]
    omega
  le_antisymm := fun _ _ => UInt8.le_antisymm
  le_total := UInt8.le_total
  toDecidableLE := inferInstance
  toDecidableEq := inferInstance
  toDecidableLT := inferInstance

/-- A byte string of fixed width (`base_blob`). -/
abbrev Blob (n : Nat) := { b : Bytes // b.length = n }

/-- A hash, in the byte order in which it is stored and compared. -/
abbrev Uint256 := Blob 32

instance instLawfulBEqUint256 : LawfulBEq Uint256 := inferInstance

/-- The hash of a public key. -/
abbrev CKeyID := Blob 20

namespace Blob

variable {n : Nat}

/-- The blob all of whose bytes are `b`. -/
def fill (b : UInt8) : Blob n := ⟨List.replicate n b, List.length_replicate⟩

/-- `SetNull`. -/
def null : Blob n := fill 0

instance instInhabitedBlob : Inhabited (Blob n) := ⟨null⟩

/-- The blob with the given bytes, or the null blob when the width is wrong. -/
def ofBytes (b : Bytes) : Blob n := if h : b.length = n then ⟨b, h⟩ else null

theorem ofBytes_val (x : Blob n) : ofBytes x.val = x := by
  rw [ofBytes, dif_pos x.property]

theorem val_ofBytes {b : Bytes} (h : b.length = n) : (ofBytes b : Blob n).val = b := by
  rw [ofBytes, dif_pos h]

/-- A blob is stored as its bytes. -/
def codec : Codec (Blob n) :=
  Codec.fixed n Subtype.val ofBytes Subtype.property ofBytes_val (fun _ => val_ofBytes)

@[simp] theorem fits_codec (x : Blob n) : codec.Fits x := rfl

/-- The null blob comes first in key order. -/
theorem null_le (x : Blob n) : (null : Blob n) ≤ x := by
  have hzero : ∀ (b : Bytes), List.replicate b.length 0 ≤ b := by
    intro b
    induction b with
    | nil => exact le_refl _
    | cons c b ih =>
        rw [List.length_cons, List.replicate_succ, cons_le_cons_iff]
        have hc : (0 : UInt8) ≤ c := UInt8.le_iff_toNat_le.mpr (Nat.zero_le _)
        rcases lt_or_eq_of_le hc with h | h
        · exact Or.inl h
        · exact Or.inr ⟨h, ih⟩
  have hx := hzero x.val
  rw [x.property] at hx
  exact hx

end Blob

/-! ## Serialization limits -/

/-- `MAX_SIZE`: the largest count a size prefix may announce. -/
def maxSize : Nat := 0x02000000

/-- `std::string` and `std::vector<unsigned char>`. -/
def stringCodec : Codec Bytes := Codec.vec maxSize Codec.u8

/-- `std::vector<T>`. -/
def vectorCodec {α : Type} (c : Codec α) : Codec (List α) := Codec.vec maxSize c

@[simp] theorem fits_stringCodec {s : Bytes} : stringCodec.Fits s ↔ s.length ≤ maxSize := by
  rw [stringCodec, Codec.fits_vec (by decide)]
  simp

@[simp] theorem fits_vectorCodec {α : Type} {c : Codec α} {xs : List α} :
    (vectorCodec c).Fits xs ↔ xs.length ≤ maxSize ∧ ∀ x ∈ xs, c.Fits x :=
  Codec.fits_vec (by decide)

/-! ## Integers of variable length -/

/-- `VARINT` of an `int`: a negative number is cut to its last seven bits. -/
def writeVarIntOfInt (n : Int32) : Bytes :=
  if n ≤ 0x7f then [UInt8.ofNat (n.toUInt32.toNat % 128)] else writeVarInt 32 n.toUInt32.toNat

theorem toNat_toUInt32_of_nonneg {n : Int32} (h : 0 ≤ n) : n.toUInt32.toNat = n.toInt.toNat :=
  Int32.toNat_toUInt32_of_le h

theorem writeVarIntOfInt_eq {n : Int32} (h : 0 ≤ n) :
    writeVarIntOfInt n = writeVarInt 32 n.toUInt32.toNat := by
  rw [writeVarIntOfInt]
  by_cases hle : n ≤ 0x7f
  · have hnat : n.toUInt32.toNat ≤ 127 := by
      rw [toNat_toUInt32_of_nonneg h]
      have := Int32.le_iff_toInt_le.mp hle
      have hmax : (0x7f : Int32).toInt = 127 := rfl
      omega
    rw [if_pos hle, writeVarInt]
    simp [varIntBuffer, hnat]
  · rw [if_neg hle]

/-! ## Amounts -/

/-- An amount of coin, in the smallest unit. -/
abbrev CAmount := Int64

def coin : CAmount := 100000000

/-- `MAX_MONEY`: no amount larger than this is valid. -/
def maxMoney : CAmount := 21000000 * coin

/-- `MoneyRange`. -/
def moneyRange (nValue : CAmount) : Bool := 0 ≤ nValue && nValue ≤ maxMoney

theorem moneyRange_iff {v : CAmount} :
    moneyRange v = true ↔ 0 ≤ v.toInt ∧ v.toInt ≤ 2100000000000000 := by
  rw [moneyRange, Bool.and_eq_true, decide_eq_true_eq, decide_eq_true_eq, Int64.le_iff_toInt_le,
    Int64.le_iff_toInt_le]
  have hmax : maxMoney.toInt = 2100000000000000 := by decide
  rw [hmax]
  rfl

/-- Two amounts in money range are added without overflow. -/
theorem toInt_add_of_moneyRange {a b : CAmount} (ha : moneyRange a = true)
    (hb : moneyRange b = true) : (a + b).toInt = a.toInt + b.toInt := by
  obtain ⟨ha0, ha1⟩ := moneyRange_iff.mp ha
  obtain ⟨hb0, hb1⟩ := moneyRange_iff.mp hb
  rw [Int64.toInt_add, Int.bmod_eq_of_le] <;> omega

end Hivemind
