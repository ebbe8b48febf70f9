import Hivemind.Lib.Codec

/-!
# Variable-length integers

Base 128, the most significant byte first, with the top bit set on every byte but the last.  One
is subtracted at each byte, so that every number has one encoding.  An integer of `w` bits wraps
around when a longer encoding is read.

The writer fills a buffer from its end, and the buffer has a fixed length; that it is long enough
for every number of `w` bits is part of what is proved.  The reader multiplies and adds in `w`
bits and looks at no bound.

A reader of such numbers accepts more than the writer writes, so it is no `Codec`; what is
written with the two is read back all the same, in vectors too.

* `lt_varInt_room`: the buffer has room for every number of `w` bits.
* `readVarInt_writeVarInt`: **a number comes back from its own encoding.**
* `length_writeVarInt`: how many bytes that is.
* `deVec_serVec`: so does a vector, when each of its elements does.
-/

namespace Codecs

/-- The buffer from its first byte on, for a number with `k` bytes of space left; `more`
marks the bytes that others follow in the stream. -/
def varIntBuffer : Nat → Bool → Nat → Bytes
  | 0, _, _ => []
  | k + 1, more, n =>
    UInt8.ofNat (n % 128 + if more then 128 else 0) ::
      if n ≤ 127 then [] else varIntBuffer k true (n / 128 - 1)

/-- Write a number of `w` bits: the buffer, backwards. -/
def writeVarInt (w n : Nat) : Bytes := (varIntBuffer ((w + 6) / 7) false n).reverse

/-- Read on after `n`, in `w` bits. -/
def readVarIntFrom (w : Nat) : Nat → Reader Nat
  | _, [] => .error .endOfData
  | n, b :: s =>
    let n := (n * 128 + b.toNat % 128) % 2 ^ w
    if b.toNat < 128 then .ok (n, s) else readVarIntFrom w ((n + 1) % 2 ^ w) s

/-- Read a number of `w` bits. -/
def readVarInt (w : Nat) : Reader Nat := readVarIntFrom w 0

/-- One byte that others follow. -/
theorem readVarIntFrom_cons_more {w n d : Nat} (hd : d < 128) (hw : n * 128 + d + 1 < 2 ^ w)
    (s : Bytes) :
    readVarIntFrom w n (UInt8.ofNat (d + 128) :: s) = readVarIntFrom w (n * 128 + d + 1) s := by
  have hb : (UInt8.ofNat (d + 128)).toNat = d + 128 := by
    rw [UInt8.toNat_ofNat']
    omega
  have hmod : (d + 128) % 128 = d := by omega
  have hlow : (n * 128 + d) % 2 ^ w = n * 128 + d := Nat.mod_eq_of_lt (by omega)
  rw [readVarIntFrom, hb, hmod, if_neg (by omega), hlow, Nat.mod_eq_of_lt hw]

/-- The last byte. -/
theorem readVarIntFrom_cons_last {w n d : Nat} (hd : d < 128) (hw : n * 128 + d < 2 ^ w)
    (s : Bytes) : readVarIntFrom w n (UInt8.ofNat d :: s) = .ok (n * 128 + d, s) := by
  have hb : (UInt8.ofNat d).toNat = d := by
    rw [UInt8.toNat_ofNat']
    omega
  rw [readVarIntFrom, hb, Nat.mod_eq_of_lt hd, if_pos hd, Nat.mod_eq_of_lt hw]

/-- The number without its last seven bits still has room in the buffer. -/
theorem varInt_room {k n : Nat} (hk : n < 128 ^ (k + 1)) (hn : ¬ n ≤ 127) :
    0 < k ∧ n / 128 - 1 < 128 ^ k := by
  rw [pow_succ] at hk
  have hdiv : n / 128 < 128 ^ k := Nat.div_lt_of_lt_mul (by omega)
  refine ⟨Nat.pos_of_ne_zero ?_, by omega⟩
  rintro rfl
  omega

/-- Reading bytes that others follow ends one past the number they stand for. -/
theorem readVarIntFrom_more {w k n : Nat} (hpos : 0 < k) (hk : n < 128 ^ k) (hw : n + 1 < 2 ^ w)
    (s : Bytes) :
    readVarIntFrom w 0 ((varIntBuffer k true n).reverse ++ s) = readVarIntFrom w (n + 1) s := by
  induction k generalizing n s with
  | zero => cases hpos
  | succ k ih =>
    rw [varIntBuffer, if_pos rfl, List.reverse_cons, List.append_assoc, List.singleton_append]
    by_cases hn : n ≤ 127
    · rw [if_pos hn, List.reverse_nil, List.nil_append,
        readVarIntFrom_cons_more (by omega) (by omega)]
      congr 1
      omega
    · obtain ⟨hpos', hk'⟩ := varInt_room hk hn
      rw [if_neg hn, ih hpos' hk' (by omega), readVarIntFrom_cons_more (by omega) (by omega)]
      congr 1
      omega

/-- The buffer has room for every number of `w` bits. -/
theorem lt_varInt_room {w n : Nat} (hw : n < 2 ^ w) : n < 128 ^ ((w + 6) / 7) := by
  refine lt_of_lt_of_le hw ?_
  rw [show (128 : Nat) = 2 ^ 7 from rfl, ← pow_mul]
  exact Nat.pow_le_pow_right (by omega) (by omega)

/-- **A number comes back from its own encoding.** -/
theorem readVarInt_writeVarInt {w n : Nat} (hw : n < 2 ^ w) (h : 0 < w) (s : Bytes) :
    readVarInt w (writeVarInt w n ++ s) = .ok (n, s) := by
  -- the buffer has room for all bits of the number
  obtain ⟨k, hk⟩ : ∃ k, (w + 6) / 7 = k + 1 := ⟨(w + 6) / 7 - 1, by omega⟩
  have hroom : n < 128 ^ (k + 1) := hk ▸ lt_varInt_room hw
  rw [readVarInt, writeVarInt, hk, varIntBuffer, if_neg (by simp), List.reverse_cons,
    List.append_assoc, List.singleton_append, Nat.add_zero]
  by_cases hn : n ≤ 127
  · rw [if_pos hn, List.reverse_nil, List.nil_append,
      readVarIntFrom_cons_last (by omega) (by omega)]
    congr 2
    omega
  · obtain ⟨hpos, hk'⟩ := varInt_room hroom hn
    rw [if_neg hn, readVarIntFrom_more hpos hk' (by omega),
      readVarIntFrom_cons_last (by omega) (by omega)]
    congr 2
    omega

/-- The number of bytes a number takes. -/
def sizeOfVarInt (n : Nat) : Nat := if n ≤ 127 then 1 else 1 + sizeOfVarInt (n / 128 - 1)

theorem length_varIntBuffer {k n : Nat} (more : Bool) (hpos : 0 < k) (hk : n < 128 ^ k) :
    (varIntBuffer k more n).length = sizeOfVarInt n := by
  induction k generalizing n more with
  | zero => cases hpos
  | succ k ih =>
    rw [varIntBuffer, sizeOfVarInt, List.length_cons]
    by_cases hn : n ≤ 127
    · rw [if_pos hn, if_pos hn]
      rfl
    · obtain ⟨hpos', hk'⟩ := varInt_room hk hn
      rw [if_neg hn, if_neg hn, ih true hpos' hk', Nat.add_comm]

theorem length_writeVarInt {w n : Nat} (hw : n < 2 ^ w) (h : 0 < w) :
    (writeVarInt w n).length = sizeOfVarInt n := by
  rw [writeVarInt, List.length_reverse]
  exact length_varIntBuffer false (by omega) (lt_varInt_room hw)

theorem length_varIntBuffer_le (k : Nat) (more : Bool) (n : Nat) :
    (varIntBuffer k more n).length ≤ k := by
  induction k generalizing n more with
  | zero => simp [varIntBuffer]
  | succ k ih =>
    rw [varIntBuffer, List.length_cons]
    by_cases hn : n ≤ 127
    · simp [hn]
    · rw [if_neg hn]
      have := ih true (n / 128 - 1)
      omega

theorem length_writeVarInt_le (w n : Nat) : (writeVarInt w n).length ≤ (w + 6) / 7 := by
  rw [writeVarInt, List.length_reverse]
  exact length_varIntBuffer_le ..

/-! ## Vectors -/

section Vectors

variable {α : Type}

/-- A vector: its size, then its elements. -/
def serVec (ser : α → Bytes) (xs : List α) : Bytes :=
  Codec.writeSize (UInt64.ofNat xs.length) ++ xs.flatMap ser

/-- Read a vector of at most `max` elements. -/
def deVec (max : Nat) (de : Reader α) : Reader (List α) := fun s =>
  match Codec.readSize max s with
  | .error e => .error e
  | .ok (n, s) => Codec.readMany de n s

theorem readMany_flatMap {ser : α → Bytes} {de : Reader α} {xs : List α}
    (h : ∀ x ∈ xs, ∀ r, de (ser x ++ r) = .ok (x, r)) (r : Bytes) :
    Codec.readMany de xs.length (xs.flatMap ser ++ r) = .ok (xs, r) := by
  induction xs with
  | nil => rfl
  | cons x xs ih =>
    have hrest := ih fun y hy => h y (List.mem_cons_of_mem x hy)
    rw [List.length_cons, List.flatMap_cons, List.append_assoc, Codec.readMany,
      h x List.mem_cons_self]
    simp only [hrest]

theorem deVec_serVec {max : Nat} {ser : α → Bytes} {de : Reader α} {xs : List α}
    (h : ∀ x ∈ xs, ∀ r, de (ser x ++ r) = .ok (x, r)) (hlen : xs.length ≤ max) (hmax : max < 2 ^ 64)
    (r : Bytes) : deVec max de (serVec ser xs ++ r) = .ok (xs, r) := by
  have hnat : (UInt64.ofNat xs.length).toNat = xs.length := by
    rw [UInt64.toNat_ofNat']
    omega
  rw [deVec, serVec, List.append_assoc, Codec.readSize_writeSize (by omega), hnat]
  exact readMany_flatMap h r

end Vectors

end Codecs
