import Hivemind.Script.Interpreter
import Mathlib.Data.Nat.Bitwise
import Mathlib.Tactic.Ring
import Mathlib.Tactic.Positivity

/-!
# Numbers on the stack

`CScriptNum` writes a number as a magnitude, least significant byte first, with the sign in the
top bit of the last byte.  A magnitude that needs that bit gets one byte more.

The same number has other encodings, with zeros behind the magnitude; the constructor accepts
them unless it is asked for the minimal one, which is tested on the last two bytes alone.  That
this test leaves exactly one encoding for each number is what makes `serialize` and the
constructor inverse to each other in both directions.  Negative zero is one of the encodings that
are not minimal.

* `setVch_eq`: what the bytes denote, as a sign and a magnitude.
* `eq_of_minimal`: **a number has one minimal encoding.**
* `serializeNum_spec`: `serialize` writes it.
* `length_serializeNum_le`: the sign takes no more than a byte.
* `scriptNum_spec`: what the constructor accepts, with the minimal flag and without it.
-/

namespace Hivemind

open Codecs

/-! ## Bytes as a sign and a magnitude -/

theorem leNat_append (xs ys : Bytes) :
    leNat (xs ++ ys) = leNat xs + 256 ^ xs.length * leNat ys := by
  induction xs with
  | nil => simp [leNat]
  | cons x xs ih =>
    rw [List.cons_append, leNat, leNat, ih, List.length_cons, pow_succ]
    ring

theorem leNat_concat (bs : Bytes) (b : UInt8) :
    leNat (bs ++ [b]) = leNat bs + 256 ^ bs.length * b.toNat := by
  rw [leNat_append]
  simp [leNat]

theorem toNat_and_7f (b : UInt8) : (b &&& 0x7f).toNat = b.toNat % 128 := by
  rw [UInt8.toNat_and]
  exact Nat.and_two_pow_sub_one_eq_mod b.toNat 7

theorem toNat_or_80 {b : UInt8} (h : b.toNat < 128) : (b ||| 0x80).toNat = b.toNat + 128 := by
  rw [UInt8.toNat_or, Nat.or_comm]
  exact (Nat.two_pow_add_eq_or_of_lt (i := 7) h 1).symm.trans (Nat.add_comm _ _)

theorem and_80_ne_zero {b : UInt8} : (b &&& 0x80 != 0) = true ↔ 128 ≤ b.toNat := by
  have hand : (b &&& 0x80).toNat = b.toNat &&& 2 ^ 7 := UInt8.toNat_and ..
  have hlt := b.toNat_lt
  rw [bne_iff_ne, ne_eq, ← UInt8.toNat_inj, hand, Nat.and_two_pow,
    Nat.testBit_eq_decide_div_mod_eq]
  by_cases hb : 128 ≤ b.toNat
  · have hbit : b.toNat / 2 ^ 7 % 2 = 1 := by omega
    rw [hbit]
    simp [hb]
  · have hbit : b.toNat / 2 ^ 7 % 2 = 0 := by omega
    rw [hbit]
    simp [hb]

/-- The number that bytes denote: the top bit of the last byte is the sign, and the other bits are
the magnitude, least significant byte first. -/
def signMagnitude (vch : Bytes) : Int :=
  vch.getLast?.elim 0 fun b =>
    (if b < 0x80 then 1 else -1) * leNat (vch.dropLast ++ [b &&& 0x7f])

/-- The magnitude of bytes that end in `b`. -/
def magnitude (bs : Bytes) (b : UInt8) : Nat := leNat bs + 256 ^ bs.length * (b.toNat % 128)

theorem signMagnitude_concat (bs : Bytes) (b : UInt8) :
    signMagnitude (bs ++ [b]) = if b.toNat < 128 then (magnitude bs b : Int) else -magnitude bs b := by
  have hlt : b < 0x80 ↔ b.toNat < 128 := UInt8.lt_iff_toNat_lt
  rw [signMagnitude, List.getLast?_concat, Option.elim_some, List.dropLast_concat, leNat_concat,
    toNat_and_7f]
  simp only [hlt]
  split_ifs
  · rw [one_mul]
    rfl
  · rw [neg_one_mul]
    rfl

/-- **`set_vch`** reads a sign and a magnitude. -/
theorem setVch_eq (vch : Bytes) : setVch vch = signMagnitude vch := by
  rcases List.eq_nil_or_concat vch with rfl | ⟨bs, b, rfl⟩
  · rfl
  · rw [List.concat_eq_append, signMagnitude_concat, setVch, List.getLast?_concat]
    simp only [and_80_ne_zero, leNat_concat, List.length_append, List.length_singleton,
      Nat.add_sub_cancel, magnitude]
    by_cases hb : 128 ≤ b.toNat
    · have hmod : (b.toNat : Int) = (b.toNat % 128 : Nat) + 128 := by
        have := b.toNat_lt
        omega
      rw [if_pos hb, if_neg (not_lt.mpr hb), Nat.cast_add, Nat.cast_mul, hmod, Nat.cast_add,
        Nat.cast_mul, Nat.cast_pow]
      ring
    · rw [if_neg hb, if_pos (not_le.mp hb), Nat.mod_eq_of_lt (not_le.mp hb)]

/-! ## Minimal encodings -/

theorem minimallyEncoded_concat {bs : Bytes} {b : UInt8} : minimallyEncoded (bs ++ [b]) = true ↔
    b.toNat % 128 ≠ 0 ∨ ∃ b', bs.getLast? = some b' ∧ 128 ≤ b'.toNat := by
  have hlow : (b &&& 0x7f != 0) = true ↔ b.toNat % 128 ≠ 0 := by
    rw [bne_iff_ne, ne_eq, ← UInt8.toNat_inj, toNat_and_7f]
    rfl
  rw [minimallyEncoded, List.reverse_append, List.reverse_singleton, List.singleton_append]
  simp only [Bool.or_eq_true, hlow]
  rcases List.eq_nil_or_concat bs with rfl | ⟨bs, b', rfl⟩
  · simp
  · simp only [List.concat_eq_append, List.reverse_append, List.reverse_singleton,
      List.singleton_append, and_80_ne_zero, List.getLast?_concat, Option.some.injEq]
    simp

theorem two_mul_magnitude_lt (bs : Bytes) (b : UInt8) :
    2 * magnitude bs b < 256 ^ (bs.length + 1) := by
  have hbs := leNat_lt bs
  have hb : b.toNat % 128 ≤ 127 := Nat.le_of_lt_succ (Nat.mod_lt _ (by norm_num))
  have hmul : 256 ^ bs.length * (b.toNat % 128) ≤ 256 ^ bs.length * 127 :=
    Nat.mul_le_mul_left _ hb
  rw [magnitude, pow_succ]
  omega

theorem le_two_mul_magnitude {bs : Bytes} {b : UInt8}
    (h : minimallyEncoded (bs ++ [b]) = true) : 256 ^ bs.length ≤ 2 * magnitude bs b := by
  rw [magnitude]
  rcases minimallyEncoded_concat.mp h with hb | ⟨b', hlast, hb'⟩
  · have hmul : 256 ^ bs.length * 1 ≤ 256 ^ bs.length * (b.toNat % 128) :=
      Nat.mul_le_mul_left _ (Nat.pos_of_ne_zero hb)
    omega
  · obtain ⟨init, rfl⟩ := List.getLast?_eq_some_iff.mp hlast
    have hmul : 256 ^ init.length * 128 ≤ 256 ^ init.length * b'.toNat :=
      Nat.mul_le_mul_left _ hb'
    rw [leNat_concat, List.length_append, List.length_singleton, pow_succ]
    omega

theorem natAbs_signMagnitude (bs : Bytes) (b : UInt8) :
    (signMagnitude (bs ++ [b])).natAbs = magnitude bs b := by
  rw [signMagnitude_concat]
  split_ifs
  · exact Int.natAbs_natCast _
  · rw [Int.natAbs_neg, Int.natAbs_natCast]

theorem eq_of_leNat_eq {xs ys : Bytes} (hlen : xs.length = ys.length) (h : leNat xs = leNat ys) :
    xs = ys := by
  rw [← leBytes_leNat xs, ← leBytes_leNat ys, hlen, h]

/-- **One minimal encoding** for every number. -/
theorem eq_of_minimal {vch vch' : Bytes} (hmin : minimallyEncoded vch = true)
    (hmin' : minimallyEncoded vch' = true) (h : signMagnitude vch = signMagnitude vch') :
    vch = vch' := by
  -- only the empty vector has magnitude zero
  have hpos : ∀ {bs b}, minimallyEncoded (bs ++ [b]) = true → signMagnitude (bs ++ [b]) ≠ 0 := by
    intro bs b hmin hzero
    have hle := le_two_mul_magnitude hmin
    have hpow : 0 < 256 ^ bs.length := by positivity
    rw [← natAbs_signMagnitude, hzero] at hle
    simp at hle
  rcases List.eq_nil_or_concat vch with rfl | ⟨bs, b, rfl⟩
  · rcases List.eq_nil_or_concat vch' with rfl | ⟨bs', b', rfl⟩
    · rfl
    · rw [List.concat_eq_append] at hmin' h
      exact absurd h.symm (hpos hmin')
  · rw [List.concat_eq_append] at hmin h ⊢
    rcases List.eq_nil_or_concat vch' with rfl | ⟨bs', b', rfl⟩
    · exact absurd h (hpos hmin)
    · rw [List.concat_eq_append] at hmin' h ⊢
      have hmag : magnitude bs b = magnitude bs' b' := by
        rw [← natAbs_signMagnitude, ← natAbs_signMagnitude, h]
      -- the magnitude fixes the length
      have hlen : bs.length = bs'.length := by
        have hle := le_two_mul_magnitude hmin
        have hlt := two_mul_magnitude_lt bs b
        have hle' := le_two_mul_magnitude hmin'
        have hlt' := two_mul_magnitude_lt bs' b'
        rw [hmag] at hle hlt
        have h1 := (Nat.pow_lt_pow_iff_right (by norm_num)).mp (hle.trans_lt hlt')
        have h2 := (Nat.pow_lt_pow_iff_right (by norm_num)).mp (hle'.trans_lt hlt)
        omega
      have hbytes : bs ++ [b &&& 0x7f] = bs' ++ [b' &&& 0x7f] := by
        refine eq_of_leNat_eq (by simp [hlen]) ?_
        rw [leNat_concat, leNat_concat, toNat_and_7f, toNat_and_7f]
        exact hmag
      obtain ⟨rfl, hlow⟩ := List.append_inj' hbytes rfl
      have hmod : b.toNat % 128 = b'.toNat % 128 := by
        rw [← toNat_and_7f, ← toNat_and_7f, (List.cons.inj hlow).1]
      have hne := hpos hmin
      rw [signMagnitude_concat] at hne
      rw [signMagnitude_concat, signMagnitude_concat, hmag] at h
      have hsign : b.toNat < 128 ↔ b'.toNat < 128 := by
        rw [hmag] at hne
        split_ifs at h hne <;> omega
      have hb := b.toNat_lt
      have hb' := b'.toNat_lt
      rw [UInt8.toNat_inj.mp (show b.toNat = b'.toNat by omega)]

/-! ## `serialize` -/

theorem magnitudeBytes_spec {fuel n : Nat} (h : n < 256 ^ fuel) :
    leNat (magnitudeBytes fuel n) = n ∧ ∀ b, (magnitudeBytes fuel n).getLast? = some b → b ≠ 0 := by
  induction fuel generalizing n with
  | zero =>
    obtain rfl : n = 0 := by simpa using h
    exact ⟨rfl, fun b hb => by cases hb⟩
  | succ fuel ih =>
    rw [magnitudeBytes]
    split_ifs with hn
    · exact ⟨hn.symm, fun b hb => by cases hb⟩
    · obtain ⟨hval, hlast⟩ := ih (n := n / 256) (by rw [pow_succ] at h; omega)
      have hbyte : (UInt8.ofNat n).toNat = n % 256 := by rw [UInt8.toNat_ofNat']
      refine ⟨?_, fun b hb => ?_⟩
      · rw [leNat, hval, hbyte]
        omega
      · rw [List.getLast?_cons] at hb
        cases hrest : (magnitudeBytes fuel (n / 256)).getLast? with
        | some c =>
          rw [hrest] at hb
          exact Option.some.inj hb ▸ hlast c hrest
        | none =>
          -- the last byte is the first
          rw [hrest, Option.getD_none] at hb
          rw [List.getLast?_eq_none_iff.mp hrest, leNat] at hval
          rintro rfl
          have hzero := congrArg UInt8.toNat (Option.some.inj hb)
          rw [hbyte] at hzero
          exact hn (by change n % 256 = 0 at hzero; omega)

/-- **What `serialize` writes** is minimal and denotes the number. -/
theorem serializeNum_spec {v : Int} (h : v.natAbs < 2 ^ 64) :
    minimallyEncoded (serializeNum v) = true ∧ signMagnitude (serializeNum v) = v := by
  obtain ⟨hval, hlast⟩ := magnitudeBytes_spec (show v.natAbs < 256 ^ 8 by omega)
  rw [serializeNum]
  rcases List.eq_nil_or_concat (magnitudeBytes 8 v.natAbs) with hnil | ⟨bs, b, hbs⟩
  · rw [hnil] at hval ⊢
    have hzero : v = 0 := Int.natAbs_eq_zero.mp hval.symm
    exact ⟨rfl, hzero.symm⟩
  · rw [List.concat_eq_append] at hbs
    rw [hbs] at hval hlast ⊢
    have hb : b.toNat ≠ 0 := fun hzero =>
      hlast b List.getLast?_concat (UInt8.toNat_inj.mp hzero)
    have hbyte := b.toNat_lt
    simp only [List.reverse_append, List.reverse_cons, List.reverse_nil, List.nil_append,
      List.singleton_append, List.reverse_reverse, and_80_ne_zero]
    by_cases htop : 128 ≤ b.toNat
    · -- one more byte, for the sign alone
      rw [if_pos htop]
      by_cases hneg : v < 0
      · refine ⟨?_, ?_⟩
        · rw [if_pos hneg]
          exact minimallyEncoded_concat.mpr (Or.inr ⟨b, List.getLast?_concat, htop⟩)
        · have hlow : (0x80 : UInt8).toNat % 128 = 0 := by decide
          rw [if_pos hneg, signMagnitude_concat, if_neg (by decide), magnitude, hval, hlow]
          omega
      · refine ⟨?_, ?_⟩
        · rw [if_neg hneg]
          exact minimallyEncoded_concat.mpr (Or.inr ⟨b, List.getLast?_concat, htop⟩)
        · have hlow : (0 : UInt8).toNat % 128 = 0 := by decide
          rw [if_neg hneg, signMagnitude_concat, if_pos (by decide), magnitude, hval, hlow]
          omega
    · rw [if_neg htop]
      by_cases hneg : v < 0
      · rw [if_pos hneg]
        have hor := toNat_or_80 (not_le.mp htop)
        have hlow : (b.toNat + 128) % 128 = b.toNat := by omega
        refine ⟨minimallyEncoded_concat.mpr (Or.inl (by omega)), ?_⟩
        rw [signMagnitude_concat, if_neg (by omega), magnitude, hor, hlow, ← leNat_concat, hval]
        omega
      · rw [if_neg hneg]
        refine ⟨minimallyEncoded_concat.mpr (Or.inl (by omega)), ?_⟩
        rw [signMagnitude_concat, if_pos (not_le.mp htop), magnitude,
          Nat.mod_eq_of_lt (not_le.mp htop), ← leNat_concat, hval]
        omega

/-- The sign bit is all that a number needs over its magnitude. -/
theorem length_serializeNum_le {v : Int} {k : Nat} (h : v.natAbs < 2 ^ 64)
    (hk : 2 * v.natAbs < 256 ^ k) : (serializeNum v).length ≤ k := by
  obtain ⟨hmin, hval⟩ := serializeNum_spec h
  rcases List.eq_nil_or_concat (serializeNum v) with hnil | ⟨bs, b, hbs⟩
  · rw [hnil]
    exact Nat.zero_le _
  · rw [List.concat_eq_append] at hbs
    rw [hbs] at hmin hval ⊢
    have hle := le_two_mul_magnitude hmin
    rw [← natAbs_signMagnitude, hval] at hle
    have hlen := (Nat.pow_lt_pow_iff_right (by norm_num)).mp (hle.trans_lt hk)
    rw [List.length_append, List.length_singleton]
    omega

/-- **`CScriptNum`**: numbers of 31 bits and a sign come back, with the minimal flag the
constructor takes exactly what `serialize` writes, and without it every vector of at most four
bytes. -/
theorem scriptNum_spec (v : Int) (vch : Bytes) :
    (v.natAbs ≤ 2 ^ 31 - 1 → scriptNum true (serializeNum v) = .ok v) ∧
    (vch.length ≤ 4 →
      scriptNum true vch =
        (if vch = serializeNum (signMagnitude vch) then .ok (signMagnitude vch)
          else .error .throws) ∧
      scriptNum false vch = .ok (signMagnitude vch)) := by
  constructor
  · intro hv
    obtain ⟨hmin, hval⟩ := serializeNum_spec (v := v) (by omega)
    have hlen : (serializeNum v).length ≤ 4 := length_serializeNum_le (by omega) (by omega)
    rw [scriptNum, if_neg (not_lt.mpr hlen), hmin, setVch_eq, hval]
    rfl
  · intro hlen
    have hsmall : (signMagnitude vch).natAbs < 2 ^ 64 := by
      rcases List.eq_nil_or_concat vch with rfl | ⟨bs, b, rfl⟩
      · decide
      · rw [List.concat_eq_append] at hlen ⊢
        have hlt := two_mul_magnitude_lt bs b
        rw [List.length_append, List.length_singleton] at hlen
        have hpow := Nat.pow_le_pow_right (show 0 < 256 by norm_num) hlen
        rw [natAbs_signMagnitude]
        omega
    obtain ⟨hmin, hval⟩ := serializeNum_spec hsmall
    refine ⟨?_, ?_⟩
    · rw [scriptNum, if_neg (not_lt.mpr hlen), setVch_eq, Bool.true_and]
      split_ifs with hbad heq heq
      · rw [heq] at hbad
        rw [hmin] at hbad
        exact absurd hbad (by decide)
      · rfl
      · rfl
      · rw [Bool.not_eq_true', Bool.not_eq_false] at hbad
        exact absurd (eq_of_minimal hbad hmin hval.symm) heq
    · rw [scriptNum, if_neg (not_lt.mpr hlen), setVch_eq, Bool.false_and]
      rfl

end Hivemind
