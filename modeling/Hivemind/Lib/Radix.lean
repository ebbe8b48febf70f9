import Hivemind.Lib.Limbs
import Mathlib.Data.Nat.Digits.Lemmas

/-!
# From one radix to another

The digits of a number in radix `r` are read from the highest on, and a buffer of a fixed number
of digits in radix `b`, the least significant first, is multiplied by `r` and the digit added.
Nothing may be carried out of the buffer.

The buffer is allocated before the first digit is read, from the number of digits alone, so its
length is a bound by a logarithm that a program writes as a quotient of whole numbers.  That
bound is proved by a step of a whole period: when it holds for small exponents and for one step
of `q`, it holds for all.  A conversion that has not failed is then the same as the value.

* `turn_spec`: a buffer that is long enough for the new number takes the digit.
* `convert_spec`: **the buffer holds the number** when it is long enough.
* `pow_le_pow_ratio`: a bound on the length of the buffer by a ratio of whole numbers.
* `dropWhile_zero`, `digits_value`: a number without leading zeros has its digits of
  `Nat.digits`.
* `head?_digits_ne_zero`: the digits of a number have no leading zero.
-/

namespace Radix

open Nat (ofDigits)
open Limbs

variable {b r n : Nat}

/-- The number with the digits `cs`, the most significant first. -/
def value (r : Nat) (cs : List Nat) : Nat := ofDigits r cs.reverse

@[simp] theorem value_nil : value r [] = 0 := rfl

theorem value_append_singleton (cs : List Nat) (c : Nat) :
    value r (cs ++ [c]) = c + r * value r cs := by
  rw [value, List.reverse_append, List.reverse_singleton, List.singleton_append,
    Nat.ofDigits_cons, value]

theorem value_lt (hr : 1 < r) {cs : List Nat} (hcs : ∀ c ∈ cs, c < r) :
    value r cs < r ^ cs.length := by
  have := Nat.ofDigits_lt_base_pow_length hr (l := cs.reverse) fun c hc =>
    hcs c (List.mem_reverse.mp hc)
  rwa [List.length_reverse] at this

/-! ## The buffer -/

/-- One digit more, unless something is carried out of the buffer. -/
def turn (b r : Nat) (buffer : List Nat) (c : Nat) : Option (List Nat) :=
  if carryOut b c (buffer.map (r * ·)) = 0 then some (propagate b c (buffer.map (r * ·))) else none

def convert (b r n : Nat) (cs : List Nat) : Option (List Nat) :=
  cs.foldlM (turn b r) (List.replicate n 0)

theorem ofDigits_map_mul (ds : List Nat) : ofDigits b (ds.map (r * ·)) = r * ofDigits b ds := by
  induction ds with
  | nil => simp
  | cons d ds ih =>
      rw [List.map_cons, Nat.ofDigits_cons, Nat.ofDigits_cons, ih]
      ring

/-- The buffer that is long enough for the new number takes the digit. -/
theorem turn_spec (hb : 1 < b) {buffer : List Nat} {c : Nat}
    (h : c + r * ofDigits b buffer < b ^ buffer.length) :
    ∃ buffer', turn b r buffer c = some buffer' ∧ buffer'.length = buffer.length ∧
      (∀ d ∈ buffer', d < b) ∧ ofDigits b buffer' = c + r * ofDigits b buffer := by
  have hvalue := ofDigits_propagate_add (b := b) c (buffer.map (r * ·))
  rw [ofDigits_map_mul, List.length_map] at hvalue
  have hcarry : carryOut b c (buffer.map (r * ·)) = 0 := by
    by_contra hne
    have := Nat.le_mul_of_pos_right (b ^ buffer.length) (Nat.pos_of_ne_zero hne)
    omega
  rw [hcarry, Nat.mul_zero, Nat.add_zero] at hvalue
  exact ⟨_, if_pos hcarry, by rw [length_propagate, List.length_map],
    fun d hd => lt_of_mem_propagate (by omega) hd, hvalue⟩

/-- **The buffer holds the number.** -/
theorem convert_spec (hb : 1 < b) (hr : 0 < r) {cs : List Nat} (h : value r cs < b ^ n) :
    ∃ buffer, convert b r n cs = some buffer ∧ buffer.length = n ∧ (∀ d ∈ buffer, d < b) ∧
      ofDigits b buffer = value r cs := by
  induction cs using List.reverseRecOn with
  | nil =>
      refine ⟨List.replicate n 0, rfl, List.length_replicate, fun d hd => ?_, ?_⟩
      · rw [List.eq_of_mem_replicate hd]
        omega
      · induction n with
        | zero => rfl
        | succ n ih =>
            rw [List.replicate_succ, Nat.ofDigits_cons, ih (by rw [value_nil]; positivity)]
            simp
  | append_singleton cs c ih =>
      rw [value_append_singleton] at h ⊢
      have hle := Nat.le_mul_of_pos_left (value r cs) hr
      obtain ⟨buffer, hbuffer, hlen, -, hvalue⟩ := ih (by omega)
      obtain ⟨buffer', hturn, hlen', hdigits, hvalue'⟩ :=
        turn_spec hb (c := c) (by rwa [hvalue, hlen])
      refine ⟨buffer', ?_, hlen'.trans hlen, hdigits, hvalue'.trans (by rw [hvalue])⟩
      rw [convert] at hbuffer ⊢
      rw [List.foldlM_append, hbuffer]
      simp [hturn]

/-! ## The length of the buffer -/

/-- A bound on powers that holds for small exponents, and again after `q` more. -/
theorem pow_le_pow_ratio {p q : Nat} (hq : 0 < q) (hperiod : r ^ q ≤ b ^ p)
    (hsmall : ∀ i < q, r ^ i ≤ b ^ (i * p / q + 1)) (n : Nat) :
    r ^ n ≤ b ^ (n * p / q + 1) := by
  have hn := Nat.div_add_mod n q
  set m := n / q
  set i := n % q
  have hexp : n * p / q = m * p + i * p / q := by
    have : n * p = i * p + q * (m * p) := by rw [← hn]; ring
    rw [this, Nat.add_mul_div_left _ _ hq, Nat.add_comm]
  calc r ^ n = (r ^ q) ^ m * r ^ i := by rw [← hn, pow_add, pow_mul]
    _ ≤ (b ^ p) ^ m * b ^ (i * p / q + 1) :=
        Nat.mul_le_mul (Nat.pow_le_pow_left hperiod m) (hsmall i (Nat.mod_lt n hq))
    _ = b ^ (n * p / q + 1) := by rw [hexp, ← pow_mul, ← pow_add]; ring_nf

/-! ## Leading zeros -/

/-- What is left of the digits without leading zeros. -/
theorem dropWhile_zero (hb : 1 < b) {ds : List Nat} (hds : ∀ d ∈ ds, d < b) :
    ds.reverse.dropWhile (· == 0) = (Nat.digits b (ofDigits b ds)).reverse := by
  induction ds using List.reverseRecOn with
  | nil => simp
  | append_singleton ds d ih =>
      by_cases hd : d = 0
      · subst hd
        rw [List.reverse_append, List.reverse_singleton, List.singleton_append,
          List.dropWhile_cons_of_pos (by rfl), ih fun x hx => hds x (List.mem_append_left _ hx),
          Nat.ofDigits_append, Nat.ofDigits_singleton, Nat.mul_zero, Nat.add_zero]
      · rw [Nat.digits_ofDigits b hb _ hds (by simpa using hd), List.reverse_append,
          List.reverse_singleton, List.singleton_append,
          List.dropWhile_cons_of_neg (by simpa using hd)]

/-- Digits without a leading zero are those of the number. -/
theorem digits_value (hb : 1 < b) {cs : List Nat} (hcs : ∀ c ∈ cs, c < b)
    (hhead : cs.head? ≠ some 0) : (Nat.digits b (value b cs)).reverse = cs := by
  rw [value, Nat.digits_ofDigits b hb _ fun c hc => hcs c (List.mem_reverse.mp hc),
    List.reverse_reverse]
  intro hne hlast
  rw [List.getLast_reverse] at hlast
  exact hhead ((List.head?_eq_some_head _).trans (congrArg some hlast))

/-- The digits of a number have no leading zero. -/
theorem head?_digits_ne_zero (b m : Nat) : (Nat.digits b m).reverse.head? ≠ some 0 := by
  intro hzero
  rw [List.head?_reverse] at hzero
  have hne : Nat.digits b m ≠ [] := by
    intro hnil
    simp [hnil] at hzero
  have hm : m ≠ 0 := by
    rintro rfl
    exact hne (Nat.digits_zero b)
  rw [List.getLast?_eq_getLast_of_ne_nil hne] at hzero
  exact Nat.getLast_digit_ne_zero b hm (Option.some.inj hzero)

theorem value_digits (b m : Nat) : value b (Nat.digits b m).reverse = m := by
  rw [value, List.reverse_reverse, Nat.ofDigits_digits]

end Radix
