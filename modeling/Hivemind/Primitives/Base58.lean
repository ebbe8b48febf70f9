import Hivemind.Lib.Radix
import Hivemind.Primitives.Basic
import Mathlib.Data.List.TakeWhile

/-!
# Base 58

`EncodeBase58` and `DecodeBase58` of `base58.cpp`.  Both convert a number in a buffer of a fixed
length, which they walk through from its end, and assert that nothing is carried out of the
buffer.  Leading zeros are counted apart.

The lengths of the buffers are computed from the length of the input by a ratio of whole numbers,
138 to 100 in one direction and 733 to 1000 in the other.  That they are long enough is a bound
on powers, proved once for all exponents; with it the assertions hold for every input.  A string
may have white space before and behind it, which is skipped, and ends at its first zero byte.

* `encodeBase58_eq`: the string of a byte vector: ones for its leading zeros, then digits.
* `decodeBase58_spec`: the bytes of a string, or why it is refused.
* `decodeBase58_encodeBase58`, `encodeBase58_of_decodeBase58`: the one after the other.
* `base58_roundTrip`: **all of it**, with and without a checksum.
-/

namespace Hivemind

open Codecs Limbs Radix

/-- What must not happen. -/
inductive Base58Fault where
  | carry
  deriving DecidableEq

/-- `pszBase58`. -/
def pszBase58 : Bytes :=
  "123456789ABCDEFGHJKLMNPQRSTUVWXYZabcdefghijkmnopqrstuvwxyz".toList.map fun ch =>
    UInt8.ofNat ch.toNat

/-- `'1'`, the symbol of zero. -/
def base58One : UInt8 := 49

/-- `isspace`. -/
def isspace (ch : UInt8) : Bool := ch == 32 || (9 ≤ ch && ch ≤ 13)

/-- `pszBase58[d]`. -/
def base58Symbol (d : Nat) : UInt8 := pszBase58.getD d 0

/-- The loop of `EncodeBase58` over the bytes.  The last digit of `b58` comes first. -/
def encodeLoop : Bytes → List Nat → Except Base58Fault (List Nat)
  | [], b58 => .ok b58
  | b :: bs, b58 =>
    if carryOut 58 b.toNat (b58.map (256 * ·)) = 0 then
      encodeLoop bs (propagate 58 b.toNat (b58.map (256 * ·)))
    else .error .carry

/-- `EncodeBase58`. -/
def encodeBase58 (vch : Bytes) : Except Base58Fault Bytes :=
  let zeroes := (vch.takeWhile (· == 0)).length
  let rest := vch.dropWhile (· == 0)
  (encodeLoop rest (List.replicate (rest.length * 138 / 100 + 1) 0)).map fun b58 =>
    List.replicate zeroes base58One ++ (b58.reverse.dropWhile (· == 0)).map base58Symbol

/-- The loop of `DecodeBase58` over the characters, that ends with `none` where one is not in
the alphabet. -/
def decodeLoop : Bytes → List Nat → Except Base58Fault (Option (List Nat))
  | [], b256 => .ok (some b256)
  | ch :: chs, b256 =>
    match pszBase58.idxOf? ch with
    | none => .ok none
    | some d =>
      if carryOut 256 d (b256.map (58 * ·)) = 0 then
        decodeLoop chs (propagate 256 d (b256.map (58 * ·)))
      else .error .carry

/-- `DecodeBase58` of the characters before the terminating zero; `none` where it returns
`false`. -/
def decodeBase58 (psz : Bytes) : Except Base58Fault (Option Bytes) :=
  let psz := psz.dropWhile isspace
  let zeroes := (psz.takeWhile (· == base58One)).length
  let psz := psz.dropWhile (· == base58One)
  let chs := psz.takeWhile fun ch => !isspace ch
  let trailing := psz.dropWhile fun ch => !isspace ch
  (decodeLoop chs (List.replicate (psz.length * 733 / 1000 + 1) 0)).map fun r =>
    r.bind fun b256 =>
      if trailing.dropWhile isspace = [] then
        some (List.replicate zeroes 0 ++ (b256.reverse.dropWhile (· == 0)).map UInt8.ofNat)
      else none

/-- `c_str()`: what comes before the terminating zero. -/
def cStr (str : Bytes) : Bytes := str.takeWhile (· != 0)

/-- `EncodeBase58Check`. -/
def encodeBase58Check (hash : Bytes → Uint256) (vchIn : Bytes) : Except Base58Fault Bytes :=
  encodeBase58 (vchIn ++ (hash vchIn).val.take 4)

/-- `DecodeBase58Check`. -/
def decodeBase58Check (hash : Bytes → Uint256) (psz : Bytes) :
    Except Base58Fault (Option Bytes) :=
  (decodeBase58 psz).map fun r =>
    r.bind fun vch =>
      if vch.length < 4 then none
      else
        let data := vch.take (vch.length - 4)
        if (hash data).val.take 4 = vch.drop (vch.length - 4) then some data else none

/-! ## The buffers are long enough -/

theorem pow_le_encode (n : Nat) : 256 ^ n ≤ 58 ^ (n * 138 / 100 + 1) :=
  pow_le_pow_ratio (by norm_num) (by decide +kernel) (by decide +kernel) n

theorem pow_le_decode (n : Nat) : 58 ^ n ≤ 256 ^ (n * 733 / 1000 + 1) :=
  pow_le_pow_ratio (by norm_num) (by decide +kernel) (by decide +kernel) n

theorem encodeLoop_eq (bs : Bytes) (b58 : List Nat) :
    encodeLoop bs b58 = ((bs.map UInt8.toNat).foldlM (turn 58 256) b58).elim
      (.error .carry) .ok := by
  induction bs generalizing b58 with
  | nil => rfl
  | cons b bs ih =>
      rw [encodeLoop, List.map_cons, List.foldlM_cons, turn]
      split_ifs with hcarry
      · exact ih _
      · rfl

/-- **The digits of the number, in base 58.** -/
theorem encodeLoop_spec (bs : Bytes) :
    ∃ b58, encodeLoop bs (List.replicate (bs.length * 138 / 100 + 1) 0) = .ok b58 ∧
      b58.reverse.dropWhile (· == 0) =
        (Nat.digits 58 (value 256 (bs.map UInt8.toNat))).reverse := by
  have hlt : value 256 (bs.map UInt8.toNat) < 58 ^ (bs.length * 138 / 100 + 1) := by
    refine (value_lt (by norm_num) fun c hc => ?_).trans_le ?_
    · obtain ⟨b, -, rfl⟩ := List.mem_map.mp hc
      exact b.toNat_lt
    · rw [List.length_map]
      exact pow_le_encode _
  obtain ⟨b58, hconvert, -, hdigits, hvalue⟩ := convert_spec (by norm_num) (by norm_num) hlt
  refine ⟨b58, ?_, ?_⟩
  · rw [encodeLoop_eq, ← convert, hconvert]
    rfl
  · rw [dropWhile_zero (by norm_num) hdigits, hvalue]

/-! ## The alphabet -/

theorem idxOf_base58Symbol : ∀ d < 58, pszBase58.idxOf? (base58Symbol d) = some d := by
  decide +kernel

theorem base58Symbol_ne_one : ∀ d < 58, base58Symbol d = base58One → d = 0 := by decide +kernel

theorem isspace_base58Symbol : ∀ d < 58, isspace (base58Symbol d) = false := by decide +kernel

theorem isspace_base58One : isspace base58One = false := rfl

/-! ## Encoding -/

theorem dropWhile_of_head? {α : Type} {p : α → Bool} {l : List α}
    (h : ∀ x, l.head? = some x → p x = false) : l.dropWhile p = l := by
  cases l with
  | nil => rfl
  | cons x l => rw [List.dropWhile_cons_of_neg (by simp [h x rfl])]

theorem takeWhile_of_head? {α : Type} {p : α → Bool} {l : List α}
    (h : ∀ x, l.head? = some x → p x = false) : l.takeWhile p = [] := by
  cases l with
  | nil => rfl
  | cons x l => rw [List.takeWhile_cons_of_neg (by simp [h x rfl])]

theorem of_head?_dropWhile {α : Type} {p : α → Bool} {l : List α} {x : α}
    (h : (l.dropWhile p).head? = some x) : p x = false := by
  have := List.head?_dropWhile_not p l
  rwa [h] at this

/-- The leading zeros of a list, and the rest. -/
theorem replicate_append_dropWhile {α : Type} [DecidableEq α] (a : α) (l : List α) :
    List.replicate (l.takeWhile (· == a)).length a ++ l.dropWhile (· == a) = l := by
  have hzeros : l.takeWhile (· == a) = List.replicate (l.takeWhile (· == a)).length a := by
    refine List.eq_replicate_of_mem fun x hx => ?_
    simpa using List.mem_takeWhile_imp hx
  rw [← hzeros, List.takeWhile_append_dropWhile]

/-- **The string of a byte vector**: ones for its leading zeros, and the digits of the rest. -/
theorem encodeBase58_eq (vch : Bytes) :
    encodeBase58 vch = .ok (List.replicate (vch.takeWhile (· == 0)).length base58One ++
      (Nat.digits 58 (value 256 ((vch.dropWhile (· == 0)).map UInt8.toNat))).reverse.map
        base58Symbol) := by
  obtain ⟨b58, hloop, hdigits⟩ := encodeLoop_spec (vch.dropWhile (· == 0))
  simp only [encodeBase58, hloop, Except.map, hdigits]

/-- The digit of a character. -/
def base58Digit (ch : UInt8) : Nat := (pszBase58.idxOf? ch).getD 0

theorem of_idxOf? {ch : UInt8} {d : Nat} (h : pszBase58.idxOf? ch = some d) :
    d < 58 ∧ base58Symbol d = ch := by
  obtain ⟨hlt, heq, -⟩ := List.idxOf?_eq_some_iff.mp h
  refine ⟨hlt, ?_⟩
  rw [base58Symbol, List.getD_eq_getElem?_getD, List.getElem?_eq_getElem hlt]
  simpa using heq

/-! ## Decoding -/

/-- What the loop finds: the number of the characters, unless one is not in the alphabet. -/
theorem decodeLoop_spec {n : Nat} (chs : Bytes) {ds b256 : List Nat} (hds : ∀ d ∈ ds, d < 58)
    (hlen : b256.length = n) (hdigits : ∀ d ∈ b256, d < 256)
    (hvalue : Nat.ofDigits 256 b256 = value 58 ds)
    (hroom : 58 ^ (ds.length + chs.length) ≤ 256 ^ n) :
    ∃ r, decodeLoop chs b256 = .ok r ∧ (r = none → ∃ ch ∈ chs, pszBase58.idxOf? ch = none) ∧
      ∀ b256', r = some b256' → (∀ d ∈ b256', d < 256) ∧
        Nat.ofDigits 256 b256' = value 58 (ds ++ chs.map base58Digit) ∧
        ∀ ch ∈ chs, base58Digit ch < 58 ∧ base58Symbol (base58Digit ch) = ch := by
  induction chs generalizing ds b256 with
  | nil =>
      refine ⟨some b256, rfl, fun h => (by cases h), ?_⟩
      rintro b256' ⟨⟩
      exact ⟨hdigits, by simpa using hvalue, fun ch hch => by cases hch⟩
  | cons ch chs ih =>
      rw [decodeLoop]
      cases hidx : pszBase58.idxOf? ch with
      | none => exact ⟨none, rfl, fun _ => ⟨ch, List.mem_cons_self, hidx⟩,
          fun _ h => (by cases h)⟩
      | some d =>
          obtain ⟨hd, hsymbol⟩ := of_idxOf? hidx
          have hdigit : base58Digit ch = d := by simp [base58Digit, hidx]
          have hds' : ∀ x ∈ ds ++ [d], x < 58 := by
            intro x hx
            rcases List.mem_append.mp hx with hx | hx
            · exact hds x hx
            · rwa [List.mem_singleton.mp hx]
          -- the number so far is below the first power of 58 that has more digits
          have hlt : d + 58 * Nat.ofDigits 256 b256 < 256 ^ b256.length := by
            have hnew := value_lt (by norm_num) hds'
            rw [value_append_singleton, List.length_append, List.length_singleton] at hnew
            rw [hvalue, hlen]
            exact hnew.trans_le ((Nat.pow_le_pow_right (by norm_num) (by simp)).trans hroom)
          obtain ⟨b256', hturn, hlen', hdigits', hvalue'⟩ := turn_spec (by norm_num) hlt
          have hcarry : carryOut 256 d (b256.map (58 * ·)) = 0 := by
            by_contra hne
            simp [turn, hne] at hturn
          rw [turn, if_pos hcarry] at hturn
          simp only [hcarry, if_true, Option.some.inj hturn]
          obtain ⟨r, hloop, hnone, hsome⟩ := ih hds' (hlen'.trans hlen) hdigits'
            (by rw [hvalue', hvalue, value_append_singleton])
            (by
              rw [List.length_append, List.length_singleton, Nat.add_assoc, Nat.add_comm 1]
              exact hroom)
          refine ⟨r, hloop, fun h => ?_, fun b hb => ?_⟩
          · obtain ⟨ch', hch', hnot⟩ := hnone h
            exact ⟨ch', List.mem_cons_of_mem _ hch', hnot⟩
          · obtain ⟨hb', hnumber, hsymbols⟩ := hsome b hb
            refine ⟨hb', ?_, ?_⟩
            · rw [hnumber, List.map_cons, hdigit, List.append_assoc, List.singleton_append]
            · intro ch' hch'
              rcases List.mem_cons.mp hch' with rfl | hch'
              · rw [hdigit]
                exact ⟨hd, hsymbol⟩
              · exact hsymbols ch' hch'

/-- The characters that are converted, of a string from its first character on that is no white
space. -/
def base58Word (psz : Bytes) : Bytes :=
  (psz.dropWhile (· == base58One)).takeWhile fun ch => !isspace ch

/-- What follows them. -/
def base58Trailing (psz : Bytes) : Bytes :=
  (psz.dropWhile (· == base58One)).dropWhile fun ch => !isspace ch

/-- **What `DecodeBase58` returns.** -/
theorem decodeBase58_spec (psz : Bytes) :
    ∃ r, decodeBase58 psz = .ok r ∧
      (r = none → (∃ ch ∈ base58Word (psz.dropWhile isspace), pszBase58.idxOf? ch = none) ∨
        (base58Trailing (psz.dropWhile isspace)).dropWhile isspace ≠ []) ∧
      ∀ vch, r = some vch → (base58Trailing (psz.dropWhile isspace)).dropWhile isspace = [] ∧
        (∀ ch ∈ base58Word (psz.dropWhile isspace),
          base58Digit ch < 58 ∧ base58Symbol (base58Digit ch) = ch) ∧
        vch = List.replicate ((psz.dropWhile isspace).takeWhile (· == base58One)).length 0 ++
          (Nat.digits 256 (value 58 ((base58Word (psz.dropWhile isspace)).map
            base58Digit))).reverse.map UInt8.ofNat := by
  set s := psz.dropWhile isspace with hs
  set rest := s.dropWhile (· == base58One) with hrest
  have hroom : 58 ^ (([] : List Nat).length + (base58Word s).length) ≤
      256 ^ (rest.length * 733 / 1000 + 1) := by
    refine (Nat.pow_le_pow_right (by norm_num) ?_).trans (pow_le_decode _)
    rw [List.length_nil, Nat.zero_add]
    exact (List.takeWhile_sublist _).length_le
  have hzero : Nat.ofDigits 256 (List.replicate (rest.length * 733 / 1000 + 1) 0) =
      value 58 [] := by
    rw [Nat.ofDigits_replicate_zero, value_nil]
  have hnil : ∀ d ∈ ([] : List Nat), d < 58 := fun d hd => by cases hd
  obtain ⟨r, hloop, hnone, hsome⟩ := decodeLoop_spec (base58Word s) hnil List.length_replicate
    (fun d hd => by rw [List.eq_of_mem_replicate hd]; norm_num) hzero hroom
  have hdecode : decodeBase58 psz = .ok (r.bind fun b256 =>
      if (base58Trailing s).dropWhile isspace = [] then
        some (List.replicate (s.takeWhile (· == base58One)).length 0 ++
          (b256.reverse.dropWhile (· == 0)).map UInt8.ofNat)
      else none) := by
    simp only [decodeBase58, ← hs, ← hrest]
    rw [base58Word, ← hrest] at hloop
    rw [hloop]
    rfl
  refine ⟨_, hdecode, fun h => ?_, fun vch h => ?_⟩
  · cases r with
    | none => exact Or.inl (hnone rfl)
    | some b256 =>
        refine Or.inr fun hempty => ?_
        simp [hempty] at h
  · obtain ⟨b256, rfl, hreturn⟩ := Option.bind_eq_some_iff.mp h
    obtain ⟨hdigits, hvalue, hsymbols⟩ := hsome b256 rfl
    split_ifs at hreturn with hempty
    refine ⟨hempty, hsymbols, ?_⟩
    rw [← Option.some.inj hreturn, dropWhile_zero (by norm_num) hdigits, hvalue, List.nil_append]

/-- **The bytes of a string of the alphabet**: zeros for its leading ones, and the bytes of
the number. -/
theorem decodeBase58_symbols (zeroes : Nat) {ds : List Nat} (hds : ∀ d ∈ ds, d < 58)
    (hhead : ds.head? ≠ some 0) :
    decodeBase58 (List.replicate zeroes base58One ++ ds.map base58Symbol) =
      .ok (some (List.replicate zeroes 0 ++
        (Nat.digits 256 (value 58 ds)).reverse.map UInt8.ofNat)) := by
  have hone : ∀ ch ∈ List.replicate zeroes base58One, (ch == base58One) = true := by
    intro ch hch
    rw [List.eq_of_mem_replicate hch]
    rfl
  have hspace : ∀ ch ∈ ds.map base58Symbol, isspace ch = false := by
    intro ch hch
    obtain ⟨d, hd, rfl⟩ := List.mem_map.mp hch
    exact isspace_base58Symbol d (hds d hd)
  have hfirst : ∀ ch, (ds.map base58Symbol).head? = some ch → (ch == base58One) = false := by
    intro ch hch
    rw [List.head?_map] at hch
    obtain ⟨d, hd, rfl⟩ := Option.map_eq_some_iff.mp hch
    by_contra hne
    rw [base58Symbol_ne_one d (hds d (List.mem_of_mem_head? hd)) (by simpa using hne)] at hd
    exact hhead hd
  have hstart : (List.replicate zeroes base58One ++ ds.map base58Symbol).dropWhile isspace =
      List.replicate zeroes base58One ++ ds.map base58Symbol := by
    refine dropWhile_of_head? fun ch hch => ?_
    rcases List.mem_append.mp (List.mem_of_mem_head? hch) with hmem | hmem
    · rw [List.eq_of_mem_replicate hmem, isspace_base58One]
    · exact hspace ch hmem
  obtain ⟨r, hdecode, hnone, hsome⟩ :=
    decodeBase58_spec (List.replicate zeroes base58One ++ ds.map base58Symbol)
  have hrest : (List.replicate zeroes base58One ++ ds.map base58Symbol).dropWhile
      (· == base58One) = ds.map base58Symbol := by
    rw [List.dropWhile_append_of_pos hone, dropWhile_of_head? hfirst]
  have hzeroes : (List.replicate zeroes base58One ++ ds.map base58Symbol).takeWhile
      (· == base58One) = List.replicate zeroes base58One := by
    rw [List.takeWhile_append_of_pos hone, takeWhile_of_head? hfirst, List.append_nil]
  have hword : base58Word (List.replicate zeroes base58One ++ ds.map base58Symbol) =
      ds.map base58Symbol := by
    rw [base58Word, hrest]
    exact List.takeWhile_eq_self_iff.mpr fun ch hch => by simp [hspace ch hch]
  have htrailing :
      base58Trailing (List.replicate zeroes base58One ++ ds.map base58Symbol) = [] := by
    rw [base58Trailing, hrest]
    exact List.dropWhile_eq_nil_iff.mpr fun ch hch => by simp [hspace ch hch]
  have hdigit : (ds.map base58Symbol).map base58Digit = ds := by
    rw [List.map_map]
    refine (List.map_congr_left fun d hd => ?_).trans (List.map_id ds)
    simp [base58Digit, idxOf_base58Symbol d (hds d hd)]
  rw [hstart, hword, htrailing, hzeroes, hdigit, List.length_replicate] at hsome
  rw [hstart, hword, htrailing] at hnone
  cases r with
  | none =>
      rcases hnone rfl with ⟨ch, hch, hnot⟩ | hne
      · obtain ⟨d, hd, rfl⟩ := List.mem_map.mp hch
        rw [idxOf_base58Symbol d (hds d hd)] at hnot
        cases hnot
      · exact absurd rfl hne
  | some vch => rw [hdecode, (hsome vch rfl).2.2]

/-! ## The round trips -/

/-- The bytes behind the leading zeros are those of their number. -/
theorem digits_bytes {vch : Bytes} (hhead : vch.head? ≠ some 0) :
    (Nat.digits 256 (value 256 (vch.map UInt8.toNat))).reverse.map UInt8.ofNat = vch := by
  have hlt : ∀ c ∈ vch.map UInt8.toNat, c < 256 := by
    intro c hc
    obtain ⟨b, -, rfl⟩ := List.mem_map.mp hc
    exact b.toNat_lt
  have hne : (vch.map UInt8.toNat).head? ≠ some 0 := by
    rw [List.head?_map]
    intro hzero
    obtain ⟨b, hb, hb'⟩ := Option.map_eq_some_iff.mp hzero
    rw [UInt8.toNat_inj.mp (hb'.trans UInt8.toNat_zero.symm)] at hb
    exact hhead hb
  rw [digits_value (by norm_num) hlt hne, List.map_map]
  simp [Function.comp_def]

/-- **Encoding and decoding again.** -/
theorem decodeBase58_encodeBase58 (vch : Bytes) :
    ∃ psz, encodeBase58 vch = .ok psz ∧ decodeBase58 psz = .ok (some vch) := by
  refine ⟨_, encodeBase58_eq vch, ?_⟩
  set rest := vch.dropWhile (· == 0) with hrest
  set number := value 256 (rest.map UInt8.toNat) with hnumber
  have hdigits : ∀ d ∈ (Nat.digits 58 number).reverse, d < 58 := by
    intro d hd
    exact Nat.digits_lt_base (by norm_num) (List.mem_reverse.mp hd)
  have hrest' : rest.head? ≠ some 0 := by
    intro hzero
    have := of_head?_dropWhile (hrest ▸ hzero)
    simp at this
  rw [decodeBase58_symbols _ hdigits (head?_digits_ne_zero 58 number), value_digits, hnumber,
    digits_bytes hrest', replicate_append_dropWhile]

/-- A string without its surrounding white space. -/
def trimSpaces (psz : Bytes) : Bytes :=
  ((psz.dropWhile isspace).reverse.dropWhile isspace).reverse

theorem trimSpaces_eq {psz : Bytes}
    (h : (base58Trailing (psz.dropWhile isspace)).dropWhile isspace = []) :
    trimSpaces psz =
      List.replicate ((psz.dropWhile isspace).takeWhile (· == base58One)).length base58One ++
        base58Word (psz.dropWhile isspace) := by
  set s := psz.dropWhile isspace with hs
  set kept := List.replicate (s.takeWhile (· == base58One)).length base58One ++ base58Word s
    with hkept
  have hparts : s = kept ++ base58Trailing s := by
    rw [hkept, List.append_assoc, base58Word, base58Trailing, List.takeWhile_append_dropWhile,
      replicate_append_dropWhile]
  have hspaces : ∀ ch ∈ (base58Trailing s).reverse, isspace ch = true := fun ch hch =>
    List.dropWhile_eq_nil_iff.mp h ch (List.mem_reverse.mp hch)
  have hnone : ∀ ch ∈ kept, isspace ch = false := by
    intro ch hch
    rcases List.mem_append.mp hch with hone | hword
    · rw [List.eq_of_mem_replicate hone, isspace_base58One]
    · simpa using List.mem_takeWhile_imp hword
  have hlast : kept.reverse.dropWhile isspace = kept.reverse :=
    dropWhile_of_head? fun ch hch =>
      hnone ch (List.mem_reverse.mp (List.mem_of_mem_head? hch))
  rw [trimSpaces, ← hs, hparts, List.reverse_append, List.dropWhile_append_of_pos hspaces, hlast,
    List.reverse_reverse]

/-- **Decoding and encoding again**: the assertion holds, and what was accepted comes back
without white space. -/
theorem encodeBase58_of_decodeBase58 (psz : Bytes) :
    ∃ r, decodeBase58 psz = .ok r ∧
      ∀ vch, r = some vch → encodeBase58 vch = .ok (trimSpaces psz) := by
  obtain ⟨r, hdecode, -, hsome⟩ := decodeBase58_spec psz
  refine ⟨r, hdecode, fun vch hvch => ?_⟩
  obtain ⟨htrailing, hsymbols, rfl⟩ := hsome vch hvch
  set s := psz.dropWhile isspace with hs
  set zeroes := (s.takeWhile (· == base58One)).length
  set ds := (base58Word s).map base58Digit with hds
  have hlt : ∀ d ∈ ds, d < 58 := by
    intro d hd
    obtain ⟨ch, hch, rfl⟩ := List.mem_map.mp hd
    exact (hsymbols ch hch).1
  have hback : ds.map base58Symbol = base58Word s := by
    rw [hds, List.map_map]
    exact (List.map_congr_left fun ch hch => (hsymbols ch hch).2).trans (List.map_id _)
  -- the word does not begin with a one, so its number has as many digits
  have hhead : ds.head? ≠ some 0 := by
    intro hzero
    rw [hds, List.head?_map] at hzero
    obtain ⟨ch, hch, hdigit⟩ := Option.map_eq_some_iff.mp hzero
    have hsymbol := (hsymbols ch (List.mem_of_mem_head? hch)).2
    rw [hdigit] at hsymbol
    rw [base58Word, List.head?_takeWhile] at hch
    have hfirst := of_head?_dropWhile (Option.eq_some_of_filter_eq_some hch)
    rw [← hsymbol] at hfirst
    exact absurd hfirst (by decide +kernel)
  set bytes := (Nat.digits 256 (value 58 ds)).reverse.map UInt8.ofNat with hbytes
  have hbytes' : bytes.map UInt8.toNat = (Nat.digits 256 (value 58 ds)).reverse := by
    rw [hbytes, List.map_map]
    refine (List.map_congr_left fun d hd => ?_).trans (List.map_id _)
    have := Nat.digits_lt_base (by norm_num) (List.mem_reverse.mp hd)
    simp only [Function.comp_apply, UInt8.toNat_ofNat', id_eq]
    omega
  have hfirst : ∀ b, bytes.head? = some b → (b == 0) = false := by
    intro b hb
    by_contra hne
    have hzero : (bytes.map UInt8.toNat).head? = some 0 := by
      have : b = 0 := by simpa using hne
      rw [List.head?_map, hb, this]
      rfl
    rw [hbytes'] at hzero
    exact head?_digits_ne_zero 256 _ hzero
  have hzeros : ∀ b ∈ List.replicate zeroes (0 : UInt8), (b == 0) = true := by
    intro b hb
    rw [List.eq_of_mem_replicate hb]
    rfl
  rw [encodeBase58_eq, List.takeWhile_append_of_pos hzeros, List.dropWhile_append_of_pos hzeros,
    takeWhile_of_head? hfirst, dropWhile_of_head? hfirst, List.append_nil, List.length_replicate,
    hbytes', value_digits, digits_value (by norm_num) hlt hhead, hback, trimSpaces_eq htrailing]

theorem cStr_of_not_mem {str : Bytes} (h : 0 ∉ str) : cStr str = str :=
  List.takeWhile_eq_self_iff.mpr fun ch hch => by
    have : ch ≠ 0 := fun hzero => h (hzero ▸ hch)
    simpa using this

theorem base58Symbol_ne_zero : ∀ d < 58, base58Symbol d ≠ 0 := by decide +kernel

/-- There is no terminating zero within an encoded string. -/
theorem not_mem_encodeBase58 {vch str : Bytes} (h : encodeBase58 vch = .ok str) : 0 ∉ str := by
  rw [encodeBase58_eq] at h
  cases h
  intro hzero
  rcases List.mem_append.mp hzero with hone | hsymbol
  · exact absurd (List.eq_of_mem_replicate hone) (by decide)
  · obtain ⟨d, hd, hdzero⟩ := List.mem_map.mp hsymbol
    exact base58Symbol_ne_zero d (Nat.digits_lt_base (by norm_num) (List.mem_reverse.mp hd)) hdzero

/-- **With a checksum.** -/
theorem decodeBase58Check_encodeBase58Check (hash : Bytes → Uint256) (vch : Bytes) :
    ∃ str, encodeBase58Check hash vch = .ok str ∧ 0 ∉ str ∧
      decodeBase58Check hash str = .ok (some vch) := by
  obtain ⟨str, hencode, hdecode⟩ := decodeBase58_encodeBase58 (vch ++ (hash vch).val.take 4)
  have hlen : (vch ++ (hash vch).val.take 4).length - 4 = vch.length := by
    simp [(hash vch).property]
  refine ⟨str, hencode, not_mem_encodeBase58 hencode, ?_⟩
  have hlong : ¬ (vch ++ (hash vch).val.take 4).length < 4 := by
    simp [(hash vch).property]
  simp only [decodeBase58Check, hdecode, Except.map, Option.bind_some, hlong, if_false, hlen,
    List.take_left, List.drop_left, if_true]

/-- **Base 58**: a byte vector comes back from its string, with and without a checksum; what is
decoded gives its string again, without white space; and nothing is carried out of a buffer. -/
theorem base58_roundTrip (hash : Bytes → Uint256) :
    (∀ vch, ∃ str, encodeBase58 vch = .ok str ∧ decodeBase58 (cStr str) = .ok (some vch)) ∧
      (∀ str, 0 ∉ str → ∃ r, decodeBase58 (cStr str) = .ok r ∧
        ∀ vch, r = some vch → encodeBase58 vch = .ok (trimSpaces str)) ∧
      (∀ psz, decodeBase58 psz ≠ .error .carry) ∧
      ∀ vch, ∃ str, encodeBase58Check hash vch = .ok str ∧
        decodeBase58Check hash (cStr str) = .ok (some vch) := by
  refine ⟨fun vch => ?_, fun str hstr => ?_, fun psz => ?_, fun vch => ?_⟩
  · obtain ⟨str, hencode, hdecode⟩ := decodeBase58_encodeBase58 vch
    exact ⟨str, hencode, by rw [cStr_of_not_mem (not_mem_encodeBase58 hencode), hdecode]⟩
  · rw [cStr_of_not_mem hstr]
    exact encodeBase58_of_decodeBase58 str
  · obtain ⟨r, hdecode, -⟩ := decodeBase58_spec psz
    rw [hdecode]
    exact fun h => by cases h
  · obtain ⟨str, hencode, hstr, hdecode⟩ := decodeBase58Check_encodeBase58Check hash vch
    exact ⟨str, hencode, by rw [cStr_of_not_mem hstr, hdecode]⟩

end Hivemind
