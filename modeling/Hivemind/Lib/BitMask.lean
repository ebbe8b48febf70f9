import Hivemind.Lib.Codec

/-!
# Bit masks without a length

A set of positions as bytes, eight positions to the byte.  The mask stops at its last byte that
is not zero, and its length is not written: a reader that knows how many of the bytes are not
zero knows when it has seen the last of them.

A writer has to go over the positions twice.  The first pass finds how far the mask reaches and
how many of its bytes are used, since that number goes in front; the second pass writes the
bytes.  A reader has no length, and the bytes behind the mask are any bytes, so what is proved of
it is that it takes exactly the mask off a longer stream.

* `packBits`, `unpackBits`: a byte from a predicate on eight positions, and back;
  `unpackBits_packBits` says that the positions of a byte come back.
* `flatMap_range_blocks`: positions in blocks of eight are positions in a row.
* `scanMask_spec`: what a scan for the last used byte finds.
* `readMask_append`: **a mask that ends in a used byte is read back**, and what follows it is
  left.
-/

namespace Codecs

/-- The byte with bit `i` set where `f i` holds. -/
def packBits (f : Nat → Bool) : UInt8 :=
  (List.range 8).foldl (fun ch i => if f i then ch ||| (1 <<< UInt8.ofNat i) else ch) 0

/-- The eight bits of a byte, the lowest first. -/
def unpackBits (ch : UInt8) : List Bool :=
  (List.range 8).map fun p => (ch &&& (1 <<< UInt8.ofNat p)) != 0

theorem unpackBits_packBits (f : Nat → Bool) : unpackBits (packBits f) = (List.range 8).map f := by
  have hrange : List.range 8 = [0, 1, 2, 3, 4, 5, 6, 7] := rfl
  simp only [unpackBits, packBits, hrange, List.foldl_cons, List.foldl_nil, List.map_cons,
    List.map_nil]
  -- only eight values of `f` matter
  generalize f 0 = b0
  generalize f 1 = b1
  generalize f 2 = b2
  generalize f 3 = b3
  generalize f 4 = b4
  generalize f 5 = b5
  generalize f 6 = b6
  generalize f 7 = b7
  revert b0 b1 b2 b3 b4 b5 b6 b7
  decide +kernel

theorem packBits_eq_zero_iff {f : Nat → Bool} : packBits f = 0 ↔ ∀ i < 8, f i = false := by
  have hbits := unpackBits_packBits f
  constructor
  · intro h i hi
    rw [h] at hbits
    have hget := congrArg (fun l => l[i]?) hbits
    simp only [unpackBits, List.getElem?_map, List.getElem?_range hi, Option.map_some] at hget
    simpa using hget.symm
  · intro h
    have hrange : List.range 8 = [0, 1, 2, 3, 4, 5, 6, 7] := rfl
    simp [packBits, hrange, h]

/-- Positions in blocks of `w` are positions in a row. -/
theorem flatMap_range_blocks {α : Type} (g : Nat → α) (w k : Nat) :
    ((List.range k).flatMap fun b => (List.range w).map fun i => g (b * w + i)) =
      (List.range (k * w)).map g := by
  induction k with
  | zero => simp
  | succ k ih =>
      rw [List.range_succ, List.flatMap_append, ih, Nat.succ_mul, List.range_add, List.map_append]
      simp [Function.comp_def]

/-! ## Scanning -/

/-- The number of bytes up to the last one that is used, and the number of used ones,
among the first `n`. -/
def scanMask (used : Nat → Bool) (n : Nat) : Nat × Nat :=
  (List.range n).foldl (fun acc b => if used b then (b + 1, acc.2 + 1) else acc) (0, 0)

theorem scanMask_succ (used : Nat → Bool) (n : Nat) :
    scanMask used (n + 1) =
      if used n then (n + 1, (scanMask used n).2 + 1) else scanMask used n := by
  simp [scanMask, List.range_succ]

/-- **What a scan finds**: no byte from the first number on is used, the one before it
is, and the second number counts the used ones among them. -/
theorem scanMask_spec (used : Nat → Bool) (n : Nat) :
    (scanMask used n).1 ≤ n ∧
    (∀ b, (scanMask used n).1 ≤ b → b < n → used b = false) ∧
    (∀ b, (scanMask used n).1 = b + 1 → used b = true) ∧
    (scanMask used n).2 = (List.range (scanMask used n).1).countP used := by
  induction n with
  | zero => simp [scanMask]
  | succ n ih =>
      obtain ⟨hle, hzero, hlast, hcount⟩ := ih
      rw [scanMask_succ]
      by_cases hn : used n = true
      · rw [if_pos hn]
        refine ⟨Nat.le_refl _, by intros; omega, ?_, ?_⟩
        · intro b hb
          obtain rfl : n = b := by simpa using hb
          exact hn
        · -- the bytes after the last used one do not count
          have hsplit : List.range n = List.range (scanMask used n).1 ++
              (List.range (n - (scanMask used n).1)).map ((scanMask used n).1 + ·) := by
            rw [← List.range_add]
            congr 1
            omega
          have hrest : ((List.range (n - (scanMask used n).1)).map
              ((scanMask used n).1 + ·)).countP used = 0 := by
            rw [List.countP_eq_zero]
            intro b hb
            obtain ⟨i, hi, rfl⟩ := List.mem_map.mp hb
            have hi := List.mem_range.mp hi
            simp [hzero _ (Nat.le_add_right _ i) (by omega)]
          rw [List.range_succ, List.countP_append, hsplit, List.countP_append, hrest, ← hcount]
          simp [hn]
      · rw [if_neg hn]
        refine ⟨by omega, ?_, hlast, hcount⟩
        intro b hb hlt
        by_cases hbn : b = n
        · simpa [hbn] using hn
        · exact hzero b hb (by omega)

/-! ## Reading -/

/-- Read mask bytes until `n` of them were not zero. -/
def readMask : Nat → Reader (List Bool)
  | 0, s => .ok ([], s)
  | _ + 1, [] => .error .endOfData
  | n + 1, ch :: s => do
    let (v, s) ← readMask (if ch != 0 then n else n + 1) s
    return (unpackBits ch ++ v, s)

/-- **A mask is read back**: its number of non-zero bytes tells where it ends. -/
theorem readMask_append {m : Bytes} (hlast : ∀ ch ∈ m.getLast?, ch ≠ 0) (s : Bytes) :
    readMask (m.countP (· != 0)) (m ++ s) = .ok (m.flatMap unpackBits, s) := by
  induction m with
  | nil => simp [readMask]
  | cons ch m ih =>
      have hrest : ∀ ch' ∈ m.getLast?, ch' ≠ 0 := by
        intro ch' hch'
        refine hlast ch' ?_
        rw [List.getLast?_cons]
        rw [Option.mem_def] at hch'
        simp [hch']
      by_cases hch : ch = 0
      · -- a zero byte is not the last one, so there is one to come
        have hpos : 0 < m.countP (· != 0) := by
          rw [List.countP_pos_iff]
          cases hm : m.getLast? with
          | none =>
              rw [List.getLast?_eq_none_iff] at hm
              subst hm
              exact absurd hch (hlast ch (by simp))
          | some ch' => exact ⟨ch', List.mem_of_getLast? hm, by simpa using hrest ch' hm⟩
        obtain ⟨n, hn⟩ : ∃ n, m.countP (· != 0) = n + 1 := ⟨_, (Nat.sub_add_cancel hpos).symm⟩
        have ih := ih hrest
        rw [hn] at ih
        have hcount : (ch :: m).countP (· != 0) = n + 1 := by simp [hch, hn]
        rw [hcount, List.cons_append, readMask]
        simp only [hch, bne_self_eq_false, Bool.false_eq_true, if_false, ih]
        rfl
      · have hne : (ch != 0) = true := by simpa using hch
        have hcount : (ch :: m).countP (· != 0) = m.countP (· != 0) + 1 := by simp [hch]
        rw [hcount, List.cons_append, readMask, if_pos hne, ih hrest]
        rfl

end Codecs
