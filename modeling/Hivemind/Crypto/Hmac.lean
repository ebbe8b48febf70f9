import Hivemind.Crypto.Hashers
import Mathlib.Logic.Function.Iterate

/-!
# Hashes over hashes (`hash.h`, `crypto/hmac_*`, `crypto/rfc6979_hmac_sha256`)

`CHash256` and `CHash160` hash a hash, `CHMAC_SHA256` and `CHMAC_SHA512` hash with a key, and
`RFC6979_HMAC_SHA256` draws from a key and a message the nonces of a signature.

A hasher is a buffer of one block and a counter, and its constructor leaves the buffer as the
memory was.  A `CHMAC` has two of them, and a third for a key that is longer than a block; the
generator builds a new `CHMAC` for every value.  `Garbage` is that memory, and each `CHMAC` has
garbage of its own: two in the constructor of the generator for the key, two for the value, and
in `Generate` one for each piece of output and two more before every call but the first.  None of
it may reach the output, so what is computed is stated without it.

* `chash256Finalize_pieces`, `chash160Finalize_pieces`: **a hash of a hash**.
* `Hmac.finalize_hmac`: the classes compute **the HMAC** of all the data.
* `Rfc6979.run_draws`: **what is drawn**, byte by byte, over all calls of `Generate`.

All is proved for any compression function and any block size: the SHA-256 and SHA-512 of the
source differ in nothing but these.
-/

namespace Hivemind

open Codecs Blocks Hasher

variable {σ τ : Type} (c : HashClass σ)

/-! ## `CHash256` and `CHash160` -/

/-- `CHash256::Finalize`. -/
def chash256Finalize (sha : Hasher σ) : Bytes × Hasher σ :=
  let (buf, sha) := sha.finalize c
  ((sha.reset c).write c buf).finalize c

/-- `CHash160::Finalize`; `ripemd` hashes the hash. -/
def chash160Finalize (ripemd : HashClass τ) (garbage : Fin ripemd.blockSize → UInt8)
    (sha : Hasher σ) : Bytes × Hasher σ :=
  let (buf, sha) := sha.finalize c
  ((((Hasher.new ripemd garbage).write ripemd buf).finalize ripemd).1, sha)

/-- **`CHash256`** hashes the hash of all the data. -/
theorem chash256Finalize_pieces (garbage : Fin c.blockSize → UInt8) (pieces : List Bytes) :
    (chash256Finalize c (pieces.foldl (Hasher.write c) (Hasher.new c garbage))).1 =
      digest c (digest c pieces.flatten) := by
  obtain ⟨hhash, hpadded⟩ := (inv_writes_new garbage pieces).finalize
  have hagain := hpadded.reset.write (digest c pieces.flatten)
  rw [← hhash] at hagain ⊢
  exact hagain.finalize.1

/-- **`CHash160`** hashes the hash of all the data with the other hasher. -/
theorem chash160Finalize_pieces (ripemd : HashClass τ) (garbage : Fin c.blockSize → UInt8)
    (garbage' : Fin ripemd.blockSize → UInt8) (pieces : List Bytes) :
    (chash160Finalize c ripemd garbage'
      (pieces.foldl (Hasher.write c) (Hasher.new c garbage))).1 =
      digest ripemd (digest c pieces.flatten) := by
  obtain ⟨hhash, -⟩ := (inv_writes_new garbage pieces).finalize
  have hripemd := (inv_write_new garbage' (digest c pieces.flatten)).finalize.1
  simp only [chash160Finalize, hhash]
  exact hripemd

/-! ## `CHMAC_SHA256` and `CHMAC_SHA512` -/

/-- The fields of a `CHMAC`. -/
structure Hmac (σ : Type) where
  outer : Hasher σ
  inner : Hasher σ

namespace Hmac

/-- The memory in which the hashers of a `CHMAC` are built. -/
structure Garbage (c : HashClass σ) where
  key : Fin c.blockSize → UInt8
  outer : Fin c.blockSize → UInt8
  inner : Fin c.blockSize → UInt8

/-- `rkey`. -/
def rkey (garbage : Garbage c) (key : Bytes) : Bytes :=
  if key.length ≤ c.blockSize then key ++ List.replicate (c.blockSize - key.length) 0
  else (((Hasher.new c garbage.key).write c key).finalize c).1 ++
    List.replicate (c.blockSize - c.outputSize) 0

/-- The constructor. -/
def new (garbage : Garbage c) (key : Bytes) : Hmac σ :=
  let rkey := (rkey c garbage key).map (· ^^^ 0x5c)
  let outer := (Hasher.new c garbage.outer).write c rkey
  let rkey := rkey.map (· ^^^ (0x5c ^^^ 0x36))
  let inner := (Hasher.new c garbage.inner).write c rkey
  ⟨outer, inner⟩

/-- `Write`. -/
def write (h : Hmac σ) (data : Bytes) : Hmac σ := { h with inner := h.inner.write c data }

/-- `Finalize`. -/
def finalize (h : Hmac σ) : Bytes × Hmac σ :=
  let (temp, inner) := h.inner.finalize c
  let (hash, outer) := (h.outer.write c temp).finalize c
  (hash, ⟨outer, inner⟩)

/-- The key at the length of a block. -/
def blockKey (key : Bytes) : Bytes :=
  if key.length ≤ c.blockSize then key ++ List.replicate (c.blockSize - key.length) 0
  else digest c key ++ List.replicate (c.blockSize - c.outputSize) 0

/-- The HMAC of data that is there at once. -/
def hmac (key m : Bytes) : Bytes :=
  digest c ((blockKey c key).map (· ^^^ 0x5c) ++
    digest c ((blockKey c key).map (· ^^^ 0x36) ++ m))

variable {c}

theorem rkey_eq (garbage : Garbage c) (key : Bytes) : rkey c garbage key = blockKey c key := by
  rw [rkey, blockKey, (inv_write_new garbage.key key).finalize.1]

/-- The second exclusive or takes the first one back. -/
theorem map_xor_map_xor (bs : Bytes) :
    (bs.map (· ^^^ 0x5c)).map (· ^^^ (0x5c ^^^ 0x36)) = bs.map (· ^^^ (0x36 : UInt8)) := by
  rw [List.map_map]
  apply List.map_congr_left
  intro b _
  show b ^^^ 0x5c ^^^ (0x5c ^^^ 0x36) = b ^^^ 0x36
  rw [UInt8.xor_assoc, ← UInt8.xor_assoc 0x5c, UInt8.xor_self, UInt8.zero_xor]

theorem foldl_write (h : Hmac σ) (pieces : List Bytes) :
    pieces.foldl (write c) h = ⟨h.outer, pieces.foldl (Hasher.write c) h.inner⟩ := by
  induction pieces generalizing h with
  | nil => rfl
  | cons data pieces ih => exact ih _

/-- **The HMAC**: whatever is in the buffers at first, and in whatever pieces the data comes. -/
theorem finalize_hmac (garbage : Garbage c) (key : Bytes) (pieces : List Bytes) :
    ((pieces.foldl (write c) (new c garbage key)).finalize c).1 = hmac c key pieces.flatten := by
  have hinner := ((inv_write_new garbage.inner
    ((blockKey c key).map (· ^^^ 0x36))).writes pieces).finalize.1
  have houter := ((inv_write_new garbage.outer ((blockKey c key).map (· ^^^ 0x5c))).write
    (digest c ((blockKey c key).map (· ^^^ 0x36) ++ pieces.flatten))).finalize.1
  rw [← hinner] at houter
  rw [foldl_write, new, rkey_eq, map_xor_map_xor, hmac, ← hinner]
  exact houter

end Hmac

/-! ## `RFC6979_HMAC_SHA256` -/

open Hmac (Garbage hmac finalize_hmac)

/-- The fields of the generator. -/
structure Rfc6979 where
  V : Bytes
  K : Bytes
  retry : Bool

namespace Rfc6979

/-- `CHMAC_SHA256(key, sizeof(key)).Write(...)...Finalize(...)`. -/
def hmacOf (garbage : Garbage c) (key : Bytes) (pieces : List Bytes) : Bytes :=
  ((pieces.foldl (Hmac.write c) (Hmac.new c garbage key)).finalize c).1

/-- The constructor; `garbage` is the memory of the `CHMAC`s it builds, in their order. -/
def new (garbage : Nat → Garbage c) (key msg : Bytes) : Rfc6979 :=
  let V := List.replicate c.outputSize 0x01
  let K := List.replicate c.outputSize 0x00
  let K := hmacOf c (garbage 0) K [V, [0x00], key, msg]
  let V := hmacOf c (garbage 1) K [V]
  let K := hmacOf c (garbage 2) K [V, [0x01], key, msg]
  let V := hmacOf c (garbage 3) K [V]
  ⟨V, K, false⟩

/-- The loop of `Generate`: what it writes, and `V`. -/
def fillOutput (garbage : Nat → Garbage c) (K : Bytes) : Nat → Bytes → Nat → Bytes × Bytes
  | 0, V, _ => ([], V)
  | turns + 1, V, outputlen =>
    if 0 < outputlen then
      let V := hmacOf c (garbage turns) K [V]
      let len := min outputlen c.outputSize
      let (output, V') := fillOutput garbage K turns V (outputlen - len)
      (V.take len ++ output, V')
    else ([], V)

/-- `Generate`; the `CHMAC`s of its loop are behind the two for another try. -/
def generate (garbage : Nat → Garbage c) (r : Rfc6979) (outputlen : Nat) : Bytes × Rfc6979 :=
  let r := if r.retry then
      let K := hmacOf c (garbage 0) r.K [r.V, [0x00]]
      { r with K := K, V := hmacOf c (garbage 1) K [r.V] }
    else r
  let (output, V) := fillOutput c (garbage <| · + 2) r.K outputlen r.V outputlen
  (output, { r with V := V, retry := true })

/-- Calls of `Generate`, each with memory of its own. -/
def run (garbage : Nat → Nat → Garbage c) : Rfc6979 → List Nat → List Bytes
  | _, [] => []
  | r, outputlen :: lens =>
    let (output, r) := generate c (garbage lens.length) r outputlen
    output :: run garbage r lens

/-! ## What is drawn -/

/-- A key and a value are taken further with some data. -/
def update (kv : Bytes × Bytes) (data : Bytes) : Bytes × Bytes :=
  let K := hmac c kv.1 (kv.2 ++ data)
  (K, hmac c K kv.2)

/-- The key and the value before the first byte is drawn. -/
def start (key msg : Bytes) : Bytes × Bytes :=
  update c (update c (List.replicate c.outputSize 0x00, List.replicate c.outputSize 0x01)
    (0x00 :: (key ++ msg))) (0x01 :: (key ++ msg))

/-- The bytes that a key and a value give: one value after the other. -/
def stream (kv : Bytes × Bytes) (i : Nat) : UInt8 :=
  ((hmac c kv.1)^[i / c.outputSize + 1] kv.2).getD (i % c.outputSize) 0

/-- The value when `n` bytes have been drawn. -/
def after (kv : Bytes × Bytes) (n : Nat) : Bytes × Bytes :=
  (kv.1, (hmac c kv.1)^[(n + c.outputSize - 1) / c.outputSize] kv.2)

/-- What the calls draw. -/
def draws : Bytes × Bytes → List Nat → List Bytes
  | _, [] => []
  | kv, n :: lens =>
    (List.range n).map (stream c kv) :: draws (update c (after c kv n) [0x00]) lens

variable {c}

theorem hmacOf_eq (garbage : Garbage c) (key : Bytes) (pieces : List Bytes) :
    hmacOf c garbage key pieces = hmac c key pieces.flatten := finalize_hmac garbage key pieces

theorem length_hmac (key m : Bytes) : (hmac c key m).length = c.outputSize := c.length_output _

theorem hmacOf_value (garbage : Garbage c) (key V : Bytes) :
    hmacOf c garbage key [V] = hmac c key V := by
  rw [hmacOf_eq, List.flatten_singleton]

theorem new_eq (garbage : Nat → Garbage c) (key msg : Bytes) :
    new c garbage key msg = ⟨(start c key msg).2, (start c key msg).1, false⟩ := by
  simp [new, start, update, hmacOf_eq]

/-- One value more, and the bytes after it. -/
theorem stream_add (kv : Bytes × Bytes) (i : Nat) :
    stream c kv (c.outputSize + i) = stream c (kv.1, hmac c kv.1 kv.2) i := by
  rw [stream, stream, Nat.add_div_left _ c.outputSize_pos, Nat.add_mod_left,
    Function.iterate_succ_apply]

/-- The first bytes are those of the next value. -/
theorem map_stream_range (kv : Bytes × Bytes) {n : Nat} (hn : n ≤ c.outputSize) :
    (List.range n).map (stream c kv) = (hmac c kv.1 kv.2).take n := by
  apply List.ext_getElem
  · rw [List.length_map, List.length_range, List.length_take, length_hmac, Nat.min_eq_left hn]
  · intro i hi _
    have hlt : i < c.outputSize := by
      rw [List.length_map, List.length_range] at hi
      omega
    have hin : i < (hmac c kv.1 kv.2).length := by rwa [length_hmac]
    rw [List.getElem_map, List.getElem_range, List.getElem_take, stream,
      Nat.div_eq_of_lt hlt, Nat.mod_eq_of_lt hlt, List.getD_eq_getElem?_getD]
    exact congrArg (Option.getD · 0) (List.getElem?_eq_getElem hin)

theorem after_zero (kv : Bytes × Bytes) : after c kv 0 = kv := by
  have hlt : 0 + c.outputSize - 1 < c.outputSize := by
    have hpos := c.outputSize_pos
    omega
  rw [after, Nat.div_eq_of_lt hlt]
  rfl

/-- One turn of the loop. -/
theorem fillOutput_turn (garbage : Nat → Garbage c) (K : Bytes) (turns : Nat) (V : Bytes) {n : Nat}
    (hn : 0 < n) :
    fillOutput c garbage K (turns + 1) V n =
      ((hmac c K V).take (min n c.outputSize) ++
          (fillOutput c garbage K turns (hmac c K V) (n - min n c.outputSize)).1,
        (fillOutput c garbage K turns (hmac c K V) (n - min n c.outputSize)).2) := by
  rw [fillOutput, if_pos hn, hmacOf_value]

/-- **The loop** draws what is asked for. -/
theorem fillOutput_eq (garbage : Nat → Garbage c) (K : Bytes) (turns : Nat)
    (V : Bytes) (n : Nat) (hturns : n ≤ turns) :
    fillOutput c garbage K turns V n =
      ((List.range n).map (stream c (K, V)), (after c (K, V) n).2) := by
  have hpos := c.outputSize_pos
  induction turns generalizing V n with
  | zero =>
      obtain rfl := Nat.le_zero.mp hturns
      rw [fillOutput, after_zero]
      rfl
  | succ turns ih =>
      by_cases hn : 0 < n
      · rw [fillOutput_turn garbage K turns V hn]
        by_cases hlast : n ≤ c.outputSize
        · -- the last value
          have hdone : (n + c.outputSize - 1) / c.outputSize = 1 := by
            apply Nat.div_eq_of_lt_le <;> omega
          rw [Nat.min_eq_left hlast, Nat.sub_self, ih _ 0 (Nat.zero_le _)]
          rw [map_stream_range (K, V) hlast, after_zero, after, hdone]
          simp
        · have hmore : c.outputSize ≤ n := by omega
          obtain ⟨k, rfl⟩ := Nat.exists_eq_add_of_le hmore
          have hval : (c.outputSize + k + c.outputSize - 1) / c.outputSize =
              (k + c.outputSize - 1) / c.outputSize + 1 := by
            rw [show c.outputSize + k + c.outputSize - 1 =
              c.outputSize + (k + c.outputSize - 1) by omega, Nat.add_div_left _ c.outputSize_pos]
          rw [Nat.min_eq_right hmore, Nat.add_sub_cancel_left, ih _ k (by omega),
            List.range_add, List.map_append, map_stream_range (K, V) (le_refl _), List.map_map,
            after, after, hval, Function.iterate_succ_apply]
          have hrest : stream c (K, V) ∘ (c.outputSize + ·) = stream c (K, hmac c K V) :=
            funext (stream_add (K, V))
          rw [hrest]
      · obtain rfl : n = 0 := by omega
        rw [fillOutput, if_neg hn, after_zero]
        rfl

/-- A call of `Generate`. -/
theorem generate_eq (garbage : Nat → Garbage c) (r : Rfc6979) (n : Nat) :
    generate c garbage r n =
      ((List.range n).map (stream c (if r.retry then update c (r.K, r.V) [0x00] else (r.K, r.V))),
        ⟨(after c (if r.retry then update c (r.K, r.V) [0x00] else (r.K, r.V)) n).2,
          (if r.retry then update c (r.K, r.V) [0x00] else (r.K, r.V)).1, true⟩) := by
  rw [generate, fillOutput_eq _ _ n _ n (le_refl n)]
  cases r.retry
  · rfl
  · simp [hmacOf_eq, update]

/-- Later calls. -/
theorem run_retry (garbage : Nat → Nat → Garbage c) (K V : Bytes) (lens : List Nat) :
    run c garbage ⟨V, K, true⟩ lens = draws c (update c (K, V) [0x00]) lens := by
  induction lens generalizing K V with
  | nil => rfl
  | cons n lens ih =>
      rw [run, generate_eq]
      simp only [if_true]
      rw [ih, draws]
      rfl

/-- **What is drawn**: the bytes of one value after the other, with the key and the value taken
further before each later call. -/
theorem run_draws (first : Nat → Garbage c) (garbage : Nat → Nat → Garbage c)
    (key msg : Bytes) (lens : List Nat) :
    run c garbage (new c first key msg) lens = draws c (start c key msg) lens := by
  cases lens with
  | nil => rfl
  | cons n lens =>
      rw [new_eq, run, generate_eq, draws]
      simp only [Bool.false_eq_true, if_false]
      rw [run_retry garbage]
      rfl

end Rfc6979

end Hivemind
