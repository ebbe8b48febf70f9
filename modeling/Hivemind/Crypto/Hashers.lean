import Hivemind.Lib.Blocks
import Hivemind.Lib.Codec

/-!
# Hashers (`crypto`)

`CSHA256`, `CSHA512`, `CSHA1` and `CRIPEMD160` take their data in pieces of any length, work on
whole blocks and keep the rest in a buffer; `Finalize` writes the padding.  They differ in the
length of a block, the size at the end and what is written of the state, and in `Transform`,
which is a parameter.

The four classes are one definition with these parameters, and each class is that definition at
its own values.  The buffer is memory that is not written before it is used, so a new hasher is
one with any contents of it; a `Finalize` is a `Write` of the padding, which makes the hasher
take in its own padding and leaves it at the end of a block.  `Reset` sets the state and the
counter back and leaves the buffer as it is.

* `Hasher.Inv`: the state has the whole blocks of the data, the buffer what is left of it.
* `Hasher.Inv.write`, `Hasher.Inv.finalize`, `Hasher.Inv.reset`: the three operations.
* `Hasher.padded_inj`: **the padding** keeps data apart, and ends a block.
* `Hasher.run_hashes`: **the hashes of a run** are those of all the data since the last `Reset`.
-/

namespace Hivemind

open Codecs Blocks

/-- What the classes differ in. -/
structure HashClass (σ : Type) where
  blockSize : Nat
  /-- `OUTPUT_SIZE`. -/
  outputSize : Nat
  /-- `Initialize`. -/
  init : σ
  /-- `Transform`. -/
  transform : σ → Bytes → σ
  /-- The length of `sizedesc`. -/
  sizeLen : Nat
  sizedesc : Nat → Bytes
  /-- The number that `Finalize` counts the padding down from. -/
  padFrom : Nat
  /-- What `Finalize` writes of the state. -/
  output : σ → Bytes
  length_output : ∀ s, (output s).length = outputSize
  length_sizedesc : ∀ bytes, (sizedesc bytes).length = sizeLen
  /-- The size tells lengths apart whose bits fit into 64 bits. -/
  sizedesc_inj : ∀ m n, m < 2 ^ 61 → n < 2 ^ 61 → sizedesc m = sizedesc n → m = n
  outputSize_pos : 0 < outputSize
  sizeLen_lt : sizeLen < blockSize
  padFrom_eq : padFrom + sizeLen + 1 = 2 * blockSize

/-- `WriteBE32` of each word. -/
def writeBE32s {n : Nat} (s : Vector UInt32 n) : Bytes :=
  s.toList.flatMap fun x => (leBytes 4 x.toNat).reverse

/-- `WriteLE32` of each word. -/
def writeLE32s {n : Nat} (s : Vector UInt32 n) : Bytes :=
  s.toList.flatMap fun x => leBytes 4 x.toNat

/-- `WriteBE64` of each word. -/
def writeBE64s {n : Nat} (s : Vector UInt64 n) : Bytes :=
  s.toList.flatMap fun x => (leBytes 8 x.toNat).reverse

/-- `WriteLE64(sizedesc, bytes << 3)`. -/
def sizeLE64 (bytes : Nat) : Bytes := leBytes 8 (bytes * 8)

/-- `WriteBE64(sizedesc, bytes << 3)`. -/
def sizeBE64 (bytes : Nat) : Bytes := (leBytes 8 (bytes * 8)).reverse

/-- `WriteBE64(sizedesc + 8, bytes << 3)`, over zeros. -/
def sizeBE128 (bytes : Nat) : Bytes := List.replicate 8 0 ++ (leBytes 8 (bytes * 8)).reverse

theorem length_flatMap_words {α : Type} {n : Nat} (s : Vector α n) (w : Nat) (f : α → Bytes)
    (hf : ∀ x, (f x).length = w) : (s.toList.flatMap f).length = n * w := by
  have hconst : s.toList.map (fun x => (f x).length) = List.replicate n w := by
    rw [List.eq_replicate_iff]
    refine ⟨by simp, fun b hb => ?_⟩
    obtain ⟨x, -, rfl⟩ := List.mem_map.mp hb
    exact hf x
  rw [List.length_flatMap, hconst, List.sum_replicate_nat]

theorem length_writeBE32s {n : Nat} (s : Vector UInt32 n) : (writeBE32s s).length = n * 4 :=
  length_flatMap_words s 4 _ fun _ => by simp

theorem length_writeLE32s {n : Nat} (s : Vector UInt32 n) : (writeLE32s s).length = n * 4 :=
  length_flatMap_words s 4 _ fun _ => by simp

theorem length_writeBE64s {n : Nat} (s : Vector UInt64 n) : (writeBE64s s).length = n * 8 :=
  length_flatMap_words s 8 _ fun _ => by simp

theorem length_sizeLE64 (bytes : Nat) : (sizeLE64 bytes).length = 8 := length_leBytes 8 _

theorem length_sizeBE64 (bytes : Nat) : (sizeBE64 bytes).length = 8 := by
  rw [sizeBE64, List.length_reverse, length_leBytes]

theorem length_sizeBE128 (bytes : Nat) : (sizeBE128 bytes).length = 16 := by
  rw [sizeBE128, List.length_append, List.length_replicate, List.length_reverse, length_leBytes]

theorem sizeLE64_inj (m n : Nat) (hm : m < 2 ^ 61) (hn : n < 2 ^ 61)
    (h : sizeLE64 m = sizeLE64 n) : m = n := by
  have hval := congrArg leNat h
  rw [sizeLE64, sizeLE64, leNat_leBytes_of_lt (by omega), leNat_leBytes_of_lt (by omega)] at hval
  omega

theorem sizeBE64_inj (m n : Nat) (hm : m < 2 ^ 61) (hn : n < 2 ^ 61)
    (h : sizeBE64 m = sizeBE64 n) : m = n :=
  sizeLE64_inj m n hm hn (List.reverse_injective h)

theorem sizeBE128_inj (m n : Nat) (hm : m < 2 ^ 61) (hn : n < 2 ^ 61)
    (h : sizeBE128 m = sizeBE128 n) : m = n :=
  sizeBE64_inj m n hm hn (List.append_cancel_left h)

theorem outputSize_pos_20 : 0 < 20 := by omega

theorem outputSize_pos_32 : 0 < 32 := by omega

theorem outputSize_pos_64 : 0 < 64 := by omega

theorem sizeLen_lt_64 : 8 < 64 := by omega

theorem sizeLen_lt_128 : 16 < 128 := by omega

theorem padFrom_64 : 119 + 8 + 1 = 2 * 64 := rfl

theorem padFrom_128 : 239 + 16 + 1 = 2 * 128 := rfl

/-- `CSHA256`. -/
def csha256 (transform : Vector UInt32 8 → Bytes → Vector UInt32 8) :
    HashClass (Vector UInt32 8) where
  blockSize := 64
  outputSize := 32
  init := #v[0x6a09e667, 0xbb67ae85, 0x3c6ef372, 0xa54ff53a, 0x510e527f, 0x9b05688c, 0x1f83d9ab,
    0x5be0cd19]
  transform := transform
  sizeLen := 8
  sizedesc := sizeBE64
  padFrom := 119
  output := writeBE32s
  length_output := length_writeBE32s
  length_sizedesc := length_sizeBE64
  sizedesc_inj := sizeBE64_inj
  outputSize_pos := outputSize_pos_32
  sizeLen_lt := sizeLen_lt_64
  padFrom_eq := padFrom_64

/-- `CSHA1`. -/
def csha1 (transform : Vector UInt32 5 → Bytes → Vector UInt32 5) :
    HashClass (Vector UInt32 5) where
  blockSize := 64
  outputSize := 20
  init := #v[0x67452301, 0xEFCDAB89, 0x98BADCFE, 0x10325476, 0xC3D2E1F0]
  transform := transform
  sizeLen := 8
  sizedesc := sizeBE64
  padFrom := 119
  output := writeBE32s
  length_output := length_writeBE32s
  length_sizedesc := length_sizeBE64
  sizedesc_inj := sizeBE64_inj
  outputSize_pos := outputSize_pos_20
  sizeLen_lt := sizeLen_lt_64
  padFrom_eq := padFrom_64

/-- `CRIPEMD160`, which writes everything with the least significant byte first. -/
def cripemd160 (transform : Vector UInt32 5 → Bytes → Vector UInt32 5) :
    HashClass (Vector UInt32 5) where
  blockSize := 64
  outputSize := 20
  init := #v[0x67452301, 0xEFCDAB89, 0x98BADCFE, 0x10325476, 0xC3D2E1F0]
  transform := transform
  sizeLen := 8
  sizedesc := sizeLE64
  padFrom := 119
  output := writeLE32s
  length_output := length_writeLE32s
  length_sizedesc := length_sizeLE64
  sizedesc_inj := sizeLE64_inj
  outputSize_pos := outputSize_pos_20
  sizeLen_lt := sizeLen_lt_64
  padFrom_eq := padFrom_64

/-- `CSHA512`. -/
def csha512 (transform : Vector UInt64 8 → Bytes → Vector UInt64 8) :
    HashClass (Vector UInt64 8) where
  blockSize := 128
  outputSize := 64
  init := #v[0x6a09e667f3bcc908, 0xbb67ae8584caa73b, 0x3c6ef372fe94f82b, 0xa54ff53a5f1d36f1,
    0x510e527fade682d1, 0x9b05688c2b3e6c1f, 0x1f83d9abfb41bd6b, 0x5be0cd19137e2179]
  transform := transform
  sizeLen := 16
  sizedesc := sizeBE128
  padFrom := 239
  output := writeBE64s
  length_output := length_writeBE64s
  length_sizedesc := length_sizeBE128
  sizedesc_inj := sizeBE128_inj
  outputSize_pos := outputSize_pos_64
  sizeLen_lt := sizeLen_lt_128
  padFrom_eq := padFrom_128

/-- The fields of a hasher. -/
structure Hasher (σ : Type) where
  s : σ
  buf : Bytes
  bytes : Nat

namespace Hasher

/-- `memcpy(buf + offset, data, data.length)`. -/
def memcpy (buf : Bytes) (offset : Nat) (data : Bytes) : Bytes :=
  buf.take offset ++ data ++ buf.drop (offset + data.length)

variable {σ : Type} (c : HashClass σ)

/-- A hasher whose buffer has not been written. -/
def new (garbage : Fin c.blockSize → UInt8) : Hasher σ := ⟨c.init, List.ofFn garbage, 0⟩

/-- Fill the buffer, and process it: the hasher, the data that is left, and `bufsize`. -/
def fill (h : Hasher σ) (data : Bytes) : Hasher σ × Bytes × Nat :=
  let bufsize := h.bytes % c.blockSize
  if bufsize ≠ 0 ∧ c.blockSize ≤ bufsize + data.length then
    let buf := memcpy h.buf bufsize (data.take (c.blockSize - bufsize))
    (⟨c.transform h.s buf, buf, h.bytes + (c.blockSize - bufsize)⟩,
      data.drop (c.blockSize - bufsize), 0)
  else (h, data, bufsize)

/-- Process full chunks directly from the source. -/
def process : Nat → Hasher σ → Bytes → Hasher σ × Bytes
  | 0, h, data => (h, data)
  | turns + 1, h, data =>
    if c.blockSize ≤ data.length then
      process turns
        { h with
          s := c.transform h.s (data.take c.blockSize)
          bytes := h.bytes + c.blockSize }
        (data.drop c.blockSize)
    else (h, data)

/-- `Write`. -/
def write (h : Hasher σ) (data : Bytes) : Hasher σ :=
  let (h, data, bufsize) := h.fill c data
  let (h, data) := process c data.length h data
  if data = [] then h
  else
    -- Fill the buffer with what remains.
    { h with buf := memcpy h.buf bufsize data, bytes := h.bytes + data.length }

/-- `pad`. -/
def pad : Bytes := 0x80 :: List.replicate (c.blockSize - 1) 0

/-- `Finalize`: what it writes to `hash`, and the hasher, which has taken in the padding. -/
def finalize (h : Hasher σ) : Bytes × Hasher σ :=
  let sizedesc := c.sizedesc h.bytes
  let h := h.write c ((pad c).take (1 + (c.padFrom - h.bytes % c.blockSize) % c.blockSize))
  let h := h.write c sizedesc
  (c.output h.s, h)

/-- `Reset`, which leaves the buffer as it is. -/
def reset (h : Hasher σ) : Hasher σ := { h with bytes := 0, s := c.init }

/-- What is done with a hasher. -/
inductive Act where
  | write (data : Bytes)
  | finalize
  | reset

/-- A run: the hashes that come out, and the hasher. -/
def run : Hasher σ → List Act → List Bytes × Hasher σ
  | h, [] => ([], h)
  | h, .write data :: acts => run (h.write c data) acts
  | h, .finalize :: acts =>
    let (hash, h) := h.finalize c
    let (hashes, h) := run h acts
    (hash :: hashes, h)
  | h, .reset :: acts => run (h.reset c) acts

/-! ## What is hashed -/

/-- The data with its padding. -/
def padded (m : Bytes) : Bytes :=
  m ++ (pad c).take (1 + (c.padFrom - m.length % c.blockSize) % c.blockSize) ++
    c.sizedesc m.length

/-- The hash of data that is there at once. -/
def digest (m : Bytes) : Bytes := c.output (whole c.transform c.blockSize c.init (padded c m))

/-- A run over all that has been taken in. -/
def runData : Bytes → List Act → List Bytes × Bytes
  | m, [] => ([], m)
  | m, .write data :: acts => runData (m ++ data) acts
  | m, .finalize :: acts =>
    let (hashes, m') := runData (padded c m) acts
    (digest c m :: hashes, m')
  | _, .reset :: acts => runData [] acts

variable {c}

theorem blockSize_pos : 0 < c.blockSize := lt_of_le_of_lt (Nat.zero_le _) c.sizeLen_lt

/-- The padding ends a block. -/
theorem blockSize_dvd_length_padded (m : Bytes) : c.blockSize ∣ (padded c m).length := by
  have hpos := blockSize_pos (c := c)
  have hmod := Nat.mod_lt m.length hpos
  have hlen := Nat.div_add_mod m.length c.blockSize
  have hfrom := c.padFrom_eq
  have hsize := c.sizeLen_lt
  let zeros := c.padFrom - m.length % c.blockSize
  have hzeros := Nat.div_add_mod zeros c.blockSize
  have hlt := Nat.mod_lt zeros hpos
  have hlength : (padded c m).length = m.length + (1 + zeros % c.blockSize) + c.sizeLen := by
    rw [padded, List.length_append, List.length_append, List.length_take, c.length_sizedesc]
    have hpad : (pad c).length = c.blockSize := by
      rw [pad, List.length_cons, List.length_replicate]
      omega
    rw [hpad]
    show m.length + min (1 + zeros % c.blockSize) c.blockSize + _ = _
    omega
  -- the zeros that are counted in whole blocks make no difference
  have hsum : (padded c m).length + c.blockSize * (zeros / c.blockSize) =
      c.blockSize * (m.length / c.blockSize) + 2 * c.blockSize := by
    rw [hlength]
    omega
  have hdvd : c.blockSize ∣ (padded c m).length + c.blockSize * (zeros / c.blockSize) := by
    rw [hsum]
    exact Nat.dvd_add (Nat.dvd_mul_right _ _) (Nat.dvd_mul_left _ _)
  exact (Nat.dvd_add_left (Nat.dvd_mul_right _ _)).mp hdvd

/-- Nothing is left out. -/
theorem rest_padded (m : Bytes) : rest c.blockSize (padded c m) = [] := by
  apply List.eq_nil_of_length_eq_zero
  rw [length_rest]
  exact Nat.mod_eq_zero_of_dvd (blockSize_dvd_length_padded m)

/-- The padding keeps data apart. -/
theorem padded_inj {m m' : Bytes} (hm : m.length < 2 ^ 61) (hm' : m'.length < 2 ^ 61)
    (h : padded c m = padded c m') : m = m' := by
  obtain ⟨hfront, hsize⟩ := List.append_inj' h
    ((c.length_sizedesc _).trans (c.length_sizedesc _).symm)
  exact List.append_inj_left hfront (c.sizedesc_inj _ _ hm hm' hsize)

/-! ## Pieces -/

/-- The hasher has taken in `m`. -/
structure Inv (c : HashClass σ) (m : Bytes) (h : Hasher σ) : Prop where
  bytes : h.bytes = m.length
  length_buf : h.buf.length = c.blockSize
  state : h.s = whole c.transform c.blockSize c.init m
  buf : h.buf.take (m.length % c.blockSize) = rest c.blockSize m

variable {m : Bytes} {h : Hasher σ}

theorem Inv.new (garbage : Fin c.blockSize → UInt8) : Inv c [] (new c garbage) where
  bytes := rfl
  length_buf := List.length_ofFn
  state := (whole_nil _ _ _).symm
  buf := by simp [rest]

theorem length_memcpy {buf data : Bytes} {offset : Nat} (h : offset + data.length ≤ buf.length) :
    (memcpy buf offset data).length = buf.length := by
  simp only [memcpy, List.length_append, List.length_take, List.length_drop]
  omega

theorem take_memcpy {buf data : Bytes} {offset : Nat} (h : offset + data.length ≤ buf.length) :
    (memcpy buf offset data).take (offset + data.length) = buf.take offset ++ data := by
  have hlen : (buf.take offset ++ data).length = offset + data.length := by
    rw [List.length_append, List.length_take]
    omega
  rw [memcpy, ← hlen, List.take_left']
  rfl

/-- The data that is left goes into the buffer. -/
theorem Inv.remain (hinv : Inv c m h) (data : Bytes)
    (hroom : m.length % c.blockSize + data.length < c.blockSize) :
    Inv c (m ++ data) { h with
      buf := memcpy h.buf (m.length % c.blockSize) data
      bytes := h.bytes + data.length } := by
  obtain ⟨hwhole, hrest⟩ := whole_append_lt c.transform c.init hroom
  have hfits : m.length % c.blockSize + data.length ≤ h.buf.length := by
    rw [hinv.length_buf]
    exact Nat.le_of_lt hroom
  have hmod : (m ++ data).length % c.blockSize = m.length % c.blockSize + data.length := by
    rw [List.length_append, Nat.add_mod, Nat.mod_eq_of_lt (Nat.lt_of_le_of_lt (by omega) hroom :
      data.length < c.blockSize), Nat.mod_eq_of_lt hroom]
  refine ⟨?_, ?_, ?_, ?_⟩
  · rw [List.length_append, ← hinv.bytes]
  · rw [length_memcpy hfits, hinv.length_buf]
  · rw [hwhole]
    exact hinv.state
  · rw [hmod, take_memcpy hfits, hinv.buf, hrest]

/-- The buffer is filled and processed. -/
theorem Inv.fill (hinv : Inv c m h) (data : Bytes)
    (hblock : m.length % c.blockSize + data.length = c.blockSize) :
    Inv c (m ++ data)
      ⟨c.transform h.s (memcpy h.buf (m.length % c.blockSize) data),
        memcpy h.buf (m.length % c.blockSize) data, h.bytes + data.length⟩ := by
  obtain ⟨hwhole, hrest⟩ := whole_append_block c.transform c.init blockSize_pos hblock
  have hfits : m.length % c.blockSize + data.length ≤ h.buf.length := by
    rw [hinv.length_buf, hblock]
  have hlen := length_memcpy hfits
  have htake := take_memcpy hfits
  rw [List.take_of_length_le (by rw [hlen, hinv.length_buf, hblock]), hinv.buf] at htake
  refine ⟨?_, hlen.trans hinv.length_buf, ?_, ?_⟩
  · rw [List.length_append, ← hinv.bytes]
  · rw [hwhole, htake, ← hinv.state]
  · rw [← length_rest, hrest]
    simp

/-- A full chunk is processed from the source. -/
theorem Inv.chunk (hinv : Inv c m h) (hempty : m.length % c.blockSize = 0) {data : Bytes}
    (hblock : data.length = c.blockSize) :
    Inv c (m ++ data)
      { h with s := c.transform h.s data, bytes := h.bytes + c.blockSize } := by
  obtain ⟨hwhole, hrest⟩ := whole_append_block c.transform c.init blockSize_pos
    (by rw [hempty, hblock, Nat.zero_add] : m.length % c.blockSize + data.length = c.blockSize)
  have hnil : rest c.blockSize m = [] := by
    apply List.eq_nil_of_length_eq_zero
    rw [length_rest, hempty]
  refine ⟨?_, hinv.length_buf, ?_, ?_⟩
  · rw [List.length_append, hblock, ← hinv.bytes]
  · rw [hwhole, hnil, List.nil_append, ← hinv.state]
  · rw [← length_rest, hrest]
    simp

/-- The loop over the full chunks leaves less than one. -/
theorem Inv.process (turns : Nat) (hinv : Inv c m h) (hempty : m.length % c.blockSize = 0)
    {data : Bytes} (hturns : data.length ≤ turns) :
    ∃ front, data = front ++ (process c turns h data).2 ∧
      Inv c (m ++ front) (process c turns h data).1 ∧
      (m ++ front).length % c.blockSize = 0 ∧
      (process c turns h data).2.length < c.blockSize := by
  have hpos := blockSize_pos (c := c)
  induction turns generalizing m h data with
  | zero =>
      obtain rfl := List.eq_nil_of_length_eq_zero (Nat.le_zero.mp hturns)
      exact ⟨[], rfl, by simpa [Hasher.process] using hinv, by simpa using hempty, hpos⟩
  | succ turns ih =>
      rw [Hasher.process]
      by_cases hfull : c.blockSize ≤ data.length
      · rw [if_pos hfull]
        have htake : (data.take c.blockSize).length = c.blockSize := by
          rw [List.length_take]
          omega
        have hempty' : (m ++ data.take c.blockSize).length % c.blockSize = 0 := by
          rw [List.length_append, htake, Nat.add_mod_right, hempty]
        have hdrop : (data.drop c.blockSize).length ≤ turns := by
          rw [List.length_drop]
          omega
        obtain ⟨front, hfront, hinv', hmod, hshort⟩ := ih (hinv.chunk hempty htake) hempty' hdrop
        refine ⟨data.take c.blockSize ++ front, ?_, ?_, ?_, hshort⟩
        · rw [List.append_assoc, ← hfront, List.take_append_drop]
        · rwa [← List.append_assoc]
        · rwa [← List.append_assoc]
      · rw [if_neg hfull]
        exact ⟨[], rfl, by simpa using hinv, by simpa using hempty, Nat.lt_of_not_le hfull⟩

/-- What is left when the buffer is empty. -/
theorem Inv.remainder (hinv : Inv c m h) (hempty : m.length % c.blockSize = 0) {data : Bytes}
    (hshort : data.length < c.blockSize) :
    Inv c (m ++ data) (if data = [] then h
      else { h with buf := memcpy h.buf 0 data, bytes := h.bytes + data.length }) := by
  split
  · rename_i hnil
    simpa [hnil] using hinv
  · have hroom : m.length % c.blockSize + data.length < c.blockSize := by omega
    have hremain := hinv.remain data hroom
    rwa [hempty] at hremain

/-- The loop over the full chunks and what it leaves, when the buffer is empty. -/
theorem Inv.chunks (hinv : Inv c m h) (hempty : m.length % c.blockSize = 0) (data : Bytes) :
    Inv c (m ++ data) (if (Hasher.process c data.length h data).2 = [] then
        (Hasher.process c data.length h data).1
      else { (Hasher.process c data.length h data).1 with
        buf := memcpy (Hasher.process c data.length h data).1.buf 0
          (Hasher.process c data.length h data).2
        bytes := (Hasher.process c data.length h data).1.bytes +
          (Hasher.process c data.length h data).2.length }) := by
  obtain ⟨front, hfront, hinv', hempty', hshort⟩ :=
    hinv.process data.length hempty (le_refl data.length)
  have hend := hinv'.remainder hempty' hshort
  rwa [List.append_assoc, ← hfront] at hend

theorem process_of_short {data : Bytes} (hshort : data.length < c.blockSize) :
    Hasher.process c data.length h data = (h, data) := by
  cases hlen : data.length with
  | zero => rfl
  | succ k => rw [Hasher.process, if_neg (by omega)]

/-- **One piece** more. -/
theorem Inv.write (hinv : Inv c m h) (data : Bytes) : Inv c (m ++ data) (h.write c data) := by
  have hmod := Nat.mod_lt m.length (blockSize_pos (c := c))
  rw [Hasher.write, Hasher.fill, hinv.bytes]
  by_cases hzero : m.length % c.blockSize = 0
  · simp only [hzero, ne_eq, not_true_eq_false, false_and, if_false]
    exact hinv.chunks hzero data
  · by_cases hfull : c.blockSize ≤ m.length % c.blockSize + data.length
    · simp only [hzero, hfull, ne_eq, not_false_eq_true, and_self, if_true]
      have htake : (data.take (c.blockSize - m.length % c.blockSize)).length =
          c.blockSize - m.length % c.blockSize := by
        rw [List.length_take]
        omega
      have hfilled := hinv.fill (data.take (c.blockSize - m.length % c.blockSize)) (by omega)
      have hempty : (m ++ data.take (c.blockSize - m.length % c.blockSize)).length %
          c.blockSize = 0 := by
        have hdvd : m.length + (c.blockSize - m.length % c.blockSize) =
            c.blockSize * (m.length / c.blockSize) + c.blockSize := by
          have hlen := Nat.div_add_mod m.length c.blockSize
          omega
        rw [List.length_append, htake, hdvd, Nat.mul_add_mod, Nat.mod_self]
      have hend := hfilled.chunks hempty (data.drop (c.blockSize - m.length % c.blockSize))
      rw [List.append_assoc, List.take_append_drop, htake, hinv.bytes] at hend
      exact hend
    · -- the loop does nothing
      simp only [hzero, hfull, ne_eq, not_false_eq_true, and_false, if_false]
      rw [process_of_short (by omega)]
      split
      · rename_i hnil
        simp only at hnil
        simpa [hnil] using hinv
      · have hremain := hinv.remain data (by omega)
        rw [hinv.bytes] at hremain
        simp only [hinv.bytes]
        exact hremain

/-- `Finalize` gives the hash of what has been taken in, and takes in the padding. -/
theorem Inv.finalize (hinv : Inv c m h) :
    (h.finalize c).1 = digest c m ∧ Inv c (padded c m) (h.finalize c).2 := by
  have hend := (hinv.write ((pad c).take
    (1 + (c.padFrom - h.bytes % c.blockSize) % c.blockSize))).write (c.sizedesc h.bytes)
  have hpadded : Inv c (padded c m) (h.finalize c).2 := by
    rw [padded, ← hinv.bytes]
    exact hend
  exact ⟨congrArg c.output hpadded.state, hpadded⟩

/-- What is in the buffer does not matter after a `Reset`. -/
theorem Inv.reset (hinv : Inv c m h) : Inv c [] (h.reset c) where
  bytes := rfl
  length_buf := hinv.length_buf
  state := (whole_nil _ _ _).symm
  buf := by simp [rest]

theorem Inv.writes (hinv : Inv c m h) (pieces : List Bytes) :
    Inv c (m ++ pieces.flatten) (pieces.foldl (Hasher.write c) h) := by
  induction pieces generalizing m h with
  | nil => simpa using hinv
  | cons data pieces ih =>
      rw [List.flatten_cons, ← List.append_assoc, List.foldl_cons]
      exact ih (hinv.write data)

theorem inv_write_new (garbage : Fin c.blockSize → UInt8) (data : Bytes) :
    Inv c data ((new c garbage).write c data) := (Inv.new garbage).write data

theorem inv_writes_new (garbage : Fin c.blockSize → UInt8) (pieces : List Bytes) :
    Inv c pieces.flatten (pieces.foldl (Hasher.write c) (new c garbage)) :=
  (Inv.new garbage).writes pieces

theorem Inv.run (hinv : Inv c m h) (acts : List Act) :
    (run c h acts).1 = (runData c m acts).1 ∧ Inv c (runData c m acts).2 (run c h acts).2 := by
  induction acts generalizing m h with
  | nil => exact ⟨rfl, hinv⟩
  | cons act acts ih =>
      cases act with
      | write data => exact ih (hinv.write data)
      | finalize =>
          obtain ⟨hhash, hpadded⟩ := hinv.finalize
          obtain ⟨hhashes, hend⟩ := ih hpadded
          simp only [Hasher.run, runData, hhash, hhashes, true_and]
          exact hend
      | reset => exact ih hinv.reset

/-- **A hasher** gives at each `Finalize` the hash of all that has come since the last `Reset`, in
whatever pieces, with whatever in the buffer; and what is hashed is in whole blocks. -/
theorem run_hashes (garbage : Fin c.blockSize → UInt8) (acts : List Act) :
    (run c (new c garbage) acts).1 = (runData c [] acts).1 ∧
      ∀ m : Bytes, rest c.blockSize (padded c m) = [] :=
  ⟨((Inv.new garbage).run acts).1, rest_padded⟩

end Hasher

end Hivemind
