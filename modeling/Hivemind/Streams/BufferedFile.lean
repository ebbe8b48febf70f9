import Hivemind.Lib.Codec
import Hivemind.Lib.Ring

/-!
# The rewindable file buffer

`CBufferedFile` of `streams.h`: a ring buffer over a file, with the position up to which the
source has been read and the position up to which the buffer has been read.  `fread` is a read of
the contents of the file.

`SetPos` measures how far it may rewind from the first position, and the guarantee that the class
gives is about the second.  When `Fill` has read ahead, the two are apart, and a position that
the class promises is refused.  The condition is on the sizes and on how far ahead the source has
been read, and it is shown to be met along reads that go forward.

Positions are 64-bit numbers and their differences wrap; `Sizes` are those that the arithmetic
can hold.

* `Ok`: what ties the ring to the file.
* `readLoop_spec`, `findLoop_spec`, `Ok.setPos`: one lemma for each operation.
* `runCalls_ok`: every run of calls in range keeps the ring in order.
* `rewinds_of_ok`: **when a rewind succeeds**, the right bytes follow.
* `Ahead`: what has been read ahead can be rewound, as long as the reads go forward.
-/

namespace Hivemind

open Codecs Ring

/-- `a - b` of 64-bit numbers. -/
def sub64 (a b : Nat) : Nat := (a + 2 ^ 64 - b % 2 ^ 64) % 2 ^ 64

theorem sub64_of_le {a b : Nat} (h : b ≤ a) (ha : a < 2 ^ 64) : sub64 a b = a - b := by
  rw [sub64]
  omega

/-- Why an operation does not return. -/
inductive StreamFault where
  /-- `CBufferedFile::Fill : end of file` -/
  | endOfFile
  /-- `Read attempted past buffer limit` -/
  | pastLimit
  /-- `Read larger than buffer size` -/
  | largerThanBuffer
  /-- thrown by what is read -/
  | malformed
  /-- a loop that makes no progress -/
  | hangs
  deriving DecidableEq

/-- `CBufferedFile`, without the file. -/
structure CBufferedFile where
  /-- how many bytes have been read from source -/
  nSrcPos : Nat := 0
  /-- how many bytes have been read from this -/
  nReadPos : Nat := 0
  /-- up to which position we're allowed to read -/
  nReadLimit : Nat := 2 ^ 64 - 1
  vchBuf : Nat → UInt8 := fun _ => 0
  feof : Bool := false

namespace CBufferedFile

/-! ## The operations -/

section Operations

variable (file : Bytes) (size nRewind : Nat)

/-- How much `Fill` asks for: to the end of the ring, but never over what may be rewound to.
Both numbers are `unsigned int`. -/
def readNow (b : CBufferedFile) : Nat :=
  min ((size - b.nSrcPos % size % 2 ^ 32) % 2 ^ 32)
    (sub64 (sub64 size (sub64 b.nSrcPos b.nReadPos)) nRewind % 2 ^ 32)

/-- What `fread` returns. -/
def fread (b : CBufferedFile) : Bytes := (file.drop b.nSrcPos).take (b.readNow size nRewind)

/-- The state after a successful `fread`. -/
def filled (b : CBufferedFile) : CBufferedFile :=
  { b with
    vchBuf := store b.vchBuf (b.nSrcPos % size % 2 ^ 32) (b.fread file size nRewind)
    nSrcPos := b.nSrcPos + (b.fread file size nRewind).length
    feof := b.feof || decide ((b.fread file size nRewind).length < b.readNow size nRewind) }

/-- `Fill`. -/
def fill (b : CBufferedFile) : CBufferedFile × Except StreamFault Bool :=
  if b.readNow size nRewind = 0 then (b, .ok false)
  else if b.fread file size nRewind = [] then ({ b with feof := true }, .error .endOfFile)
  else (b.filled file size nRewind, .ok true)

/-- `if (nReadPos == nSrcPos) Fill()`. -/
def refill (b : CBufferedFile) : CBufferedFile × Except StreamFault Bool :=
  if b.nReadPos = b.nSrcPos then b.fill file size nRewind else (b, .ok true)

/-- `nNow`: how much a turn of the loop of `read` copies. -/
def chunk (b : CBufferedFile) (nSize pos : Nat) : Nat :=
  let nNow := if size < nSize + pos then size - pos else nSize
  if b.nSrcPos < nNow + b.nReadPos then sub64 b.nSrcPos b.nReadPos else nNow

/-- The loop of `read`, with what has been copied.  The fuel is the number of bytes. -/
def readLoop : Nat → Nat → CBufferedFile → Bytes → CBufferedFile × Except StreamFault Bytes
  | _, 0, b, pch => (b, .ok pch)
  | 0, _ + 1, b, _ => (b, .error .hangs)
  | fuel + 1, nSize + 1, b, pch =>
    match b.refill file size nRewind with
    | (b, .error e) => (b, .error e)
    | (b, .ok _) =>
      let pos := b.nReadPos % size % 2 ^ 32
      let nNow := b.chunk size (nSize + 1) pos
      readLoop fuel (nSize + 1 - nNow) { b with nReadPos := b.nReadPos + nNow }
        (pch ++ slice b.vchBuf pos nNow)

/-- `read`. -/
def read (b : CBufferedFile) (nSize : Nat) : CBufferedFile × Except StreamFault Bytes :=
  if b.nReadLimit < (nSize + b.nReadPos) % 2 ^ 64 then (b, .error .pastLimit)
  else if size < (nSize + nRewind) % 2 ^ 64 then (b, .error .largerThanBuffer)
  else readLoop file size nRewind nSize nSize b []

/-- The position that `SetPos` settles on: it stays within the rewind of the source position. -/
def settledPos (b : CBufferedFile) (nPos : Nat) : Nat :=
  if (nRewind + nPos) % 2 ^ 64 < b.nSrcPos then sub64 b.nSrcPos nRewind
  else if b.nSrcPos < nPos then b.nSrcPos
  else nPos

/-- `SetPos`: `true` when neither of the two corrections was made. -/
def setPos (b : CBufferedFile) (nPos : Nat) : CBufferedFile × Bool :=
  ({ b with nReadPos := b.settledPos nRewind nPos },
    !decide ((nRewind + nPos) % 2 ^ 64 < b.nSrcPos) && !decide (b.nSrcPos < nPos))

/-- `SetLimit`: nothing changes where it returns `false`. -/
def setLimit (b : CBufferedFile) (nPos : Nat) : CBufferedFile × Bool :=
  ({ b with nReadLimit := if b.nReadPos ≤ nPos then nPos else b.nReadLimit },
    decide (b.nReadPos ≤ nPos))

/-- The loop of `FindByte`. -/
def findLoop (ch : UInt8) : Nat → CBufferedFile → CBufferedFile × Except StreamFault Unit
  | 0, b => (b, .error .hangs)
  | fuel + 1, b =>
    match b.refill file size nRewind with
    | (b, .error e) => (b, .error e)
    | (b, .ok _) =>
      if b.vchBuf (b.nReadPos % size) = ch then (b, .ok ())
      else findLoop ch fuel { b with nReadPos := b.nReadPos + 1 }

/-- `FindByte`: no more turns than there are bytes and the end of the file. -/
def findByte (b : CBufferedFile) (ch : UInt8) : CBufferedFile × Except StreamFault Unit :=
  findLoop file size nRewind ch (file.length + 1) b

/-- `eof`. -/
def eof (b : CBufferedFile) : Bool := b.nReadPos == b.nSrcPos && b.feof

end Operations

/-! ## The invariant -/

/-- What ties the ring to the file. -/
structure Ok (file : Bytes) (size : Nat) (b : CBufferedFile) : Prop where
  read_le : b.nReadPos ≤ b.nSrcPos
  src_le : b.nSrcPos ≤ file.length
  /-- what has been read ahead is still in the ring -/
  near : b.nSrcPos ≤ b.nReadPos + size
  window : Window size b.vchBuf file b.nSrcPos

/-- Sizes that the arithmetic of the class can hold: the buffer is larger than the rewind, and
below the range of `unsigned int`. -/
structure Sizes (file : Bytes) (size nRewind : Nat) : Prop where
  rewind_lt : nRewind < size
  size_lt : size < 2 ^ 32
  file_lt : file.length < 2 ^ 63

variable {file : Bytes} {size nRewind : Nat}

theorem ok_start : Ok file size {} :=
  ⟨Nat.le_refl 0, Nat.zero_le _, Nat.zero_le _, window_zero _ _⟩

/-- Any position from which the ring still holds what was read ahead. -/
theorem Ok.moveTo {b : CBufferedFile} (ok : Ok file size b) {p : Nat} (hp : p ≤ b.nSrcPos)
    (hnear : b.nSrcPos ≤ p + size) : Ok file size { b with nReadPos := p } :=
  ⟨hp, ok.src_le, hnear, ok.window⟩

/-- `Fill` asks for at least one byte when everything has been read. -/
theorem readNow_pos (sz : Sizes file size nRewind) {b : CBufferedFile} (ok : Ok file size b)
    (heq : b.nReadPos = b.nSrcPos) : 0 < b.readNow size nRewind ∧
      b.nSrcPos % size + b.readNow size nRewind ≤ size := by
  obtain ⟨hrew, hsize, hfile⟩ := sz
  have hsrc := ok.src_le
  have hplace : b.nSrcPos % size < size := Nat.mod_lt _ (by omega)
  have hpos : b.nSrcPos % size % 2 ^ 32 = b.nSrcPos % size := Nat.mod_eq_of_lt (by omega)
  have hahead : sub64 b.nSrcPos b.nReadPos = 0 := by rw [heq, sub64_of_le (by omega) (by omega)]; omega
  have havail : sub64 (sub64 size (sub64 b.nSrcPos b.nReadPos)) nRewind = size - nRewind := by
    rw [hahead, sub64_of_le (Nat.zero_le _) (by omega), sub64_of_le (by omega) (by omega)]
    omega
  have h1 : (size - b.nSrcPos % size) % 2 ^ 32 = size - b.nSrcPos % size :=
    Nat.mod_eq_of_lt (by omega)
  have h2 : (size - nRewind) % 2 ^ 32 = size - nRewind := Nat.mod_eq_of_lt (by omega)
  rw [readNow, hpos, havail, h1, h2]
  omega

/-- **What `Fill` does** when everything has been read: it reads on, or it is at the end. -/
theorem fill_spec (sz : Sizes file size nRewind) {b : CBufferedFile} (ok : Ok file size b)
    (heq : b.nReadPos = b.nSrcPos) :
    (b.nSrcPos = file.length ∧
      b.fill file size nRewind = ({ b with feof := true }, .error .endOfFile)) ∨
    ∃ b', b.fill file size nRewind = (b', .ok true) ∧ Ok file size b' ∧
      b'.nReadPos = b.nReadPos ∧ b'.nReadLimit = b.nReadLimit ∧ b.nSrcPos < b'.nSrcPos := by
  obtain ⟨hnow, hfit⟩ := readNow_pos sz ok heq
  have hsrc := ok.src_le
  have hrew := sz.rewind_lt
  have hsize := sz.size_lt
  have hplace : b.nSrcPos % size < size := Nat.mod_lt _ (by omega)
  have hpos : b.nSrcPos % size % 2 ^ 32 = b.nSrcPos % size := Nat.mod_eq_of_lt (by omega)
  have hlen : (b.fread file size nRewind).length =
      min (b.readNow size nRewind) (file.length - b.nSrcPos) := by
    rw [fread, List.length_take, List.length_drop]
  rcases Nat.eq_or_lt_of_le hsrc with hend | hmore
  · left
    have hnil : b.fread file size nRewind = [] := List.length_eq_zero_iff.mp (by omega)
    exact ⟨hend, by rw [fill, if_neg (by omega), if_pos hnil]⟩
  · right
    have hne : b.fread file size nRewind ≠ [] := fun hnil => by
      rw [hnil, List.length_nil] at hlen
      omega
    have hread : b.fread file size nRewind =
        (file.drop b.nSrcPos).take (b.fread file size nRewind).length := by
      rw [hlen, fread, List.take_eq_take_iff, List.length_drop]
      omega
    refine ⟨b.filled file size nRewind, by rw [fill, if_neg (by omega), if_neg hne], ?_, rfl, rfl,
      ?_⟩
    · refine ⟨?_, ?_, ?_, ?_⟩
      · exact ok.read_le.trans (Nat.le_add_right _ _)
      · simp only [filled]
        omega
      · simp only [filled]
        omega
      · simp only [filled, hpos]
        exact ok.window.store hread (by omega)
    · simp only [filled]
      omega

/-- Before a byte is taken, there is one in the ring, or the file is at its end. -/
theorem refill_spec (sz : Sizes file size nRewind) {b : CBufferedFile} (ok : Ok file size b) :
    (b.nReadPos = file.length ∧ ∃ b', b.refill file size nRewind = (b', .error .endOfFile) ∧
      Ok file size b' ∧ b'.nReadPos = b.nReadPos ∧ b'.nSrcPos = b.nSrcPos ∧
      b'.nReadLimit = b.nReadLimit) ∨
    ∃ b', b.refill file size nRewind = (b', .ok true) ∧ Ok file size b' ∧
      b'.nReadPos = b.nReadPos ∧ b'.nReadLimit = b.nReadLimit ∧ b.nSrcPos ≤ b'.nSrcPos ∧
      b.nReadPos < b'.nSrcPos := by
  rw [refill]
  split_ifs with heq
  · rcases fill_spec sz ok heq with ⟨hend, hfill⟩ | ⟨b', hfill, hok, hpos, hlim, hlt⟩
    · exact Or.inl ⟨heq.trans hend, _, hfill, ⟨ok.read_le, ok.src_le, ok.near, ok.window⟩, rfl,
        rfl, rfl⟩
    · exact Or.inr ⟨b', hfill, hok, hpos, hlim, hlt.le, heq ▸ hlt⟩
  · exact Or.inr ⟨b, rfl, ok, rfl, rfl, Nat.le_refl _, lt_of_le_of_ne ok.read_le heq⟩

/-- A turn copies something, and only what is in the ring in one piece. -/
theorem chunk_spec (sz : Sizes file size nRewind) {b : CBufferedFile} (ok : Ok file size b)
    (hlt : b.nReadPos < b.nSrcPos) (nSize : Nat) :
    0 < b.chunk size (nSize + 1) (b.nReadPos % size) ∧
      b.chunk size (nSize + 1) (b.nReadPos % size) ≤ nSize + 1 ∧
      b.nReadPos + b.chunk size (nSize + 1) (b.nReadPos % size) ≤ b.nSrcPos ∧
      b.nReadPos % size + b.chunk size (nSize + 1) (b.nReadPos % size) ≤ size := by
  have hsrc := ok.src_le
  have hfile := sz.file_lt
  have hplace : b.nReadPos % size < size := Nat.mod_lt _ (by have := sz.rewind_lt; omega)
  have hsub : sub64 b.nSrcPos b.nReadPos = b.nSrcPos - b.nReadPos :=
    sub64_of_le hlt.le (by omega)
  simp only [chunk, hsub]
  split_ifs <;> omega

/-- **What the loop of `read` does**: it copies the bytes of the file, or comes to its end. -/
theorem readLoop_spec (sz : Sizes file size nRewind) (fuel nSize : Nat) (hfuel : nSize ≤ fuel)
    {b : CBufferedFile} (ok : Ok file size b) (pch : Bytes) :
    ∃ b' r, readLoop file size nRewind fuel nSize b pch = (b', r) ∧ Ok file size b' ∧
      b.nSrcPos ≤ b'.nSrcPos ∧ b'.nReadLimit = b.nReadLimit ∧
      (b.nReadPos + nSize ≤ file.length → b'.nReadPos = b.nReadPos + nSize ∧
        r = .ok (pch ++ (file.drop b.nReadPos).take nSize)) ∧
      (file.length < b.nReadPos + nSize → b'.nReadPos = file.length ∧ r = .error .endOfFile) := by
  induction fuel generalizing nSize b pch with
  | zero =>
    obtain rfl : nSize = 0 := Nat.le_zero.mp hfuel
    have hread := ok.read_le
    have hsrc := ok.src_le
    exact ⟨b, .ok pch, rfl, ok, Nat.le_refl _, rfl, fun _ => ⟨rfl, by simp⟩, fun h => by omega⟩
  | succ fuel ih =>
    cases nSize with
    | zero =>
      have hread := ok.read_le
      have hsrc := ok.src_le
      exact ⟨b, .ok pch, rfl, ok, Nat.le_refl _, rfl, fun _ => ⟨rfl, by simp⟩, fun h => by omega⟩
    | succ nSize =>
      rcases refill_spec sz ok with ⟨hend, b', hfill, hok, hpos, hsrc, hlim⟩ |
        ⟨b₁, hfill, hok₁, hpos₁, hlim₁, hsrc₁, hlt₁⟩
      · refine ⟨b', .error .endOfFile, by rw [readLoop, hfill], hok, hsrc.ge, hlim,
          fun h => by omega, fun _ => ⟨by omega, rfl⟩⟩
      · -- one chunk, and then the rest from where it ends
        have hplace : b₁.nReadPos % size % 2 ^ 32 = b₁.nReadPos % size := by
          have hrew := sz.rewind_lt
          have hsize := sz.size_lt
          have := Nat.mod_lt b₁.nReadPos (by omega : 0 < size)
          exact Nat.mod_eq_of_lt (by omega)
        obtain ⟨hc0, hc1, hc2, hc3⟩ := chunk_spec sz hok₁ (hpos₁ ▸ hlt₁) nSize
        have hslice := hok₁.window.slice_eq hc2 hok₁.near hc3
        have hnear := hok₁.near
        obtain ⟨b', r, hrun, hok, hsrc, hlim, hfits, hover⟩ := ih
          (nSize + 1 - b₁.chunk size (nSize + 1) (b₁.nReadPos % size)) (by omega)
          (hok₁.moveTo hc2 (by omega))
          (pch ++ slice b₁.vchBuf (b₁.nReadPos % size)
            (b₁.chunk size (nSize + 1) (b₁.nReadPos % size)))
        refine ⟨b', r, ?_, hok, hsrc₁.trans hsrc, hlim.trans hlim₁, fun h => ?_, fun h => ?_⟩
        · rw [readLoop, hfill]
          simp only [hplace]
          exact hrun
        · simp only at hfits
          obtain ⟨hread, hbytes⟩ := hfits (by omega)
          have hall : nSize + 1 = b₁.chunk size (nSize + 1) (b₁.nReadPos % size) +
              (nSize + 1 - b₁.chunk size (nSize + 1) (b₁.nReadPos % size)) := by omega
          refine ⟨by omega, ?_⟩
          rw [hbytes, hslice, List.append_assoc, hpos₁, ← List.drop_drop]
          conv_rhs => rw [← hpos₁, hall, List.take_add, hpos₁]
        · simp only at hover
          exact hover (by omega)

/-- **What `FindByte` does**: it stops at the first such byte, or comes to the end. -/
theorem findLoop_spec (sz : Sizes file size nRewind) (ch : UInt8) (fuel : Nat) {b : CBufferedFile}
    (hfuel : file.length - b.nReadPos < fuel) (ok : Ok file size b) :
    ∃ b' r, findLoop file size nRewind ch fuel b = (b', r) ∧ Ok file size b' ∧
      b.nSrcPos ≤ b'.nSrcPos ∧ b'.nReadLimit = b.nReadLimit ∧ b.nReadPos ≤ b'.nReadPos ∧
      (∀ k, b.nReadPos ≤ k → k < b'.nReadPos → file[k]? ≠ some ch) ∧
      ((r = .ok () ∧ b'.nReadPos < b'.nSrcPos ∧ file[b'.nReadPos]? = some ch) ∨
        (r = .error .endOfFile ∧ b'.nReadPos = file.length)) := by
  induction fuel generalizing b with
  | zero => exact absurd hfuel (Nat.not_lt_zero _)
  | succ fuel ih =>
    rcases refill_spec sz ok with ⟨hend, b', hfill, hok, hpos, hsrc, hlim⟩ |
      ⟨b₁, hfill, hok₁, hpos₁, hlim₁, hsrc₁, hlt₁⟩
    · exact ⟨b', .error .endOfFile, by rw [findLoop, hfill], hok, hsrc.ge, hlim, hpos.ge,
        fun k h1 h2 => by omega, Or.inr ⟨rfl, by omega⟩⟩
    · have hbyte : file[b₁.nReadPos]? = some (b₁.vchBuf (b₁.nReadPos % size)) :=
        hok₁.window _ (by omega) hok₁.near
      by_cases hch : b₁.vchBuf (b₁.nReadPos % size) = ch
      · exact ⟨b₁, .ok (), by rw [findLoop, hfill]; exact if_pos hch, hok₁, hsrc₁, hlim₁,
          hpos₁.ge, fun k h1 h2 => by omega, Or.inl ⟨rfl, by omega, hch ▸ hbyte⟩⟩
      · have hsrc := hok₁.src_le
        have hnear := hok₁.near
        obtain ⟨b', r, hrun, hok, hsrc', hlim, hle, hnone, hend⟩ := ih
          (b := { b₁ with nReadPos := b₁.nReadPos + 1 }) (by simp only; omega)
          (hok₁.moveTo (by omega) (by omega))
        simp only at hle hnone
        refine ⟨b', r, by rw [findLoop, hfill]; exact (if_neg hch).trans hrun, hok,
          hsrc₁.trans hsrc', hlim.trans hlim₁, by omega, fun k h1 h2 => ?_, hend⟩
        rcases Nat.eq_or_lt_of_le (hpos₁ ▸ h1 : b₁.nReadPos ≤ k) with rfl | hlt
        · rw [hbyte]
          exact fun heq => hch (Option.some.inj heq)
        · exact hnone k hlt h2

theorem findByte_spec (sz : Sizes file size nRewind) (ch : UInt8) {b : CBufferedFile}
    (ok : Ok file size b) :
    ∃ b' r, b.findByte file size nRewind ch = (b', r) ∧ Ok file size b' ∧
      b.nSrcPos ≤ b'.nSrcPos ∧ b'.nReadLimit = b.nReadLimit ∧ b.nReadPos ≤ b'.nReadPos ∧
      (∀ k, b.nReadPos ≤ k → k < b'.nReadPos → file[k]? ≠ some ch) ∧
      ((r = .ok () ∧ b'.nReadPos < b'.nSrcPos ∧ file[b'.nReadPos]? = some ch) ∨
        (r = .error .endOfFile ∧ b'.nReadPos = file.length)) :=
  findLoop_spec sz ch _ (by omega) ok

/-- `read` never takes the ring away from the file. -/
theorem read_spec (sz : Sizes file size nRewind) {b : CBufferedFile} (ok : Ok file size b)
    (nSize : Nat) : ∃ b' r, b.read file size nRewind nSize = (b', r) ∧ Ok file size b' ∧
      b.nSrcPos ≤ b'.nSrcPos ∧ b'.nReadLimit = b.nReadLimit ∧
      (∀ pch, r = .ok pch → pch = (file.drop b.nReadPos).take nSize ∧
        b'.nReadPos = b.nReadPos + nSize ∧ b.nReadPos + nSize ≤ file.length) := by
  rw [read]
  split_ifs
  · exact ⟨b, _, rfl, ok, Nat.le_refl _, rfl, fun pch h => by cases h⟩
  · exact ⟨b, _, rfl, ok, Nat.le_refl _, rfl, fun pch h => by cases h⟩
  · obtain ⟨b', r, hrun, hok, hsrc, hlim, hfits, hover⟩ :=
      readLoop_spec sz nSize nSize (Nat.le_refl _) ok []
    refine ⟨b', r, hrun, hok, hsrc, hlim, fun pch hr => ?_⟩
    rcases Nat.lt_or_ge file.length (b.nReadPos + nSize) with h | h
    · rw [(hover h).2] at hr
      cases hr
    · obtain ⟨hpos, hbytes⟩ := hfits h
      rw [hbytes] at hr
      exact ⟨(Except.ok.inj hr).symm, hpos, h⟩

/-- A read within the limit, the size of the buffer and the file returns the bytes. -/
theorem read_ok (sz : Sizes file size nRewind) {b : CBufferedFile} (ok : Ok file size b)
    {nSize : Nat} (hlimit : b.nReadPos + nSize ≤ b.nReadLimit) (hsize : nSize + nRewind ≤ size)
    (hfile : b.nReadPos + nSize ≤ file.length) :
    ∃ b', b.read file size nRewind nSize = (b', .ok ((file.drop b.nReadPos).take nSize)) ∧
      Ok file size b' ∧ b'.nReadPos = b.nReadPos + nSize ∧ b'.nReadLimit = b.nReadLimit := by
  have hsmall := sz.size_lt
  have hlen := sz.file_lt
  obtain ⟨b', r, hrun, hok, -, hlim, hfits, -⟩ :=
    readLoop_spec sz nSize nSize (Nat.le_refl _) ok []
  obtain ⟨hpos, rfl⟩ := hfits hfile
  refine ⟨b', ?_, hok, hpos, hlim⟩
  rw [read, if_neg (by omega), if_neg (by omega), hrun, List.nil_append]

/-- `SetPos` succeeds on positions that are within the rewind of the source position. -/
theorem setPos_snd_iff {b : CBufferedFile} {p : Nat} :
    (b.setPos nRewind p).2 = true ↔ b.nSrcPos ≤ (nRewind + p) % 2 ^ 64 ∧ p ≤ b.nSrcPos := by
  simp only [setPos, Bool.and_eq_true, Bool.not_eq_true', decide_eq_false_iff_not, not_lt]

@[simp] theorem setPos_fst_nSrcPos (b : CBufferedFile) (p : Nat) :
    (b.setPos nRewind p).1.nSrcPos = b.nSrcPos := rfl

@[simp] theorem setLimit_fst_nSrcPos (b : CBufferedFile) (p : Nat) :
    (b.setLimit p).1.nSrcPos = b.nSrcPos := rfl

theorem setPos_fst_nReadPos (b : CBufferedFile) (p : Nat) :
    (b.setPos nRewind p).1.nReadPos = b.settledPos nRewind p := rfl

theorem setPos_of_snd {b : CBufferedFile} {p : Nat} (h : (b.setPos nRewind p).2 = true) :
    (b.setPos nRewind p).1 = { b with nReadPos := p } := by
  obtain ⟨h1, h2⟩ := setPos_snd_iff.mp h
  have hpos : b.settledPos nRewind p = p := by
    rw [settledPos, if_neg (not_lt.mpr h1), if_neg (not_lt.mpr h2)]
  rw [setPos, hpos]

/-- Where `SetPos` settles is what it was asked for, or the nearest position that it allows. -/
theorem settledPos_spec (sz : Sizes file size nRewind) {b : CBufferedFile} (ok : Ok file size b)
    {p : Nat} (hp : p + nRewind < 2 ^ 64) : b.settledPos nRewind p ≤ b.nSrcPos ∧
      b.nSrcPos ≤ b.settledPos nRewind p + size ∧
      (b.settledPos nRewind p = p → b.nSrcPos ≤ p + nRewind) := by
  have hrew := sz.rewind_lt
  have hfile := sz.file_lt
  have hsrc := ok.src_le
  rw [settledPos, Nat.mod_eq_of_lt (by omega)]
  split_ifs with h1 h2
  · rw [sub64_of_le (by omega) (by omega)]
    omega
  · omega
  · omega

/-- A position that no wrap of the sum hides leaves the ring in order. -/
theorem Ok.setPos (sz : Sizes file size nRewind) {b : CBufferedFile} (ok : Ok file size b)
    {p : Nat} (hp : p + nRewind < 2 ^ 64) : Ok file size (b.setPos nRewind p).1 := by
  obtain ⟨hle, hnear, -⟩ := settledPos_spec sz ok hp
  exact ok.moveTo hle hnear

/-- A limit does not touch the ring. -/
theorem Ok.setLimit {b : CBufferedFile} (ok : Ok file size b) (p : Nat) :
    Ok file size (b.setLimit p).1 :=
  ⟨ok.read_le, ok.src_le, ok.near, ok.window⟩

/-! ## Runs -/

/-- A call on the buffer. -/
inductive Call where
  | read (nSize : Nat)
  | findByte (ch : UInt8)
  | setPos (nPos : Nat)

/-- The state after a call, whether it returns or throws. -/
def Call.after (file : Bytes) (size nRewind : Nat) (b : CBufferedFile) : Call → CBufferedFile
  | .read nSize => (b.read file size nRewind nSize).1
  | .findByte ch => (b.findByte file size nRewind ch).1
  | .setPos nPos => (b.setPos nRewind nPos).1

/-- The argument of `SetPos` does not wrap around when the rewind is added. -/
def Call.InRange (nRewind : Nat) : Call → Prop
  | .setPos nPos => nPos + nRewind < 2 ^ 64
  | _ => True

/-- A run of calls, with the greatest read position so far. -/
def runCalls (file : Bytes) (size nRewind : Nat) (calls : List Call) : CBufferedFile × Nat :=
  calls.foldl (fun s call =>
    (call.after file size nRewind s.1, max s.2 (call.after file size nRewind s.1).nReadPos))
    ({}, 0)

/-- What holds along a run of calls in range. -/
structure RunOk (file : Bytes) (size : Nat) (s : CBufferedFile × Nat) : Prop where
  ok : Ok file size s.1
  greatest_le : s.2 ≤ s.1.nSrcPos
  unlimited : s.1.nReadLimit = 2 ^ 64 - 1

theorem Call.after_ok (sz : Sizes file size nRewind) {b : CBufferedFile} (ok : Ok file size b)
    (call : Call) (hcall : call.InRange nRewind) :
    Ok file size (call.after file size nRewind b) ∧
      b.nSrcPos ≤ (call.after file size nRewind b).nSrcPos ∧
      (call.after file size nRewind b).nReadLimit = b.nReadLimit := by
  cases call with
  | read nSize =>
    obtain ⟨b', r, hrun, hok, hsrc, hlim, -⟩ := read_spec sz ok nSize
    rw [Call.after, hrun]
    exact ⟨hok, hsrc, hlim⟩
  | findByte ch =>
    obtain ⟨b', r, hrun, hok, hsrc, hlim, -⟩ := findByte_spec sz ch ok
    rw [Call.after, hrun]
    exact ⟨hok, hsrc, hlim⟩
  | setPos nPos => exact ⟨ok.setPos sz hcall, Nat.le_refl _, rfl⟩

/-- **Every run of calls in range keeps the ring in order.** -/
theorem runCalls_ok (sz : Sizes file size nRewind) (calls : List Call)
    (hcalls : ∀ call ∈ calls, call.InRange nRewind) :
    RunOk file size (runCalls file size nRewind calls) := by
  refine List.foldlRecOn (motive := RunOk file size) calls _
    ⟨ok_start, Nat.le_refl 0, rfl⟩ ?_
  rintro ⟨b, M⟩ ⟨ok, hM, hlim⟩ call hmem
  obtain ⟨hok, hsrc, hlim'⟩ := call.after_ok sz ok (hcalls call hmem)
  have hread := hok.read_le
  simp only at hM
  exact ⟨hok, Nat.max_le.mpr ⟨hM.trans hsrc, hread⟩, hlim'.trans hlim⟩

/-! ## Reads after a rewind -/

/-- Reads of the given sizes, one after the other. -/
def readAll (file : Bytes) (size nRewind : Nat) :
    List Nat → CBufferedFile → Except StreamFault (List Bytes)
  | [], _ => .ok []
  | nSize :: sizes, b =>
    (b.read file size nRewind nSize).2.bind fun pch =>
      (readAll file size nRewind sizes (b.read file size nRewind nSize).1).map (pch :: ·)

/-- A byte string cut into pieces of the given sizes. -/
def pieces : List Nat → Bytes → List Bytes
  | [], _ => []
  | n :: sizes, s => s.take n :: pieces sizes (s.drop n)

/-- Reads that the buffer allows and the file has the bytes for return them in order. -/
theorem readAll_ok (sz : Sizes file size nRewind) (sizes : List Nat) {b : CBufferedFile}
    (ok : Ok file size b) (hsizes : ∀ n ∈ sizes, n + nRewind ≤ size)
    (hfile : b.nReadPos + sizes.sum ≤ file.length)
    (hlimit : b.nReadPos + sizes.sum ≤ b.nReadLimit) :
    readAll file size nRewind sizes b = .ok (pieces sizes (file.drop b.nReadPos)) := by
  induction sizes generalizing b with
  | nil => rfl
  | cons n sizes ih =>
    rw [List.sum_cons] at hfile hlimit
    have hfits : b.nReadPos + n ≤ b.nReadLimit := by omega
    obtain ⟨b', hrun, hok, hpos, hlim⟩ :=
      read_ok sz ok hfits (hsizes n List.mem_cons_self) (by omega)
    have hrest := ih hok (fun m hm => hsizes m (List.mem_cons_of_mem _ hm)) (by omega) (by omega)
    rw [readAll, hrun]
    simp only [Except.bind, hrest, Except.map, pieces, List.drop_drop, hpos]

/-- The guarantee of the class at a position: `SetPos` returns `true`, and the reads that
follow return the bytes of the file from there on. -/
def Rewinds (file : Bytes) (size nRewind : Nat) (b : CBufferedFile) (p : Nat) : Prop :=
  (b.setPos nRewind p).2 = true ∧ ∀ sizes : List Nat, (∀ n ∈ sizes, n + nRewind ≤ size) →
    p + sizes.sum ≤ file.length →
    readAll file size nRewind sizes (b.setPos nRewind p).1 = .ok (pieces sizes (file.drop p))

/-- A rewind is good when the source has not been read too far past the position. -/
theorem rewinds_of_ok (sz : Sizes file size nRewind) {s : CBufferedFile × Nat}
    (hrun : RunOk file size s) {p : Nat} (hp : p ≤ s.2) (hnear : s.1.nSrcPos ≤ p + nRewind) :
    Rewinds file size nRewind s.1 p := by
  have hrew := sz.rewind_lt
  have hsize := sz.size_lt
  have hfile := sz.file_lt
  have hM := hrun.greatest_le
  have hsrc := hrun.ok.src_le
  have htrue : (s.1.setPos nRewind p).2 = true := setPos_snd_iff.mpr ⟨by omega, by omega⟩
  refine ⟨htrue, fun sizes hsizes hend => ?_⟩
  rw [setPos_of_snd htrue]
  refine readAll_ok sz sizes (hrun.ok.moveTo (by omega) (by omega)) hsizes hend ?_
  simp only [hrun.unlimited]
  omega

/-! ## Reading on -/

/-- What has been read ahead can be rewound, and a file that reports its end has been read up
to it. -/
structure Ahead (file : Bytes) (nRewind : Nat) (b : CBufferedFile) : Prop where
  near : b.nSrcPos ≤ b.nReadPos + nRewind
  ended : b.feof = true → file.length ≤ b.nSrcPos

theorem ahead_start : Ahead file nRewind {} :=
  ⟨Nat.zero_le _, fun h => by cases h⟩

/-- Reading on from a later position. -/
theorem Ahead.forward {b : CBufferedFile} (h : Ahead file nRewind b) (n : Nat) :
    Ahead file nRewind { b with nReadPos := b.nReadPos + n } := by
  obtain ⟨hnear, hended⟩ := h
  exact ⟨by simp only; omega, hended⟩

/-- `Fill` reads no more than may be rewound. -/
theorem Ahead.refill (sz : Sizes file size nRewind) (hdouble : size ≤ 2 * nRewind)
    {b : CBufferedFile} (h : Ahead file nRewind b) :
    Ahead file nRewind (b.refill file size nRewind).1 := by
  have hrew := sz.rewind_lt
  have hsize := sz.size_lt
  rw [CBufferedFile.refill]
  split_ifs with heq
  · have hnow : b.readNow size nRewind ≤ size - nRewind := by
      have hahead : sub64 b.nSrcPos b.nReadPos = 0 := by
        rw [heq, sub64]
        omega
      have havail : sub64 (sub64 size (sub64 b.nSrcPos b.nReadPos)) nRewind = size - nRewind := by
        rw [hahead, sub64_of_le (Nat.zero_le _) (by omega), sub64_of_le (by omega) (by omega)]
        omega
      rw [readNow, havail, Nat.mod_eq_of_lt (by omega : size - nRewind < 2 ^ 32)]
      exact Nat.min_le_right _ _
    have hlen : (b.fread file size nRewind).length =
        min (b.readNow size nRewind) (file.length - b.nSrcPos) := by
      rw [fread, List.length_take, List.length_drop]
    rw [fill]
    split_ifs with hzero hnil
    · exact h
    · refine ⟨h.near, fun _ => ?_⟩
      rw [hnil, List.length_nil] at hlen
      simp only
      omega
    · refine ⟨?_, fun hend => ?_⟩
      · simp only [filled]
        omega
      · simp only [filled, Bool.or_eq_true, decide_eq_true_eq] at hend ⊢
        rcases hend with hend | hshort
        · exact (h.ended hend).trans (Nat.le_add_right _ _)
        · omega
  · exact h

theorem Ahead.readLoop (sz : Sizes file size nRewind) (hdouble : size ≤ 2 * nRewind)
    (fuel nSize : Nat) {b : CBufferedFile} (h : Ahead file nRewind b) (pch : Bytes) :
    Ahead file nRewind (readLoop file size nRewind fuel nSize b pch).1 := by
  induction fuel generalizing nSize b pch with
  | zero => cases nSize <;> exact h
  | succ fuel ih =>
    cases nSize with
    | zero => exact h
    | succ nSize =>
      have hfill := h.refill sz hdouble
      cases hrun : b.refill file size nRewind with
      | mk b' r =>
        rw [hrun] at hfill
        rw [CBufferedFile.readLoop, hrun]
        cases r with
        | error e => exact hfill
        | ok _ => exact ih _ (hfill.forward _) _

theorem Ahead.read (sz : Sizes file size nRewind) (hdouble : size ≤ 2 * nRewind)
    {b : CBufferedFile} (h : Ahead file nRewind b) (nSize : Nat) :
    Ahead file nRewind (b.read file size nRewind nSize).1 := by
  rw [CBufferedFile.read]
  split_ifs
  · exact h
  · exact h
  · exact h.readLoop sz hdouble _ _ _

theorem Ahead.findByte (sz : Sizes file size nRewind) (hdouble : size ≤ 2 * nRewind)
    {b : CBufferedFile} (h : Ahead file nRewind b) (ch : UInt8) :
    Ahead file nRewind (b.findByte file size nRewind ch).1 := by
  rw [CBufferedFile.findByte]
  generalize file.length + 1 = fuel
  induction fuel generalizing b with
  | zero => exact h
  | succ fuel ih =>
    have hfill := h.refill sz hdouble
    cases hrun : b.refill file size nRewind with
    | mk b' r =>
      rw [hrun] at hfill
      rw [findLoop, hrun]
      cases r with
      | error e => exact hfill
      | ok _ =>
        simp only
        split_ifs
        · exact hfill
        · exact ih (hfill.forward 1)

/-- The read position itself is always within the rewind. -/
theorem Ahead.setPos_read (sz : Sizes file size nRewind) {b : CBufferedFile}
    (ok : Ok file size b) (h : Ahead file nRewind b) : (b.setPos nRewind b.nReadPos).1 = b := by
  have hrew := sz.rewind_lt
  have hsize := sz.size_lt
  have hfile := sz.file_lt
  have hread := ok.read_le
  have hsrc := ok.src_le
  have hnear := h.near
  rw [setPos_of_snd (setPos_snd_iff.mpr ⟨by omega, hread⟩)]

end CBufferedFile

end Hivemind
