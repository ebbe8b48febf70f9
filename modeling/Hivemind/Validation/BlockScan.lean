import Hivemind.Streams.BufferedFile
import Hivemind.Validation.Transactions

/-!
# The search for blocks in a file

The loop of `LoadExternalBlockFile` over the buffer: find the first byte of the message start,
read the rest of the header and then the block.  When that fails, the next turn rewinds to the
byte after the first one that was found.  What is done with a block does not touch the buffer.

How a block is read is a parameter: any sequence of reads that depends on what they return. A
turn ends in one of a few ways, and in those in which the block fails there is a header in the
file and a place to rewind to.  Whether the rewind succeeds depends on how far the source has
been read past it, which is what the guarantee of the buffer is about; where it does not, the
search goes on further behind, and a block may be missed.

* `scanTurn_spec`: a turn, with the place of the header.
* `scanOk_of_reach`: every turn of the loop finds the buffer in order.
* `resumesAt_iff`: when the search goes on behind the header of a block that failed.
* `buffer_rewinds_iff`: **what the buffer guarantees**, and what the search makes of it.
* `buffer_rewinds_exampleFile`: a rewind that is good, and a turn whose block fails.
-/

namespace Hivemind

open Codecs CBufferedFile

/-- What unserializing an object does with a stream. -/
inductive Unserialize (β : Type) where
  | ret (x : β)
  | throw
  | read (nSize : Nat) (k : Bytes → Unserialize β)

/-- `nBufSize` in `LoadExternalBlockFile`. -/
def scanSize : Nat := 2 * maxBlockSize

/-- `nRewindIn` in `LoadExternalBlockFile`. -/
def scanRewind : Nat := maxBlockSize + 8

theorem scanRewind_eq : scanRewind = 1000008 := rfl

/-- The variables of the loop. -/
structure BlockScan where
  blkdat : CBufferedFile := {}
  nRewind : Nat := 0

/-- How a turn ends. -/
inductive TurnEnd (β : Type) where
  /-- no valid block header found: the loop is left -/
  | noHeader
  | badHeader
  /-- an exception while the block is read -/
  | badBlock
  | block (x : β)
  deriving DecidableEq

section Scan

variable (file : Bytes) {β : Type} (messageStart : Bytes) (unserialize : Unserialize β)

/-- `blkdat >> block`. -/
def Unserialize.run : Unserialize β → CBufferedFile → CBufferedFile × Except StreamFault β
  | .ret x, b => (b, .ok x)
  | .throw, b => (b, .error .malformed)
  | .read nSize k, b => match b.read file scanSize scanRewind nSize with
    | (b, .error e) => (b, .error e)
    | (b, .ok pch) => (k pch).run b

/-- The part of a turn behind the header: the block at `nBlockPos`. -/
def readBlock (nRewind nSize : Nat) (b : CBufferedFile) : BlockScan × TurnEnd β :=
  let nBlockPos := b.nReadPos
  let b := (b.setLimit (nBlockPos + nSize)).1
  let b := (b.setPos scanRewind nBlockPos).1
  match unserialize.run file b with
  | (b, .error _) => (⟨b, nRewind⟩, .badBlock)
  | (b, .ok x) => (⟨b, b.nReadPos⟩, .block x)

/-- The part of a turn from the size on. -/
def readSize (nRewind : Nat) (b : CBufferedFile) : BlockScan × TurnEnd β :=
  match b.read file scanSize scanRewind 4 with
  | (b, .error _) => (⟨b, nRewind⟩, .noHeader)
  | (b, .ok s) =>
    if leNat s < 80 ∨ maxBlockSize < leNat s then (⟨b, nRewind⟩, .badHeader)
    else readBlock file unserialize nRewind (leNat s) b

/-- The part of a turn from the message start on. -/
def readHeader (nRewind : Nat) (b : CBufferedFile) : BlockScan × TurnEnd β :=
  match b.read file scanSize scanRewind 4 with
  | (b, .error _) => (⟨b, nRewind⟩, .noHeader)
  | (b, .ok buf) =>
    if buf ≠ messageStart then (⟨b, nRewind⟩, .badHeader)
    else readSize file unserialize nRewind b

/-- `blkdat.SetPos(nRewind)` and `blkdat.SetLimit()`, at the start of a turn. -/
def BlockScan.rewound (st : BlockScan) : CBufferedFile :=
  ((st.blkdat.setPos scanRewind st.nRewind).1.setLimit (2 ^ 64 - 1)).1

/-- A turn of the loop. -/
def scanTurn (st : BlockScan) : BlockScan × TurnEnd β :=
  match st.rewound.findByte file scanSize scanRewind (messageStart.headD 0) with
  | (b, .error _) => (⟨b, st.nRewind + 1⟩, .noHeader)
  | (b, .ok _) => readHeader file messageStart unserialize (b.nReadPos + 1) b

/-- The states at the head of the loop. -/
inductive ScanReach : BlockScan → Prop
  | start : ScanReach {}
  | turn {st : BlockScan} : ScanReach st → st.blkdat.eof = false →
      (∀ b, scanTurn file messageStart unserialize st ≠ (b, .noHeader)) →
      ScanReach (scanTurn file messageStart unserialize st).1

end Scan

/-! ## The buffer along the loop -/

section Invariant

variable {file : Bytes} {β : Type} {messageStart : Bytes} {unserialize : Unserialize β}

/-- The buffer is in order, and the next search starts in what has been read from the source. -/
structure ScanOk (file : Bytes) (st : BlockScan) : Prop where
  ok : Ok file scanSize st.blkdat
  rewind_le : st.nRewind ≤ st.blkdat.nSrcPos

theorem scanSizes (hfile : file.length < 2 ^ 63) : Sizes file scanSize scanRewind :=
  ⟨by decide, by decide, hfile⟩

theorem Unserialize.run_ok (hfile : file.length < 2 ^ 63) (u : Unserialize β) {b : CBufferedFile}
    (ok : Ok file scanSize b) : Ok file scanSize (u.run file b).1 ∧
      b.nSrcPos ≤ (u.run file b).1.nSrcPos := by
  induction u generalizing b with
  | ret x => exact ⟨ok, Nat.le_refl _⟩
  | throw => exact ⟨ok, Nat.le_refl _⟩
  | read nSize k ih =>
    obtain ⟨b', r, hrun, hok, hsrc, -⟩ := read_spec (scanSizes hfile) ok nSize
    rw [Unserialize.run, hrun]
    cases r with
    | error e => exact ⟨hok, hsrc⟩
    | ok pch =>
      obtain ⟨hok', hsrc'⟩ := ih pch hok
      exact ⟨hok', hsrc.trans hsrc'⟩

/-- What a turn leaves: the buffer in order, and the rewind inside of it, unless the loop is
left; a block that failed leaves the rewind where the header put it. -/
structure TurnOk (file : Bytes) (nRewind : Nat) (t : BlockScan × TurnEnd β) : Prop where
  ok : Ok file scanSize t.1.blkdat
  rewind_le : (∀ b, t ≠ (b, .noHeader)) → t.1.nRewind ≤ t.1.blkdat.nSrcPos
  kept : t.2 = .badBlock → t.1.nRewind = nRewind

theorem readBlock_ok (hfile : file.length < 2 ^ 63) {nRewind nSize : Nat} {b : CBufferedFile}
    (ok : Ok file scanSize b) (hrewind : nRewind ≤ b.nSrcPos) :
    TurnOk file nRewind (readBlock file unserialize nRewind nSize b) := by
  have hread := ok.read_le
  have hsrc := ok.src_le
  have hrange : b.nReadPos + scanRewind < 2 ^ 64 := by
    have := scanRewind_eq
    omega
  have hstart := (ok.setLimit (b.nReadPos + nSize)).setPos (scanSizes hfile) hrange
  obtain ⟨hok, hsrc'⟩ := unserialize.run_ok hfile hstart
  rw [setPos_fst_nSrcPos, setLimit_fst_nSrcPos] at hsrc'
  rw [readBlock]
  cases hrun : unserialize.run file
      ((b.setLimit (b.nReadPos + nSize)).1.setPos scanRewind b.nReadPos).1 with
  | mk b' r =>
    rw [hrun] at hok hsrc'
    cases r with
    | error e => exact ⟨hok, fun _ => hrewind.trans hsrc', fun _ => rfl⟩
    | ok x => exact ⟨hok, fun _ => hok.read_le, fun h => by cases h⟩

theorem readSize_ok (hfile : file.length < 2 ^ 63) {nRewind : Nat} {b : CBufferedFile}
    (ok : Ok file scanSize b) (hrewind : nRewind ≤ b.nSrcPos) :
    TurnOk file nRewind (readSize file unserialize nRewind b) := by
  obtain ⟨b', r, hrun, hok, hsrc, -⟩ := read_spec (scanSizes hfile) ok 4
  rw [readSize, hrun]
  cases r with
  | error e => exact ⟨hok, fun h => absurd rfl (h _), fun h => by cases h⟩
  | ok s =>
    simp only
    split_ifs
    · exact ⟨hok, fun _ => hrewind.trans hsrc, fun h => by cases h⟩
    · exact readBlock_ok hfile hok (hrewind.trans hsrc)

theorem readHeader_ok (hfile : file.length < 2 ^ 63) {nRewind : Nat} {b : CBufferedFile}
    (ok : Ok file scanSize b) (hrewind : nRewind ≤ b.nSrcPos) :
    TurnOk file nRewind (readHeader file messageStart unserialize nRewind b) ∧
      ((readHeader file messageStart unserialize nRewind b).2 = .badBlock →
        (file.drop b.nReadPos).take 4 = messageStart) := by
  obtain ⟨b', r, hrun, hok, hsrc, -, hbytes⟩ := read_spec (scanSizes hfile) ok 4
  rw [readHeader, hrun]
  cases r with
  | error e => exact ⟨⟨hok, fun h => absurd rfl (h _), fun h => by cases h⟩, fun h => by cases h⟩
  | ok buf =>
    simp only
    split_ifs with hbuf
    · exact ⟨⟨hok, fun _ => hrewind.trans hsrc, fun h => by cases h⟩, fun h => by cases h⟩
    · refine ⟨readSize_ok hfile hok (hrewind.trans hsrc), fun _ => ?_⟩
      rw [← (hbytes buf rfl).1]
      exact not_not.mp hbuf

theorem rewound_ok (hfile : file.length < 2 ^ 63) {st : BlockScan} (h : ScanOk file st) :
    Ok file scanSize st.rewound := by
  have hsrc := h.ok.src_le
  have hle := h.rewind_le
  have hrange : st.nRewind + scanRewind < 2 ^ 64 := by
    have := scanRewind_eq
    omega
  exact (h.ok.setPos (scanSizes hfile) hrange).setLimit _

variable (messageStart unserialize) in
/-- **A turn** keeps the buffer in order; when the block fails, there was a header in the file
and the rewind is the byte after its first. -/
theorem scanTurn_spec (hfile : file.length < 2 ^ 63) {st : BlockScan} (h : ScanOk file st) :
    ∃ m, TurnOk file (m + 1) (scanTurn file messageStart unserialize st) ∧
      ((scanTurn file messageStart unserialize st).2 = .badBlock →
        (file.drop m).take 4 = messageStart) := by
  obtain ⟨b, r, hrun, hok, -, -, -, -, hend⟩ :=
    findByte_spec (scanSizes hfile) (messageStart.headD 0) (rewound_ok hfile h)
  refine ⟨b.nReadPos, ?_⟩
  rw [scanTurn, hrun]
  cases r with
  | error e => exact ⟨⟨hok, fun h => absurd rfl (h _), fun h => by cases h⟩, fun h => by cases h⟩
  | ok u =>
    rcases hend with ⟨-, hlt, -⟩ | ⟨hr, -⟩
    · exact readHeader_ok hfile hok hlt
    · cases hr

/-- **Every turn of the loop finds the buffer in order.** -/
theorem scanOk_of_reach (hfile : file.length < 2 ^ 63) {st : BlockScan}
    (h : ScanReach file messageStart unserialize st) : ScanOk file st := by
  induction h with
  | start => exact ⟨ok_start, Nat.zero_le _⟩
  | turn _ _ hgo ih =>
    obtain ⟨m, hturn, -⟩ := scanTurn_spec messageStart unserialize hfile ih
    exact ⟨hturn.ok, hturn.rewind_le hgo⟩

/-! ## After a block that failed -/

/-- The search goes on at `p` and finds the first byte of the next message start, whatever is
left behind it in the file. -/
def ResumesAt (file messageStart : Bytes) (st : BlockScan) (p : Nat) : Prop :=
  st.blkdat.eof = false ∧ (st.blkdat.setPos scanRewind st.nRewind).1.nReadPos = p ∧
    ∀ q, p ≤ q → file[q]? = some (messageStart.headD 0) →
      ∃ b, (st.blkdat.setPos scanRewind st.nRewind).1.findByte file scanSize scanRewind
        (messageStart.headD 0) = (b, .ok ()) ∧ p ≤ b.nReadPos ∧ b.nReadPos ≤ q

/-- **When the search resumes at the rewind**: the loop is not left at the end of the file, and
the source has not been read too far past it. -/
theorem resumesAt_iff (messageStart : Bytes) (hfile : file.length < 2 ^ 63) {st : BlockScan} (h : ScanOk file st) :
    ResumesAt file messageStart st st.nRewind ↔
      st.blkdat.eof = false ∧ st.blkdat.nSrcPos ≤ st.nRewind + scanRewind := by
  have hsrc := h.ok.src_le
  have hle := h.rewind_le
  have hconst := scanRewind_eq
  have hrange : st.nRewind + scanRewind < 2 ^ 64 := by omega
  constructor
  · rintro ⟨heof, hpos, -⟩
    rw [setPos_fst_nReadPos] at hpos
    exact ⟨heof, (settledPos_spec (scanSizes hfile) h.ok hrange).2.2 hpos⟩
  · rintro ⟨heof, hnear⟩
    have htrue : (st.blkdat.setPos scanRewind st.nRewind).2 = true :=
      setPos_snd_iff.mpr ⟨by omega, hle⟩
    have hok := h.ok.setPos (scanSizes hfile) hrange
    rw [ResumesAt]
    rw [setPos_of_snd htrue] at hok ⊢
    refine ⟨heof, rfl, fun q hq hbyte => ?_⟩
    obtain ⟨b, r, hrun, hok', -, -, hfrom, hnone, hend⟩ :=
      findByte_spec (scanSizes hfile) (messageStart.headD 0) hok
    rcases hend with ⟨rfl, -, -⟩ | ⟨-, hfull⟩
    · refine ⟨b, hrun, hfrom, ?_⟩
      by_contra hlt
      exact hnone q hq (by omega) hbyte
    · have hlt : q < file.length := (List.getElem?_eq_some_iff.mp hbyte).1
      exact absurd hbyte (hnone q hq (by omega))

end Invariant

/-- **What the buffer guarantees, and what the search makes of it.**  In every run of calls a
rewind within the window is good exactly when the source has not been read past it by more
than the rewind; and the search for blocks resumes behind a block that failed exactly when it
is not at the end of the file and its own rewind is good. -/
theorem buffer_rewinds_iff (file : Bytes) (hfile : file.length < 2 ^ 63) :
    (∀ size nRewind : Nat, nRewind < size → ∀ (calls : List Call) (p : Nat),
      (runCalls file size nRewind calls).2 ≤ p + nRewind →
      p ≤ (runCalls file size nRewind calls).2 →
      (Rewinds file size nRewind (runCalls file size nRewind calls).1 p →
        (runCalls file size nRewind calls).1.nSrcPos ≤ p + nRewind) ∧
      (size < 2 ^ 32 ∧ (∀ call ∈ calls, call.InRange nRewind) ∧
          (runCalls file size nRewind calls).1.nSrcPos ≤ p + nRewind →
        Rewinds file size nRewind (runCalls file size nRewind calls).1 p)) ∧
    ∀ (β : Type) (messageStart : Bytes) (unserialize : Unserialize β) (st : BlockScan),
      ScanReach file messageStart unserialize st →
      (scanTurn file messageStart unserialize st).2 = .badBlock →
      ∃ m, (file.drop m).take 4 = messageStart ∧
        (scanTurn file messageStart unserialize st).1.nRewind = m + 1 ∧
        (ResumesAt file messageStart (scanTurn file messageStart unserialize st).1 (m + 1) ↔
          (scanTurn file messageStart unserialize st).1.blkdat.eof = false ∧
            (scanTurn file messageStart unserialize st).1.blkdat.nSrcPos ≤
              m + 1 + scanRewind) := by
  constructor
  · intro size nRewind hrew calls p _ hp
    constructor
    · intro h
      have hpos := (setPos_snd_iff.mp h.1).1.trans (Nat.mod_le _ _)
      omega
    · rintro ⟨hsize, hcalls, hnear⟩
      have sz : Sizes file size nRewind := ⟨hrew, hsize, hfile⟩
      exact rewinds_of_ok sz (runCalls_ok sz calls hcalls) hp hnear
  · intro β messageStart unserialize st hreach hfail
    obtain ⟨m, hturn, hheader⟩ :=
      scanTurn_spec messageStart unserialize hfile (scanOk_of_reach hfile hreach)
    have hrew := hturn.kept hfail
    have hgo : ∀ b, scanTurn file messageStart unserialize st ≠ (b, .noHeader) := by
      intro b heq
      rw [heq] at hfail
      cases hfail
    have hiff := resumesAt_iff messageStart hfile ⟨hturn.ok, hturn.rewind_le hgo⟩
    rw [hrew] at hiff
    exact ⟨m, hheader hfail, hrew, hiff⟩

/-! ## A short rewind -/

/-- A file of four bytes. -/
def exampleFile : Bytes := [1, 2, 3, 4]

/-- One byte of the file is read, through a buffer of four bytes that rewinds one. -/
def exampleRun : CBufferedFile × Nat := runCalls exampleFile 4 1 [.read 1]

/-- A byte, a header with the size of a block, and bytes that are no block. -/
def scannedFile : Bytes := 0 :: [0xf9, 0xbe, 0xb4, 0xd9] ++ [90, 0, 0, 0] ++ List.replicate 90 7

/-- Some bytes are read before the exception is thrown. -/
def throwLate : Unserialize Unit := .read 4 fun _ => .read 76 fun _ => .throw

/-- A rewind that is good, and a turn whose block fails: the search resumes behind the first
byte of its header. -/
theorem buffer_rewinds_exampleFile :
    Rewinds exampleFile 4 3 (runCalls exampleFile 4 3 [.read 1]).1 0 ∧
    ResumesAt scannedFile [0xf9, 0xbe, 0xb4, 0xd9]
      (scanTurn scannedFile [0xf9, 0xbe, 0xb4, 0xd9] throwLate {}).1 2 := by
  constructor
  · exact ((buffer_rewinds_iff exampleFile (by decide)).1 4 3 (by decide) [.read 1] 0 (by decide)
      (by decide)).2 ⟨by decide, by simp [Call.InRange], by decide⟩
  · have hrewind : (scanTurn scannedFile [0xf9, 0xbe, 0xb4, 0xd9] throwLate {}).1.nRewind = 2 := by
      decide +kernel
    obtain ⟨m, -, hm, hiff⟩ := (buffer_rewinds_iff scannedFile (by decide)).2 Unit
      [0xf9, 0xbe, 0xb4, 0xd9] throwLate {} .start (by decide +kernel)
    rw [hrewind] at hm
    obtain rfl : m = 1 := by omega
    exact hiff.mpr ⟨by decide +kernel, by decide +kernel⟩

/-- The first byte is within the window, but three have been read from the source. -/
theorem exampleRun_not_rewinds :
    exampleRun.2 = 1 ∧ ¬ Rewinds exampleFile 4 1 exampleRun.1 0 := by
  refine ⟨by decide, fun h => ?_⟩
  have hnear := (setPos_snd_iff.mp h.1).1
  exact absurd hnear (by decide)

end Hivemind
