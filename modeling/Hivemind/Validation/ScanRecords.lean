import Hivemind.Validation.BlockScan

/-!
# A file of blocks

What the search of `LoadExternalBlockFile` finds in a file as `WriteBlockToDisk` fills it: one
block after the other, each behind the message start and its size.  Between them, and at the end,
there may be bytes that do not start a message.

The buffer hides the rest of the file from the loop, and the loop sets a limit for each block so
that reading it cannot run into the next one.  `ReadsOn` says what is left of the file behind the
read position, and with it a turn of the loop is a step along a list of records.  A block is read
in pieces that the buffer can hold, as unserializing reads it.

* `ReadsOn`: the buffer is in order, and what is left of the file.
* `ReadsOn.read`, `ReadsOn.findByte`: reading on, and searching.
* `Unserialize.run_takes`: a block is read back through the buffer.
* `scanTurn_record`, `scanTurn_tail`: **a turn finds the next block**, or ends the loop.
-/

namespace Hivemind

open Codecs CBufferedFile

/-- What unserializing takes from a stream and makes of it: bytes in pieces that the buffer can
hold. -/
inductive Unserialize.Takes {β : Type} : Unserialize β → Bytes → β → Prop
  | ret (x : β) : Takes (.ret x) [] x
  | read {nSize : Nat} {k : Bytes → Unserialize β} {pch bytes : Bytes} {x : β} :
      pch.length = nSize → nSize + scanRewind ≤ scanSize → Takes (k pch) bytes x →
      Takes (.read nSize k) (pch ++ bytes) x

/-- `nBlockPos`: the message start and the size of the block are eight bytes. -/
def BlockScan.nBlockPos (file messageStart : Bytes) (st : BlockScan) : Nat :=
  (st.rewound.findByte file scanSize scanRewind (messageStart.headD 0)).1.nReadPos + 8

theorem scan_double : scanSize ≤ 2 * scanRewind := by decide

/-! ## What is left of the file -/

/-- The buffer is in order, and `rest` is what it has not read of the file. -/
structure ReadsOn (file : Bytes) (b : CBufferedFile) (rest : Bytes) : Prop where
  ok : Ok file scanSize b
  ahead : Ahead file scanRewind b
  left : file.drop b.nReadPos = rest

namespace ReadsOn

variable {file : Bytes} {b : CBufferedFile} {rest : Bytes}

theorem start (file : Bytes) : ReadsOn file {} file := ⟨ok_start, ahead_start, rfl⟩

theorem length_eq (h : ReadsOn file b rest) : b.nReadPos + rest.length = file.length := by
  have hread := h.ok.read_le
  have hsrc := h.ok.src_le
  rw [← h.left, List.length_drop]
  omega

theorem setLimit (h : ReadsOn file b rest) (p : Nat) : ReadsOn file (b.setLimit p).1 rest :=
  ⟨h.ok.setLimit p, ⟨h.ahead.near, h.ahead.ended⟩, h.left⟩

/-- **A read** takes the next bytes. -/
theorem read (hfile : file.length < 2 ^ 63) {pch : Bytes} (h : ReadsOn file b (pch ++ rest))
    (hlimit : b.nReadPos + pch.length ≤ b.nReadLimit)
    (hsize : pch.length + scanRewind ≤ scanSize) :
    ∃ b', b.read file scanSize scanRewind pch.length = (b', .ok pch) ∧ ReadsOn file b' rest ∧
      b'.nReadPos = b.nReadPos + pch.length ∧ b'.nReadLimit = b.nReadLimit := by
  have hlen := h.length_eq
  rw [List.length_append] at hlen
  obtain ⟨b', hrun, hok, hpos, hlim⟩ := read_ok (scanSizes hfile) h.ok hlimit hsize (by omega)
  have hahead := h.ahead.read (scanSizes hfile) scan_double pch.length
  rw [hrun] at hahead
  rw [h.left, List.take_left] at hrun
  refine ⟨b', hrun, ⟨hok, hahead, ?_⟩, hpos, hlim⟩
  rw [hpos, ← List.drop_drop, h.left, List.drop_left]

/-- **The search for a byte** skips what comes before it. -/
theorem findByte (hfile : file.length < 2 ^ 63) {ch : UInt8} {gap : Bytes}
    (h : ReadsOn file b (gap ++ ch :: rest)) (hgap : ch ∉ gap) :
    ∃ b', b.findByte file scanSize scanRewind ch = (b', .ok ()) ∧ ReadsOn file b' (ch :: rest) ∧
      b'.nReadPos = b.nReadPos + gap.length ∧ b'.nReadLimit = b.nReadLimit := by
  have hbyte : ∀ i, file[b.nReadPos + i]? = (gap ++ ch :: rest)[i]? := by
    intro i
    rw [← h.left, List.getElem?_drop]
  have hfirst : file[b.nReadPos + gap.length]? = some ch := by
    rw [hbyte]
    simp
  have hbefore : ∀ i, i < gap.length → file[b.nReadPos + i]? ≠ some ch := by
    intro i hi heq
    rw [hbyte, List.getElem?_append_left hi] at heq
    exact hgap (List.mem_of_getElem? heq)
  obtain ⟨b', r, hrun, hok, -, hlim, hfrom, hnone, hend⟩ := findByte_spec (scanSizes hfile) ch h.ok
  have hahead := h.ahead.findByte (scanSizes hfile) scan_double ch
  rw [hrun] at hahead
  have hle : b'.nReadPos ≤ b.nReadPos + gap.length := by
    by_contra hlt
    exact hnone _ (Nat.le_add_right _ _) (by omega) hfirst
  have hlt := (List.getElem?_eq_some_iff.mp hfirst).1
  rcases hend with ⟨rfl, -, hfound⟩ | ⟨-, hend⟩
  · have hpos : b'.nReadPos = b.nReadPos + gap.length := by
      by_contra hne
      refine hbefore (b'.nReadPos - b.nReadPos) (by omega) ?_
      rw [Nat.add_sub_cancel' hfrom]
      exact hfound
    refine ⟨b', hrun, ⟨hok, hahead, ?_⟩, hpos, hlim⟩
    rw [hpos, ← List.drop_drop, h.left, List.drop_left]
  · omega

/-- Without the byte the search comes to the end of the file. -/
theorem findByte_none (hfile : file.length < 2 ^ 63) {ch : UInt8} (h : ReadsOn file b rest)
    (hrest : ch ∉ rest) :
    ∃ b', b.findByte file scanSize scanRewind ch = (b', .error .endOfFile) := by
  obtain ⟨b', r, hrun, -, -, -, hfrom, -, hend⟩ := findByte_spec (scanSizes hfile) ch h.ok
  rcases hend with ⟨-, -, hfound⟩ | ⟨rfl, -⟩
  · refine absurd (List.mem_of_getElem? (i := b'.nReadPos - b.nReadPos) ?_) hrest
    rw [← h.left, List.getElem?_drop, Nat.add_sub_cancel' hfrom, hfound]
  · exact ⟨b', hrun⟩

end ReadsOn

section Records

variable {file : Bytes} {β : Type} {messageStart : Bytes} {unserialize : Unserialize β}

/-- **What was written is read back.** -/
theorem Unserialize.run_takes (hfile : file.length < 2 ^ 63) {u : Unserialize β} {bytes : Bytes}
    {x : β} (htakes : u.Takes bytes x) {b : CBufferedFile} {rest : Bytes}
    (h : ReadsOn file b (bytes ++ rest)) (hlimit : b.nReadPos + bytes.length ≤ b.nReadLimit) :
    ∃ b', u.run file b = (b', .ok x) ∧ ReadsOn file b' rest ∧
      b'.nReadPos = b.nReadPos + bytes.length := by
  induction htakes generalizing b with
  | ret x => exact ⟨b, rfl, h, rfl⟩
  | @read nSize k pch bytes x hlen hsize _ ih =>
      rw [List.append_assoc] at h
      rw [List.length_append] at hlimit
      subst hlen
      obtain ⟨b₁, hread, hreads, hpos, hlim⟩ := h.read hfile (by omega) hsize
      obtain ⟨b', hrun, hreads', hpos'⟩ := ih hreads (by rw [hpos, hlim]; omega)
      refine ⟨b', ?_, hreads', ?_⟩
      · rw [Unserialize.run, hread]
        exact hrun
      · rw [hpos', hpos, List.length_append, Nat.add_assoc]

/-! ## Turns -/

/-- The loop is about to search on in `rest`. -/
structure ScansOn (file : Bytes) (st : BlockScan) (rest : Bytes) : Prop where
  reads : ReadsOn file st.blkdat rest
  rewind_eq : st.nRewind = st.blkdat.nReadPos

theorem ScansOn.start (file : Bytes) : ScansOn file {} file := ⟨.start file, rfl⟩

namespace ScansOn

variable {st : BlockScan} {rest : Bytes}

/-- As long as there are bytes, the loop goes on. -/
theorem eof_eq (h : ScansOn file st rest) (hrest : rest ≠ []) : st.blkdat.eof = false := by
  have hlen := h.reads.length_eq
  have hpos := List.length_pos_of_ne_nil hrest
  by_contra heof
  simp only [eof, Bool.not_eq_false, Bool.and_eq_true, beq_iff_eq] at heof
  have hended := h.reads.ahead.ended heof.2
  omega

/-- The buffer at the start of a turn: nothing is rewound, and the limit is removed. -/
theorem rewound (hfile : file.length < 2 ^ 63) (h : ScansOn file st rest) :
    ReadsOn file st.rewound rest ∧ st.rewound.nReadPos = st.blkdat.nReadPos ∧
      st.rewound.nReadLimit = 2 ^ 64 - 1 := by
  have hread := h.reads.ok.read_le
  have hsrc := h.reads.ok.src_le
  have heq : st.rewound = (st.blkdat.setLimit (2 ^ 64 - 1)).1 := by
    rw [BlockScan.rewound, h.rewind_eq, h.reads.ahead.setPos_read (scanSizes hfile) h.reads.ok]
  rw [heq]
  exact ⟨h.reads.setLimit _, rfl, if_pos (by omega)⟩

/-- **A turn finds the next block**, and where it begins. -/
theorem scanTurn_record (hfile : file.length < 2 ^ 63) (hstart : messageStart.length = 4)
    {gap bytes : Bytes} {x : β} (hgap : messageStart.headD 0 ∉ gap) (hmin : 80 ≤ bytes.length)
    (hmax : bytes.length ≤ maxBlockSize) (htakes : unserialize.Takes bytes x)
    (h : ScansOn file st (gap ++ (messageStart ++ (leBytes 4 bytes.length ++ (bytes ++ rest))))) :
    st.nBlockPos file messageStart = st.blkdat.nReadPos + gap.length + 8 ∧
      ∃ st', scanTurn file messageStart unserialize st = (st', .block x) ∧ ScansOn file st' rest ∧
        st'.blkdat.nReadPos = st.blkdat.nReadPos + gap.length + 8 + bytes.length := by
  obtain ⟨m, ms, rfl⟩ := List.exists_cons_of_length_eq_add_one hstart
  have hlen := h.reads.length_eq
  simp only [List.length_append, length_leBytes] at hlen
  obtain ⟨hreads, hpos, hlim⟩ := h.rewound hfile
  -- the search stops at the message start
  obtain ⟨b, hfind, hreads₀, hpos₀, hlim₀⟩ := hreads.findByte hfile hgap
  -- the message start and the size
  obtain ⟨b₁, hread₁, hreads₁, hpos₁, hlim₁⟩ :=
    @ReadsOn.read _ _ _ hfile (m :: ms) hreads₀ (by omega) (by rw [hstart]; decide)
  obtain ⟨b₂, hread₂, hreads₂, hpos₂, hlim₂⟩ :=
    hreads₁.read hfile (by rw [length_leBytes]; omega) (by rw [length_leBytes]; decide)
  rw [hstart] at hread₁ hpos₁
  rw [length_leBytes] at hread₂ hpos₂
  have hnum : leNat (leBytes 4 bytes.length) = bytes.length :=
    leNat_leBytes_of_lt (lt_of_le_of_lt hmax (by decide))
  -- the block, where the buffer is
  have hreads₃ := hreads₂.setLimit (b₂.nReadPos + bytes.length)
  have hlim₃ : (b₂.setLimit (b₂.nReadPos + bytes.length)).1.nReadLimit =
      b₂.nReadPos + bytes.length := if_pos (Nat.le_add_right _ _)
  have hset : ((b₂.setLimit (b₂.nReadPos + bytes.length)).1.setPos scanRewind b₂.nReadPos).1 =
      (b₂.setLimit (b₂.nReadPos + bytes.length)).1 :=
    hreads₃.ahead.setPos_read (scanSizes hfile) hreads₃.ok
  obtain ⟨b', hrun, hreads', hpos'⟩ := Unserialize.run_takes hfile htakes hreads₃ hlim₃.ge
  have hplace : b₂.nReadPos = st.blkdat.nReadPos + gap.length + 8 := by omega
  refine ⟨?_, ⟨b', b'.nReadPos⟩, ?_, ⟨hreads', rfl⟩, ?_⟩
  · rw [BlockScan.nBlockPos, List.headD_cons, hfind, hpos₀, hpos]
  · rw [scanTurn, List.headD_cons, hfind]
    simp only
    rw [readHeader, hread₁]
    simp only [ne_eq, not_true, if_false]
    rw [readSize, hread₂]
    simp only [hnum]
    rw [if_neg (by omega), readBlock, hset, hrun]
  · rw [← hplace]
    exact hpos'

/-- **Behind the last block the loop is left.** -/
theorem scanTurn_tail (hfile : file.length < 2 ^ 63) (h : ScansOn file st rest)
    (hrest : messageStart.headD 0 ∉ rest) :
    ∃ st', scanTurn file messageStart unserialize st = (st', .noHeader) := by
  obtain ⟨b, hfind⟩ := (h.rewound hfile).1.findByte_none hfile hrest
  exact ⟨⟨b, st.nRewind + 1⟩, by rw [scanTurn, hfind]⟩

end ScansOn

end Records

end Hivemind
