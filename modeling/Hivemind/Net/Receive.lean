import Mathlib.Data.List.Induction
import Hivemind.Net.MessageHeader

/-!
# Receiving messages (`net.h`, `net.cpp`)

The socket thread gives each chunk of bytes it has read to `ReceiveMsgBytes`, which fills the
message at the back of the queue and starts new ones as they become complete.

A message is filled in two parts, its header and its data, and the memory for the data is
allocated in steps of 256 KiB as the bytes come in, whatever the header announces.  A header that
announces too much ends the connection, and so does one that cannot be read; nothing else does.
The loop runs on as many turns as there are bytes, and each turn takes at least one, so that it
comes to its end.

Headers and data are stated as bytes that have come in, and the queue as a stream of frames; the
library's lemma on streams says that they have one reading.

* `receiveMsgBytes_spec`: **the queue holds the bytes that have come in**, cut into messages,
  unless they are refused.
* `receiveChunks_flatten`: how the socket cuts the bytes does not matter.
* `receiveChunks_bounded`: a message has at most 256 KiB more in memory than has come in of it,
  and never more than `MAX_SIZE`.
-/

namespace Hivemind

open Codecs CMessageHeader

/-- `CNetMessage`. -/
structure CNetMessage where
  in_data : Bool
  hdrbuf : Bytes
  hdr : CMessageHeader
  nHdrPos : Nat
  vRecv : Bytes
  nDataPos : Nat

/-- How `ReceiveMsgBytes` ends early. -/
inductive ReceiveFault where
  /-- It returns false, and the peer is disconnected. -/
  | rejected
  /-- A turn has taken no byte. -/
  | stuck
  deriving DecidableEq

namespace CNetMessage

/-- `CNetMessage(nTypeIn, nVersionIn)`. -/
def new (start : MessageStart) : CNetMessage where
  in_data := false
  hdrbuf := List.replicate 24 0
  hdr := initial start
  nHdrPos := 0
  vRecv := []
  nDataPos := 0

/-- `complete`. -/
def complete (msg : CNetMessage) : Bool :=
  msg.in_data && decide (msg.hdr.nMessageSize.toNat = msg.nDataPos)

/-- `readHeader`: the message and how many bytes it has taken, or `none` for -1. -/
def readHeader (msg : CNetMessage) (pch : Bytes) : Option (CNetMessage × Nat) :=
  let nRemaining := 24 - msg.nHdrPos
  let nCopy := min nRemaining pch.length
  let msg := { msg with
    hdrbuf := memcpy msg.hdrbuf msg.nHdrPos (pch.take nCopy)
    nHdrPos := msg.nHdrPos + nCopy }
  -- if header incomplete, exit
  if msg.nHdrPos < 24 then some (msg, nCopy)
  else match codec.de msg.hdrbuf with
    | .error _ => none
    | .ok (hdr, hdrbuf) =>
      -- reject messages larger than MAX_SIZE
      if maxSize < hdr.nMessageSize.toNat then none
      else some ({ msg with hdr, hdrbuf, in_data := true }, nCopy)

/-- `readData`: the message and how many bytes it has taken. -/
def readData (msg : CNetMessage) (pch : Bytes) : CNetMessage × Nat :=
  let nRemaining := msg.hdr.nMessageSize.toNat - msg.nDataPos
  let nCopy := min nRemaining pch.length
  let vRecv :=
    if msg.vRecv.length < msg.nDataPos + nCopy then
      -- Allocate up to 256 KiB ahead, but never more than the total message size.
      let size := min msg.hdr.nMessageSize.toNat (msg.nDataPos + nCopy + 256 * 1024)
      msg.vRecv ++ List.replicate (size - msg.vRecv.length) 0
    else msg.vRecv
  ({ msg with
    vRecv := memcpy vRecv msg.nDataPos (pch.take nCopy)
    nDataPos := msg.nDataPos + nCopy }, nCopy)

/-- Absorb network data. -/
def absorb (msg : CNetMessage) (pch : Bytes) : Option (CNetMessage × Nat) :=
  if msg.in_data then some (msg.readData pch) else msg.readHeader pch

end CNetMessage

/-- The queue without the message to fill, and that message: the incomplete one at the
back, or a new one. -/
def currentMsg (start : MessageStart) (vRecvMsg : List CNetMessage) :
    List CNetMessage × CNetMessage :=
  match vRecvMsg.getLast? with
  | none => ([], .new start)
  | some back => if back.complete then (vRecvMsg, .new start) else (vRecvMsg.dropLast, back)

/-- The loop of `ReceiveMsgBytes`, for `turns` turns at most. -/
def receiveLoop (start : MessageStart) :
    Nat → List CNetMessage → Bytes → Except ReceiveFault (List CNetMessage)
  | _, vRecvMsg, [] => .ok vRecvMsg
  | 0, _, _ :: _ => .error .stuck
  | turns + 1, vRecvMsg, b :: pch =>
    match (currentMsg start vRecvMsg).2.absorb (b :: pch) with
    | none => .error .rejected
    | some (msg, handled) =>
      receiveLoop start turns ((currentMsg start vRecvMsg).1 ++ [msg]) ((b :: pch).drop handled)

/-- `ReceiveMsgBytes`. -/
def receiveMsgBytes (start : MessageStart) (vRecvMsg : List CNetMessage) (pch : Bytes) :
    Except ReceiveFault (List CNetMessage) :=
  receiveLoop start pch.length vRecvMsg pch

/-! ## The bytes of a message -/

namespace CNetMessage

/-- The bytes of the message that have come in. -/
def raw (msg : CNetMessage) : Bytes :=
  if msg.in_data then codec.ser msg.hdr ++ msg.vRecv.take msg.nDataPos
  else msg.hdrbuf.take msg.nHdrPos

/-- What holds of a message in the queue. -/
structure Sound (msg : CNetMessage) : Prop where
  header : msg.in_data = false → msg.hdrbuf.length = 24 ∧ msg.nHdrPos < 24 ∧ msg.nDataPos = 0 ∧
    msg.vRecv = []
  size_le : msg.in_data = true → msg.hdr.nMessageSize.toNat ≤ maxSize
  pos_le : msg.nDataPos ≤ msg.vRecv.length
  length_le : msg.in_data = true → msg.vRecv.length ≤ msg.hdr.nMessageSize.toNat
  /-- What is allocated ahead. -/
  room : msg.vRecv.length ≤ msg.nDataPos + 256 * 1024

variable {start : MessageStart} {msg msg' : CNetMessage} {pch : Bytes} {n : Nat}

theorem sound_new : Sound (new start) := by
  constructor <;> simp [new]

theorem raw_new : raw (new start) = [] := by simp [raw, new]

theorem not_complete_new : (new start).complete = false := rfl

theorem take_memcpy {dst src : Bytes} {pos : Nat} (h : pos ≤ dst.length) :
    (memcpy dst pos src).take (pos + src.length) = dst.take pos ++ src := by
  have hlen : (dst.take pos ++ src).length = pos + src.length := by
    rw [List.length_append, List.length_take, Nat.min_eq_left h]
  rw [memcpy, ← hlen, List.take_left]

theorem readHeader_spec (h : msg.Sound) (hdata : msg.in_data = false) (hpch : pch ≠ [])
    (hread : msg.readHeader pch = some (msg', n)) :
    msg'.Sound ∧ 0 < n ∧ n ≤ pch.length ∧ msg'.raw = msg.raw ++ pch.take n := by
  obtain ⟨hbuf, hpos, hzero, hnil⟩ := h.header hdata
  have hraw : msg.raw = msg.hdrbuf.take msg.nHdrPos := by simp [raw, hdata]
  have hlen := List.length_pos_iff.mpr hpch
  simp only [readHeader] at hread
  set nCopy := min (24 - msg.nHdrPos) pch.length with hnCopy
  have hpiece : (pch.take nCopy).length = nCopy := by
    rw [List.length_take]
    omega
  have hbuf' : (memcpy msg.hdrbuf msg.nHdrPos (pch.take nCopy)).length = 24 := by
    rw [length_memcpy (by omega), hbuf]
  have htake : (memcpy msg.hdrbuf msg.nHdrPos (pch.take nCopy)).take (msg.nHdrPos + nCopy) =
      msg.hdrbuf.take msg.nHdrPos ++ pch.take nCopy := by
    have hmem := @take_memcpy msg.hdrbuf (pch.take nCopy) msg.nHdrPos (by omega)
    rwa [hpiece] at hmem
  split_ifs at hread with hpart
  · -- the header is still incomplete
    simp only [Option.some.injEq, Prod.mk.injEq] at hread
    obtain ⟨rfl, rfl⟩ := hread
    refine ⟨?_, by omega, by omega, ?_⟩
    · exact ⟨fun _ => ⟨hbuf', hpart, hzero, hnil⟩, h.size_le, h.pos_le, h.length_le, h.room⟩
    · rw [hraw, ← htake]
      simp [raw, hdata]
  · -- the header is there: all of the buffer has come in
    obtain ⟨hdr, hser⟩ := exists_of_length hbuf'
    have hde : codec.de (memcpy msg.hdrbuf msg.nHdrPos (pch.take nCopy)) = .ok (hdr, []) := by
      rw [hser, ← List.append_nil (codec.ser hdr)]
      exact de_ser hdr []
    rw [hde] at hread
    simp only at hread
    split_ifs at hread with hsize
    simp only [Option.some.injEq, Prod.mk.injEq] at hread
    obtain ⟨rfl, rfl⟩ := hread
    refine ⟨?_, by omega, by omega, ?_⟩
    · exact ⟨fun hfalse => absurd hfalse (by simp), fun _ => not_lt.mp hsize, h.pos_le,
        fun _ => by simp [hnil], h.room⟩
    · have hfull : msg.nHdrPos + nCopy =
          (memcpy msg.hdrbuf msg.nHdrPos (pch.take nCopy)).length := by omega
      rw [hfull, List.take_length, hser] at htake
      rw [hraw, ← htake]
      simp [raw, hzero]

theorem readData_spec (h : msg.Sound) (hdata : msg.in_data = true) (hopen : msg.complete = false)
    (hpch : pch ≠ []) :
    (msg.readData pch).1.Sound ∧ 0 < (msg.readData pch).2 ∧
      (msg.readData pch).2 ≤ pch.length ∧
      (msg.readData pch).1.raw = msg.raw ++ pch.take (msg.readData pch).2 := by
  have hne : msg.hdr.nMessageSize.toNat ≠ msg.nDataPos := by
    simpa [complete, hdata] using hopen
  have hpos := h.pos_le
  have hle := h.length_le hdata
  have hroom := h.room
  have hlen := List.length_pos_iff.mpr hpch
  simp only [readData]
  set nCopy := min (msg.hdr.nMessageSize.toNat - msg.nDataPos) pch.length with hnCopy
  set vRecv := if msg.vRecv.length < msg.nDataPos + nCopy then
      msg.vRecv ++ List.replicate (min msg.hdr.nMessageSize.toNat
        (msg.nDataPos + nCopy + 256 * 1024) - msg.vRecv.length) 0
    else msg.vRecv with hvRecv
  have hpiece : (pch.take nCopy).length = nCopy := by
    rw [List.length_take]
    omega
  have hgrown : msg.nDataPos + nCopy ≤ vRecv.length ∧
      vRecv.length ≤ msg.hdr.nMessageSize.toNat ∧
      vRecv.length ≤ msg.nDataPos + nCopy + 256 * 1024 ∧
      vRecv.take msg.nDataPos = msg.vRecv.take msg.nDataPos := by
    rw [hvRecv]
    split_ifs with hshort
    · rw [List.length_append, List.length_replicate, List.take_append_of_le_length hpos]
      exact ⟨by omega, by omega, by omega, rfl⟩
    · exact ⟨by omega, by omega, by omega, rfl⟩
  obtain ⟨hfit, hannounced, hahead, hkept⟩ := hgrown
  have hlen' : (memcpy vRecv msg.nDataPos (pch.take nCopy)).length = vRecv.length :=
    length_memcpy (by omega)
  have htake : (memcpy vRecv msg.nDataPos (pch.take nCopy)).take (msg.nDataPos + nCopy) =
      msg.vRecv.take msg.nDataPos ++ pch.take nCopy := by
    have hmem := @take_memcpy vRecv (pch.take nCopy) msg.nDataPos (by omega)
    rwa [hpiece, hkept] at hmem
  refine ⟨?_, by omega, by omega, ?_⟩
  · constructor
    case header => exact fun hfalse => (Bool.false_ne_true (hfalse.symm.trans hdata)).elim
    case size_le => exact h.size_le
    case pos_le => simpa only [hlen'] using hfit
    case length_le => exact fun _ => by simpa only [hlen'] using hannounced
    case room => simpa only [hlen'] using hahead
  · simp [raw, hdata, htake]

/-- **What a message takes of the data** is added to its bytes, and it takes a byte. -/
theorem absorb_spec (h : msg.Sound) (hopen : msg.complete = false) (hpch : pch ≠ [])
    (habsorb : msg.absorb pch = some (msg', n)) :
    msg'.Sound ∧ 0 < n ∧ n ≤ pch.length ∧ msg'.raw = msg.raw ++ pch.take n := by
  unfold absorb at habsorb
  split_ifs at habsorb with hdata
  · have hspec := readData_spec h hdata hopen hpch
    rwa [Option.some.inj habsorb] at hspec
  · exact readHeader_spec h (by simpa using hdata) hpch habsorb

/-- A message is refused for the size in its header only. -/
theorem absorb_none (h : msg.Sound) (habsorb : msg.absorb pch = none) :
    ∃ hdr rest, msg.raw ++ pch = codec.ser hdr ++ rest ∧ maxSize < hdr.nMessageSize.toNat := by
  unfold absorb at habsorb
  split_ifs at habsorb with hdata
  obtain ⟨hbuf, hpos, -, -⟩ := h.header (by simpa using hdata)
  simp only [readHeader] at habsorb
  set nCopy := min (24 - msg.nHdrPos) pch.length with hnCopy
  have hpiece : (pch.take nCopy).length = nCopy := by
    rw [List.length_take]
    omega
  have hbuf' : (memcpy msg.hdrbuf msg.nHdrPos (pch.take nCopy)).length = 24 := by
    rw [length_memcpy (by omega), hbuf]
  have htake := @take_memcpy msg.hdrbuf (pch.take nCopy) msg.nHdrPos (by omega)
  split_ifs at habsorb with hpart
  obtain ⟨hdr, hser⟩ := exists_of_length hbuf'
  have hde : codec.de (memcpy msg.hdrbuf msg.nHdrPos (pch.take nCopy)) = .ok (hdr, []) := by
    rw [hser, ← List.append_nil (codec.ser hdr)]
    exact de_ser hdr []
  rw [hde] at habsorb
  simp only at habsorb
  split_ifs at habsorb with hsize
  have hfull : msg.nHdrPos + (pch.take nCopy).length =
      (memcpy msg.hdrbuf msg.nHdrPos (pch.take nCopy)).length := by
    omega
  rw [hfull, List.take_length, hser] at htake
  refine ⟨hdr, pch.drop nCopy, ?_, hsize⟩
  rw [htake, List.append_assoc, List.take_append_drop]
  simp [raw, hdata]

/-! ### Messages and frames -/

/-- A message that is complete is a frame. -/
theorem isFrame_raw (h : msg.Sound) (hcomplete : msg.complete = true) :
    IsFrame msg.raw ∧ msg.raw = codec.ser msg.hdr ++ msg.vRecv ∧
      msg.vRecv.length = msg.hdr.nMessageSize.toNat := by
  obtain ⟨hdata, hsize⟩ : msg.in_data = true ∧ msg.hdr.nMessageSize.toNat = msg.nDataPos := by
    simpa [complete] using hcomplete
  have hlen : msg.vRecv.length = msg.nDataPos := by
    have hle := h.length_le hdata
    have hpos := h.pos_le
    omega
  have hraw : msg.raw = codec.ser msg.hdr ++ msg.vRecv := by
    simp [raw, hdata, ← hlen]
  exact ⟨⟨msg.hdr, msg.vRecv, hraw, by omega, h.size_le hdata⟩, hraw, by omega⟩

/-- A message that is not complete begins with no frame, and with no header that is
refused. -/
theorem incomplete_raw (h : msg.Sound) (hopen : msg.complete = false) :
    Frames.Incomplete IsFrame msg.raw ∧
      ∀ hdr rest, msg.raw = codec.ser hdr ++ rest → hdr.nMessageSize.toNat ≤ maxSize := by
  cases hdata : msg.in_data with
  | false =>
      obtain ⟨hbuf, hpos, -, -⟩ := h.header hdata
      have hshort : msg.raw.length < 24 := by
        simp only [raw, hdata, Bool.false_eq_true, if_false, List.length_take]
        omega
      have hlong (hdr : CMessageHeader) (rest : Bytes) :
          24 ≤ (codec.ser hdr ++ rest).length := by simp
      constructor
      · rintro a ⟨hdr, data, rfl, -, -⟩ hpre
        have hle := hpre.length_le
        have hge := hlong hdr data
        omega
      · intro hdr rest heq
        have hge := hlong hdr rest
        rw [← heq] at hge
        omega
  | true =>
      have hraw : msg.raw = codec.ser msg.hdr ++ msg.vRecv.take msg.nDataPos := by
        simp [raw, hdata]
      have hne : msg.hdr.nMessageSize.toNat ≠ msg.nDataPos := by
        simpa [complete, hdata] using hopen
      have hle := h.length_le hdata
      have hpos := h.pos_le
      rw [hraw]
      constructor
      · rintro a ⟨hdr, data, rfl, hlen, -⟩ ⟨rest, hrest⟩
        rw [List.append_assoc] at hrest
        obtain ⟨hser, htail⟩ := List.append_inj hrest (by simp)
        obtain rfl := ser_injective hser
        have htotal := congrArg List.length htail
        rw [List.length_append, List.length_take] at htotal
        omega
      · intro hdr rest heq
        obtain ⟨hser, -⟩ := List.append_inj heq (by simp)
        obtain rfl := ser_injective hser
        exact h.size_le hdata

end CNetMessage

/-! ## The queue -/

section Queue

open CNetMessage

variable {start : MessageStart} {vRecvMsg vRecvMsg' : List CNetMessage} {pch : Bytes}

/-- All messages are sound, and all but the one at the back are complete. -/
structure Queued (vRecvMsg : List CNetMessage) : Prop where
  sound : ∀ msg ∈ vRecvMsg, msg.Sound
  complete : ∀ msg ∈ vRecvMsg.dropLast, msg.complete = true

/-- The bytes that have come in and are still in the queue. -/
def received (vRecvMsg : List CNetMessage) : Bytes := (vRecvMsg.map raw).flatten

theorem queued_nil : Queued [] := by
  constructor <;> simp

theorem currentMsg_spec (h : Queued vRecvMsg) :
    (∀ msg ∈ (currentMsg start vRecvMsg).1, msg.Sound ∧ msg.complete = true) ∧
      (currentMsg start vRecvMsg).2.Sound ∧ (currentMsg start vRecvMsg).2.complete = false ∧
      received (currentMsg start vRecvMsg).1 ++ (currentMsg start vRecvMsg).2.raw =
        received vRecvMsg := by
  rcases List.eq_nil_or_concat vRecvMsg with rfl | ⟨front, back, rfl⟩
  · refine ⟨by simp [currentMsg], sound_new, not_complete_new, ?_⟩
    simp [currentMsg, received, raw_new]
  · have hfront : ∀ msg ∈ front, msg.Sound ∧ msg.complete = true := by
      intro msg hmsg
      exact ⟨h.sound msg (by simp [hmsg]), h.complete msg (by simpa using hmsg)⟩
    have hback := h.sound back (by simp)
    cases hcomplete : back.complete with
    | true =>
        simp only [currentMsg, List.concat_eq_append, List.getLast?_append, List.getLast?_singleton,
          Option.some_or, hcomplete, if_true]
        refine ⟨?_, sound_new, not_complete_new, by simp [raw_new]⟩
        intro msg hmsg
        rcases List.mem_append.mp hmsg with hold | hnew
        · exact hfront msg hold
        · rw [List.mem_singleton.mp hnew]
          exact ⟨hback, hcomplete⟩
    | false =>
        simp only [currentMsg, List.concat_eq_append, List.getLast?_append, List.getLast?_singleton,
          Option.some_or, hcomplete, Bool.false_eq_true, if_false, List.dropLast_concat]
        exact ⟨hfront, hback, trivial, by simp [received]⟩

/-- The bytes begin with frames and a header that announces too much. -/
def Oversized (bytes : Bytes) : Prop :=
  ∃ (frames : List Bytes) (hdr : CMessageHeader) (rest : Bytes), (∀ a ∈ frames, IsFrame a) ∧
    bytes = frames.flatten ++ (codec.ser hdr ++ rest) ∧ maxSize < hdr.nMessageSize.toNat

/-- **The loop of `ReceiveMsgBytes`**: the queue holds the bytes that have come in, unless
they are refused; each turn takes a byte. -/
theorem receiveLoop_spec (h : Queued vRecvMsg) {turns : Nat} (hturns : pch.length ≤ turns) :
    (∃ vRecvMsg', receiveLoop start turns vRecvMsg pch = .ok vRecvMsg' ∧ Queued vRecvMsg' ∧
        received vRecvMsg' = received vRecvMsg ++ pch) ∨
      (receiveLoop start turns vRecvMsg pch = .error .rejected ∧
        Oversized (received vRecvMsg ++ pch)) := by
  induction turns generalizing vRecvMsg pch with
  | zero =>
      obtain rfl := List.length_eq_zero_iff.mp (Nat.le_zero.mp hturns)
      exact Or.inl ⟨vRecvMsg, rfl, h, by simp⟩
  | succ turns ih =>
      rcases pch with _ | ⟨b, pch⟩
      · exact Or.inl ⟨vRecvMsg, rfl, h, by simp⟩
      obtain ⟨hfront, hsound, hopen, hbytes⟩ := @currentMsg_spec start _ h
      have hsplit : received vRecvMsg ++ b :: pch = received (currentMsg start vRecvMsg).1 ++
          ((currentMsg start vRecvMsg).2.raw ++ b :: pch) := by
        rw [← hbytes, List.append_assoc]
      cases habsorb : (currentMsg start vRecvMsg).2.absorb (b :: pch) with
      | none =>
          obtain ⟨hdr, rest, heq, hsize⟩ := absorb_none hsound habsorb
          refine Or.inr ⟨by simp only [receiveLoop, habsorb],
            (currentMsg start vRecvMsg).1.map raw, hdr, rest, ?_, ?_, hsize⟩
          · intro a ha
            obtain ⟨msg, hmsg, rfl⟩ := List.mem_map.mp ha
            exact (isFrame_raw (hfront msg hmsg).1 (hfront msg hmsg).2).1
          · rw [hsplit, heq]
            rfl
      | some r =>
          obtain ⟨msg, handled⟩ := r
          obtain ⟨hmsg, hpos, hle, hraw⟩ :=
            absorb_spec hsound hopen (List.cons_ne_nil b pch) habsorb
          have hnext : Queued ((currentMsg start vRecvMsg).1 ++ [msg]) := by
            constructor
            · intro m hm
              rcases List.mem_append.mp hm with hold | hnew
              · exact (hfront m hold).1
              · rw [List.mem_singleton.mp hnew]
                exact hmsg
            · intro m hm
              rw [List.dropLast_concat] at hm
              exact (hfront m hm).2
          have hkeep : received ((currentMsg start vRecvMsg).1 ++ [msg]) ++
              (b :: pch).drop handled = received vRecvMsg ++ b :: pch := by
            rw [hsplit]
            simp only [received, List.map_append, List.map_singleton, List.flatten_append,
              List.flatten_singleton, hraw, List.append_assoc, List.take_append_drop]
          have hshort : ((b :: pch).drop handled).length ≤ turns := by
            rw [List.length_drop]
            omega
          have hloop : receiveLoop start (turns + 1) vRecvMsg (b :: pch) =
              receiveLoop start turns ((currentMsg start vRecvMsg).1 ++ [msg])
                ((b :: pch).drop handled) := by
            simp only [receiveLoop, habsorb]
          rw [hloop, ← hkeep]
          exact ih hnext hshort

/-- **`ReceiveMsgBytes`**: the queue holds the bytes that have come in, unless they are
refused. -/
theorem receiveMsgBytes_spec (h : Queued vRecvMsg) (pch : Bytes) :
    (∃ vRecvMsg', receiveMsgBytes start vRecvMsg pch = .ok vRecvMsg' ∧ Queued vRecvMsg' ∧
        received vRecvMsg' = received vRecvMsg ++ pch) ∨
      (receiveMsgBytes start vRecvMsg pch = .error .rejected ∧
        Oversized (received vRecvMsg ++ pch)) :=
  receiveLoop_spec h le_rfl

/-! ## One reading of the bytes -/

/-- The frames in the queue. -/
def completeMsgs (vRecvMsg : List CNetMessage) : List CNetMessage :=
  vRecvMsg.filter (·.complete)

/-- The bytes of the message that is not complete. -/
def partialBytes (vRecvMsg : List CNetMessage) : Bytes :=
  received (vRecvMsg.filter fun msg => !msg.complete)

/-- The queue is its frames and then the bytes of an incomplete message. -/
theorem received_eq (h : Queued vRecvMsg) :
    received vRecvMsg = ((completeMsgs vRecvMsg).map raw).flatten ++ partialBytes vRecvMsg ∧
      (∀ a ∈ (completeMsgs vRecvMsg).map raw, IsFrame a) ∧
      Frames.Incomplete IsFrame (partialBytes vRecvMsg) ∧
      ∀ hdr rest, partialBytes vRecvMsg = codec.ser hdr ++ rest →
        hdr.nMessageSize.toNat ≤ maxSize := by
  have hframes : ∀ a ∈ (completeMsgs vRecvMsg).map raw, IsFrame a := by
    intro a ha
    obtain ⟨msg, hmsg, rfl⟩ := List.mem_map.mp ha
    obtain ⟨hmem, hcomplete⟩ := List.mem_filter.mp hmsg
    exact (isFrame_raw (h.sound msg hmem) hcomplete).1
  have hnil : Frames.Incomplete IsFrame [] ∧
      ∀ (hdr : CMessageHeader) (rest : Bytes), [] = codec.ser hdr ++ rest →
        hdr.nMessageSize.toNat ≤ maxSize := by
    refine ⟨Frames.incomplete_nil prefixFree_isFrame, ?_⟩
    intro hdr rest heq
    have hlen := congrArg List.length heq
    simp only [List.length_nil, List.length_append, length_ser] at hlen
    omega
  rcases List.eq_nil_or_concat vRecvMsg with rfl | ⟨front, back, rfl⟩
  · exact ⟨rfl, hframes, hnil⟩
  · have hall : ∀ msg ∈ front, msg.complete = true := by
      intro msg hmsg
      exact h.complete msg (by simpa using hmsg)
    have hfront : front.filter (·.complete) = front := List.filter_eq_self.mpr hall
    have hnone : front.filter (fun msg => !msg.complete) = [] := by
      simpa using hall
    cases hcomplete : back.complete with
    | true =>
        have hrest : partialBytes (front.concat back) = [] := by
          simp [partialBytes, received, hnone, hcomplete]
        refine ⟨?_, hframes, ?_⟩
        · rw [hrest]
          simp [completeMsgs, hfront, hcomplete, received]
        · rw [hrest]
          exact hnil
    | false =>
        have hrest : partialBytes (front.concat back) = back.raw := by
          simp [partialBytes, received, hnone, hcomplete]
        refine ⟨?_, hframes, ?_⟩
        · rw [hrest]
          simp [completeMsgs, hfront, hcomplete, received]
        · rw [hrest]
          exact incomplete_raw (h.sound back (by simp)) hcomplete

/-- Bytes that are refused are in no queue. -/
theorem not_oversized (h : Queued vRecvMsg) : ¬ Oversized (received vRecvMsg) := by
  rintro ⟨frames, hdr, rest, hframes, heq, hsize⟩
  obtain ⟨hbytes, hcomplete, hopen, hfits⟩ := received_eq h
  have htail : Frames.Incomplete IsFrame (codec.ser hdr ++ rest) := by
    rintro a ⟨hdr', data, rfl, -, hle⟩ ⟨more, hmore⟩
    rw [List.append_assoc] at hmore
    obtain ⟨hser, -⟩ := List.append_inj hmore (by simp)
    obtain rfl := ser_injective hser
    omega
  obtain ⟨-, hrest⟩ := Frames.eq_of_flatten_append_eq prefixFree_isFrame hcomplete hframes
    hopen htail (hbytes.symm.trans heq)
  have hle := hfits hdr rest hrest
  omega

theorem Oversized.append {bytes : Bytes} (h : Oversized bytes) (more : Bytes) :
    Oversized (bytes ++ more) := by
  obtain ⟨frames, hdr, rest, hframes, rfl, hsize⟩ := h
  exact ⟨frames, hdr, rest ++ more, hframes, by simp, hsize⟩

/-- What the rest of the node sees of the queue: the headers and the data of the complete
messages, and the bytes of the one that is not. -/
def queueView (vRecvMsg : List CNetMessage) : List (CMessageHeader × Bytes) × Bytes :=
  ((completeMsgs vRecvMsg).map fun msg => (msg.hdr, msg.vRecv), partialBytes vRecvMsg)

/-- **The bytes that came in decide** what the rest of the node sees. -/
theorem queueView_eq (h : Queued vRecvMsg) (h' : Queued vRecvMsg')
    (heq : received vRecvMsg = received vRecvMsg') : queueView vRecvMsg = queueView vRecvMsg' := by
  obtain ⟨hbytes, hframes, hopen, -⟩ := received_eq h
  obtain ⟨hbytes', hframes', hopen', -⟩ := received_eq h'
  obtain ⟨hraws, hrest⟩ := Frames.eq_of_flatten_append_eq prefixFree_isFrame hframes hframes'
    hopen hopen' (by rw [← hbytes, heq, hbytes'])
  have hserial (q : List CNetMessage) (hq : Queued q) : (completeMsgs q).map raw =
      ((completeMsgs q).map fun msg => (msg.hdr, msg.vRecv)).map fun p => codec.ser p.1 ++ p.2 := by
    rw [List.map_map]
    apply List.map_congr_left
    intro msg hmsg
    obtain ⟨hmem, hcomplete⟩ := List.mem_filter.mp hmsg
    exact (isFrame_raw (hq.sound msg hmem) hcomplete).2.1
  have hinjective : Function.Injective fun p : CMessageHeader × Bytes => codec.ser p.1 ++ p.2 := by
    rintro ⟨hdr, data⟩ ⟨hdr', data'⟩ hp
    obtain ⟨hser, rfl⟩ := List.append_inj hp (by simp)
    exact Prod.ext (ser_injective hser) rfl
  rw [hserial _ h, hserial _ h'] at hraws
  exact Prod.ext (List.map_injective_iff.mpr hinjective hraws) hrest

/-- One chunk after another. -/
def receiveChunks (start : MessageStart) (chunks : List Bytes) :
    Except ReceiveFault (List CNetMessage) :=
  chunks.foldlM (receiveMsgBytes start) []

theorem receiveChunks_spec (start : MessageStart) (chunks : List Bytes) :
    (∃ vRecvMsg, receiveChunks start chunks = .ok vRecvMsg ∧ Queued vRecvMsg ∧
        received vRecvMsg = chunks.flatten) ∨
      (receiveChunks start chunks = .error .rejected ∧ Oversized chunks.flatten) := by
  induction chunks using List.reverseRecOn with
  | nil => exact Or.inl ⟨[], rfl, queued_nil, rfl⟩
  | append_singleton chunks chunk ih =>
      have hfold : receiveChunks start (chunks ++ [chunk]) =
          (receiveChunks start chunks).bind fun q => receiveMsgBytes start q chunk := by
        simp only [receiveChunks, List.foldlM_append, List.foldlM_cons, List.foldlM_nil, bind_pure]
        rfl
      rw [hfold, List.flatten_append, List.flatten_singleton]
      rcases ih with ⟨q, hq, hqueued, hbytes⟩ | ⟨hrefused, hover⟩
      · rw [hq, ← hbytes]
        exact receiveMsgBytes_spec hqueued chunk
      · rw [hrefused]
        exact Or.inr ⟨rfl, hover.append chunk⟩

/-- Every turn of the loop takes some bytes. -/
theorem receiveChunks_ne_stuck (start : MessageStart) (chunks : List Bytes) :
    receiveChunks start chunks ≠ .error .stuck := by
  rcases receiveChunks_spec start chunks with ⟨q, hq, -, -⟩ | ⟨hrefused, -⟩
  · rw [hq]
    rintro ⟨⟩
  · rw [hrefused]
    rintro ⟨⟩

/-- **Chunks do not matter**: however the socket cuts the bytes, the messages, what is left
of the last one, and whether the peer is disconnected are the same; and the loop never comes
to a turn that takes no byte. -/
theorem receiveChunks_flatten (start : MessageStart) (chunks : List Bytes) :
    (receiveChunks start chunks).map queueView =
      (receiveChunks start [chunks.flatten]).map queueView ∧
    receiveChunks start chunks ≠ .error .stuck := by
  refine ⟨?_, receiveChunks_ne_stuck start chunks⟩
  have hone := receiveChunks_spec start [chunks.flatten]
  rw [List.flatten_singleton] at hone
  rcases receiveChunks_spec start chunks with ⟨q, hq, hqueued, hbytes⟩ | ⟨hrefused, hover⟩
  · rcases hone with ⟨q', hq', hqueued', hbytes'⟩ | ⟨-, hover⟩
    · rw [hq, hq']
      exact congrArg Except.ok (queueView_eq hqueued hqueued' (hbytes.trans hbytes'.symm))
    · exact absurd (hbytes ▸ hover) (not_oversized hqueued)
  · rcases hone with ⟨q', hq', hqueued', hbytes'⟩ | ⟨hrefused', -⟩
    · exact absurd (hbytes' ▸ hover) (not_oversized hqueued')
    · rw [hrefused, hrefused']

/-- **A peer cannot make the node store more than it sends**, up to 256 KiB for each
message, and no message grows past `MAX_SIZE`: whatever bytes come in. -/
theorem receiveChunks_bounded (start : MessageStart) (chunks : List Bytes)
    {vRecvMsg : List CNetMessage} (h : receiveChunks start chunks = .ok vRecvMsg) :
    received vRecvMsg = chunks.flatten ∧
      (∀ msg ∈ vRecvMsg.dropLast, msg.complete = true) ∧
      ∀ msg ∈ vRecvMsg, msg.vRecv.length ≤ msg.nDataPos + 256 * 1024 ∧
        msg.vRecv.length ≤ maxSize := by
  rcases receiveChunks_spec start chunks with ⟨q, hq, hqueued, hbytes⟩ | ⟨hrefused, -⟩
  · obtain rfl := Except.ok.inj (hq.symm.trans h)
    refine ⟨hbytes, hqueued.complete, fun msg hmsg => ?_⟩
    have hsound := hqueued.sound msg hmsg
    refine ⟨hsound.room, ?_⟩
    cases hdata : msg.in_data with
    | false => simp [(hsound.header hdata).2.2.2]
    | true => exact (hsound.length_le hdata).trans (hsound.size_le hdata)
  · rw [hrefused] at h
    cases h

theorem exampleStart_length : ([0xf9, 0xbe, 0xb4, 0xd9] : Bytes).length = 4 := rfl

/-- `pchMessageStart` of the main network. -/
def exampleStart : MessageStart := ⟨[0xf9, 0xbe, 0xb4, 0xd9], exampleStart_length⟩

/-- The header of a message `tx` of five bytes. -/
def exampleHeader : CMessageHeader := ⟨exampleStart, ⟨strncpy 12 [116, 120], rfl⟩, 5, 7⟩

/-- The message has come in up to its third byte, the header in two chunks. -/
def exampleChunks : List Bytes :=
  [(codec.ser exampleHeader).take 20, (codec.ser exampleHeader).drop 20 ++ [1, 2], [3]]

theorem exampleChunks_bounded :
    received [⟨true, [], exampleHeader, 24, [1, 2, 3, 0, 0], 3⟩] = exampleChunks.flatten ∧
      (∀ msg ∈ [(⟨true, [], exampleHeader, 24, [1, 2, 3, 0, 0], 3⟩ : CNetMessage)].dropLast,
        msg.complete = true) ∧
      ∀ msg ∈ [(⟨true, [], exampleHeader, 24, [1, 2, 3, 0, 0], 3⟩ : CNetMessage)],
        msg.vRecv.length ≤ msg.nDataPos + 256 * 1024 ∧ msg.vRecv.length ≤ maxSize :=
  receiveChunks_bounded exampleStart exampleChunks rfl

end Queue
end Hivemind
