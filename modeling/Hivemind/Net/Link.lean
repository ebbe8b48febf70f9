import Hivemind.Lib.Runs
import Hivemind.Net.Receive
import Hivemind.Net.SendQueue

/-!
# A connection between two nodes (`net.cpp`, `main.cpp`)

One node pushes messages, its socket takes the bytes in pieces of any size, the socket of the
other node gives them out in chunks of any size, and that node processes one message at a time,
when it likes.  The bytes between the two sockets are neither lost nor reordered.

The invariant is one equation between byte strings: the messages that were pushed are, in order,
those that were processed, those in the queue of the receiver, what is between the sockets and
what the sender has pending.  Each step moves bytes from one of these parts to the next.  As no
message begins with another, the first complete message of the queue is the next one that was
pushed.

* `processLoop_valid`: a message that is processed has a valid header and the right checksum.
* `Inv.step`: each step keeps the invariant, and none fails.
* `run_delivers`: **what is processed is what was pushed, in order**: no message is lost, doubled
  or changed, no assertion fails and the connection is not dropped.
* `run_completes`: from every state the messages that were pushed can still be delivered.
-/

namespace Hivemind

open Codecs CMessageHeader Runs

/-! ## `ProcessMessages` -/

/-- What `ProcessMessages` leaves: its result, the queue, and the message that it has
given to `ProcessMessage`. -/
structure Processed where
  fOk : Bool
  vRecvMsg : List CNetMessage
  message : Option (Bytes × Bytes)

/-- The loop of `ProcessMessages`, with room in the send buffer. -/
def processLoop (start : MessageStart) (hash : Bytes → Uint256) : List CNetMessage → Processed
  | [] => ⟨true, [], none⟩
  | msg :: rest =>
    -- end, if an incomplete message is found
    if !msg.complete then ⟨true, msg :: rest, none⟩
    -- scan for message start
    else if msg.hdr.pchMessageStart ≠ start then ⟨false, rest, none⟩
    else if !msg.hdr.isValid start then processLoop start hash rest
    else if checksum hash (msg.vRecv.take msg.hdr.nMessageSize.toNat) ≠ msg.hdr.nChecksum then
      processLoop start hash rest
    else ⟨true, rest, some (msg.hdr.getCommand, msg.vRecv)⟩

/-- `ProcessMessages`, where `fGetData` says that answers to `getdata` are outstanding and
`fSendFull` that the send buffer is too full to respond. -/
def processMessages (start : MessageStart) (hash : Bytes → Uint256) (fGetData fSendFull : Bool)
    (vRecvMsg : List CNetMessage) : Processed :=
  if fGetData || fSendFull then ⟨true, vRecvMsg, none⟩ else processLoop start hash vRecvMsg

variable {start : MessageStart} {hash : Bytes → Uint256}

/-- **A message that is processed** is one of the queue, complete and with a valid header,
and its data has the checksum. -/
theorem processLoop_valid {vRecvMsg : List CNetMessage} {message : Bytes × Bytes}
    (h : (processLoop start hash vRecvMsg).message = some message) :
    ∃ msg ∈ vRecvMsg, msg.complete = true ∧ msg.hdr.isValid start = true ∧
      checksum hash (msg.vRecv.take msg.hdr.nMessageSize.toNat) = msg.hdr.nChecksum ∧
      message = (msg.hdr.getCommand, msg.vRecv) := by
  induction vRecvMsg with
  | nil => cases h
  | cons msg rest ih =>
      have hlater (h' : (processLoop start hash rest).message = some message) :=
        (ih h').imp fun m hm => And.imp_left (List.mem_cons_of_mem msg) hm
      rw [processLoop] at h
      split_ifs at h with hcomplete hstart hvalid hsum
      · exact hlater h
      · exact hlater h
      · exact ⟨msg, List.mem_cons_self, by simpa using hcomplete, by simpa using hvalid,
          not_not.mp hsum, (Option.some.inj h).symm⟩

/-! ## The connection -/

/-- Both ends, with the messages that were pushed and processed. -/
structure Link where
  sender : SendSide := {}
  /-- How many of the bytes that were sent the receiver has read. -/
  nRead : Nat := 0
  vRecvMsg : List CNetMessage := []
  pushed : List (Bytes × Bytes) := []
  delivered : List (Bytes × Bytes) := []

namespace Link

/-- What happens at one of the ends. -/
inductive Act
  /-- `PushMessage`; the socket takes bytes if the queue was empty. -/
  | push (pszCommand data : Bytes) (sends : List Nat)
  /-- The socket can send. -/
  | send (sends : List Nat)
  /-- The socket has up to so many bytes to read. -/
  | recv (nBytes : Nat)
  /-- The message handler gets round to this peer. -/
  | process (fGetData fSendFull : Bool)

/-- One step; `none` when an assertion fails or the connection is dropped. -/
def step (start : MessageStart) (hash : Bytes → Uint256) (s : Link) : Act → Option Link
  | .push pszCommand data sends =>
    (s.sender.pushMessage start hash pszCommand data sends).map fun sender =>
      { s with sender, pushed := s.pushed ++ [(pszCommand, data)] }
  | .send sends => (s.sender.socketSendData sends).map fun sender => { s with sender }
  | .recv nBytes =>
    -- `pchBuf` has 64 KiB
    let pchBuf := (s.sender.sent.drop s.nRead).take (min nBytes 0x10000)
    match receiveMsgBytes start s.vRecvMsg pchBuf with
    | .error _ => none
    | .ok vRecvMsg => some { s with nRead := s.nRead + pchBuf.length, vRecvMsg }
  | .process fGetData fSendFull =>
    let r := processMessages start hash fGetData fSendFull s.vRecvMsg
    if r.fOk then
      some { s with vRecvMsg := r.vRecvMsg, delivered := s.delivered ++ r.message.toList }
    else none

/-- The messages a node may push: with a command, and not too long. -/
def Act.Valid : Act → Prop
  | push pszCommand data _ => IsCommand pszCommand ∧ data.length ≤ maxSize
  | _ => True

/-- The message as bytes. -/
def raw (start : MessageStart) (hash : Bytes → Uint256) (m : Bytes × Bytes) : Bytes :=
  rawMessage start hash m.1 m.2

/-- **What holds on the way**: the bytes of the messages that were pushed are, in order,
those that were processed, those in the receiver's queue, those between the sockets and
those in the sender's queue. -/
structure Inv (start : MessageStart) (hash : Bytes → Uint256) (s : Link) : Prop where
  sender : s.sender.Inv
  queued : Queued s.vRecvMsg
  valid : ∀ m ∈ s.pushed, IsCommand m.1 ∧ m.2.length ≤ maxSize
  pushed_eq : s.sender.sent ++ s.sender.pending = (s.pushed.map (raw start hash)).flatten
  nRead_le : s.nRead ≤ s.sender.sent.length
  read_eq : s.sender.sent.take s.nRead =
    (s.delivered.map (raw start hash)).flatten ++ received s.vRecvMsg
  delivered_prefix : s.delivered <+: s.pushed

theorem inv_new : Inv start hash {} := by
  constructor
  case sender => exact SendSide.inv_new
  case queued => exact queued_nil
  case delivered_prefix => exact List.prefix_rfl
  all_goals simp [received, SendSide.pending]

variable {s : Link}

theorem isFrame_raw (m : Bytes × Bytes) (hm : m.2.length ≤ maxSize) :
    IsFrame (raw start hash m) :=
  isFrame_rawMessage start hash m.1 hm

/-- **The bytes that were read** are at the start of the bytes of the messages. -/
theorem Inv.rest (h : Inv start hash s) :
    ∃ more, (s.delivered.map (raw start hash)).flatten ++ (received s.vRecvMsg ++ more) =
      (s.pushed.map (raw start hash)).flatten := by
  refine ⟨s.sender.sent.drop s.nRead ++ s.sender.pending, ?_⟩
  rw [← h.pushed_eq, ← List.append_assoc, ← h.read_eq, ← List.append_assoc, List.take_append_drop]

/-- **The first message in the queue**, when it is complete, is the next one that was
pushed. -/
theorem Inv.next (h : Inv start hash s) {msg : CNetMessage} {rest : List CNetMessage}
    (hqueue : s.vRecvMsg = msg :: rest) (hcomplete : msg.complete = true) :
    ∃ m more, s.pushed = s.delivered ++ m :: more ∧ msg.hdr = ofData start hash m.1 m.2 ∧
      msg.vRecv = m.2 := by
  obtain ⟨tail, htail⟩ := h.rest
  obtain ⟨undelivered, hpushed⟩ := h.delivered_prefix
  have hsound := h.queued.sound msg (by simp [hqueue])
  obtain ⟨hframe, hraw, -⟩ := CNetMessage.isFrame_raw hsound hcomplete
  have hbytes : msg.raw ++ ((rest.map CNetMessage.raw).flatten ++ tail) =
      (undelivered.map (raw start hash)).flatten := by
    rw [← hpushed, List.map_append, List.flatten_append, List.append_cancel_left_eq] at htail
    rw [← htail, hqueue]
    simp [received]
  have hvalid : ∀ m ∈ undelivered, IsFrame (raw start hash m) := by
    intro m hm
    exact isFrame_raw m (h.valid m (by simp [← hpushed, hm])).2
  rcases undelivered with _ | ⟨m, more⟩
  · have hnil : msg.raw = [] := by
      simp only [List.map_nil, List.flatten_nil, List.append_eq_nil_iff] at hbytes
      exact hbytes.1
    exact absurd hnil (prefixFree_isFrame.ne_nil _ hframe)
  · rw [List.map_cons, List.flatten_cons] at hbytes
    obtain ⟨hm, -⟩ := Frames.append_cancel prefixFree_isFrame hframe
      (hvalid m List.mem_cons_self) hbytes
    rw [hraw] at hm
    obtain ⟨hser, hdata⟩ := List.append_inj hm (by simp)
    exact ⟨m, more, hpushed.symm, ser_injective hser, hdata⟩

/-- **Its turn in `ProcessMessages`**: the message passes the checks. -/
theorem processLoop_ofData {msg : CNetMessage} {rest : List CNetMessage} {m : Bytes × Bytes}
    (hcommand : IsCommand m.1) (hsize : m.2.length ≤ maxSize) (hcomplete : msg.complete = true)
    (hhdr : msg.hdr = ofData start hash m.1 m.2) (hdata : msg.vRecv = m.2) :
    processLoop start hash (msg :: rest) = ⟨true, rest, some m⟩ := by
  have hlt : m.2.length < 2 ^ 32 := lt_of_le_of_lt hsize (by decide)
  have hn : (UInt32.ofNat m.2.length).toNat = m.2.length := by
    rw [UInt32.toNat_ofNat', Nat.mod_eq_of_lt hlt]
  have hvalid : msg.hdr.isValid start = true := by
    rw [hhdr]
    exact isValid_new start hcommand (by rw [hn]; exact hsize) _
  have hsum : checksum hash (msg.vRecv.take msg.hdr.nMessageSize.toNat) = msg.hdr.nChecksum := by
    have htake : msg.vRecv.take msg.hdr.nMessageSize.toNat = m.2 := by
      rw [hhdr, hdata]
      show m.2.take (UInt32.ofNat m.2.length).toNat = m.2
      rw [hn, List.take_length]
    rw [htake, hhdr]
    rfl
  have hget : msg.hdr.getCommand = m.1 := by
    rw [hhdr]
    exact getCommand_new start hcommand (UInt32.ofNat m.2.length)
  have hstart : msg.hdr.pchMessageStart = start := by
    rw [hhdr]
    rfl
  rw [processLoop, if_neg (by simp [hcomplete]), if_neg (not_not.mpr hstart),
    if_neg (by simp [hvalid]), if_neg (not_not.mpr hsum), hget, hdata]

/-- The message handler takes the next message that was pushed, or nothing. -/
theorem Inv.process (h : Inv start hash s) (fGetData fSendFull : Bool) :
    ∃ s', step start hash s (.process fGetData fSendFull) = some s' ∧ Inv start hash s' := by
  have hidle : processMessages start hash fGetData fSendFull s.vRecvMsg =
        ⟨true, s.vRecvMsg, none⟩ →
      ∃ s', step start hash s (.process fGetData fSendFull) = some s' ∧ Inv start hash s' := by
    intro hnone
    refine ⟨s, ?_, h⟩
    simp [step, hnone]
  by_cases hskip : (fGetData || fSendFull) = true
  · exact hidle (by rw [processMessages, if_pos hskip])
  · cases hqueue : s.vRecvMsg with
    | nil => exact hidle (by rw [processMessages, if_neg hskip, hqueue, processLoop])
    | cons msg rest =>
        cases hcomplete : msg.complete with
        | false =>
            refine hidle ?_
            rw [processMessages, if_neg hskip, hqueue, processLoop]
            simp [hcomplete]
        | true =>
            obtain ⟨m, more, hpushed, hhdr, hdata⟩ := h.next hqueue hcomplete
            obtain ⟨hcommand, hsize⟩ := h.valid m (by simp [hpushed])
            have hprocess : processMessages start hash fGetData fSendFull s.vRecvMsg =
                ⟨true, rest, some m⟩ := by
              rw [processMessages, if_neg hskip, hqueue]
              exact processLoop_ofData hcommand hsize hcomplete hhdr hdata
            have hraw : msg.raw = raw start hash m := by
              have hsound := h.queued.sound msg (by simp [hqueue])
              rw [(CNetMessage.isFrame_raw hsound hcomplete).2.1, hhdr, hdata]
              rfl
            refine ⟨{ s with vRecvMsg := rest, delivered := s.delivered ++ [m] }, ?_, ?_⟩
            · simp [step, hprocess]
            · exact {
                sender := h.sender
                queued := by
                  have hq := h.queued
                  rw [hqueue] at hq
                  refine ⟨fun m hm => hq.sound m (List.mem_cons_of_mem msg hm), fun m hm => ?_⟩
                  have hne : rest ≠ [] := by
                    rintro rfl
                    cases hm
                  exact hq.complete m (by
                    rw [List.dropLast_cons_of_ne_nil hne]
                    exact List.mem_cons_of_mem msg hm)
                valid := h.valid
                pushed_eq := h.pushed_eq
                nRead_le := h.nRead_le
                read_eq := by
                  have hread := h.read_eq
                  rw [hqueue] at hread
                  simpa [received, hraw] using hread
                delivered_prefix := ⟨more, by simp [hpushed]⟩ }

/-- The bytes of messages that are not too large are not refused. -/
theorem not_oversized_of_frames {as bs : List Bytes} {bytes more : Bytes}
    (has : ∀ a ∈ as, IsFrame a) (hbs : ∀ b ∈ bs, IsFrame b)
    (h : as.flatten ++ (bytes ++ more) = bs.flatten) : ¬ Oversized bytes := by
  rintro ⟨frames, hdr, rest, hframes, rfl, hsize⟩
  have hall : ∀ a ∈ as ++ frames, IsFrame a := by
    intro a ha
    exact (List.mem_append.mp ha).elim (has a) (hframes a)
  have hflat : (as ++ frames).flatten ++ (codec.ser hdr ++ (rest ++ more)) = bs.flatten := by
    rw [← h]
    simp
  obtain ⟨cs, rfl, hcs⟩ := Frames.flatten_append_eq prefixFree_isFrame hall hbs hflat
  rcases cs with _ | ⟨c, cs⟩
  · have hlen := congrArg List.length hcs
    simp only [List.length_append, length_ser, List.flatten_nil, List.length_nil] at hlen
    omega
  · obtain ⟨hdr', data, rfl, -, hle⟩ := hbs c (by simp)
    rw [List.flatten_cons, List.append_assoc] at hcs
    obtain ⟨hser, -⟩ := List.append_inj hcs (by simp)
    obtain rfl := ser_injective hser
    omega

theorem Inv.frames (h : Inv start hash s) :
    (∀ b ∈ s.pushed.map (raw start hash), IsFrame b) ∧
      ∀ a ∈ s.delivered.map (raw start hash), IsFrame a := by
  have hpushed : ∀ m ∈ s.pushed, IsFrame (raw start hash m) := fun m hm =>
    isFrame_raw m (h.valid m hm).2
  constructor
  · intro b hb
    obtain ⟨m, hm, rfl⟩ := List.mem_map.mp hb
    exact hpushed m hm
  · intro a ha
    obtain ⟨m, hm, rfl⟩ := List.mem_map.mp ha
    exact hpushed m (h.delivered_prefix.subset hm)

/-- The socket gives out a chunk. -/
theorem Inv.recv (h : Inv start hash s) (nBytes : Nat) :
    ∃ s', step start hash s (.recv nBytes) = some s' ∧ Inv start hash s' ∧
      s'.nRead = s.nRead + min (min nBytes 0x10000) (s.sender.sent.length - s.nRead) ∧
      s'.sender = s.sender ∧ s'.pushed = s.pushed := by
  set pchBuf := (s.sender.sent.drop s.nRead).take (min nBytes 0x10000) with hpchBuf
  have hlen : pchBuf.length = min (min nBytes 0x10000) (s.sender.sent.length - s.nRead) := by
    rw [hpchBuf, List.length_take, List.length_drop]
  have hle := h.nRead_le
  have htake : s.sender.sent.take (s.nRead + pchBuf.length) =
      s.sender.sent.take s.nRead ++ pchBuf := by
    rw [List.take_add, List.append_cancel_left_eq, hpchBuf, List.length_take,
      ← List.take_eq_take_min]
  rcases @receiveMsgBytes_spec start _ h.queued pchBuf with
    ⟨vRecvMsg, hreceive, hqueued, hbytes⟩ | ⟨-, hover⟩
  · refine ⟨{ s with nRead := s.nRead + pchBuf.length, vRecvMsg }, ?_, ?_, ?_, rfl, rfl⟩
    · simp [step, ← hpchBuf, hreceive]
    · exact {
        sender := h.sender
        queued := hqueued
        valid := h.valid
        pushed_eq := h.pushed_eq
        nRead_le := by
          show s.nRead + pchBuf.length ≤ s.sender.sent.length
          omega
        read_eq := by
          show s.sender.sent.take (s.nRead + pchBuf.length) = _
          rw [htake, h.read_eq, hbytes, List.append_assoc]
        delivered_prefix := h.delivered_prefix }
    · show s.nRead + pchBuf.length = _
      rw [hlen]
  · -- no message that was pushed is too large
    have hflat : (s.delivered.map (raw start hash)).flatten ++ (received s.vRecvMsg ++ pchBuf ++
        (s.sender.sent.drop (s.nRead + pchBuf.length) ++ s.sender.pending)) =
          (s.pushed.map (raw start hash)).flatten := by
      rw [← h.pushed_eq, List.append_assoc, ← List.append_assoc, ← h.read_eq, ← List.append_assoc,
        ← htake, ← List.append_assoc, List.take_append_drop]
    exact absurd hover (not_oversized_of_frames h.frames.2 h.frames.1 hflat)

/-- The sender's side goes on. -/
theorem Inv.sends (h : Inv start hash s) {sender : SendSide} {pushed : List (Bytes × Bytes)}
    (hsender : sender.Inv) (hpre : s.sender.sent <+: sender.sent)
    (hvalid : ∀ m ∈ pushed, IsCommand m.1 ∧ m.2.length ≤ maxSize)
    (hbytes : sender.sent ++ sender.pending = (pushed.map (raw start hash)).flatten)
    (hpushed : s.pushed <+: pushed) : Inv start hash { s with sender, pushed } := by
  have hle := h.nRead_le
  obtain ⟨more, hmore⟩ := hpre
  exact {
    sender := hsender
    queued := h.queued
    valid := hvalid
    pushed_eq := hbytes
    nRead_le := by
      show s.nRead ≤ sender.sent.length
      rw [← hmore, List.length_append]
      omega
    read_eq := by
      show sender.sent.take s.nRead = _
      rw [← hmore, List.take_append_of_le_length hle]
      exact h.read_eq
    delivered_prefix := h.delivered_prefix.trans hpushed }

theorem Inv.send (h : Inv start hash s) (sends : List Nat) :
    ∃ sender, s.sender.socketSendData sends = some sender ∧
      step start hash s (.send sends) = some { s with sender } ∧
      Inv start hash { s with sender } := by
  obtain ⟨sender, hsend, hsender, hpre, hbytes⟩ := SendSide.socketSendData_spec h.sender sends
  exact ⟨sender, hsend, by simp [step, hsend],
    h.sends hsender hpre h.valid (hbytes.trans h.pushed_eq) List.prefix_rfl⟩

/-- **Each step keeps the invariant**, and none fails. -/
theorem Inv.step (h : Inv start hash s) {a : Act} (ha : a.Valid) :
    ∃ s', Link.step start hash s a = some s' ∧ Inv start hash s' := by
  cases a with
  | push pszCommand data sends =>
      obtain ⟨sender, hpush, hsender, hpre, hbytes⟩ :=
        SendSide.pushMessage_spec h.sender start hash pszCommand data sends
      refine ⟨{ s with sender, pushed := s.pushed ++ [(pszCommand, data)] },
        by simp [Link.step, hpush], h.sends hsender hpre ?_ ?_ (List.prefix_append ..)⟩
      · intro m hm
        rcases List.mem_append.mp hm with hold | hnew
        · exact h.valid m hold
        · rw [List.mem_singleton.mp hnew]
          exact ha
      · rw [hbytes, h.pushed_eq]
        simp [raw]
  | send sends =>
      obtain ⟨sender, -, hstep, hinv⟩ := h.send sends
      exact ⟨_, hstep, hinv⟩
  | recv nBytes =>
      obtain ⟨s', hstep, hinv, -⟩ := h.recv nBytes
      exact ⟨s', hstep, hinv⟩
  | process fGetData fSendFull => exact h.process fGetData fSendFull

/-! ## Runs -/

/-- The messages that a run pushes. -/
def messages (acts : List Act) : List (Bytes × Bytes) :=
  acts.filterMap fun
    | .push pszCommand data _ => some (pszCommand, data)
    | _ => none

/-- Nothing is on its way any more: the queues and the sockets are empty, and no message
is left that could be processed. -/
structure Drained (s : Link) : Prop where
  sender : s.sender.vSendMsg = []
  socket : s.nRead = s.sender.sent.length
  receiver : ∀ msg ∈ s.vRecvMsg, msg.complete = false

/-- When nothing is on its way, all messages have been processed. -/
theorem Inv.delivered_eq (h : Inv start hash s) (hdrained : Drained s) :
    s.delivered = s.pushed := by
  have hread := h.read_eq
  have hpushed := h.pushed_eq
  rw [hdrained.socket, List.take_length] at hread
  rw [SendSide.pending_nil hdrained.sender, List.append_nil, hread] at hpushed
  -- what is left in the queue is the beginning of a message
  have hrest : partialBytes s.vRecvMsg = received s.vRecvMsg := by
    rw [partialBytes, List.filter_eq_self.mpr]
    intro msg hmsg
    simp [hdrained.receiver msg hmsg]
  have hopen := (received_eq h.queued).2.2.1
  rw [hrest] at hopen
  obtain ⟨frames, hframes, hrest⟩ :=
    Frames.flatten_append_eq prefixFree_isFrame h.frames.2 h.frames.1 hpushed
  have hnil : frames = [] := by
    apply @Frames.eq_nil_of_incomplete _ IsFrame
    · intro b hb
      exact h.frames.1 b (by rw [hframes]; exact List.mem_append_right _ hb)
    · rw [← hrest]
      exact hopen
  obtain ⟨more, hmore⟩ := h.delivered_prefix
  have hlen : s.pushed.length = s.delivered.length := by
    simpa [hnil] using congrArg List.length hframes
  have hempty : more = [] := by
    apply List.eq_nil_of_length_eq_zero
    have htotal := congrArg List.length hmore
    rw [List.length_append] at htotal
    omega
  rw [← hmore, hempty, List.append_nil]

theorem pushed_step {a : Act} {s' : Link} (h : step start hash s a = some s') :
    s'.pushed = s.pushed ++ messages [a] := by
  cases a with
  | push pszCommand data sends =>
      obtain ⟨sender, -, rfl⟩ := Option.map_eq_some_iff.mp h
      rfl
  | send sends =>
      obtain ⟨sender, -, rfl⟩ := Option.map_eq_some_iff.mp h
      simp [messages]
  | recv nBytes =>
      simp only [step] at h
      split at h
      · cases h
      · obtain rfl := Option.some.inj h
        simp [messages]
  | process fGetData fSendFull =>
      simp only [step] at h
      split_ifs at h
      obtain rfl := Option.some.inj h
      simp [messages]

theorem pushed_run {acts : List Act} {s' : Link} (h : run (step start hash) s acts = some s') :
    s'.pushed = s.pushed ++ messages acts := by
  induction acts generalizing s with
  | nil =>
      obtain rfl := Option.some.inj h
      simp [messages]
  | cons a acts ih =>
      obtain ⟨s₁, hstep, hrun⟩ := run_cons_eq_some.mp h
      rw [ih hrun, pushed_step hstep, List.append_assoc, messages, messages, messages,
        ← List.filterMap_append]
      rfl

/-- No step of a run fails. -/
theorem Inv.run (h : Inv start hash s) {acts : List Act} (hacts : ∀ a ∈ acts, a.Valid) :
    ∃ s', run (Link.step start hash) s acts = some s' ∧ Inv start hash s' := by
  induction acts generalizing s with
  | nil => exact ⟨s, rfl, h⟩
  | cons a acts ih =>
      obtain ⟨s₁, hstep, hinv⟩ := h.step (hacts a List.mem_cons_self)
      obtain ⟨s', hrun, hinv'⟩ := ih hinv fun b hb => hacts b (List.mem_cons_of_mem a hb)
      exact ⟨s', run_cons_eq_some.mpr ⟨s₁, hstep, hrun⟩, hinv'⟩

/-- **What is processed is what was pushed, in order**: whatever the sockets do, no step
fails, and when nothing is on its way any more each message has been processed once. -/
theorem run_delivers (start : MessageStart) (hash : Bytes → Uint256) (acts : List Act)
    (h : ∀ a ∈ acts, a.Valid) :
    ∃ s, run (step start hash) {} acts = some s ∧ s.delivered <+: messages acts ∧
      (Drained s → s.delivered = messages acts) := by
  obtain ⟨s, hrun, hinv⟩ := (@inv_new start hash).run h
  have hpushed : s.pushed = messages acts := pushed_run hrun
  refine ⟨s, hrun, ?_, ?_⟩
  · rw [← hpushed]
    exact hinv.delivered_prefix
  · intro hdrained
    rw [← hpushed]
    exact hinv.delivered_eq hdrained

/-! ### Everything arrives -/

/-- The receiver can read all that was sent. -/
theorem Inv.exists_read (h : Inv start hash s) :
    ∃ acts s', messages acts = [] ∧ Runs.run (Link.step start hash) s acts = some s' ∧
      Inv start hash s' ∧ s'.sender = s.sender ∧ s'.nRead = s'.sender.sent.length := by
  generalize hn : s.sender.sent.length - s.nRead = n
  induction n using Nat.strong_induction_on generalizing s with
  | _ n ih =>
      have hle := h.nRead_le
      obtain ⟨s₁, hstep, hinv, hread, hsender, -⟩ := h.recv (s.sender.sent.length - s.nRead)
      rcases Nat.eq_zero_or_pos n with hzero | hpos
      · exact ⟨[], s, rfl, rfl, h, rfl, by omega⟩
      · obtain ⟨acts, s', hnone, hrun, hinv', hsender', hread'⟩ :=
          ih _ (by rw [hsender]; omega) hinv rfl
        refine ⟨.recv (s.sender.sent.length - s.nRead) :: acts, s', ?_,
          run_cons_eq_some.mpr ⟨s₁, hstep, hrun⟩, hinv', hsender'.trans hsender, hread'⟩
        simpa [messages] using hnone

/-- The message handler can empty the queue. -/
theorem Inv.exists_handled (h : Inv start hash s) :
    ∃ acts s', messages acts = [] ∧ Runs.run (Link.step start hash) s acts = some s' ∧
      Inv start hash s' ∧ s'.sender = s.sender ∧ s'.nRead = s.nRead ∧
      ∀ msg ∈ s'.vRecvMsg, msg.complete = false := by
  generalize hqueue : s.vRecvMsg = vRecvMsg
  induction vRecvMsg generalizing s with
  | nil => exact ⟨[], s, rfl, rfl, h, rfl, rfl, by simp [hqueue]⟩
  | cons msg rest ih =>
      cases hcomplete : msg.complete with
      | false =>
          -- only the message at the back can be incomplete
          have hnil : rest = [] := by
            by_contra hne
            have hfirst := h.queued.complete msg (by
              rw [hqueue, List.dropLast_cons_of_ne_nil hne]
              exact List.mem_cons_self)
            rw [hcomplete] at hfirst
            cases hfirst
          exact ⟨[], s, rfl, rfl, h, rfl, rfl, by simp [hqueue, hnil, hcomplete]⟩
      | true =>
          obtain ⟨s₁, hstep, hinv⟩ := h.process false false
          obtain ⟨m, more, hpushed, hhdr, hdata⟩ := h.next hqueue hcomplete
          obtain ⟨hcommand, hsize⟩ := h.valid m (by simp [hpushed])
          have hs₁ : s₁ = { s with vRecvMsg := rest, delivered := s.delivered ++ [m] } := by
            have hprocess : processMessages start hash false false s.vRecvMsg =
                ⟨true, rest, some m⟩ := by
              rw [processMessages, hqueue]
              exact processLoop_ofData hcommand hsize hcomplete hhdr hdata
            simpa [Link.step, hprocess] using hstep.symm
          obtain ⟨acts, s', hnone, hrun, hinv', hsender, hread, hhandled⟩ :=
            ih hinv (by rw [hs₁])
          refine ⟨.process false false :: acts, s', ?_,
            run_cons_eq_some.mpr ⟨s₁, hstep, hrun⟩, hinv', ?_, ?_, hhandled⟩
          · simpa [messages] using hnone
          · rw [hsender, hs₁]
          · rw [hread, hs₁]

/-- **Everything that was pushed can still arrive**: from every state that a run reaches,
the sockets and the message handler alone can bring each message to the other end. -/
theorem run_completes (start : MessageStart) (hash : Bytes → Uint256) (acts : List Act)
    (h : ∀ a ∈ acts, a.Valid) :
    ∃ more s, messages more = [] ∧ run (step start hash) {} (acts ++ more) = some s ∧
      Drained s ∧ s.delivered = messages acts := by
  obtain ⟨s₀, hrun₀, hinv₀⟩ := (@inv_new start hash).run h
  obtain ⟨sends, sender, hdrain, hempty⟩ := SendSide.exists_drain hinv₀.sender
  obtain ⟨sender', hsend, hstep, hinv₁⟩ := hinv₀.send sends
  obtain rfl : sender = sender' := Option.some.inj (hdrain.symm.trans hsend)
  obtain ⟨reads, s₂, hnone₂, hrun₂, hinv₂, hsender₂, hread₂⟩ := hinv₁.exists_read
  obtain ⟨turns, s₃, hnone₃, hrun₃, hinv₃, hsender₃, hread₃, hhandled⟩ := hinv₂.exists_handled
  have hnone : messages (.send sends :: (reads ++ turns)) = [] := by
    simp only [messages, List.filterMap_cons, List.filterMap_append] at hnone₂ hnone₃ ⊢
    rw [hnone₂, hnone₃]
    rfl
  have hrun : run (step start hash) {} (acts ++ .send sends :: (reads ++ turns)) = some s₃ :=
    run_append_eq_some.mpr ⟨s₀, hrun₀, run_cons_eq_some.mpr ⟨_, hstep,
      run_append_eq_some.mpr ⟨s₂, hrun₂, hrun₃⟩⟩⟩
  have hdrained : Drained s₃ := by
    constructor
    case sender => rw [hsender₃, hsender₂, hempty]
    case socket => rw [hread₃, hread₂, hsender₃]
    case receiver => exact hhandled
  have hmessages : messages (acts ++ .send sends :: (reads ++ turns)) = messages acts := by
    rw [messages, List.filterMap_append, ← messages, ← messages, hnone, List.append_nil]
  refine ⟨_, s₃, hnone, hrun, hdrained, ?_⟩
  rw [hinv₃.delivered_eq hdrained, pushed_run hrun, hmessages]
  rfl

/-- A hash for examples: the bytes, cut to length. -/
def exampleSum (bs : Bytes) : Uint256 :=
  ⟨(bs ++ List.replicate 32 0).take 32, by simp⟩

/-- Two messages, the first of which is cut in the middle of its header. -/
def exampleActs : List Act :=
  [.push [116, 120] [1, 2, 3] [10], .recv 64, .push [112, 105, 110, 103] [] [], .send [17],
    .recv 64, .process false false]

theorem exampleActs_valid : ∀ a ∈ exampleActs, a.Valid := by
  have hcommand (s : Bytes) (h : s.length ≤ 12 ∧ ∀ c ∈ s, 0x20 ≤ c ∧ c ≤ 0x7e) : IsCommand s :=
    ⟨h.1, h.2⟩
  simp only [exampleActs, List.forall_mem_cons, Act.Valid]
  exact ⟨⟨hcommand _ (by decide +kernel), by decide⟩, trivial,
    ⟨hcommand _ (by decide +kernel), by decide⟩,
    trivial, trivial, trivial, by simp⟩

theorem exampleActs_delivers :
    ∃ s, run (step exampleStart exampleSum) {} exampleActs = some s ∧
      s.delivered <+: messages exampleActs ∧ (Drained s → s.delivered = messages exampleActs) :=
  run_delivers exampleStart exampleSum exampleActs exampleActs_valid

theorem exampleActs_completes :
    ∃ more s, messages more = [] ∧
      run (step exampleStart exampleSum) {} (exampleActs ++ more) = some s ∧
      Drained s ∧ s.delivered = messages exampleActs :=
  run_completes exampleStart exampleSum exampleActs exampleActs_valid

end Link
end Hivemind
