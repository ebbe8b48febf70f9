import Hivemind.Net.MessageHeader

/-!
# Sending messages (`net.h`, `net.cpp`)

`BeginMessage` starts a message with an unfinished header, the data is appended, and
`EndMessage` patches the size and the checksum in and queues the message.
`SocketSendData` gives the queue to the socket, which takes as much of it as it likes.

The state has what the functions of `CNode` read and write when they send, and the bytes that
the socket has taken.  It is in order between two messages: nothing is in `ssSend`, the size of
the queue is counted, and the offset is within the first message.  From there no assertion
fails, those about `ssSend` included, since a message starts with a whole header.

* `patched_eq`: the patched bytes are the header of the data and the data.
* `socketSendData_spec`: no assertion fails, and what was sent together with what is
  pending stays the same.
* `pushMessage_spec`: a message that is pushed comes after everything before it.
-/

namespace Hivemind

open Codecs CMessageHeader

/-- The fields of `CNode` that sending uses, with what the socket has taken so far. -/
structure SendSide where
  ssSend : Bytes := []
  vSendMsg : List Bytes := []
  nSendOffset : Nat := 0
  nSendSize : Nat := 0
  sent : Bytes := []

namespace SendSide

/-- The loop of `SocketSendData`, where `sends` is what the socket takes at each call of
`send`, at most: nothing when it would block.  `none` is a failed assertion. -/
def sendMsgs (s : SendSide) : List Nat → List Bytes → Option SendSide
  | _, [] => some { s with vSendMsg := [] }
  | sends, data :: rest =>
    if s.nSendOffset < data.length then
      let nBytes := min (sends.headD 0) (data.length - s.nSendOffset)
      let sent := s.sent ++ (data.drop s.nSendOffset).take nBytes
      if nBytes = 0 then some { s with vSendMsg := data :: rest }
      else if s.nSendOffset + nBytes = data.length then
        sendMsgs { s with
          sent
          nSendOffset := 0
          nSendSize := s.nSendSize - data.length } sends.tail rest
      -- could not send full message; stop sending more
      else some { s with
        sent
        nSendOffset := s.nSendOffset + nBytes
        vSendMsg := data :: rest }
    else none

/-- `SocketSendData`. -/
def socketSendData (sends : List Nat) (s : SendSide) : Option SendSide :=
  (s.sendMsgs sends s.vSendMsg).bind fun s =>
    if s.vSendMsg = [] ∧ ¬ (s.nSendOffset = 0 ∧ s.nSendSize = 0) then none else some s

/-- `BeginMessage`. -/
def beginMessage (start : MessageStart) (pszCommand : Bytes) (s : SendSide) : Option SendSide :=
  if s.ssSend.length = 0 then
    some { s with ssSend := codec.ser (new start pszCommand 0) }
  else none

/-- The message in `ssSend` with its size and its checksum. -/
def patched (hash : Bytes → Uint256) (ssSend : Bytes) : Bytes :=
  let nSize := UInt32.ofNat (ssSend.length - headerSize)
  let ssSend := memcpy ssSend messageSizeOffset (leBytes 4 nSize.toNat)
  memcpy ssSend checksumOffset ((hash (ssSend.drop headerSize)).val.take 4)

/-- `EndMessage`, without the options that drop and fuzz messages; `none` where its assertion
fails. -/
def endMessage (hash : Bytes → Uint256) (sends : List Nat) (s : SendSide) : Option SendSide :=
  if s.ssSend.length = 0 then some s
  else if s.ssSend.length < checksumOffset + 4 then none
  else
    let it := patched hash s.ssSend
    let queued : SendSide := { s with
      ssSend := []
      vSendMsg := s.vSendMsg ++ [it]
      nSendSize := s.nSendSize + it.length }
    -- if write queue empty, attempt "optimistic write"
    if s.vSendMsg.isEmpty then queued.socketSendData sends else some queued

/-- `PushMessage`, for data that has been serialized. -/
def pushMessage (start : MessageStart) (hash : Bytes → Uint256) (pszCommand data : Bytes)
    (sends : List Nat) (s : SendSide) : Option SendSide :=
  (s.beginMessage start pszCommand).bind fun s =>
    endMessage hash sends { s with ssSend := s.ssSend ++ data }

/-! ## What is pending -/

/-- What the queue still has to give to the socket. -/
def pending (s : SendSide) : Bytes := s.vSendMsg.flatten.drop s.nSendOffset

/-- What holds while no message is being put together. -/
structure Inv (s : SendSide) : Prop where
  ssSend_nil : s.ssSend = []
  nSendSize_eq : s.nSendSize = s.vSendMsg.flatten.length
  offset_lt : ∀ data ∈ s.vSendMsg.head?, s.nSendOffset < data.length
  offset_zero : s.vSendMsg = [] → s.nSendOffset = 0
  ne_nil : ∀ data ∈ s.vSendMsg, data ≠ []

theorem inv_new : Inv {} := by
  constructor <;> simp

/-- **The loop of `SocketSendData`**: with what was sent, what is pending stays the same. -/
theorem sendMsgs_spec {s : SendSide} {msgs : List Bytes} (hinv : Inv { s with vSendMsg := msgs })
    (sends : List Nat) :
    ∃ s', s.sendMsgs sends msgs = some s' ∧ Inv s' ∧ s.sent <+: s'.sent ∧
      s'.sent ++ s'.pending = s.sent ++ msgs.flatten.drop s.nSendOffset := by
  induction msgs generalizing s sends with
  | nil => exact ⟨{ s with vSendMsg := [] }, rfl, hinv, List.prefix_rfl, rfl⟩
  | cons data rest ih =>
      have hlt : s.nSendOffset < data.length := hinv.offset_lt data rfl
      have hsize : s.nSendSize = data.length + rest.flatten.length := by
        simpa using hinv.nSendSize_eq
      have hdrop : (data :: rest).flatten.drop s.nSendOffset =
          data.drop s.nSendOffset ++ rest.flatten := by
        rw [List.flatten_cons, List.drop_append_of_le_length hlt.le]
      have htail : ∀ msg ∈ rest, msg ≠ [] := fun msg hmsg =>
        hinv.ne_nil msg (List.mem_cons_of_mem data hmsg)
      rw [sendMsgs, if_pos hlt]
      by_cases hzero : min (sends.headD 0) (data.length - s.nSendOffset) = 0
      · exact ⟨_, if_pos hzero, hinv, List.prefix_rfl, rfl⟩
      · by_cases hfull : s.nSendOffset + min (sends.headD 0) (data.length - s.nSendOffset) =
          data.length
        · simp only [hzero, hfull, if_false, if_true]
          have htake : (data.drop s.nSendOffset).take
              (min (sends.headD 0) (data.length - s.nSendOffset)) = data.drop s.nSendOffset := by
            apply List.take_of_length_le
            rw [List.length_drop]
            omega
          rw [htake]
          have hnext : Inv ⟨s.ssSend, rest, 0, s.nSendSize - data.length,
              s.sent ++ data.drop s.nSendOffset⟩ := by
            refine ⟨hinv.ssSend_nil, by simp only; omega, ?_, fun _ => rfl, htail⟩
            intro msg hmsg
            exact List.length_pos_iff.mpr (htail msg (List.mem_of_mem_head? hmsg))
          obtain ⟨s', hsend, hinv', hpre, hsent⟩ := ih (s := ⟨s.ssSend, s.vSendMsg, 0,
            s.nSendSize - data.length, s.sent ++ data.drop s.nSendOffset⟩) hnext sends.tail
          refine ⟨s', hsend, hinv', (List.prefix_append ..).trans hpre, ?_⟩
          rw [hsent, hdrop]
          simp
        · simp only [hzero, hfull, if_false]
          refine ⟨_, rfl, ⟨hinv.ssSend_nil, hinv.nSendSize_eq, ?_, ?_, hinv.ne_nil⟩,
            List.prefix_append .., ?_⟩
          · rintro msg ⟨⟩
            show s.nSendOffset + _ < data.length
            omega
          · intro hnil
            cases hnil
          · simp only [pending, List.append_assoc, List.append_cancel_left_eq]
            rw [← List.drop_drop, hdrop, List.drop_append_of_le_length, ← List.append_assoc,
              List.take_append_drop]
            rw [List.length_drop]
            omega

/-- **`SocketSendData`**: no assertion fails. -/
theorem socketSendData_spec {s : SendSide} (hinv : Inv s) (sends : List Nat) :
    ∃ s', s.socketSendData sends = some s' ∧ Inv s' ∧ s.sent <+: s'.sent ∧
      s'.sent ++ s'.pending = s.sent ++ s.pending := by
  obtain ⟨s', hsend, hinv', hsent⟩ := sendMsgs_spec (s := s) hinv sends
  refine ⟨s', ?_, hinv', hsent⟩
  have hempty : s'.vSendMsg = [] → s'.nSendOffset = 0 ∧ s'.nSendSize = 0 := by
    intro hnil
    exact ⟨hinv'.offset_zero hnil, by rw [hinv'.nSendSize_eq, hnil]; rfl⟩
  rw [socketSendData, hsend, Option.bind_some, if_neg]
  rintro ⟨hnil, hnot⟩
  exact hnot (hempty hnil)

/-- A socket that takes whole messages empties the queue. -/
theorem sendMsgs_drain {s : SendSide} {msgs : List Bytes} (hinv : Inv { s with vSendMsg := msgs }) :
    ∃ s', s.sendMsgs (msgs.map List.length) msgs = some s' ∧ s'.vSendMsg = [] := by
  induction msgs generalizing s with
  | nil => exact ⟨{ s with vSendMsg := [] }, rfl, rfl⟩
  | cons data rest ih =>
      have hlt : s.nSendOffset < data.length := hinv.offset_lt data rfl
      have htail : ∀ msg ∈ rest, msg ≠ [] := fun msg hmsg =>
        hinv.ne_nil msg (List.mem_cons_of_mem data hmsg)
      have hsize : s.nSendSize = data.length + rest.flatten.length := by
        simpa using hinv.nSendSize_eq
      have hall : min (((data :: rest).map List.length).headD 0) (data.length - s.nSendOffset) =
          data.length - s.nSendOffset := by
        rw [List.map_cons, List.headD_cons]
        omega
      rw [sendMsgs, if_pos hlt]
      simp only [hall]
      rw [if_neg (by omega), if_pos (by omega)]
      apply ih
      refine ⟨hinv.ssSend_nil, by simp only; omega, ?_, fun _ => rfl, htail⟩
      intro msg hmsg
      exact List.length_pos_iff.mpr (htail msg (List.mem_of_mem_head? hmsg))

theorem exists_drain {s : SendSide} (hinv : Inv s) :
    ∃ sends s', s.socketSendData sends = some s' ∧ s'.vSendMsg = [] := by
  obtain ⟨s₁, hsend₁, hnil⟩ := sendMsgs_drain (s := s) hinv
  obtain ⟨s₂, hsend₂, -⟩ := socketSendData_spec hinv (s.vSendMsg.map List.length)
  refine ⟨_, s₂, hsend₂, ?_⟩
  rw [socketSendData, hsend₁, Option.bind_some] at hsend₂
  split_ifs at hsend₂
  rw [← Option.some.inj hsend₂, hnil]

/-! ## A message -/

theorem memcpy_size {a x y data size : Bytes} (ha : a.length = 16) (hx : x.length = 4)
    (hsize : size.length = 4) :
    memcpy (a ++ x ++ y ++ data) messageSizeOffset size = a ++ size ++ y ++ data := by
  have h := @memcpy_append a x (y ++ data) size (by rw [hsize, hx])
  rw [ha] at h
  simpa [messageSizeOffset] using h

theorem memcpy_checksum {a size y data sum : Bytes} (ha : a.length = 16) (hsize : size.length = 4)
    (hy : y.length = 4) (hsum : sum.length = 4) :
    memcpy (a ++ size ++ y ++ data) checksumOffset sum = a ++ size ++ sum ++ data := by
  have h := @memcpy_append (a ++ size) y data sum (by rw [hsum, hy])
  rwa [List.length_append, ha, hsize] at h

/-- **The patched bytes are the message.** -/
theorem patched_eq (start : MessageStart) (hash : Bytes → Uint256) (pszCommand data : Bytes) :
    patched hash (codec.ser (new start pszCommand 0) ++ data) =
      rawMessage start hash pszCommand data := by
  have ha : (start.val ++ strncpy 12 pszCommand).length = 16 := by
    rw [List.length_append, start.property, length_strncpy]
  have hlen (size : Bytes) (hsize : size.length = 4) :
      (start.val ++ strncpy 12 pszCommand ++ size ++ leBytes 4 0).length = headerSize := by
    rw [List.length_append, List.length_append, ha, hsize, length_leBytes]
    rfl
  have hsize : (codec.ser (new start pszCommand 0) ++ data).length - headerSize = data.length := by
    simp [headerSize]
  have hsum : (hash data).val.take 4 = leBytes 4 (checksum hash data).toNat :=
    (leBytes_ofNat_leNat (by simp [(hash data).property])).symm
  have hser : codec.ser (new start pszCommand 0) =
      start.val ++ strncpy 12 pszCommand ++ leBytes 4 0 ++ leBytes 4 0 := ser_eq _
  simp only [patched, hsize]
  rw [hser, memcpy_size ha (length_leBytes ..) (length_leBytes ..),
    List.drop_left' (hlen _ (length_leBytes ..)), hsum,
    memcpy_checksum ha (length_leBytes ..) (length_leBytes ..) (length_leBytes ..), rawMessage,
    ser_eq]
  rfl

/-- **A message that is pushed** comes after everything before it, and no assertion fails. -/
theorem pushMessage_spec {s : SendSide} (hinv : Inv s) (start : MessageStart)
    (hash : Bytes → Uint256) (pszCommand data : Bytes) (sends : List Nat) :
    ∃ s', s.pushMessage start hash pszCommand data sends = some s' ∧ Inv s' ∧
      s.sent <+: s'.sent ∧
      s'.sent ++ s'.pending = s.sent ++ s.pending ++ rawMessage start hash pszCommand data := by
  have hraw : rawMessage start hash pszCommand data ≠ [] := by
    intro hnil
    have hlen := congrArg List.length hnil
    simp [rawMessage] at hlen
  have hbegin : s.beginMessage start pszCommand =
      some { s with ssSend := codec.ser (new start pszCommand 0) } := by
    rw [beginMessage, if_pos (by simp [hinv.ssSend_nil])]
  have hnonempty : ¬ (codec.ser (new start pszCommand 0) ++ data).length = 0 := by simp
  have hheader : ¬ (codec.ser (new start pszCommand 0) ++ data).length < checksumOffset + 4 := by
    simp [checksumOffset]
  rw [pushMessage, hbegin, Option.bind_some, endMessage, if_neg hnonempty, if_neg hheader]
  simp only [patched_eq]
  have hqueued : Inv ⟨[], s.vSendMsg ++ [rawMessage start hash pszCommand data], s.nSendOffset,
      s.nSendSize + (rawMessage start hash pszCommand data).length, s.sent⟩ := by
    constructor
    case ssSend_nil => rfl
    case nSendSize_eq => simp [hinv.nSendSize_eq]
    case offset_lt =>
      intro msg hmsg
      cases hmsgs : s.vSendMsg with
      | nil =>
          obtain rfl : rawMessage start hash pszCommand data = msg := by
            simpa [hmsgs] using hmsg
          have hzero : s.nSendOffset = 0 := hinv.offset_zero hmsgs
          simpa [hzero] using List.length_pos_iff.mpr hraw
      | cons first rest => exact hinv.offset_lt msg (by simpa [hmsgs] using hmsg)
    case offset_zero => simp
    case ne_nil =>
      intro msg hmsg
      rcases List.mem_append.mp hmsg with hold | hnew
      · exact hinv.ne_nil msg hold
      · rw [List.mem_singleton.mp hnew]
        exact hraw
  have hpending : (s.vSendMsg ++ [rawMessage start hash pszCommand data]).flatten.drop
      s.nSendOffset = s.pending ++ rawMessage start hash pszCommand data := by
    have hle : s.nSendOffset ≤ s.vSendMsg.flatten.length := by
      cases hmsgs : s.vSendMsg with
      | nil => simp [hinv.offset_zero hmsgs]
      | cons first rest =>
          have hlt := hinv.offset_lt first (by rw [hmsgs]; rfl)
          simp only [List.flatten_cons, List.length_append]
          omega
    rw [List.flatten_append, List.drop_append_of_le_length hle]
    simp [pending]
  by_cases hempty : s.vSendMsg = []
  · rw [if_pos (by rw [hempty]; rfl)]
    obtain ⟨s', hsend, hinv', hpre, hsent⟩ := socketSendData_spec hqueued sends
    refine ⟨s', hsend, hinv', hpre, ?_⟩
    rw [hsent, List.append_assoc, ← hpending]
    rfl
  · rw [if_neg (by simpa using hempty)]
    refine ⟨_, rfl, hqueued, List.prefix_rfl, ?_⟩
    rw [List.append_assoc, ← hpending]
    rfl

/-- A queue that is empty has nothing pending. -/
theorem pending_nil {s : SendSide} (h : s.vSendMsg = []) : s.pending = [] := by
  simp [pending, h]

end SendSide
end Hivemind
