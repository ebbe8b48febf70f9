import Hivemind.Lib.Frames
import Hivemind.Primitives.Basic

/-!
# Message headers (`protocol.h`, `protocol.cpp`)

A message on the wire is a header of 24 bytes, with the command, the size and a checksum of the
data, and then the data.

The header has a codec of its own fields, of fixed widths, so any 24 bytes are a header; whether
it is one that the node accepts is `IsValid`, which looks at the start of the message, the
characters of the command and the size.  The command is a C string in a buffer that was filled
with zeros, and a command of full length has no zero behind it.

A header tells where its message ends, so a stream of messages is one of frames that do not begin
with each other; receiving and sending are both stated on such streams.

* `CMessageHeader.codec`: the header as it is serialized, in 24 bytes.
* `getCommand_new`, `isValid_new`: a header that is built for a command is valid and gives the
  command back.
* `rawMessage`: a message as it is sent.
* `prefixFree_isFrame`: **the header tells where a message ends.**
-/

namespace Hivemind

open Codecs

/-- `MESSAGE_START_SIZE`. -/
abbrev MessageStart := Blob 4

/-- `CMessageHeader`. -/
structure CMessageHeader where
  pchMessageStart : MessageStart
  pchCommand : Blob 12
  nMessageSize : UInt32
  nChecksum : UInt32
  deriving DecidableEq

namespace CMessageHeader

/-- `HEADER_SIZE`. -/
def headerSize : Nat := 24

/-- `MESSAGE_SIZE_OFFSET`. -/
def messageSizeOffset : Nat := 16

/-- `CHECKSUM_OFFSET`. -/
def checksumOffset : Nat := 20

/-- `SerializationOp`. -/
def codec : Codec CMessageHeader :=
  (Blob.codec.prod (Blob.codec.prod (Codec.u32.prod Codec.u32))).iso
    (fun p => ⟨p.1, p.2.1, p.2.2.1, p.2.2.2⟩)
    (fun h => (h.pchMessageStart, h.pchCommand, h.nMessageSize, h.nChecksum))
    (fun _ => rfl) (fun _ => rfl)

/-- What `strncpy` leaves in a buffer of `n` bytes that was filled with zeros. -/
def strncpy (n : Nat) (s : Bytes) : Bytes :=
  let copied := (s.takeWhile (· ≠ 0)).take n
  copied ++ List.replicate (n - copied.length) 0

theorem length_strncpy (n : Nat) (s : Bytes) : (strncpy n s).length = n := by
  simp only [strncpy, List.length_append, List.length_replicate, List.length_take]
  omega

/-- `CMessageHeader(pszCommand, nMessageSizeIn)`, with `Params().MessageStart()`. -/
def new (start : MessageStart) (pszCommand : Bytes) (nMessageSizeIn : UInt32) :
    CMessageHeader where
  pchMessageStart := start
  pchCommand := ⟨strncpy 12 pszCommand, length_strncpy ..⟩
  nMessageSize := nMessageSizeIn
  nChecksum := 0

/-- `CMessageHeader()`. -/
def initial (start : MessageStart) : CMessageHeader where
  pchMessageStart := start
  pchCommand := Blob.null
  nMessageSize := -1
  nChecksum := 0

/-- `GetCommand`. -/
def getCommand (h : CMessageHeader) : Bytes := h.pchCommand.val.takeWhile (· ≠ 0)

/-- The check of the command string: printable, and all zeros after the first zero. -/
def commandValid : Bytes → Bool
  | [] => true
  | c :: cs =>
    if c = 0 then cs.all (· = 0)
    -- `char` is signed: a byte from 0x80 on is below `' '`
    else if c < 0x20 || 0x7e < c then false
    else commandValid cs

/-- `IsValid`. -/
def isValid (start : MessageStart) (h : CMessageHeader) : Bool :=
  h.pchMessageStart = start && commandValid h.pchCommand.val &&
    decide (h.nMessageSize.toNat ≤ maxSize)

/-! ## The bytes of a header -/

@[simp] theorem fits_header (h : CMessageHeader) : codec.Fits h := by
  simp [codec]

@[simp] theorem length_ser (h : CMessageHeader) : (codec.ser h).length = 24 := by
  simp [codec, Codec.iso, Codec.prod, Blob.codec, Codec.fixed, Codec.u32,
    h.pchMessageStart.property, h.pchCommand.property]

theorem ser_eq (h : CMessageHeader) :
    codec.ser h = h.pchMessageStart.val ++ h.pchCommand.val ++ leBytes 4 h.nMessageSize.toNat ++
      leBytes 4 h.nChecksum.toNat := by
  simp [codec, Codec.iso, Codec.prod, Blob.codec, Codec.fixed, Codec.u32]

theorem de_ser (h : CMessageHeader) (r : Bytes) : codec.de (codec.ser h ++ r) = .ok (h, r) :=
  codec.de_ser (fits_header h) r

theorem leBytes_ofNat_leNat {b : Bytes} (hb : b.length = 4) :
    leBytes 4 (UInt32.ofNat (leNat b)).toNat = b := by
  have hlt := leNat_lt b
  rw [hb] at hlt
  rw [UInt32.toNat_ofNat', Nat.mod_eq_of_lt (show leNat b < 2 ^ 32 from hlt)]
  simpa [hb] using leBytes_leNat b

/-- Any 24 bytes are a header. -/
theorem exists_of_length {b : Bytes} (hb : b.length = 24) : ∃ h, b = codec.ser h := by
  have hstart : (b.take 4).length = 4 := by simp [hb]
  have hcommand : ((b.drop 4).take 12).length = 12 := by simp [hb]
  have hsize : ((b.drop 16).take 4).length = 4 := by simp [hb]
  have hsum : (b.drop 20).length = 4 := by simp [hb]
  refine ⟨⟨⟨_, hstart⟩, ⟨_, hcommand⟩, UInt32.ofNat (leNat ((b.drop 16).take 4)),
    UInt32.ofNat (leNat (b.drop 20))⟩, ?_⟩
  rw [ser_eq, leBytes_ofNat_leNat hsize, leBytes_ofNat_leNat hsum]
  have h20 : b.drop 20 = (b.drop 16).drop 4 := by rw [List.drop_drop]
  have h16 : b.drop 16 = (b.drop 4).drop 12 := by rw [List.drop_drop]
  rw [List.append_assoc, List.append_assoc, h20, List.take_append_drop, h16,
    List.take_append_drop, List.take_append_drop]

/-- Headers with the same bytes are the same. -/
theorem ser_injective {h h' : CMessageHeader} (heq : codec.ser h = codec.ser h') : h = h' :=
  codec.eq_of_ser_eq (fits_header h) (fits_header h') heq

/-! ## Commands -/

/-- A command that a message may have: printable, without a zero, and short enough. -/
structure IsCommand (s : Bytes) : Prop where
  length_le : s.length ≤ 12
  printable : ∀ c ∈ s, 0x20 ≤ c ∧ c ≤ 0x7e

theorem IsCommand.ne_zero {s : Bytes} (hs : IsCommand s) : ∀ c ∈ s, c ≠ 0 := by
  rintro c hc rfl
  exact absurd (hs.printable 0 hc).1 (by decide)

theorem IsCommand.strncpy_eq {s : Bytes} (hs : IsCommand s) :
    strncpy 12 s = s ++ List.replicate (12 - s.length) 0 := by
  have hall : s.takeWhile (· ≠ 0) = s := by
    have happend := @List.takeWhile_append_of_pos _ _ _ []
      (fun c hc => decide_eq_true (hs.ne_zero c hc))
    simpa using happend
  rw [strncpy, hall, List.take_of_length_le hs.length_le]

/-- **A header gives the command back** that it was built for. -/
theorem getCommand_new (start : MessageStart) {s : Bytes} (hs : IsCommand s) (n : UInt32) :
    (new start s n).getCommand = s := by
  have hall : ∀ c ∈ s, decide (c ≠ 0) = true := fun c hc => by simpa using hs.ne_zero c hc
  have hzeros : (List.replicate (12 - s.length) (0 : UInt8)).takeWhile (· ≠ 0) = [] := by
    cases 12 - s.length <;> simp [List.replicate_succ]
  show (strncpy 12 s).takeWhile (· ≠ 0) = s
  rw [hs.strncpy_eq, List.takeWhile_append_of_pos hall, hzeros, List.append_nil]

theorem commandValid_append {s : Bytes} (hs : ∀ c ∈ s, 0x20 ≤ c ∧ c ≤ 0x7e) (n : Nat) :
    commandValid (s ++ List.replicate n 0) = true := by
  induction s with
  | nil => cases n <;> simp [commandValid, List.replicate_succ]
  | cons c s ih =>
      obtain ⟨hlo, hhi⟩ := hs c List.mem_cons_self
      have hrest := ih fun d hd => hs d (List.mem_cons_of_mem c hd)
      have hne : c ≠ 0 := by
        rintro rfl
        exact absurd hlo (by decide)
      have hout : (decide (c < 0x20) || decide (0x7e < c)) = false := by
        simp only [Bool.or_eq_false_iff, decide_eq_false_iff_not, UInt8.not_lt]
        exact ⟨hlo, hhi⟩
      rw [List.cons_append, commandValid, if_neg hne, hout, if_neg Bool.false_ne_true]
      exact hrest

/-- **A header that is built for a command is valid**, whatever its checksum is. -/
theorem isValid_new (start : MessageStart) {s : Bytes} (hs : IsCommand s) {n : UInt32}
    (hn : n.toNat ≤ maxSize) (sum : UInt32) :
    ({ new start s n with nChecksum := sum } : CMessageHeader).isValid start = true := by
  have hcommand := commandValid_append hs.printable (12 - s.length)
  rw [← hs.strncpy_eq] at hcommand
  simp [isValid, new, hcommand, hn]

/-! ## Messages -/

/-- `memcpy(&dst[pos], src, ...)`, within the buffer. -/
def memcpy (dst : Bytes) (pos : Nat) (src : Bytes) : Bytes :=
  dst.take pos ++ src ++ dst.drop (pos + src.length)

theorem length_memcpy {dst src : Bytes} {pos : Nat} (h : pos + src.length ≤ dst.length) :
    (memcpy dst pos src).length = dst.length := by
  simp only [memcpy, List.length_append, List.length_take, List.length_drop]
  omega

theorem memcpy_append {a b c src : Bytes} (h : src.length = b.length) :
    memcpy (a ++ b ++ c) a.length src = a ++ src ++ c := by
  have htake : (a ++ b ++ c).take a.length = a := by simp
  have hdrop : (a ++ b ++ c).drop (a.length + src.length) = c := by
    rw [h, ← List.length_append, List.drop_left]
  rw [memcpy, htake, hdrop]

/-- The checksum of the data of a message: the first four bytes of its hash. -/
def checksum (hash : Bytes → Uint256) (data : Bytes) : UInt32 :=
  UInt32.ofNat (leNat ((hash data).val.take 4))

/-- The header of the message with the given data. -/
def ofData (start : MessageStart) (hash : Bytes → Uint256) (pszCommand data : Bytes) :
    CMessageHeader :=
  { new start pszCommand (UInt32.ofNat data.length) with nChecksum := checksum hash data }

/-- The message as it is sent. -/
def rawMessage (start : MessageStart) (hash : Bytes → Uint256) (pszCommand data : Bytes) : Bytes :=
  codec.ser (ofData start hash pszCommand data) ++ data

/-- A frame of the wire: a header and as many bytes as it announces. -/
def IsFrame (b : Bytes) : Prop :=
  ∃ h data, b = codec.ser h ++ data ∧ data.length = h.nMessageSize.toNat ∧
    h.nMessageSize.toNat ≤ maxSize

/-- **The header tells where a message ends**: no message begins with another. -/
theorem prefixFree_isFrame : Frames.PrefixFree IsFrame where
  ne_nil := by
    rintro a ⟨h, data, rfl, -, -⟩ hnil
    have hlen := congrArg List.length hnil
    simp at hlen
  eq_of_prefix := by
    rintro a b ⟨h, data, rfl, hdata, -⟩ ⟨h', data', rfl, hdata', -⟩ ⟨rest, hrest⟩
    rw [List.append_assoc] at hrest
    obtain ⟨hser, htail⟩ := List.append_inj hrest (by simp)
    obtain rfl := ser_injective hser
    have hlen := congrArg List.length htail
    rw [List.length_append, hdata, hdata'] at hlen
    obtain rfl := List.length_eq_zero_iff.mp (show rest.length = 0 by omega)
    rw [hser, ← htail, List.append_nil]

theorem isFrame_rawMessage (start : MessageStart) (hash : Bytes → Uint256) (pszCommand : Bytes)
    {data : Bytes} (hdata : data.length ≤ maxSize) :
    IsFrame (rawMessage start hash pszCommand data) := by
  have hsize : (ofData start hash pszCommand data).nMessageSize.toNat = data.length := by
    have hlt : data.length < 2 ^ 32 := lt_of_le_of_lt hdata (by decide)
    show (UInt32.ofNat data.length).toNat = data.length
    rw [UInt32.toNat_ofNat', Nat.mod_eq_of_lt hlt]
  exact ⟨ofData start hash pszCommand data, data, rfl, hsize.symm, by rw [hsize]; exact hdata⟩

end CMessageHeader
end Hivemind
