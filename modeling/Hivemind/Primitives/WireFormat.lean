import Hivemind.Primitives.Transaction

/-!
# The wire format of a transaction

The templates of `serialize.h` as `CTransaction` instantiates them.  `Serialize` runs over any
stream; over a `CSizeComputer` the same traversal only counts, and that count is
`GetSerializeSize`.  `Unserialize` reads vectors block by block.

The codec of a transaction in the data model is what the format is meant to be.  Here the
traversals are written as the templates expand, with the block-wise reader that keeps a stream
with a wrong size from allocating more than it has, and are shown to be that codec: on any stream
for writing, and for reading with the same failures.

* `CTransaction.serialize_eq`: on every stream, `Serialize` writes the codec's bytes.
* `CTransaction.unserialize_eq`: the block-wise reader is the codec's reader.
* `length_serialized_lt`: the size of a transaction within the limits does not overflow.
* `CTransaction.wireFormat`: **the three traversals agree**, and encodings are unique.
* `CTransaction.wireFormat_wiredTx`: a transaction is read back with three bytes behind it.
-/

namespace Hivemind

open Codecs

/-! ## Writing -/

section Serialize

variable {σ α : Type} (os : Sink σ)

/-- `WriteCompactSize`. -/
def writeCompactSize (s : σ) (nSize : UInt64) : σ :=
  if nSize < 253 then os.write s [nSize.toUInt8]
  else if nSize ≤ 0xffff then os.write (os.write s [253]) (leBytes 2 nSize.toUInt16.toNat)
  else if nSize ≤ 0xffffffff then os.write (os.write s [254]) (leBytes 4 nSize.toUInt32.toNat)
  else os.write (os.write s [255]) (leBytes 8 nSize.toNat)

/-- `Serialize_impl` of a `std::vector<unsigned char>`. -/
def serializeBytes (s : σ) (v : Bytes) : σ :=
  let s := writeCompactSize os s (UInt64.ofNat v.length)
  if v.isEmpty then s else os.write s v

/-- `Serialize_impl` of a `std::vector<T>`. -/
def serializeVector (serialize : σ → α → σ) (s : σ) (v : List α) : σ :=
  v.foldl serialize (writeCompactSize os s (UInt64.ofNat v.length))

/-- `COutPoint` is written as it lies in memory. -/
def COutPoint.serialize (s : σ) (o : COutPoint) : σ :=
  os.write s (o.hash.val ++ leBytes 4 o.n.toNat)

def CTxIn.serialize (s : σ) (i : CTxIn) : σ :=
  let s := i.prevout.serialize os s
  let s := serializeBytes os s i.scriptSig
  os.write s (leBytes 4 i.nSequence.toNat)

def CTxOut.serialize (s : σ) (o : CTxOut) : σ :=
  let s := os.write s (leBytes 8 o.nValue.toUInt64.toNat)
  serializeBytes os s o.scriptPubKey

/-- `CTransaction::SerializationOp` for writing. -/
def CTransaction.serialize (s : σ) (tx : CTransaction) : σ :=
  let s := os.write s (leBytes 4 tx.nVersion.toUInt32.toNat)
  let s := serializeVector os (CTxIn.serialize os) s tx.vin
  let s := serializeVector os (CTxOut.serialize os) s tx.vout
  os.write s (leBytes 4 tx.nLockTime.toNat)

theorem writeCompactSize_eq (s : σ) (n : UInt64) :
    writeCompactSize os s n = os.write s (Codec.writeSize n) := by
  have hn := n.toNat_lt
  have h1 : n < 253 ↔ n.toNat < 253 := UInt64.lt_iff_toNat_lt
  have h2 : n ≤ 0xffff ↔ n.toNat < 2 ^ 16 := by
    rw [UInt64.le_iff_toNat_le]
    show n.toNat ≤ 65535 ↔ _
    omega
  have h3 : n ≤ 0xffffffff ↔ n.toNat < 2 ^ 32 := by
    rw [UInt64.le_iff_toNat_le]
    show n.toNat ≤ 4294967295 ↔ _
    omega
  unfold writeCompactSize Codec.writeSize
  simp only [h1, h2, h3]
  split_ifs with c1 c2 c3
  · rfl
  · rw [← os.write_append, UInt64.toNat_toUInt16, Nat.mod_eq_of_lt c2]
    rfl
  · rw [← os.write_append, UInt64.toNat_toUInt32, Nat.mod_eq_of_lt c3]
    rfl
  · rw [← os.write_append]
    rfl

theorem serializeBytes_eq (s : σ) (v : Bytes) :
    serializeBytes os s v = os.write s (stringCodec.ser v) := by
  have hv : v.flatMap Codec.u8.ser = v := by
    show v.flatMap (fun b => [b]) = v
    simp
  have hser : stringCodec.ser v = Codec.writeSize (UInt64.ofNat v.length) ++ v := by
    show _ ++ v.flatMap Codec.u8.ser = _
    rw [hv]
  rw [serializeBytes, writeCompactSize_eq, hser, os.write_append]
  cases v with
  | nil => simp [os.write_nil]
  | cons b v => simp

theorem serializeVector_eq {c : Codec α} {serialize : σ → α → σ}
    (h : ∀ s x, serialize s x = os.write s (c.ser x)) (s : σ) (v : List α) :
    serializeVector os serialize s v = os.write s ((vectorCodec c).ser v) := by
  have hfun : serialize = fun s x => os.write s (c.ser x) := by
    funext s x
    exact h s x
  rw [serializeVector, writeCompactSize_eq, hfun, os.foldl_write, ← os.write_append]
  rfl

theorem COutPoint.serialize_eq (s : σ) (o : COutPoint) :
    o.serialize os s = os.write s (COutPoint.codec.ser o) := rfl

theorem CTxIn.serialize_eq (s : σ) (i : CTxIn) :
    i.serialize os s = os.write s (CTxIn.codec.ser i) := by
  simp only [CTxIn.serialize, COutPoint.serialize_eq, serializeBytes_eq, ← os.write_append]
  rw [List.append_assoc]
  rfl

theorem CTxOut.serialize_eq (s : σ) (o : CTxOut) :
    o.serialize os s = os.write s (CTxOut.codec.ser o) := by
  simp only [CTxOut.serialize, serializeBytes_eq, ← os.write_append]
  rfl

/-- **One traversal for every stream**: whatever it writes to, `Serialize` writes
the bytes of the codec. -/
theorem CTransaction.serialize_eq (s : σ) (tx : CTransaction) :
    tx.serialize os s = os.write s (CTransaction.codec.ser tx) := by
  have hin : ∀ s v, serializeVector os (CTxIn.serialize os) s v
      = os.write s ((vectorCodec CTxIn.codec).ser v) :=
    serializeVector_eq os (CTxIn.serialize_eq os)
  have hout : ∀ s v, serializeVector os (CTxOut.serialize os) s v
      = os.write s ((vectorCodec CTxOut.codec).ser v) :=
    serializeVector_eq os (CTxOut.serialize_eq os)
  simp only [CTransaction.serialize, hin, hout, ← os.write_append]
  rw [List.append_assoc, List.append_assoc]
  rfl

end Serialize

/-! ## Reading -/

section Unserialize

variable {α : Type}

/-- `Unserialize_impl` of a `std::vector<unsigned char>`, once its size is known:
`1 + 4999999 / sizeof(T)` bytes at a time. -/
def readByteBlocks (n : Nat) (s : Bytes) : Except ReadError (Bytes × Bytes) :=
  if n = 0 then .ok ([], s)
  else do
    let blk := min n (1 + 4999999 / 1)
    let (b, s) ← Codec.readBytes blk s
    let (v, s) ← readByteBlocks (n - blk) s
    return (b ++ v, s)
termination_by n

/-- `Unserialize_impl` of a `std::vector<T>`, once its size is known: `nBlock`
elements are made room for at a time and then read one by one. -/
def readBlocks (unserialize : Reader α) {nBlock : Nat} (hBlock : 0 < nBlock) (n : Nat)
    (s : Bytes) : Except ReadError (List α × Bytes) :=
  if n = 0 then .ok ([], s)
  else do
    let blk := min n nBlock
    let (b, s) ← Codec.readMany unserialize blk s
    let (v, s) ← readBlocks unserialize hBlock (n - blk) s
    return (b ++ v, s)
termination_by n

def unserializeBytes : Reader Bytes := fun s => do
  let (nSize, s) ← Codec.readSize maxSize s
  readByteBlocks nSize s

def unserializeVector (unserialize : Reader α) {nBlock : Nat} (hBlock : 0 < nBlock) :
    Reader (List α) := fun s => do
  let (nSize, s) ← Codec.readSize maxSize s
  readBlocks unserialize hBlock nSize s

/-- The sizes of the two element types in memory. -/
def sizeofTxIn : Nat := 72

def sizeofTxOut : Nat := 32

def COutPoint.unserialize : Reader COutPoint := fun s => do
  let (b, s) ← Codec.readBytes 36 s
  return (⟨Blob.ofBytes (b.take 32), UInt32.ofNat (leNat (b.drop 32))⟩, s)

def CTxIn.unserialize : Reader CTxIn := fun s => do
  let (prevout, s) ← COutPoint.unserialize s
  let (scriptSig, s) ← unserializeBytes s
  let (nSequence, s) ← Codec.u32.de s
  return (⟨prevout, scriptSig, nSequence⟩, s)

def CTxOut.unserialize : Reader CTxOut := fun s => do
  let (nValue, s) ← Codec.i64.de s
  let (scriptPubKey, s) ← unserializeBytes s
  return (⟨nValue, scriptPubKey⟩, s)

/-- `CTransaction::SerializationOp` for reading. -/
def CTransaction.unserialize : Reader CTransaction := fun s => do
  let (nVersion, s) ← Codec.i32.de s
  let (vin, s) ← unserializeVector CTxIn.unserialize (show 0 < 5000000 / sizeofTxIn by decide) s
  let (vout, s) ← unserializeVector CTxOut.unserialize (show 0 < 5000000 / sizeofTxOut by decide) s
  let (nLockTime, s) ← Codec.u32.de s
  return (⟨nVersion, vin, vout, nLockTime⟩, s)

theorem readByteBlocks_eq (n : Nat) (s : Bytes) :
    readByteBlocks n s = Codec.readMany Codec.u8.de n s := by
  fun_induction readByteBlocks n s with
  | case1 s => rfl
  | case2 n s hn blk ih =>
      have hblk : n = blk + (n - blk) := by omega
      rw [hblk, Codec.readMany_add, Codec.readMany_u8]
      simp only [ih, Nat.add_sub_cancel_left]

theorem readBlocks_eq (unserialize : Reader α) {nBlock : Nat} (hBlock : 0 < nBlock) (n : Nat)
    (s : Bytes) : readBlocks unserialize hBlock n s = Codec.readMany unserialize n s := by
  fun_induction readBlocks unserialize hBlock n s with
  | case1 s => rfl
  | case2 n s hn blk ih =>
      have hblk : n = blk + (n - blk) := by omega
      rw [hblk, Codec.readMany_add]
      simp only [ih, Nat.add_sub_cancel_left]

theorem unserializeVector_eq (c : Codec α) {nBlock : Nat} (hBlock : 0 < nBlock) (s : Bytes) :
    unserializeVector c.de hBlock s = (vectorCodec c).de s := by
  simp only [unserializeVector, readBlocks_eq, vectorCodec, Codec.vec]
  cases Codec.readSize maxSize s <;> rfl

theorem unserializeBytes_eq (s : Bytes) : unserializeBytes s = stringCodec.de s := by
  simp only [unserializeBytes, readByteBlocks_eq, stringCodec, Codec.vec]
  cases Codec.readSize maxSize s <;> rfl

theorem COutPoint.unserialize_eq (s : Bytes) : unserialize s = codec.de s := by
  -- one read of 36 bytes against a read of 32 and one of 4
  have hhash : (Blob.codec : Codec Uint256).de s
      = (Codec.readBytes 32 s).map fun p => (Blob.ofBytes p.1, p.2) := rfl
  have hn : ∀ t, Codec.u32.de t
      = (Codec.readBytes 4 t).map fun p => (UInt32.ofNat (leNat p.1), p.2) := fun _ => rfl
  rw [codec, Codec.iso_de, Codec.prod_de, hhash]
  simp only [hn, unserialize, Codec.readBytes]
  by_cases h32 : 32 ≤ s.length
  · by_cases h36 : 36 ≤ s.length
    · have h4 : 4 ≤ s.length - 32 := by omega
      simp [h32, h36, h4, Except.map, Bind.bind, Except.bind, pure, Except.pure, List.take_take,
        List.drop_take]
    · have h4 : ¬ 4 ≤ s.length - 32 := by omega
      simp [h32, h36, h4, Except.map, Bind.bind, Except.bind]
  · have h36 : ¬ 36 ≤ s.length := by omega
    simp [h32, h36, Except.map, Bind.bind, Except.bind]

theorem CTxIn.unserialize_eq (s : Bytes) : unserialize s = codec.de s := by
  rw [codec, Codec.iso_de, Codec.prod_de, unserialize]
  simp only [Codec.prod_de, COutPoint.unserialize_eq, unserializeBytes_eq]
  cases COutPoint.codec.de s with
  | error e => rfl
  | ok p =>
      simp only [Bind.bind, Except.bind]
      cases stringCodec.de p.2 with
      | error e => rfl
      | ok q =>
          dsimp only
          cases Codec.u32.de q.2 <;> rfl

theorem CTxOut.unserialize_eq (s : Bytes) : unserialize s = codec.de s := by
  rw [codec, Codec.iso_de, Codec.prod_de, unserialize]
  simp only [unserializeBytes_eq]
  cases Codec.i64.de s with
  | error e => rfl
  | ok p =>
      simp only [Bind.bind, Except.bind]
      cases stringCodec.de p.2 <;> rfl

/-- **Reading in blocks is reading**: `Unserialize` accepts what the codec's reader
accepts, and returns the same. -/
theorem CTransaction.unserialize_eq (s : Bytes) : unserialize s = codec.de s := by
  have hin : CTxIn.unserialize = CTxIn.codec.de := funext CTxIn.unserialize_eq
  have hout : CTxOut.unserialize = CTxOut.codec.de := funext CTxOut.unserialize_eq
  rw [codec, Codec.iso_de, Codec.prod_de, unserialize, hin, hout]
  simp only [Codec.prod_de, unserializeVector_eq]
  cases Codec.i32.de s with
  | error e => rfl
  | ok p =>
      simp only [Bind.bind, Except.bind]
      cases (vectorCodec CTxIn.codec).de p.2 with
      | error e => rfl
      | ok q =>
          dsimp only
          cases (vectorCodec CTxOut.codec).de q.2 with
          | error e => rfl
          | ok u =>
              dsimp only
              cases Codec.u32.de u.2 <;> rfl

end Unserialize

/-! ## The three traversals -/

namespace CTransaction

/-- The bytes `Serialize` puts on an empty data stream. -/
def serialized (tx : CTransaction) : Bytes := tx.serialize Sink.data []

/-- `CTransaction::GetSerializeSize`: `Serialize` on a `CSizeComputer`. -/
def getSerializeSize (tx : CTransaction) : UInt64 := tx.serialize Sink.size 0

/-- No vector or script has more than `MAX_SIZE` elements. -/
def WithinMaxSize (tx : CTransaction) : Prop :=
  (tx.vin.length ≤ maxSize ∧ ∀ i ∈ tx.vin, i.scriptSig.length ≤ maxSize) ∧
  (tx.vout.length ≤ maxSize ∧ ∀ o ∈ tx.vout, o.scriptPubKey.length ≤ maxSize)

theorem serialized_eq (tx : CTransaction) : tx.serialized = codec.ser tx := by
  rw [serialized, serialize_eq]
  rfl

theorem getSerializeSize_eq (tx : CTransaction) :
    tx.getSerializeSize = UInt64.ofNat tx.serialized.length := by
  rw [getSerializeSize, serialize_eq, serialized_eq]
  show 0 + UInt64.ofNat _ = _
  simp

theorem fits_iff (tx : CTransaction) : codec.Fits tx ↔ tx.WithinMaxSize := by
  simp [codec, CTxIn.codec, CTxOut.codec, WithinMaxSize]

/-- The size of a transaction within the limits does not overflow. -/
theorem length_serialized_lt {tx : CTransaction} (h : tx.WithinMaxSize) :
    tx.serialized.length < 2 ^ 64 := by
  obtain ⟨⟨hnin, hin⟩, hnout, hout⟩ := h
  have hscript : ∀ b : Bytes, b.length ≤ maxSize → (stringCodec.ser b).length ≤ 9 + maxSize := by
    intro b hb
    have hle := @Codec.length_vec_ser_le _ maxSize 1 Codec.u8 b (fun _ _ => Nat.le_refl 1)
    exact le_trans hle (by omega)
  have hi : ∀ i ∈ tx.vin, (CTxIn.codec.ser i).length ≤ 49 + maxSize := by
    intro i hi
    have hlen : (CTxIn.codec.ser i).length = 36 + ((stringCodec.ser i.scriptSig).length + 4) := by
      show ((i.prevout.hash.val ++ leBytes 4 _) ++ (stringCodec.ser _ ++ leBytes 4 _)).length = _
      simp [i.prevout.hash.property]
      omega
    have hs := hscript i.scriptSig (hin i hi)
    omega
  have ho : ∀ o ∈ tx.vout, (CTxOut.codec.ser o).length ≤ 49 + maxSize := by
    intro o ho
    have hlen : (CTxOut.codec.ser o).length = 8 + (stringCodec.ser o.scriptPubKey).length := by
      show (leBytes 8 _ ++ stringCodec.ser _).length = _
      simp
    have hs := hscript o.scriptPubKey (hout o ho)
    omega
  have hvin := @Codec.length_vec_ser_le _ maxSize _ CTxIn.codec tx.vin hi
  have hvout := @Codec.length_vec_ser_le _ maxSize _ CTxOut.codec tx.vout ho
  have hmulin : tx.vin.length * (49 + maxSize) ≤ maxSize * (49 + maxSize) :=
    Nat.mul_le_mul_right _ hnin
  have hmulout : tx.vout.length * (49 + maxSize) ≤ maxSize * (49 + maxSize) :=
    Nat.mul_le_mul_right _ hnout
  have hmax : maxSize * (49 + maxSize) < 2 ^ 60 := by decide
  have hlen : tx.serialized.length = 4 + (((vectorCodec CTxIn.codec).ser tx.vin).length
      + (((vectorCodec CTxOut.codec).ser tx.vout).length + 4)) := by
    rw [serialized_eq]
    show (leBytes 4 _ ++ (_ ++ (_ ++ leBytes 4 _))).length = _
    simp [vectorCodec]
  simp only [vectorCodec] at hlen
  omega

theorem canonical_codec : codec.Canonical := by
  have hscript : stringCodec.Canonical := Codec.Canonical.vec Codec.canonical_fixed
  have hprevout : COutPoint.codec.Canonical :=
    (Codec.canonical_fixed.prod Codec.canonical_fixed).iso
  have hin : CTxIn.codec.Canonical := (hprevout.prod (hscript.prod Codec.canonical_fixed)).iso
  have hout : CTxOut.codec.Canonical := (Codec.canonical_fixed.prod hscript).iso
  exact (Codec.canonical_fixed.prod (hin.vec.prod (hout.vec.prod Codec.canonical_fixed))).iso

theorem unserialize_serialized {tx : CTransaction} (h : tx.WithinMaxSize) (r : Bytes) :
    unserialize (tx.serialized ++ r) = .ok (tx, r) := by
  rw [unserialize_eq, serialized_eq]
  exact Codec.de_ser ((fits_iff tx).mpr h) r

theorem eq_serialized_of_unserialize {s r : Bytes} {tx : CTransaction}
    (h : unserialize s = .ok (tx, r)) : s = tx.serialized ++ r := by
  rw [unserialize_eq] at h
  rw [serialized_eq]
  exact canonical_codec.eq_append_of_de h

/-- **The wire format of a transaction**: within `MAX_SIZE`, a transaction is read
back from its serialization, whatever follows it, and exactly `GetSerializeSize`
bytes are consumed.  Whatever is accepted is what its transaction is written as,
so that two encodings of one transaction are the same. -/
theorem wireFormat :
    (∀ tx : CTransaction, tx.WithinMaxSize →
      tx.serialized.length = tx.getSerializeSize.toNat ∧
      ∀ r, unserialize (tx.serialized ++ r) = .ok (tx, r)) ∧
    (∀ s tx r, unserialize s = .ok (tx, r) →
      s = tx.serialized ++ r ∧ s.length = tx.getSerializeSize.toNat + r.length) ∧
    (∀ s₁ s₂ tx r₁ r₂, unserialize s₁ = .ok (tx, r₁) → unserialize s₂ = .ok (tx, r₂) →
      ∃ e, s₁ = e ++ r₁ ∧ s₂ = e ++ r₂) := by
  have hsize : ∀ tx : CTransaction, tx.WithinMaxSize →
      tx.serialized.length = tx.getSerializeSize.toNat := by
    intro tx h
    rw [getSerializeSize_eq, UInt64.toNat_ofNat_of_lt' (length_serialized_lt h)]
  refine ⟨fun tx h => ⟨hsize tx h, unserialize_serialized h⟩, ?_, ?_⟩
  · intro s tx r h
    have heq := eq_serialized_of_unserialize h
    have hfits : tx.WithinMaxSize := by
      rw [unserialize_eq] at h
      exact (fits_iff tx).mp (Codec.fits_of_de h)
    refine ⟨heq, ?_⟩
    rw [heq, List.length_append, hsize tx hfits]
  · intro s₁ s₂ tx r₁ r₂ h₁ h₂
    exact ⟨tx.serialized, eq_serialized_of_unserialize h₁, eq_serialized_of_unserialize h₂⟩

/-- A transaction with an input and two outputs. -/
def wiredTx : CTransaction where
  vin := [{ prevout := ⟨Blob.fill 1, 0⟩, scriptSig := [0x51] }]
  vout := [⟨1000, [0x51]⟩, ⟨500, [0x52, 0x87]⟩]

/-- It is read back with three bytes behind it. -/
theorem wireFormat_wiredTx :
    wiredTx.serialized.length = wiredTx.getSerializeSize.toNat ∧
    unserialize (wiredTx.serialized ++ [7, 8, 9]) = .ok (wiredTx, [7, 8, 9]) ∧
    (wiredTx.serialized ++ [7, 8, 9]).length = wiredTx.getSerializeSize.toNat + 3 := by
  have hwithin : wiredTx.WithinMaxSize := by
    rw [WithinMaxSize]
    decide
  obtain ⟨hlen, hread⟩ := wireFormat.1 wiredTx hwithin
  have hsize := (wireFormat.2.1 _ _ _ (hread [7, 8, 9])).2
  exact ⟨hlen, hread [7, 8, 9], hsize⟩

end CTransaction
end Hivemind
