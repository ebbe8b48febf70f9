import Hivemind.Coins.Compressor
import Hivemind.Validation.Blocks

/-!
# Undo data

`undo.h` and the undo files of `main.cpp`: what `ConnectBlock` writes down about the outputs that
a block spends, and how it is read back.

The height of the coins stands for the presence of their metadata: without a height the version
is not written.  Heights are shifted to make room for the coinbase flag, in an `unsigned int`,
and the output is written in its compact form, so an entry comes back when its height fits, its
amount is money, and its script is not too long; `Storable` says so.  The data of a block is
written behind the message start and its size, with a checksum over the hash of the previous
block.

* `serTxInUndo`, `deTxInUndo`: the two directions of an entry.
* `deTxInUndo_serTxInUndo`: an entry that is `Storable` comes back.
* `undoReadFromDisk_undoWriteToDisk`: **so does the undo data of a block.**
-/

namespace Hivemind

open Codecs

/-! ## One input -/

/-- `CTxInUndo::Serialize`; `nHeight` is an `unsigned int`. -/
def serTxInUndo (secp : Secp256k1) (undo : CTxInUndo) : Bytes :=
  let nHeight := (undo.nHeight % 2 ^ 32).toNat
  writeVarInt 32 ((nHeight * 2 + if undo.fCoinBase then 1 else 0) % 2 ^ 32) ++
    (if 0 < nHeight then writeVarIntOfInt undo.nVersion else []) ++ serTxOut secp undo.txout

/-- The version of an entry, which is there when the height is. -/
def deUndoVersion (nHeight : Nat) : Reader Int32 := fun s =>
  if 0 < nHeight then
    match readVarInt 32 s with
    | .error e => .error e
    | .ok (n, s) => .ok ((UInt32.ofNat n).toInt32, s)
  else .ok (0, s)

/-- `CTxInUndo::Unserialize`, into a new entry. -/
def deTxInUndo (secp : Secp256k1) : Reader CTxInUndo := fun s =>
  match readVarInt 32 s with
  | .error e => .error e
  | .ok (nCode, s) => match deUndoVersion (nCode / 2) s with
    | .error e => .error e
    | .ok (nVersion, s) => match deTxOut secp s with
      | .error e => .error e
      | .ok (txout, s) =>
        .ok ({ txout, fCoinBase := nCode % 2 = 1, nHeight := ((nCode / 2 : Nat) : Int), nVersion }, s)

/-- What an entry needs to come back. -/
structure CTxInUndo.Storable (undo : CTxInUndo) : Prop where
  value : moneyRange undo.txout.nValue = true
  script : undo.txout.scriptPubKey.length ≤ maxSize
  height_nonneg : 0 ≤ undo.nHeight
  height_lt : undo.nHeight < 2 ^ 31
  version_nonneg : 0 ≤ undo.nVersion
  /-- Metadata that is not there has no version. -/
  version_zero : undo.nHeight = 0 → undo.nVersion = 0

theorem deUndoVersion_ser {nVersion : Int32} {nHeight : Nat} (hnonneg : 0 ≤ nVersion)
    (hzero : nHeight = 0 → nVersion = 0) (s : Bytes) :
    deUndoVersion nHeight ((if 0 < nHeight then writeVarIntOfInt nVersion else []) ++ s) =
      .ok (nVersion, s) := by
  rw [deUndoVersion]
  by_cases h : 0 < nHeight
  · rw [if_pos h, if_pos h, writeVarIntOfInt_eq hnonneg,
      readVarInt_writeVarInt nVersion.toUInt32.toNat_lt (by decide)]
    simp
  · rw [if_neg h, if_neg h, hzero (by omega)]
    rfl

/-- **An entry comes back.** -/
theorem deTxInUndo_serTxInUndo {secp : Secp256k1} (hsecp : secp.Inverts) {undo : CTxInUndo}
    (h : undo.Storable) (s : Bytes) :
    deTxInUndo secp (serTxInUndo secp undo ++ s) = .ok (undo, s) := by
  have hpos := h.height_nonneg
  have hlt := h.height_lt
  have hheight : (undo.nHeight % 2 ^ 32).toNat = undo.nHeight.toNat := by
    rw [Int.emod_eq_of_lt hpos (by omega)]
  have hcode : ∀ c : Nat, c ≤ 1 → (undo.nHeight.toNat * 2 + c) % 2 ^ 32 = undo.nHeight.toNat * 2 + c := by
    intro c hc
    exact Nat.mod_eq_of_lt (by omega)
  have hbit : (if undo.fCoinBase then 1 else 0) ≤ 1 := by split <;> decide
  rw [serTxInUndo, deTxInUndo]
  simp only [hheight, List.append_assoc]
  rw [hcode _ hbit, readVarInt_writeVarInt (by omega) (by decide)]
  have hdiv : (undo.nHeight.toNat * 2 + if undo.fCoinBase then 1 else 0) / 2 = undo.nHeight.toNat := by
    split <;> omega
  have hmod : (decide ((undo.nHeight.toNat * 2 + if undo.fCoinBase then 1 else 0) % 2 = 1)) =
      undo.fCoinBase := by
    cases undo.fCoinBase with
    | true => simp
    | false => simp
  have hzero : undo.nHeight.toNat = 0 → undo.nVersion = 0 := fun h0 => h.version_zero (by omega)
  have hmax : undo.txout.scriptPubKey.length ≤ 0x02000000 := h.script
  have hscript : undo.txout.scriptPubKey.length + 6 < 2 ^ 32 := by omega
  simp only [hdiv, hmod, deUndoVersion_ser h.version_nonneg hzero,
    deTxOut_serTxOut hsecp h.value hscript, Int.toNat_of_nonneg hpos]

/-! ## Blocks -/

/-- `CTxUndo`, writing. -/
def serTxUndo (secp : Secp256k1) (txundo : CTxUndo) : Bytes := serVec (serTxInUndo secp) txundo

/-- `CTxUndo`, reading. -/
def deTxUndo (secp : Secp256k1) : Reader CTxUndo := deVec maxSize (deTxInUndo secp)

/-- `CBlockUndo`, writing. -/
def serBlockUndo (secp : Secp256k1) (blockundo : CBlockUndo) : Bytes :=
  serVec (serTxUndo secp) blockundo

/-- `CBlockUndo`, reading. -/
def deBlockUndo (secp : Secp256k1) : Reader CBlockUndo := deVec maxSize (deTxUndo secp)

/-- The checksum of undo data, over the hash of the previous block and the data. -/
def undoChecksum (env : Env) (secp : Secp256k1) (hashBlock : Uint256) (blockundo : CBlockUndo) :
    Uint256 :=
  env.hash (hashBlock.val ++ serBlockUndo secp blockundo)

/-- `UndoWriteToDisk`: what stands in the file from the position on that it returns. -/
def undoWriteToDisk (env : Env) (secp : Secp256k1) (hashBlock : Uint256) (blockundo : CBlockUndo) :
    Bytes :=
  serBlockUndo secp blockundo ++ (undoChecksum env secp hashBlock blockundo).val

/-- `UndoReadFromDisk`. -/
def undoReadFromDisk (env : Env) (secp : Secp256k1) (hashBlock : Uint256) (file : Bytes) :
    Except Stop CBlockUndo :=
  match deBlockUndo secp file with
  | .error _ => .error .failed
  | .ok (blockundo, file) => match (Blob.codec : Codec Uint256).de file with
    | .error _ => .error .failed
    | .ok (hashChecksum, _) =>
      if hashChecksum ≠ undoChecksum env secp hashBlock blockundo then .error .failed
      else .ok blockundo

/-- What the undo data of a block needs to come back. -/
def StorableUndo (blockundo : CBlockUndo) : Prop :=
  blockundo.length ≤ maxSize ∧
    ∀ txundo ∈ blockundo, txundo.length ≤ maxSize ∧ ∀ undo ∈ txundo, undo.Storable

/-- **Undo data is read back as it was written.** -/
theorem undoReadFromDisk_undoWriteToDisk (env : Env) {secp : Secp256k1} (hsecp : secp.Inverts)
    (hashBlock : Uint256) {blockundo : CBlockUndo} (h : StorableUndo blockundo) :
    undoReadFromDisk env secp hashBlock (undoWriteToDisk env secp hashBlock blockundo) =
      .ok blockundo := by
  have htx : ∀ txundo ∈ blockundo, ∀ r,
      deTxUndo secp (serTxUndo secp txundo ++ r) = .ok (txundo, r) := by
    intro txundo hmem r
    obtain ⟨hlen, hundo⟩ := h.2 txundo hmem
    exact deVec_serVec (fun u hu => deTxInUndo_serTxInUndo hsecp (hundo u hu)) hlen (by decide) r
  have hblock : ∀ r, deBlockUndo secp (serBlockUndo secp blockundo ++ r) = .ok (blockundo, r) :=
    fun r => deVec_serVec htx h.1 (by decide) r
  have hsum := Codec.de_ser (Blob.fits_codec (undoChecksum env secp hashBlock blockundo)) []
  rw [List.append_nil] at hsum
  rw [undoReadFromDisk, undoWriteToDisk, hblock]
  dsimp only
  rw [show (undoChecksum env secp hashBlock blockundo).val
    = Blob.codec.ser (undoChecksum env secp hashBlock blockundo) from rfl, hsum]
  simp

end Hivemind
