import Hivemind.Chain.BlockTree
import Hivemind.TxDb.MarketTree

/-!
# The block index database

`CDiskBlockIndex` of `chain.h` and the part of `CBlockTreeDB` (`txdb.cpp`) that keeps the entries
of the block index and what is known of the block files.  Of an entry only the fields that cannot
be computed again are written, and the position of the data only if there are data.

The database is the ordered map that the market index uses too, with the keys of the source: an
entry under its hash, the record of a file under its number, and three single records.  The first
byte tells them apart, so a batch of entries and files can be looked at key by key.  The records
of the files are read field by field, and a record that ends early keeps the fields that were
read.

* `CDiskBlockIndex.de_ser`: what is left of an entry that is written and read.
* `StoresIndex`: the records of the database that hold the block index, and no others.
* `find_writeBatchSync`: what a batch leaves under a key that is none of the files.
* `StoresIndex.writeBatchSync`: **the index after a batch** has been written.
-/

namespace Hivemind

open Codecs Ordered

/-! ## Entries on disk -/

/-- `CDiskBlockIndex`. -/
structure CDiskBlockIndex extends CBlockIndex where
  hashPrev : Uint256 := Blob.null
  deriving DecidableEq

/-- `CLIENT_VERSION`. -/
def clientVersion : Int32 := 109900

/-- `VARINT` of an `int`, reading. -/
def intOfVarInt (n : Nat) : Int := (UInt32.ofNat n).toInt32.toInt

/-- Read a number if it is there. -/
def readVarIntIf (present : Bool) : Reader Nat := fun s =>
  if present then readVarInt 32 s else .ok (0, s)

namespace CDiskBlockIndex

/-- `CDiskBlockIndex(const CBlockIndex*)`. -/
def ofIndex (pindex : CBlockIndex) : CDiskBlockIndex :=
  { pindex with hashPrev := pindex.pprev.getD Blob.null }

/-- The header of the block. -/
def header (d : CDiskBlockIndex) : CBlockHeader :=
  ⟨d.nVersion, d.hashPrev, d.hashMerkleRoot, d.nTime, d.nBits, d.nNonce⟩

/-- `CDiskBlockIndex::GetBlockHash`. -/
def getBlockHash (hash : Bytes → Uint256) (d : CDiskBlockIndex) : Uint256 := d.header.getHash hash

/-- The file number is written. -/
def hasFile (nStatus : BlockStatus) : Bool := hasStatus nStatus (blockHaveData ||| blockHaveUndo)

/-- `CDiskBlockIndex::SerializationOp`, writing. -/
def ser (d : CDiskBlockIndex) : Bytes :=
  writeVarIntOfInt clientVersion ++ (writeVarIntOfInt (Int32.ofInt d.nHeight) ++
  (writeVarInt 32 d.nStatus.toNat ++ (writeVarInt 32 d.nTx.toNat ++
  ((if hasFile d.nStatus then writeVarIntOfInt (Int32.ofInt d.nFile) else []) ++
  ((if hasStatus d.nStatus blockHaveData then writeVarInt 32 d.nDataPos.toNat else []) ++
  ((if hasStatus d.nStatus blockHaveUndo then writeVarInt 32 d.nUndoPos.toNat else []) ++
  CBlockHeader.codec.ser d.header))))))

/-- `CDiskBlockIndex::SerializationOp`, reading into a new entry.  The version of the
client is not looked at. -/
def de : Reader CDiskBlockIndex := fun s => do
  let (_, s) ← readVarInt 32 s
  let (nHeight, s) ← readVarInt 32 s
  let (nStatus, s) ← readVarInt 32 s
  let nStatus := UInt32.ofNat nStatus
  let (nTx, s) ← readVarInt 32 s
  let (nFile, s) ← readVarIntIf (hasFile nStatus) s
  let (nDataPos, s) ← readVarIntIf (hasStatus nStatus blockHaveData) s
  let (nUndoPos, s) ← readVarIntIf (hasStatus nStatus blockHaveUndo) s
  let (header, s) ← CBlockHeader.codec.de s
  return ({ CBlockIndex.ofHeader header with
    nHeight := intOfVarInt nHeight
    nStatus
    nTx := UInt32.ofNat nTx
    nFile := intOfVarInt nFile
    nDataPos := UInt32.ofNat nDataPos
    nUndoPos := UInt32.ofNat nUndoPos
    hashPrev := header.hashPrevBlock }, s)

/-- What comes back of an entry. -/
def stored (d : CDiskBlockIndex) : CDiskBlockIndex where
  nHeight := d.nHeight
  nStatus := d.nStatus
  nTx := d.nTx
  nFile := if hasFile d.nStatus then d.nFile else 0
  nDataPos := if hasStatus d.nStatus blockHaveData then d.nDataPos else 0
  nUndoPos := if hasStatus d.nStatus blockHaveUndo then d.nUndoPos else 0
  nVersion := d.nVersion
  hashMerkleRoot := d.hashMerkleRoot
  nTime := d.nTime
  nBits := d.nBits
  nNonce := d.nNonce
  hashPrev := d.hashPrev

/-- The numbers of an entry that are written as an `int` are not negative. -/
structure Storable (d : CDiskBlockIndex) : Prop where
  nHeight : 0 ≤ d.nHeight ∧ d.nHeight < 2 ^ 31
  nFile : 0 ≤ d.nFile ∧ d.nFile < 2 ^ 31

end CDiskBlockIndex

theorem readVarInt_writeVarIntOfInt {n : Int} (h : 0 ≤ n ∧ n < 2 ^ 31) (s : Bytes) :
    readVarInt 32 (writeVarIntOfInt (Int32.ofInt n) ++ s) = .ok (n.toNat, s) := by
  have hint : (Int32.ofInt n).toInt = n := Int32.toInt_ofInt_of_le (by omega) (by omega)
  have hnonneg : 0 ≤ Int32.ofInt n := by
    rw [Int32.le_iff_toInt_le, hint]
    exact h.1
  have hnat : (Int32.ofInt n).toUInt32.toNat = n.toNat := by
    rw [toNat_toUInt32_of_nonneg hnonneg, hint]
  rw [writeVarIntOfInt_eq hnonneg, hnat, readVarInt_writeVarInt (by omega) (by decide)]

theorem intOfVarInt_toNat {n : Int} (h : 0 ≤ n ∧ n < 2 ^ 31) : intOfVarInt n.toNat = n := by
  have hnat : (UInt32.ofNat n.toNat).toNat = n.toNat := by
    rw [UInt32.toNat_ofNat']
    omega
  have hint : ((n.toNat : Nat) : Int) = n := Int.toNat_of_nonneg h.1
  rw [intOfVarInt, Int32.toInt, UInt32.toBitVec_toInt32, BitVec.toInt_eq_toNat_of_lt]
  · rw [UInt32.toNat_toBitVec, hnat, hint]
  · rw [UInt32.toNat_toBitVec, hnat]
    omega

theorem readVarIntIf_writeVarInt (present : Bool) (n : UInt32) (s : Bytes) :
    readVarIntIf present ((if present then writeVarInt 32 n.toNat else []) ++ s) =
      .ok (if present then n.toNat else 0, s) := by
  cases present with
  | true => exact readVarInt_writeVarInt n.toNat_lt (by decide) s
  | false => rfl

theorem readVarIntIf_writeVarIntOfInt (present : Bool) {n : Int} (h : 0 ≤ n ∧ n < 2 ^ 31)
    (s : Bytes) :
    readVarIntIf present ((if present then writeVarIntOfInt (Int32.ofInt n) else []) ++ s) =
      .ok (if present then n.toNat else 0, s) := by
  cases present with
  | true => exact readVarInt_writeVarIntOfInt h s
  | false => rfl

namespace CDiskBlockIndex

@[simp] theorem header_stored (d : CDiskBlockIndex) : d.stored.header = d.header := rfl

@[simp] theorem getBlockHash_stored (hash : Bytes → Uint256) (d : CDiskBlockIndex) :
    d.stored.getBlockHash hash = d.getBlockHash hash := rfl

/-- **An entry is read back**, without the fields that are computed when the index is
loaded. -/
theorem de_ser {d : CDiskBlockIndex} (h : d.Storable) (r : Bytes) :
    de (d.ser ++ r) = .ok (d.stored, r) := by
  have hversion : ∀ s, readVarInt 32 (writeVarIntOfInt clientVersion ++ s) = .ok (109900, s) :=
    readVarInt_writeVarIntOfInt (n := 109900) (by decide)
  have hheader : CBlockHeader.codec.de (CBlockHeader.codec.ser d.header ++ r) = .ok (d.header, r) :=
    Codec.de_ser (by simp [CBlockHeader.codec]) r
  have hfile : intOfVarInt (if hasFile d.nStatus then d.nFile.toNat else 0) =
      if hasFile d.nStatus then d.nFile else 0 := by
    split_ifs
    · exact intOfVarInt_toNat h.nFile
    · rfl
  rw [de, ser]
  simp only [List.append_assoc, hversion, readVarInt_writeVarIntOfInt h.nHeight,
    readVarInt_writeVarInt (UInt32.toNat_lt _) (show 0 < 32 by decide), UInt32.ofNat_toNat,
    readVarIntIf_writeVarInt, readVarIntIf_writeVarIntOfInt _ h.nFile, hheader, bind, Except.bind,
    pure, Except.pure, intOfVarInt_toNat h.nHeight, hfile, apply_ite UInt32.ofNat]
  rfl

end CDiskBlockIndex

/-! ## Block files -/

namespace CBlockFileInfo

/-- `CBlockFileInfo::SerializationOp`, writing. -/
def ser (info : CBlockFileInfo) : Bytes :=
  writeVarInt 32 info.nBlocks.toNat ++ writeVarInt 32 info.nSize.toNat ++
  writeVarInt 32 info.nUndoSize.toNat ++ writeVarInt 32 info.nHeightFirst.toNat ++
  writeVarInt 32 info.nHeightLast.toNat ++ writeVarInt 64 info.nTimeFirst.toNat ++
  writeVarInt 64 info.nTimeLast.toNat

/-- Read one field, and leave it and all later ones when the data end. -/
def readField (w : Nat) (set : Nat → CBlockFileInfo → CBlockFileInfo)
    (state : Option Bytes × CBlockFileInfo) : Option Bytes × CBlockFileInfo :=
  match state with
  | (none, info) => (none, info)
  | (some s, info) => match readVarInt w s with
    | .error _ => (none, info)
    | .ok (n, s) => (some s, set n info)

/-- `CBlockFileInfo::SerializationOp`, reading: whether all fields have been read, and the
fields that have. -/
def unserialize (info : CBlockFileInfo) (s : Bytes) : Bool × CBlockFileInfo :=
  let state := readField 32 (fun n info => { info with nBlocks := UInt32.ofNat n }) (some s, info)
  let state := readField 32 (fun n info => { info with nSize := UInt32.ofNat n }) state
  let state := readField 32 (fun n info => { info with nUndoSize := UInt32.ofNat n }) state
  let state := readField 32 (fun n info => { info with nHeightFirst := UInt32.ofNat n }) state
  let state := readField 32 (fun n info => { info with nHeightLast := UInt32.ofNat n }) state
  let state := readField 64 (fun n info => { info with nTimeFirst := UInt64.ofNat n }) state
  let state := readField 64 (fun n info => { info with nTimeLast := UInt64.ofNat n }) state
  (state.1.isSome, state.2)

end CBlockFileInfo

namespace CBlockTreeDB

/-- The key of the entry of a block: `make_pair('b', hash)`. -/
def blockKey (hash : Uint256) : Bytes := 0x62 :: hash.val

/-- The key of what is known of a block file: `make_pair('f', nFile)`. -/
def fileKey (nFile : Int32) : Bytes := 0x66 :: Codec.i32.ser nFile

/-- `CBlockTreeDB::ReadBlockFileInfo`. -/
def readBlockFileInfo (db : LevelDB) (nFile : Int32) (info : CBlockFileInfo) :
    Bool × CBlockFileInfo :=
  match db.find (fileKey nFile) with
  | none => (false, info)
  | some value => info.unserialize value

/-- `CBlockTreeDB::ReadLastBlockFile`: the number, or the one there was. -/
def readLastBlockFile (db : LevelDB) (nFile : Int32) : Int32 :=
  match db.find [0x6c] with
  | none => nFile
  | some value => match Codec.i32.de value with
    | .error _ => nFile
    | .ok (n, _) => n

/-- `CBlockTreeDB::ReadReindexing`. -/
def readReindexing (db : LevelDB) : Bool := (db.find [0x52]).isSome

/-- `CBlockTreeDB::ReadFlag`: the flag, or the one there was. -/
def readFlag (db : LevelDB) (name : Bytes) (fValue : Bool) : Bool :=
  match db.find (0x46 :: stringCodec.ser name) with
  | none => fValue
  | some value => match value with
    | [] => fValue
    | ch :: _ => ch == 0x31

/-- `CBlockTreeDB::WriteBatchSync`. -/
def writeBatchSync (fileInfo : List (Int32 × CBlockFileInfo)) (nLastFile : Int32)
    (blockinfo : List CBlockIndex) (db : LevelDB) : LevelDB :=
  db.putAll (fileInfo.map (fun f => (fileKey f.1, f.2.ser)) ++
    [([0x6c], Codec.i32.ser nLastFile)] ++
    blockinfo.map fun p => (blockKey p.getBlockHash, (CDiskBlockIndex.ofIndex p).ser))

end CBlockTreeDB

/-! ## The index in the database -/

open CBlockTreeDB in
/-- The database holds the entries of `index`, each under its hash, and no other records
whose keys begin with their letter; the number of the last block file is one. -/
structure StoresIndex (hash : Bytes → Uint256) (db : LevelDB)
    (index : OrdMap Uint256 CDiskBlockIndex) : Prop where
  record : ∀ {h e}, index.find h = some e →
    ∃ value rest, db.find (blockKey h) = some value ∧ CDiskBlockIndex.de value = .ok (e, rest)
  only : ∀ {key value}, db.find key = some value → key.head? = some 0x62 →
    ∃ h e, key = blockKey h ∧ index.find h = some e
  hashes : ∀ {h e}, index.find h = some e → e.getBlockHash hash = h
  lastFile : 0 ≤ readLastBlockFile db 0

namespace CBlockTreeDB

theorem blockKey_injective : Function.Injective blockKey := by
  intro a b h
  exact Subtype.ext (List.cons.inj h).2

/-- The entries that a batch writes. -/
def batchEntries (blockinfo : List CBlockIndex) : List (Uint256 × CDiskBlockIndex) :=
  blockinfo.map fun p => (p.getBlockHash, CDiskBlockIndex.ofIndex p)

/-- The index after the batch. -/
def batchIndex (blockinfo : List CBlockIndex) (index : OrdMap Uint256 CDiskBlockIndex) :
    OrdMap Uint256 CDiskBlockIndex :=
  index.putAll ((batchEntries blockinfo).map fun p => (p.1, p.2.stored))

variable {fileInfo : List (Int32 × CBlockFileInfo)} {nLastFile : Int32}
  {blockinfo : List CBlockIndex} {db : LevelDB}

/-- Under a key that is neither the one of a file nor the one of the last file a batch
leaves what it writes about the blocks. -/
theorem find_writeBatchSync {key : Bytes} (hfile : key.head? ≠ some 0x66)
    (hlast : key ≠ [0x6c]) :
    (writeBatchSync fileInfo nLastFile blockinfo db).find key =
      (OrdMap.lastPut key ((batchEntries blockinfo).map fun p => (blockKey p.1, p.2.ser))).or
        (db.find key) := by
  have hfiles : OrdMap.lastPut key (fileInfo.map fun f => (fileKey f.1, f.2.ser)) = none := by
    rw [OrdMap.lastPut_eq_none]
    rintro p hp rfl
    obtain ⟨f, -, rfl⟩ := List.mem_map.mp hp
    exact hfile rfl
  rw [writeBatchSync, OrdMap.find_putAll, OrdMap.lastPut_append, OrdMap.lastPut_append,
    OrdMap.lastPut_singleton, if_neg (Ne.symm hlast), hfiles, batchEntries, List.map_map]
  simp only [Function.comp_def, Option.or_none]

theorem readLastBlockFile_writeBatchSync (n : Int32) :
    readLastBlockFile (writeBatchSync fileInfo nLastFile blockinfo db) n = nLastFile := by
  have hblocks : OrdMap.lastPut [0x6c]
      (blockinfo.map fun p => (blockKey p.getBlockHash, (CDiskBlockIndex.ofIndex p).ser)) =
        none := by
    rw [OrdMap.lastPut_eq_none]
    intro p hp hkey
    obtain ⟨q, -, rfl⟩ := List.mem_map.mp hp
    exact absurd (List.cons.inj hkey).1 (by decide)
  have hfind : (writeBatchSync fileInfo nLastFile blockinfo db).find [0x6c] =
      some (Codec.i32.ser nLastFile) := by
    rw [writeBatchSync, OrdMap.find_putAll, OrdMap.lastPut_append, OrdMap.lastPut_append, hblocks,
      OrdMap.lastPut_singleton, if_pos rfl]
    rfl
  have hde := Codec.de_ser (Codec.fits_i32 nLastFile) []
  rw [List.append_nil] at hde
  rw [readLastBlockFile, hfind]
  simp only [hde]

end CBlockTreeDB

open CBlockTreeDB in
/-- **A batch adds its entries to the index.** -/
theorem StoresIndex.writeBatchSync {hash : Bytes → Uint256} {db : LevelDB}
    {index : OrdMap Uint256 CDiskBlockIndex} (h : StoresIndex hash db index)
    (fileInfo : List (Int32 × CBlockFileInfo)) {nLastFile : Int32} (hlast : 0 ≤ nLastFile)
    {blockinfo : List CBlockIndex}
    (hstorable : ∀ p ∈ blockinfo, (CDiskBlockIndex.ofIndex p).Storable)
    (hhash : ∀ p ∈ blockinfo, (CDiskBlockIndex.ofIndex p).getBlockHash hash = p.getBlockHash) :
    StoresIndex hash (CBlockTreeDB.writeBatchSync fileInfo nLastFile blockinfo db)
      (batchIndex blockinfo index) := by
  have hmem : ∀ {x d}, OrdMap.lastPut x (batchEntries blockinfo) = some d →
      d.Storable ∧ d.getBlockHash hash = x := by
    intro x d hput
    obtain ⟨p, hp, heq⟩ := List.mem_map.mp (OrdMap.mem_of_lastPut hput)
    cases heq
    exact ⟨hstorable p hp, hhash p hp⟩
  have hkey : ∀ x, (CBlockTreeDB.writeBatchSync fileInfo nLastFile blockinfo db).find (blockKey x) =
      ((OrdMap.lastPut x (batchEntries blockinfo)).map CDiskBlockIndex.ser).or
        (db.find (blockKey x)) := by
    intro x
    rw [find_writeBatchSync (by simp [blockKey]) (by simp [blockKey]),
      OrdMap.lastPut_map blockKey_injective]
  have hindex : ∀ x, (batchIndex blockinfo index).find x =
      ((OrdMap.lastPut x (batchEntries blockinfo)).map CDiskBlockIndex.stored).or
        (index.find x) := by
    intro x
    have hmap := OrdMap.lastPut_map Function.injective_id CDiskBlockIndex.stored x
      (batchEntries blockinfo)
    simp only [id] at hmap
    rw [batchIndex, OrdMap.find_putAll, hmap]
  refine ⟨?_, ?_, ?_, ?_⟩
  · intro x e hx
    rw [hindex] at hx
    rw [hkey]
    cases hput : OrdMap.lastPut x (batchEntries blockinfo) with
    | none =>
      rw [hput] at hx
      exact h.record hx
    | some d =>
      rw [hput] at hx
      cases hx
      have hde := CDiskBlockIndex.de_ser (hmem hput).1 []
      rw [List.append_nil] at hde
      exact ⟨d.ser, [], rfl, hde⟩
  · intro key value hfind hhead
    have hne : key ≠ [0x6c] := by
      rintro rfl
      cases hhead
    rw [find_writeBatchSync (by simp [hhead]) hne, Option.or_eq_some_iff] at hfind
    rcases hfind with hput | ⟨-, hold⟩
    · obtain ⟨p, hp, heq⟩ := List.mem_map.mp (OrdMap.mem_of_lastPut hput)
      cases heq
      have hsome : OrdMap.lastPut p.1 (batchEntries blockinfo) ≠ none := by
        intro hnone
        exact OrdMap.lastPut_eq_none.mp hnone p hp rfl
      obtain ⟨d, hd⟩ := Option.ne_none_iff_exists'.mp hsome
      exact ⟨p.1, d.stored, rfl, by rw [hindex, hd]; rfl⟩
    · obtain ⟨x, e, rfl, hx⟩ := h.only hold hhead
      cases hput : OrdMap.lastPut x (batchEntries blockinfo) with
      | none => exact ⟨x, e, rfl, by rw [hindex, hput]; exact hx⟩
      | some d => exact ⟨x, d.stored, rfl, by rw [hindex, hput]; rfl⟩
  · intro x e hx
    rw [hindex] at hx
    cases hput : OrdMap.lastPut x (batchEntries blockinfo) with
    | none =>
      rw [hput] at hx
      exact h.hashes hx
    | some d =>
      rw [hput] at hx
      cases hx
      exact (hmem hput).2
  · rw [readLastBlockFile_writeBatchSync]
    exact hlast

end Hivemind
