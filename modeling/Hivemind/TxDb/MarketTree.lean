import Hivemind.Primitives.Market

/-!
# The market index database

`CMarketTreeDB` of `txdb.cpp` over LevelDB, taken as an ordered map from byte keys to byte
values.  An object is stored under its own key (`marketop` and id) and once more under each of
its listing keys, and the readers either look up one key or walk forward from a prefix.

All keys are byte strings that are formed by the serialization of pairs, as in the source, and
the readers take them apart again in the same way.  The two kinds of listing keys, with a height
and without, have different tags, and the tag determines the length of the front part; so a key
can be split into its front part and the id at its end in one way only.  A class that is listed
by two fields is written under both.

* `MarketOp.listingByte`, `idPrefix`, `heightPrefix`: the keys.
* `writeMarketIndex`: the writer; the bookkeeping writers are beside it.
* `getObj`, `listObjs`: the two kinds of readers, and the sixteen functions that they make.
* `indexKey_inj`: **index keys of different objects do not collide.**
* `find_writeMarketIndex`: what a batch leaves under an index key.
-/

namespace Hivemind

open Codecs Ordered

/-- LevelDB: byte keys in `memcmp` order. -/
abbrev LevelDB := OrdMap Bytes Bytes

/-! ## Keys and values -/

/-- The tag of the listing keys of a class; branches have none of their own. -/
def MarketOp.listingByte : MarketOp → UInt8
  | branch => 0x42      -- 'B'
  | decision => 0x64    -- 'd'
  | stealVote => 0x6c   -- 'l'
  | market => 0x6d      -- 'm'
  | outcome => 0x6f     -- 'o'
  | revealVote => 0x72  -- 'r'
  | sealedVote => 0x73  -- 's'
  | trade => 0x74       -- 't'

/-- `make_pair(marketop, id)`, the front part of a listing key. -/
def idPrefix (tag : UInt8) (id : Uint256) : Bytes := tag :: id.val

/-- `make_pair(make_pair(marketop, id), height)`. -/
def heightPrefix (tag : UInt8) (id : Uint256) (height : UInt32) : Bytes :=
  tag :: (id.val ++ Codec.u32.ser height)

/-- The key of an object: `make_pair(marketop, objid)`. -/
def objKey (op : MarketOp) (objid : Uint256) : Bytes := op.byte :: objid.val

/-- The front parts of the listing keys under which an object is written. -/
def listPrefixes : {op : MarketOp} → MarketObj op → List Bytes
  | .branch, _ => []
  | .decision, o => [idPrefix 0x64 o.data.branchid]
  | .stealVote, o => [heightPrefix 0x6c o.data.branchid o.data.height]
  | .market, o => o.data.decisionIDs.map (idPrefix 0x6d)
  | .outcome, o => [idPrefix 0x6f o.data.branchid]
  | .revealVote, o => [heightPrefix 0x72 o.data.branchid o.data.height]
  | .sealedVote, o => [heightPrefix 0x73 o.data.branchid o.data.height]
  | .trade, o => [idPrefix 0x74 o.data.marketid]

/-- The front parts of all keys of an object: what is left of a key when the
object id at its end is taken off. -/
def prefixes {op : MarketOp} (o : MarketObj op) : List Bytes := [op.byte] :: listPrefixes o

/-- The stored value: the object and the transaction it came from. -/
def objValue {op : MarketOp} (o : MarketObj op) : Bytes := o.ser ++ o.txid.val

/-- `ssValue >> *obj; ssValue >> obj->txid;`. -/
def readValue (op : MarketOp) (v : Bytes) : Except ReadError (MarketObj op) :=
  match MarketObj.unserialize op v with
  | .error e => .error e
  | .ok (o, r) => match (Blob.codec : Codec Uint256).de r with
    | .error e => .error e
    | .ok (txid, _) => .ok { o with txid }

/-! ## Writers -/

/-- The entries one object adds to a batch. -/
def objEntries (w : Uint256 × AnyMarketObj) : List (Bytes × Bytes) :=
  (prefixes w.2.2).map fun p => (p ++ w.1.val, objValue w.2.2)

/-- `CMarketTreeDB::WriteMarketIndex`. -/
def writeMarketIndex (vect : List (Uint256 × AnyMarketObj)) (db : LevelDB) : LevelDB :=
  db.putAll (vect.flatMap objEntries)

/-- `CMarketTreeDB::WriteReindexing`. -/
def writeReindexing (fReindexing : Bool) (db : LevelDB) : LevelDB :=
  if fReindexing then db.put [0x52] [0x31] else db.erase [0x52]

/-- `CMarketTreeDB::WriteBatchSync`.  The file infos are given by their
serialization. -/
def writeBatchSync (fileInfo : List (Int32 × Bytes)) (nLastFile : Int32) (db : LevelDB) : LevelDB :=
  db.putAll (fileInfo.map (fun f => (0x66 :: Codec.i32.ser f.1, f.2)) ++
    [([0x6c], Codec.i32.ser nLastFile)])

/-- `CMarketTreeDB::WriteFlag`. -/
def writeFlag (name : Bytes) (fValue : Bool) (db : LevelDB) : LevelDB :=
  db.put (0x46 :: stringCodec.ser name) [if fValue then 0x31 else 0x30]

/-! ## Readers -/

/-- The front part of a key, read as `pair<char, uint256>`. -/
def keyPair : Codec (UInt8 × Uint256) := Codec.u8.prod Blob.codec

/-- A key read as `pair<pair<char, uint256>, uint32_t>`. -/
def keyTriple : Codec ((UInt8 × Uint256) × UInt32) := keyPair.prod Codec.u32

/-- `GetBranch`, `GetDecision`, ... : seek to the key of an object and return the
object if the key there is the one sought. -/
def getObj (op : MarketOp) (objid : Uint256) (db : LevelDB) : Option (MarketObj op) :=
  match (db.seek (objKey op objid)).head? with
  | none => none
  | some (k, v) => match keyPair.de k with
    | .error _ => none
    | .ok (key, _) =>
      if key = (op.byte, objid) then
        match readValue op v with
        | .error _ => none
        | .ok o => some o
      else none

def getBranch := getObj .branch
def getDecision := getObj .decision
def getStealVote := getObj .stealVote
def getMarket := getObj .market
def getOutcome := getObj .outcome
def getRevealVote := getObj .revealVote
def getSealedVote := getObj .sealedVote
def getTrade := getObj .trade

/-- The loop of a listing: walk on as long as the keys are read with the wanted
front part, and stop at the first value that cannot be read. -/
def listObjs (op : MarketOp) {κ : Type} [DecidableEq κ] (c : Codec κ) (key : κ) :
    List (Bytes × Bytes) → List (MarketObj op)
  | [] => []
  | (k, v) :: rest => match c.de k with
    | .error _ => []
    | .ok (key', _) =>
      if key' = key then
        match readValue op v with
        | .error _ => []
        | .ok o => o :: listObjs op c key rest
      else []

/-- `GetBranches`. -/
def getBranches (db : LevelDB) : List (MarketObj .branch) :=
  listObjs .branch Codec.u8 0x42 (db.seek [0x42])

/-- The listings by one id. -/
def listById (op : MarketOp) (tag : UInt8) (id : Uint256) (db : LevelDB) : List (MarketObj op) :=
  listObjs op keyPair (tag, id) (db.seek (idPrefix tag id ++ (Blob.null : Uint256).val))

/-- The listings by id and height. -/
def listByHeight (op : MarketOp) (tag : UInt8) (id : Uint256) (height : UInt32) (db : LevelDB) :
    List (MarketObj op) :=
  listObjs op keyTriple ((tag, id), height)
    (db.seek (heightPrefix tag id height ++ (Blob.null : Uint256).val))

/-- `GetDecisions(branchid)`. -/
def getDecisions := listById .decision 0x64
/-- `GetMarkets(decisionid)`. -/
def getMarkets := listById .market 0x6d
/-- `GetOutcomes(branchid)`. -/
def getOutcomes := listById .outcome 0x6f
/-- `GetTrades(marketid)`. -/
def getTrades := listById .trade 0x74
/-- `GetRevealVotes(branchid, height)`. -/
def getRevealVotes := listByHeight .revealVote 0x72
/-- `GetSealedVotes(branchid, height)`. -/
def getSealedVotes := listByHeight .sealedVote 0x73
/-- `GetStealVotes(branchid, height)`. -/
def getStealVotes := listByHeight .stealVote 0x6c

/-! ## The shape of index keys -/

/-- The length of the front part of a listing key. -/
def MarketOp.prefixLength : MarketOp → Nat
  | stealVote | revealVote | sealedVote => 37
  | _ => 33

/-- The front parts that index keys of a class have. -/
def ValidPrefix (op : MarketOp) (p : Bytes) : Prop :=
  p = [op.byte] ∨ (op ≠ .branch ∧ p.head? = some op.listingByte ∧ p.length = op.prefixLength)

theorem length_idPrefix (tag : UInt8) (id : Uint256) : (idPrefix tag id).length = 33 := by
  rw [idPrefix, List.length_cons, id.property]

theorem length_heightPrefix (tag : UInt8) (id : Uint256) (height : UInt32) :
    (heightPrefix tag id height).length = 37 := by
  rw [heightPrefix, List.length_cons, List.length_append, id.property]
  rfl

theorem validPrefix_of_mem {op : MarketOp} {o : MarketObj op} {p : Bytes} (h : p ∈ prefixes o) :
    ValidPrefix op p := by
  rcases List.mem_cons.mp h with rfl | h
  · exact Or.inl rfl
  · cases op with
    | branch => simp [listPrefixes] at h
    | market =>
        simp only [listPrefixes, List.mem_map] at h
        obtain ⟨d, -, rfl⟩ := h
        exact Or.inr ⟨by decide, rfl, length_idPrefix ..⟩
    | decision | outcome | trade =>
        simp only [listPrefixes, List.mem_singleton] at h
        subst h
        exact Or.inr ⟨by decide, rfl, length_idPrefix ..⟩
    | stealVote | revealVote | sealedVote =>
        simp only [listPrefixes, List.mem_singleton] at h
        subst h
        exact Or.inr ⟨by decide, rfl, length_heightPrefix ..⟩

theorem byte_injective {op op' : MarketOp} (h : op.byte = op'.byte) : op = op' := by
  revert h
  cases op <;> cases op' <;> decide

theorem listingByte_injective {op op' : MarketOp} (h : op.listingByte = op'.listingByte) :
    op = op' := by
  revert h
  cases op <;> cases op' <;> decide

theorem byte_ne_listingByte (op : MarketOp) {op' : MarketOp} (h : op' ≠ .branch) :
    op.byte ≠ op'.listingByte := by
  revert h
  cases op <;> cases op' <;> decide

/-- The first byte of a front part determines its class and its length. -/
theorem validPrefix_head {op op' : MarketOp} {p p' : Bytes} (h : ValidPrefix op p)
    (h' : ValidPrefix op' p') (hhead : p.head? = p'.head?) : op = op' ∧ p.length = p'.length := by
  rcases h with rfl | ⟨hne, hb, hlen⟩
  · rcases h' with rfl | ⟨hne', hb', hlen'⟩
    · exact ⟨byte_injective (by simpa using hhead), rfl⟩
    · rw [hb'] at hhead
      exact absurd (by simpa using hhead) (byte_ne_listingByte op hne')
  · rcases h' with rfl | ⟨hne', hb', hlen'⟩
    · rw [hb] at hhead
      exact absurd (by simpa using hhead.symm) (byte_ne_listingByte op' hne)
    · rw [hb, hb'] at hhead
      obtain rfl := listingByte_injective (by simpa using hhead)
      exact ⟨rfl, by rw [hlen, hlen']⟩

theorem validPrefix_ne_nil {op : MarketOp} {p : Bytes} (h : ValidPrefix op p) : p ≠ [] := by
  rintro rfl
  rcases h with h | ⟨-, h, -⟩ <;> simp at h

/-- **Index keys do not collide**: a key belongs to one class, one front part and
one object id. -/
theorem indexKey_inj {op op' : MarketOp} {p p' : Bytes} {id id' : Uint256}
    (h : ValidPrefix op p) (h' : ValidPrefix op' p') (hkey : p ++ id.val = p' ++ id'.val) :
    op = op' ∧ p = p' ∧ id = id' := by
  have hhead : p.head? = p'.head? := by
    have := congrArg List.head? hkey
    rwa [List.head?_append_of_ne_nil _ (validPrefix_ne_nil h),
      List.head?_append_of_ne_nil _ (validPrefix_ne_nil h')] at this
  obtain ⟨rfl, hlen⟩ := validPrefix_head h h' hhead
  obtain ⟨hp, hid⟩ := List.append_inj hkey hlen
  exact ⟨rfl, hp, Subtype.ext hid⟩

/-! ## What the writers leave under an index key -/

/-- A `marketObj *` whose class is known. -/
def asOp (op : MarketOp) (o : AnyMarketObj) : Option (MarketObj op) :=
  if h : o.1 = op then some (h ▸ o.2) else none

@[simp] theorem asOp_self (op : MarketOp) (o : MarketObj op) : asOp op ⟨op, o⟩ = some o := by
  simp [asOp]

theorem asOp_of_ne {op op' : MarketOp} (h : op' ≠ op) (o : MarketObj op') :
    asOp op ⟨op', o⟩ = none := by
  simp [asOp, h]

/-- One write, if it is of the class and id and its object satisfies `P`. -/
def matchWrite (op : MarketOp) (objid : Uint256) (P : MarketObj op → Bool)
    (w : Uint256 × AnyMarketObj) : Option (MarketObj op) :=
  if w.1 = objid then (asOp op w.2).filter P else none

/-- The last object of a class written under an id, among those that satisfy `P`. -/
def lastWrite (op : MarketOp) (objid : Uint256) (P : MarketObj op → Bool)
    (ws : List (Uint256 × AnyMarketObj)) : Option (MarketObj op) :=
  ws.reverse.findSome? (matchWrite op objid P)

@[simp] theorem lastWrite_nil (op : MarketOp) (objid : Uint256) (P : MarketObj op → Bool) :
    lastWrite op objid P [] = none := rfl

theorem lastWrite_append (op : MarketOp) (objid : Uint256) (P : MarketObj op → Bool)
    (ws ws' : List (Uint256 × AnyMarketObj)) :
    lastWrite op objid P (ws ++ ws') = (lastWrite op objid P ws').or (lastWrite op objid P ws) := by
  simp [lastWrite, List.findSome?_append]

theorem lastWrite_singleton (op : MarketOp) (objid : Uint256) (P : MarketObj op → Bool)
    (w : Uint256 × AnyMarketObj) : lastWrite op objid P [w] = matchWrite op objid P w := by
  simp only [lastWrite, List.reverse_singleton, List.findSome?_cons]
  cases matchWrite op objid P w <;> rfl

/-- The keys of one object. -/
def HasPrefix {op : MarketOp} (p : Bytes) (o : MarketObj op) : Bool := p ∈ prefixes o

theorem lastPut_objEntries {op : MarketOp} {p : Bytes} (hp : ValidPrefix op p) (objid : Uint256)
    (w : Uint256 × AnyMarketObj) :
    OrdMap.lastPut (p ++ objid.val) (objEntries w) =
      (matchWrite op objid (HasPrefix p) w).map objValue := by
  obtain ⟨id, op', o⟩ := w
  by_cases hmatch : id = objid ∧ op' = op ∧ p ∈ prefixes o
  · obtain ⟨rfl, rfl, hmem⟩ := hmatch
    have hw : matchWrite op' id (HasPrefix p) (id, ⟨op', o⟩) = some o := by
      simp [matchWrite, HasPrefix, hmem]
    rw [hw, Option.map_some]
    cases hl : OrdMap.lastPut (p ++ id.val) (objEntries (id, ⟨op', o⟩)) with
    | none =>
        have hno := OrdMap.lastPut_eq_none.mp hl (p ++ id.val, objValue o)
          (List.mem_map.mpr ⟨p, hmem, rfl⟩)
        exact absurd rfl hno
    | some v =>
        obtain ⟨q, -, hq⟩ := List.mem_map.mp (OrdMap.mem_of_lastPut hl)
        exact congrArg some (congrArg Prod.snd hq).symm
  · have hnone : matchWrite op objid (HasPrefix p) (id, ⟨op', o⟩) = none := by
      by_cases hid : id = objid
      · by_cases hop : op' = op
        · subst hop
          have hmem : p ∉ prefixes o := fun hc => hmatch ⟨hid, rfl, hc⟩
          simp [matchWrite, HasPrefix, hmem, Option.filter]
        · simp [matchWrite, asOp_of_ne hop]
      · simp [matchWrite, hid]
    rw [hnone, Option.map_none, OrdMap.lastPut_eq_none]
    intro e he heq
    obtain ⟨q, hq, rfl⟩ := List.mem_map.mp he
    obtain ⟨hop, hpq, hid⟩ := indexKey_inj (validPrefix_of_mem hq) hp heq
    subst hop hpq hid
    exact hmatch ⟨rfl, rfl, hq⟩

/-- **What a batch leaves under an index key**: the last matching object of the
batch, or else what was there. -/
theorem find_writeMarketIndex (op : MarketOp) {p : Bytes} (hp : ValidPrefix op p)
    (objid : Uint256) (vect : List (Uint256 × AnyMarketObj)) (db : LevelDB) :
    (writeMarketIndex vect db).find (p ++ objid.val) =
      ((lastWrite op objid (HasPrefix p) vect).map objValue).or (db.find (p ++ objid.val)) := by
  rw [writeMarketIndex, OrdMap.find_putAll]
  congr 1
  induction vect with
  | nil => rfl
  | cons w ws ih =>
      rw [List.flatMap_cons, OrdMap.lastPut_append, ih, lastPut_objEntries hp,
        ← List.singleton_append, lastWrite_append, lastWrite_singleton]
      cases lastWrite op objid (HasPrefix p) ws <;> rfl

end Hivemind
