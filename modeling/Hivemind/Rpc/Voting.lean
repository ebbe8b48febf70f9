import Hivemind.Miner.Outcome
import Hivemind.Validation.MarketIndex

/-!
# Voting by RPC

`getballot`, `createsealedvote`, `createstealvote` and `createrevealvote` of `rpcwallet.cpp`,
with the parameters as JSON values.  What the wallet does to build and send a transaction is a
parameter, and so is what is read as an address or a double.

The functions work with the voting period `tau` of a branch of the market index. `marketObjCtr`
and `ConnectBlock` accept a branch whose period is zero.  A branch is a record in a transaction
that anybody may send, so what a field of it can do to the functions that read it is a question
about the node as a whole: the miner, the ballot and the votes are asked together.

The texts of the errors are those of the source, and ids are printed and read as it prints and
reads them, with the last byte first.

* `setHex_hexText`: an id that is printed is read back.
* `getballot_noDivide`, `createVote_noDivide`: no division by zero when the period is not zero.
* `createrevealvote_sends`: the height that a revealed vote carries.
* `indexed_branch_divides_iff`: **what a branch in the index makes** the miner and the voting
  functions do.
-/

namespace Hivemind

open Codecs Ordered Outcomes

/-! ## Parameters -/

/-- A parameter.  The contents that the functions do not read are left out. -/
inductive Value where
  | obj | array | str (s : Bytes) | bool | int (n : Int64) | real | null
  deriving DecidableEq

/-- `Value_type_name`. -/
def Value.typeName : Value → String
  | obj => "obj"
  | array => "array"
  | str _ => "str"
  | bool => "bool"
  | int _ => "int"
  | real => "real"
  | null => "null"

/-- What leaves an RPC function other than its result. -/
inductive RpcError where
  /-- `runtime_error(strHelp)`. -/
  | help
  /-- The `runtime_error` of `check_type`. -/
  | type (message : String)
  /-- `JSONRPCError`. -/
  | json (code : Int) (message : String)
  | fault (f : Fault)
  deriving DecidableEq

def rpcWalletError : Int := -4
def rpcWalletUnlockNeeded : Int := -13

def typeError (v : Value) (expected : String) : RpcError :=
  .type ("value is type " ++ v.typeName ++ ", expected " ++ expected)

/-- `get_str`. -/
def Value.getStr : Value → Except RpcError Bytes
  | .str s => .ok s
  | v => .error (typeError v "str")

/-- `get_int`, with its cast to `int`. -/
def Value.getInt : Value → Except RpcError Int32
  | .int n => .ok n.toInt32
  | v => .error (typeError v "int")

/-! ## Ids as text -/

/-- `HexDigit`. -/
def hexDigit (c : UInt8) : Option UInt8 :=
  if 0x30 ≤ c ∧ c ≤ 0x39 then some (c - 0x30)
  else if 0x41 ≤ c ∧ c ≤ 0x46 then some (c - 0x37)
  else if 0x61 ≤ c ∧ c ≤ 0x66 then some (c - 0x57)
  else none

/-- `isspace`. -/
def isSpace (c : UInt8) : Bool := c == 0x20 || (0x09 ≤ c && c ≤ 0x0d)

/-- Hexadecimal digits, the lowest first, as bytes. -/
def packDigits : Nat → List UInt8 → Bytes
  | 0, _ => []
  | n + 1, [] => 0 :: packDigits n []
  | n + 1, [d] => d :: packDigits n []
  | n + 1, d :: e :: ds => (d ||| (e <<< 4)) :: packDigits n ds

theorem length_packDigits (n : Nat) (ds : List UInt8) : (packDigits n ds).length = n := by
  induction n generalizing ds with
  | zero => rfl
  | succ n ih => match ds with
    | [] | [_] | _ :: _ :: _ => simp [packDigits, ih]

/-- Skip a leading `0x`. -/
def skipZeroX : Bytes → Bytes
  | c :: x :: rest => if c = 0x30 ∧ (x = 0x78 ∨ x = 0x58) then rest else c :: x :: rest
  | s => s

/-- `SetHex`: white space and `0x` are skipped, and the digits end at the first
character that is not one. -/
def setHex (s : Bytes) : Uint256 :=
  let s := skipZeroX (s.dropWhile isSpace)
  let digits := (s.takeWhile fun c => (hexDigit c).isSome).filterMap hexDigit
  ⟨packDigits 32 digits.reverse, length_packDigits ..⟩

/-- The character of a hexadecimal digit. -/
def hexChar (d : UInt8) : UInt8 := if d < 10 then 0x30 + d else 0x57 + d

/-- The upper half of a byte. -/
def hiDigit (b : UInt8) : UInt8 := b / 16

/-- The lower half of a byte. -/
def loDigit (b : UInt8) : UInt8 := b % 16

/-- `GetHex`: the bytes in hexadecimal, the last one first. -/
def hexText {n : Nat} (x : Blob n) : Bytes :=
  x.val.reverse.flatMap fun b => [hexChar (hiDigit b), hexChar (loDigit b)]

/-- `GetHex` in a message. -/
def Blob.toHex {n : Nat} (x : Blob n) : String :=
  String.ofList ((hexText x).map fun c => Char.ofNat c.toNat)

/-- The halves of a byte are digits, and make up the byte. -/
theorem byte_halves (b : UInt8) :
    hexDigit (hexChar (hiDigit b)) = some (hiDigit b) ∧
      hexDigit (hexChar (loDigit b)) = some (loDigit b) ∧ loDigit b ||| (hiDigit b <<< 4) = b := by
  have hall : ∀ n : Fin 256, hexDigit (hexChar (hiDigit (UInt8.ofNat n))) =
        some (hiDigit (UInt8.ofNat n)) ∧
      hexDigit (hexChar (loDigit (UInt8.ofNat n))) = some (loDigit (UInt8.ofNat n)) ∧
      loDigit (UInt8.ofNat n) ||| (hiDigit (UInt8.ofNat n) <<< 4) = UInt8.ofNat n := by
    decide +kernel
  have hb : UInt8.ofNat b.toNat = b := UInt8.ofNat_toNat
  have := hall ⟨b.toNat, b.toNat_lt⟩
  rwa [hb] at this

/-- A digit is neither white space nor the `x` of a leading `0x`. -/
theorem hexDigit_isSome {c : UInt8} (h : (hexDigit c).isSome = true) :
    isSpace c = false ∧ ¬ (c = 0x78 ∨ c = 0x58) := by
  have hall : ∀ n : Fin 256, (hexDigit (UInt8.ofNat n)).isSome = true →
      isSpace (UInt8.ofNat n) = false ∧
        ¬ (UInt8.ofNat n = 0x78 ∨ UInt8.ofNat n = 0x58) := by
    decide +kernel
  have hc : UInt8.ofNat c.toNat = c := UInt8.ofNat_toNat
  have := hall ⟨c.toNat, c.toNat_lt⟩
  rw [hc] at this
  exact this h

theorem filterMap_hexText (l : Bytes) :
    (l.flatMap fun b => [hexChar (hiDigit b), hexChar (loDigit b)]).filterMap hexDigit =
      l.flatMap fun b => [hiDigit b, loDigit b] := by
  induction l with
  | nil => rfl
  | cons b l ih =>
      obtain ⟨hhi, hlo, -⟩ := byte_halves b
      simp only [List.flatMap_cons, List.filterMap_append, ih, List.filterMap_cons, hhi, hlo,
        List.filterMap_nil]

theorem packDigits_flatMap (l : Bytes) :
    packDigits l.length (l.flatMap fun b => [loDigit b, hiDigit b]) = l := by
  induction l with
  | nil => rfl
  | cons b l ih =>
      simp only [List.length_cons, List.flatMap_cons, List.cons_append, List.nil_append, packDigits,
        (byte_halves b).2.2, ih]

/-- **An id that is printed is read back.** -/
theorem setHex_hexText (x : Uint256) : setHex (hexText x) = x := by
  have hdigit : ∀ c ∈ hexText x, (hexDigit c).isSome = true := by
    intro c hc
    obtain ⟨b, -, hb⟩ := List.mem_flatMap.mp hc
    obtain ⟨hhi, hlo, -⟩ := byte_halves b
    rcases List.mem_cons.mp hb with rfl | hb
    · rw [hhi]
      rfl
    · obtain rfl := List.mem_singleton.mp hb
      rw [hlo]
      rfl
  have hspace : (hexText x).dropWhile isSpace = hexText x := by
    cases htext : hexText x with
    | nil => rfl
    | cons c cs =>
        have hc := (hexDigit_isSome (hdigit c (by simp [htext]))).1
        rw [List.dropWhile_cons_of_neg (by simp [hc])]
  have hzerox : skipZeroX (hexText x) = hexText x := by
    cases htext : hexText x with
    | nil => rfl
    | cons c cs => cases cs with
      | nil => rfl
      | cons y rest =>
          have hy := (hexDigit_isSome (hdigit y (by simp [htext]))).2
          rw [skipZeroX, if_neg fun h => hy h.2]
  have htake : (hexText x).takeWhile (fun c => (hexDigit c).isSome) = hexText x :=
    List.takeWhile_eq_self_iff.mpr hdigit
  have hdigits : ((hexText x).filterMap hexDigit).reverse =
      x.val.flatMap fun b => [loDigit b, hiDigit b] := by
    rw [hexText, filterMap_hexText, List.reverse_flatMap, List.reverse_reverse]
    rfl
  refine Subtype.ext ?_
  simp only [setHex, hspace, hzerox, htake, hdigits]
  have := packDigits_flatMap x.val
  rwa [x.property] at this

/-! ## The node -/

/-- What the functions work with: the market index, the height of the active chain,
and the wallet, which is locked or turns an output script and an amount into a
transaction that has been sent. -/
structure RpcNode where
  hash : Bytes → Uint256
  pmarkettree : Option LevelDB
  height : Int32
  isLocked : Bool
  send : CScript → CAmount → Except (Int × String) Uint256

/-- The market index, or the error of a function that finds none. -/
def RpcNode.marketTree (node : RpcNode) : Except RpcError LevelDB :=
  match node.pmarkettree with
  | none => .error (.json rpcWalletError "Error: NULL pmarkettree!")
  | some db => .ok db

/-- The branch with an id, or the error of a function that finds none. -/
def branchOrError (db : LevelDB) (branchid : Uint256) : Except RpcError (MarketObj .branch) :=
  match getBranch branchid db with
  | none => .error (.json rpcWalletError ("Error: branchid " ++ branchid.toHex ++ " does not exist!"))
  | some branch => .ok branch

/-- A division that a function of this file makes. -/
def orFault {α : Type} : Except Fault α → Except RpcError α
  | .error f => .error (.fault f)
  | .ok a => .ok a

/-- `a / b` of `uint32_t`. -/
def quotient (a b : UInt32) : Except Fault UInt32 :=
  if b = 0 then .error .divByZero else .ok (a / b)

/-! ## `getballot` -/

/-- The result of `getballot`.  The decisions are listed with their ids. -/
structure Ballot where
  branchid : Uint256
  minblock : Int32
  maxblock : Int32
  decisions : List (Uint256 × MarketObj .decision)

/-- `block_num`: the second parameter, or the height of the active chain. -/
def ballotHeight (node : RpcNode) : List Value → Except RpcError UInt32
  | [_, height] => height.getInt.map Int32.toUInt32
  | _ => .ok node.height.toUInt32

/-- `getballot`. -/
def getballot (node : RpcNode) (fHelp : Bool) (params : List Value) : Except RpcError Ballot :=
  if fHelp || (params.length != 1 && params.length != 2) then .error .help
  else do
    let db ← node.marketTree
    let branchid ← (params.headD .null).getStr.map setHex
    let branch ← branchOrError db branchid
    let blockNum ← ballotHeight node params
    let tau := branch.data.tau.toUInt32
    let q ← orFault (quotient (blockNum - 1) tau)
    let minblock := tau * q + 1
    let maxblock := minblock + tau - 1
    let ended := (getDecisions branchid db).filter fun d =>
      !(d.data.eventOverBy < minblock || maxblock < d.data.eventOverBy)
    .ok ⟨branchid, minblock.toInt32, maxblock.toInt32,
      ended.map fun d => (d.getHash node.hash, d)⟩

/-! ## `createsealedvote` and `createstealvote` -/

/-- The fee of a vote, `0.01 * COIN`. -/
def voteAmount : CAmount := 1000000

/-- The height must end a voting period of the branch. -/
def checkVoteHeight (height : UInt32) (tau : UInt32) : Except RpcError Unit := do
  let r ← orFault (remainder height tau)
  if r ≠ 0 then .error (.json rpcWalletError "Error: Invalid height  for the branch's tau!")
  else .ok ()

/-- `EnsureWalletIsUnlocked`. -/
def ensureWalletIsUnlocked (node : RpcNode) : Except RpcError Unit :=
  if node.isLocked then
    .error (.json rpcWalletUnlockNeeded
      "Error: Please enter the wallet passphrase with walletpassphrase first.")
  else .ok ()

/-- The wallet is asked to send the output script; the result is the id of the
transaction. -/
def sendVote (node : RpcNode) (script : CScript) : Except RpcError Uint256 :=
  if node.isLocked then
    .error (.json rpcWalletError "Error: Wallet locked, unable to create transaction!")
  else match node.send script voteAmount with
    | .error (code, message) => .error (.json code message)
    | .ok txid => .ok txid

/-- The body that the two functions share.  `checkVote` looks at the vote that is named,
and `mk` makes the object; the result is the id of the transaction and of the object. -/
def createVote (op : MarketOp) (mk : Uint256 → UInt32 → Uint256 → MarketObj op)
    (checkVote : LevelDB → Uint256 → Except RpcError Unit) (node : RpcNode) (fHelp : Bool)
    (params : List Value) : Except RpcError (Uint256 × Uint256) :=
  match params with
  | [branchid, height, voteid] =>
    if fHelp then .error .help
    else do
      let db ← node.marketTree
      ensureWalletIsUnlocked node
      let branchid ← branchid.getStr.map setHex
      let height ← height.getInt.map Int32.toUInt32
      let voteid ← voteid.getStr.map setHex
      let branch ← branchOrError db branchid
      checkVoteHeight height branch.data.tau.toUInt32
      checkVote db voteid
      let o := mk branchid height voteid
      let txid ← sendVote node o.getScript
      .ok (txid, o.getHash node.hash)
  | _ => .error .help

/-- `createsealedvote`. -/
def createsealedvote :=
  createVote .sealedVote (fun branchid height voteid => { data := { branchid, height, voteid } })
    fun _ _ => .ok ()

/-- `createstealvote`, which names the vote of a victim. -/
def createstealvote :=
  createVote .stealVote (fun branchid height voteid => { data := { branchid, height, voteid } })
    fun db voteid => match getSealedVote voteid db with
      | none => .error (.json rpcWalletError ("Error: voteid " ++ voteid.toHex ++ " does not exist!"))
      | some _ => .ok ()

/-! ## `createrevealvote` -/

def rpcInvalidAddressOrKey : Int := -5

/-- What `createrevealvote` makes of texts and numbers: the key of a votecoin address,
`uint64FromValue`, and `rounduint64(atof(..) * COIN)` of a vote. -/
structure RevealTexts where
  votecoinKey : Bytes → Option CKeyID
  uint64FromValue : Value → Except RpcError UInt64
  voteOf : Bytes → UInt64

/-- Text in a message. -/
def messageText (s : Bytes) : String := String.ofList (s.map fun c => Char.ofNat c.toNat)

/-- A parameter `decisionid,vote`. -/
def decisionVote (texts : RevealTexts) (v : Value) : Except RpcError (Uint256 × UInt64) := do
  let str ← v.getStr
  match str.dropWhile (· != 0x2c) with
  | [] => .error (.json rpcWalletError
      ("Error: decisionid,vote " ++ messageText str ++ " is not in correct form!"))
  | _ :: vote => .ok (setHex (str.takeWhile (· != 0x2c)), texts.voteOf vote)

/-- `createrevealvote`. -/
def createrevealvote (texts : RevealTexts) (node : RpcNode) (fHelp : Bool) (params : List Value) :
    Except RpcError (Uint256 × Uint256) :=
  match params with
  | address :: branchid :: height :: voteid :: na :: vote :: votes =>
    if fHelp then .error .help
    else do
      let db ← node.marketTree
      ensureWalletIsUnlocked node
      let address ← address.getStr
      match texts.votecoinKey address with
      | none => .error (.json rpcInvalidAddressOrKey "Invalid Votecoin address")
      | some keyID =>
        let branchid ← branchid.getStr.map setHex
        let height ← height.getInt.map Int32.toUInt32
        let voteid ← voteid.getStr.map setHex
        let NA ← texts.uint64FromValue na
        let branch ← branchOrError db branchid
        checkVoteHeight height branch.data.tau.toUInt32
        match getSealedVote voteid db with
        | none =>
          .error (.json rpcWalletError ("Error: voteid " ++ voteid.toHex ++ " does not exist!"))
        | some _ =>
          let votes ← (vote :: votes).mapM (decisionVote texts)
          let o : MarketObj .revealVote :=
            { data := { branchid, height, voteid, NA, keyID
                        decisionIDs := votes.map Prod.fst, decisionVotes := votes.map Prod.snd } }
          let txid ← sendVote node o.getScript
          .ok (txid, o.getHash node.hash)
  | _ => .error .help

/-! ## Where they can divide by zero -/

/-- The function does not divide by zero. -/
abbrev NoRpcDivide {α : Type} (x : Except RpcError α) : Prop :=
  Avoids (· = RpcError.fault .divByZero) x

theorem getStr_noDivide (v : Value) : NoRpcDivide v.getStr := by
  cases v with
  | str s => exact Avoids.ok _
  | _ => exact Avoids.error (by simp [typeError])

theorem getInt_noDivide (v : Value) : NoRpcDivide v.getInt := by
  cases v with
  | int n => exact Avoids.ok _
  | _ => exact Avoids.error (by simp [typeError])

theorem marketTree_noDivide (node : RpcNode) : NoRpcDivide node.marketTree := by
  unfold RpcNode.marketTree
  split
  · exact Avoids.error (by simp)
  · exact Avoids.ok _

theorem branchOrError_noDivide (db : LevelDB) (branchid : Uint256) :
    NoRpcDivide (branchOrError db branchid) := by
  unfold branchOrError
  split
  · exact Avoids.error (by simp)
  · exact Avoids.ok _

theorem branchOrError_ok {db : LevelDB} {branchid : Uint256} {branch : MarketObj .branch} :
    branchOrError db branchid = .ok branch ↔ getBranch branchid db = some branch := by
  unfold branchOrError
  split <;> simp_all

theorem marketTree_ok {node : RpcNode} {db : LevelDB} :
    node.marketTree = .ok db ↔ node.pmarkettree = some db := by
  unfold RpcNode.marketTree
  split <;> simp_all

theorem toUInt32_ne_zero {tau : UInt16} (h : tau ≠ 0) : tau.toUInt32 ≠ 0 := by
  intro hzero
  have := congrArg UInt32.toNat hzero
  exact h (UInt16.toNat_inj.mp (by simpa using this))

theorem quotient_noDivide (a : UInt32) {tau : UInt16} (h : tau ≠ 0) :
    NoRpcDivide (orFault (quotient a tau.toUInt32)) := by
  rw [quotient, if_neg (toUInt32_ne_zero h)]
  exact Avoids.ok _

theorem checkVoteHeight_noDivide (height : UInt32) {tau : UInt16} (h : tau ≠ 0) :
    NoRpcDivide (checkVoteHeight height tau.toUInt32) := by
  rw [checkVoteHeight, remainder, if_neg (toUInt32_ne_zero h)]
  exact Avoids.bind (Avoids.ok _) fun r _ => Avoids.ite (Avoids.error (by simp)) (Avoids.ok _)

/-- The first parameter is the id of the branch, and the branch is found. -/
structure AsksFor (node : RpcNode) (params : List Value) (branch : MarketObj .branch) : Prop where
  found : ∃ db text, node.pmarkettree = some db ∧ params.head? = some (.str text) ∧
    getBranch (setHex text) db = some branch

/-- The branch that a request works with is the one it asks for. -/
theorem AsksFor.eq {node : RpcNode} {params : List Value} {branch branch' : MarketObj .branch}
    (h : AsksFor node params branch) {db : LevelDB} {branchid : Uint256}
    (hdb : node.marketTree = .ok db)
    (hid : (params.headD .null).getStr.map setHex = .ok branchid)
    (hbranch : branchOrError db branchid = .ok branch') : branch' = branch := by
  obtain ⟨db', text, hdb', hhead, hfound⟩ := h.found
  obtain rfl : db' = db := by simpa [RpcNode.marketTree, hdb'] using hdb
  rw [List.headD_eq_head?_getD, hhead] at hid
  obtain rfl : setHex text = branchid := Except.ok.inj hid
  rw [branchOrError_ok, hfound] at hbranch
  exact (Option.some.inj hbranch).symm

/-- **`getballot` does not divide by zero** on a branch with a voting period. -/
theorem getballot_noDivide {node : RpcNode} {params : List Value} {branch : MarketObj .branch}
    (h : AsksFor node params branch) (htau : branch.data.tau ≠ 0) (fHelp : Bool) :
    NoRpcDivide (getballot node fHelp params) := by
  have hheight : NoRpcDivide (ballotHeight node params) := by
    unfold ballotHeight
    split
    · exact Avoids.map (getInt_noDivide _)
    · exact Avoids.ok _
  refine Avoids.ite (Avoids.error (by simp)) ?_
  refine Avoids.bind (marketTree_noDivide _) fun db hdb => ?_
  refine Avoids.bind (Avoids.map (getStr_noDivide _)) fun branchid hid => ?_
  refine Avoids.bind (branchOrError_noDivide _ _) fun branch' hbranch => ?_
  obtain rfl := h.eq hdb hid hbranch
  refine Avoids.bind hheight fun blockNum _ => ?_
  exact Avoids.bind (quotient_noDivide _ htau) fun q _ => Avoids.ok _

/-- **Neither do the functions that create votes.** -/
theorem createVote_noDivide {op : MarketOp} {mk : Uint256 → UInt32 → Uint256 → MarketObj op}
    {checkVote : LevelDB → Uint256 → Except RpcError Unit}
    (hcheck : ∀ db voteid, NoRpcDivide (checkVote db voteid)) {node : RpcNode}
    {params : List Value} {branch : MarketObj .branch} (h : AsksFor node params branch)
    (htau : branch.data.tau ≠ 0) (fHelp : Bool) :
    NoRpcDivide (createVote op mk checkVote node fHelp params) := by
  unfold createVote
  split
  · refine Avoids.ite (Avoids.error (by simp)) ?_
    refine Avoids.bind (marketTree_noDivide _) fun db hdb => ?_
    refine Avoids.bind (Avoids.ite (Avoids.error (by simp)) (Avoids.ok _)) fun _ _ => ?_
    refine Avoids.bind (Avoids.map (getStr_noDivide _)) fun branchid hid => ?_
    refine Avoids.bind (Avoids.map (getInt_noDivide _)) fun height _ => ?_
    refine Avoids.bind (Avoids.map (getStr_noDivide _)) fun voteid _ => ?_
    refine Avoids.bind (branchOrError_noDivide _ _) fun branch' hbranch => ?_
    obtain rfl := h.eq hdb hid hbranch
    refine Avoids.bind (checkVoteHeight_noDivide _ htau) fun _ _ => ?_
    refine Avoids.bind (hcheck _ _) fun _ _ => ?_
    refine Avoids.bind ?_ fun txid _ => Avoids.ok _
    unfold sendVote
    refine Avoids.ite (Avoids.error (by simp)) ?_
    split
    · exact Avoids.error (by simp)
    · exact Avoids.ok _
  · exact Avoids.error (by simp)

/-- `getballot` on a branch without a voting period. -/
theorem getballot_divides {node : RpcNode} {text : Bytes} {branch : MarketObj .branch}
    (h : AsksFor node [.str text] branch) (htau : branch.data.tau = 0) :
    getballot node false [.str text] = .error (.fault .divByZero) := by
  obtain ⟨db, text', hdb, hhead, hfound⟩ := h.found
  obtain rfl : text = text' := by simpa using hhead
  simp [getballot, RpcNode.marketTree, hdb, Value.getStr, Except.map, branchOrError, hfound,
    ballotHeight, htau, quotient, orFault, bind, Except.bind]

/-- `createsealedvote` on a branch without a voting period. -/
theorem createsealedvote_divides {node : RpcNode} {text : Bytes} {branch : MarketObj .branch}
    (height : Int64) (voteid : Bytes) (h : AsksFor node [.str text, .int height, .str voteid] branch)
    (hlocked : node.isLocked = false) (htau : branch.data.tau = 0) :
    createsealedvote node false [.str text, .int height, .str voteid] =
      .error (.fault .divByZero) := by
  obtain ⟨db, text', hdb, hhead, hfound⟩ := h.found
  obtain rfl : text = text' := by simpa using hhead
  simp [createsealedvote, createVote, RpcNode.marketTree, hdb, ensureWalletIsUnlocked, hlocked,
    Value.getStr, Value.getInt, Except.map, branchOrError, hfound, checkVoteHeight, htau, remainder,
    orFault, bind, Except.bind]

/-! ## The height of a revealed vote -/

/-- The computation succeeds with a height that ends a voting period. -/
theorem checkVoteHeight_ok {height : UInt32} {tau : UInt16} {u : Unit}
    (h : checkVoteHeight height tau.toUInt32 = .ok u) : tau.toNat ∣ height.toNat := by
  unfold checkVoteHeight remainder at h
  by_cases hzero : tau.toUInt32 = 0
  · simp [hzero, orFault, bind, Except.bind] at h
  · by_cases hr : height % tau.toUInt32 = 0
    · have := congrArg UInt32.toNat hr
      exact Nat.dvd_of_mod_eq_zero (by simpa using this)
    · simp [hzero, hr, orFault, bind, Except.bind] at h

theorem sendVote_ok {node : RpcNode} {script : CScript} {txid : Uint256}
    (h : sendVote node script = .ok txid) : node.send script voteAmount = .ok txid := by
  unfold sendVote at h
  split_ifs at h
  split at h
  · cases h
  · rename_i hsend
    obtain rfl := Except.ok.inj h
    exact hsend

/-- **What `createrevealvote` sends**: a vote of the branch it names, for a height that
ends a voting period of the branch. -/
theorem createrevealvote_sends {texts : RevealTexts} {node : RpcNode} {fHelp : Bool}
    {params : List Value} {r : Uint256 × Uint256}
    (h : createrevealvote texts node fHelp params = .ok r) :
    ∃ db branch, ∃ o : MarketObj .revealVote, node.pmarkettree = some db ∧
      getBranch o.data.branchid db = some branch ∧
      branch.data.tau.toNat ∣ o.data.height.toNat ∧
      node.send o.getScript voteAmount = .ok r.1 ∧ r.2 = o.getHash node.hash := by
  unfold createrevealvote at h
  split at h
  · split_ifs at h
    simp only [bind_eq_ok] at h
    obtain ⟨db, hdb, -, -, address, -, h⟩ := h
    split at h
    · cases h
    · simp only [bind_eq_ok] at h
      obtain ⟨branchid, -, height, -, voteid, -, NA, -, branch, hbranch, _, hheight, h⟩ := h
      split at h
      · cases h
      · simp only [bind_eq_ok, Except.ok.injEq] at h
        obtain ⟨votes, -, txid, hsend, rfl⟩ := h
        refine ⟨db, branch, _, marketTree_ok.mp hdb, branchOrError_ok.mp hbranch,
          checkVoteHeight_ok hheight, sendVote_ok hsend, rfl⟩
  · cases h

/-! ## Branches of the index -/

/-- A node whose index holds one branch, under the id that the empty text stands for. -/
def nodeWith (branch : MarketObj .branch) : RpcNode where
  hash _ := Blob.null
  pmarkettree := some (writeMarketIndex [(setHex [], ⟨.branch, branch⟩)] OrdMap.empty)
  height := 1
  isLocked := false
  send _ _ := .ok Blob.null

/-- **What a branch of the index can do.**  A branch that `marketObjCtr` reads makes
the miner, `getballot` and `createsealedvote` divide by zero, each of them, if and only if
its voting period is zero. -/
theorem indexed_branch_divides_iff {script : CScript} {o : MarketObj .branch}
    (hctr : marketObjCtr script = .ok (some ⟨.branch, o⟩)) (txid : Uint256) :
    ((∀ miner height, getOutcomeTx miner { o with txid } height ≠ .error .divByZero) ↔
      o.data.tau ≠ 0) ∧
    ((∀ node fHelp params, AsksFor node params { o with txid } →
      getballot node fHelp params ≠ .error (.fault .divByZero)) ↔ o.data.tau ≠ 0) ∧
    ((∀ node fHelp params, AsksFor node params { o with txid } →
      createsealedvote node fHelp params ≠ .error (.fault .divByZero)) ↔ o.data.tau ≠ 0) := by
  have hasks : ∀ params, params.head? = some (.str []) →
      AsksFor (nodeWith { o with txid }) params { o with txid } := fun params hhead =>
    ⟨_, [], rfl, hhead, getObj_of_marketObjCtr hctr txid (setHex []) OrdMap.empty⟩
  refine ⟨⟨fun h htau => ?_, fun htau miner height h => ?_⟩, ⟨fun h htau => ?_, ?_⟩,
    ⟨fun h htau => ?_, ?_⟩⟩
  · -- the highest height is past every ballot
    let miner : Miner :=
      ⟨fun _ => Blob.null, id, {}, OrdMap.empty, fun _ tx => tx, fun _ => none⟩
    refine h miner 0xffffffff ((getOutcomeTx_divides_iff miner _ _).mpr ⟨htau, ?_⟩)
    have hballot := o.data.ballotTime.toNat_lt
    have hunseal := o.data.unsealTime.toNat_lt
    show o.data.ballotTime.toNat + o.data.unsealTime.toNat < 4294967295
    omega
  · exact htau ((getOutcomeTx_divides_iff miner _ _).mp h).1
  · exact h _ false [.str []] (hasks _ rfl) (getballot_divides (hasks _ rfl) htau)
  · intro htau node fHelp params hparams h
    exact (getballot_noDivide hparams htau fHelp).not_bad _ h rfl
  · exact h _ false [.str [], .int 0, .str []] (hasks _ rfl)
      (createsealedvote_divides 0 [] (hasks _ rfl) rfl htau)
  · intro htau node fHelp params hparams h
    exact (createVote_noDivide (fun _ _ => Avoids.ok _) hparams htau fHelp).not_bad _ h rfl

/-- A branch without a voting period. -/
def exampleZeroBranch : MarketObj .branch where
  data := { exampleBranch.data with tau := 0 }

/-- A coinbase that carries it. -/
def exampleZeroCoinbase : CTransaction := coinbaseTx 1 [⟨0, exampleZeroBranch.getScript⟩]

theorem soundCoinbase_zero : SoundCoinbase exampleZeroCoinbase :=
  ⟨by decide, by decide +kernel, by decide, by decide⟩

theorem marketObjCtr_exampleZeroBranch :
    marketObjCtr exampleZeroBranch.getScript = .ok (some ⟨.branch, exampleZeroBranch⟩) := by
  decide

/-- **A branch without a voting period is accepted**: `ConnectBlock` takes a block whose
coinbase carries it and puts it into the index.  From then on the miner divides by zero
at every height above 2, and `getballot` and `createsealedvote` do when they are asked
for the branch. -/
theorem zero_tau_branch_divides :
    exampleZeroBranch.data.tau = 0 ∧
    ∀ env : Env, ∃ view disk,
      connectBlock (exampleContext env) (coinbaseBlock env.hash none exampleZeroCoinbase)
        (coinbaseIndex env.hash none 0 exampleZeroCoinbase) false {} {} = (.ok view, disk) ∧
      getBranch (exampleZeroBranch.getHash env.hash) disk.market =
        some { exampleZeroBranch with txid := exampleZeroCoinbase.getHash env.hash } ∧
      (∀ miner height, 2 < height → getOutcomeTx miner
        { exampleZeroBranch with txid := exampleZeroCoinbase.getHash env.hash } height =
          .error .divByZero) ∧
      ∀ node : RpcNode, node.pmarkettree = some disk.market → node.isLocked = false →
        getballot node false [.str (hexText (exampleZeroBranch.getHash env.hash))] =
          .error (.fault .divByZero) ∧
        ∀ height voteid, createsealedvote node false
          [.str (hexText (exampleZeroBranch.getHash env.hash)), .int height, .str voteid] =
            .error (.fault .divByZero) := by
  refine ⟨rfl, fun env => ?_⟩
  have hobjs : indexedObjs (exampleContext env) (coinbaseBlock env.hash none exampleZeroCoinbase) =
      .ok _ := blockObjs_coinbaseTx marketObjCtr_exampleZeroBranch env 1
  obtain ⟨disk, hconnect, hmarket, -⟩ := connectBlock_coinbase (exampleContext env) {} {}
    soundCoinbase_zero 0 rfl rfl (le_refl _) rfl rfl hobjs
  have hbranch : getBranch (exampleZeroBranch.getHash env.hash) disk.market =
      some { exampleZeroBranch with txid := exampleZeroCoinbase.getHash env.hash } := by
    rw [hmarket]
    exact getObj_of_marketObjCtr marketObjCtr_exampleZeroBranch _ _ _
  refine ⟨_, disk, hconnect, hbranch, fun miner height hheight => ?_, fun node htree hlocked => ?_⟩
  · exact (getOutcomeTx_divides_iff miner _ height).mpr ⟨rfl, UInt32.lt_iff_toNat_lt.mp hheight⟩
  · have hasks : ∀ params : List Value,
        params.head? = some (.str (hexText (exampleZeroBranch.getHash env.hash))) →
        AsksFor node params
          { exampleZeroBranch with txid := exampleZeroCoinbase.getHash env.hash } :=
      fun params hhead => ⟨_, _, htree, hhead, by rw [setHex_hexText]; exact hbranch⟩
    exact ⟨getballot_divides (hasks _ rfl) rfl, fun height voteid =>
      createsealedvote_divides height voteid (hasks _ rfl) hlocked rfl⟩

/-- A branch with a voting period does no harm. -/
theorem indexed_branch_divides_iff_example :
    exampleBranch.data.tau = 72 ∧
    ∀ miner height, getOutcomeTx miner { exampleBranch with txid := Blob.null } height ≠
      .error .divByZero :=
  ⟨rfl, (indexed_branch_divides_iff marketObjCtr_exampleBranch Blob.null).1.mpr (by decide)⟩

end Hivemind
