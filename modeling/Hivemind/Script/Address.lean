import Hivemind.Primitives.Base58
import Hivemind.Script.Destination

/-!
# Addresses

`CBase58Data` and `CHivemindAddress` of `base58.cpp`: an address is a version, that says what it
is the address of, and a hash.  Votecoins have a version of their own for keys.

The version is one byte of the network, and the different versions of a network are different
bytes; these are the only facts about `chainparams.cpp` that are used.  A string is decoded with
its checksum and cut after the version, whatever is in it, and `IsValid` compares the length of
the hash.

`Get` and `GetKeyID` look at the version again: both know the versions of keys and scripts, and
only the second one knows that of the keys of votecoins.

* `setString_toString`: an address is read back from its string.
* `get_setData`: the destination of an address, by its version.
* `getKeyID_set`: the hash of a key comes back, whatever it is the key of.
* `get_setString_toString`: **which destinations come back**: all but the keys of votecoins.
* `get_setString_toString_votecoinKey`: a key of votecoins does not.
-/

namespace Hivemind

open Codecs

/-- `Base58Type`, as far as addresses go. -/
inductive Base58Type where
  | pubkeyAddress
  | scriptAddress
  | vpubkeyAddress
  deriving DecidableEq

/-- `Base58Prefix` of the chain parameters. -/
abbrev Base58Prefixes := Base58Type → Bytes

/-- The prefixes are single bytes, and different ones. -/
structure DistinctPrefixes (params : Base58Prefixes) : Prop where
  single : ∀ type, (params type).length = 1
  injective : Function.Injective params

/-- The prefixes of the main network. -/
def mainPrefixes : Base58Prefixes
  | .pubkeyAddress => [0]
  | .scriptAddress => [5]
  | .vpubkeyAddress => [71]

/-- The prefixes of the test networks, of which one is that of the main network. -/
def testNetPrefixes : Base58Prefixes
  | .pubkeyAddress => [111]
  | .scriptAddress => [196]
  | .vpubkeyAddress => mainPrefixes .vpubkeyAddress

theorem distinctPrefixes_main : DistinctPrefixes mainPrefixes where
  single := by rintro (_ | _) <;> rfl
  injective := by rintro (_ | _) (_ | _) h <;> first | rfl | cases h

theorem distinctPrefixes_testNet : DistinctPrefixes testNetPrefixes where
  single := by rintro (_ | _) <;> rfl
  injective := by rintro (_ | _) (_ | _) h <;> first | rfl | cases h

/-- `CHivemindAddress`, with the members of `CBase58Data`. -/
structure CHivemindAddress where
  vchVersion : Bytes := []
  vchData : Bytes := []
  is_votecoin : UInt8 := 0
  deriving DecidableEq

namespace CHivemindAddress

variable (hash : Bytes → Uint256) (params : Base58Prefixes) (addr : CHivemindAddress)

/-! ## `CBase58Data` -/

/-- `SetData`. -/
def setData (vchVersionIn pdata : Bytes) : CHivemindAddress :=
  { addr with vchVersion := vchVersionIn, vchData := pdata }

/-- `SetString`, with one byte of version. -/
def setString (psz : Bytes) : Except Base58Fault (CHivemindAddress × Bool) :=
  (decodeBase58Check hash psz).map fun r =>
    (r.filter fun vchTemp => 1 ≤ vchTemp.length).elim (addr.setData [] [], false) fun vchTemp =>
      (addr.setData (vchTemp.take 1) (vchTemp.drop 1), true)

/-- `ToString`. -/
def toString : Except Base58Fault Bytes :=
  encodeBase58Check hash (addr.vchVersion ++ addr.vchData)

/-! ## `CHivemindAddress` -/

/-- `Set`. -/
def set : CTxDestination → CHivemindAddress × Bool
  | .noDestination => (addr, false)
  | .keyID id =>
    let pubkeyaddr := params (if addr.is_votecoin ≠ 0 then .vpubkeyAddress else .pubkeyAddress)
    (addr.setData pubkeyaddr id.val, true)
  | .scriptID id => (addr.setData (params .scriptAddress) id.val, true)

/-- `IsValid`. -/
def isValid : Bool :=
  let fCorrectSize := addr.vchData.length = 20
  let fKnownVersion :=
    (addr.is_votecoin = 0 ∧ addr.vchVersion = params .pubkeyAddress) ∨
      (addr.is_votecoin ≠ 0 ∧ addr.vchVersion = params .vpubkeyAddress) ∨
      addr.vchVersion = params .scriptAddress
  fCorrectSize ∧ fKnownVersion

/-- `Get`. -/
def get : CTxDestination :=
  if addr.isValid params = false then .noDestination
  else
    let id : Blob 20 := Blob.ofBytes addr.vchData
    if addr.vchVersion = params .pubkeyAddress then .keyID id
    else if addr.vchVersion = params .scriptAddress then .scriptID id
    else .noDestination

/-- `GetKeyID`. -/
def getKeyID : Option CKeyID :=
  if addr.isValid params = false then none
  else if addr.vchVersion ≠ params .pubkeyAddress ∧ addr.vchVersion ≠ params .vpubkeyAddress then
    none
  else some (Blob.ofBytes addr.vchData)

/-! ## The round trip -/

variable {hash params addr} {dest : CTxDestination} {addr' : CHivemindAddress}

/-- **An address is read back from its string.** -/
theorem setString_toString (hash : Bytes → Uint256) (h : addr.vchVersion.length = 1)
    (addr' : CHivemindAddress) :
    ∃ str, addr.toString hash = .ok str ∧
      addr'.setString hash (cStr str) =
        .ok (addr'.setData addr.vchVersion addr.vchData, true) := by
  obtain ⟨str, hencode, hstr, hdecode⟩ :=
    decodeBase58Check_encodeBase58Check hash (addr.vchVersion ++ addr.vchData)
  refine ⟨str, hencode, ?_⟩
  have htake : (addr.vchVersion ++ addr.vchData).take 1 = addr.vchVersion := List.take_left' h
  have hdrop : (addr.vchVersion ++ addr.vchData).drop 1 = addr.vchData := List.drop_left' h
  have hlong : (some (addr.vchVersion ++ addr.vchData)).filter
      (fun vchTemp => decide (1 ≤ vchTemp.length)) = some (addr.vchVersion ++ addr.vchData) := by
    rw [Option.filter_some, if_pos]
    simp [h]
  simp only [setString, cStr_of_not_mem hstr, hdecode, Except.map, hlong, Option.elim_some, htake,
    hdrop]

/-- The version that `Set` gives an address. -/
def versionType (is_votecoin : UInt8) : CTxDestination → Base58Type
  | .scriptID _ => .scriptAddress
  | _ => if is_votecoin ≠ 0 then .vpubkeyAddress else .pubkeyAddress

/-- The hash of a destination. -/
def hashBytes : CTxDestination → Bytes
  | .keyID id => id.val
  | .scriptID id => id.val
  | .noDestination => []

theorem set_eq (hdest : dest ≠ .noDestination) :
    addr.set params dest =
      (addr.setData (params (versionType addr.is_votecoin dest)) (hashBytes dest), true) := by
  cases dest with
  | noDestination => exact absurd rfl hdest
  | keyID id => rfl
  | scriptID id => rfl

theorem length_hashBytes (hdest : dest ≠ .noDestination) : (hashBytes dest).length = 20 := by
  cases dest with
  | noDestination => exact absurd rfl hdest
  | keyID id => exact id.property
  | scriptID id => exact id.property

theorem isValid_setData (params : Base58Prefixes) (addr : CHivemindAddress)
    (hdest : dest ≠ .noDestination) :
    (addr.setData (params (versionType addr.is_votecoin dest)) (hashBytes dest)).isValid params =
      true := by
  have hlen := length_hashBytes hdest
  by_cases hflag : addr.is_votecoin = 0 <;> cases dest <;>
    simp_all [isValid, setData, versionType]

/-- The destination of an address, by its version: `Get` does not know that of votecoins. -/
theorem get_setData (hp : DistinctPrefixes params) (hdest : dest ≠ .noDestination) :
    (addr.setData (params (versionType addr.is_votecoin dest)) (hashBytes dest)).get params = dest ↔
      addr.is_votecoin = 0 ∨ ∃ id, dest = .scriptID id := by
  have hvalid := isValid_setData params addr hdest
  rw [get, hvalid, if_neg (by simp)]
  simp only [setData, hp.injective.eq_iff]
  cases dest with
  | noDestination => exact absurd rfl hdest
  | keyID id =>
      by_cases hflag : addr.is_votecoin = 0
      · simp [versionType, hflag, hashBytes, Blob.ofBytes_val]
      · simp [versionType, hflag]
  | scriptID id => simp [versionType, hashBytes, Blob.ofBytes_val]

/-- `GetKeyID` does know it. -/
theorem getKeyID_set (hp : DistinctPrefixes params) (addr : CHivemindAddress) (id : CKeyID) :
    (addr.set params (.keyID id)).1.getKeyID params = some id := by
  have hdest : CTxDestination.keyID id ≠ .noDestination := by simp
  have hvalid := isValid_setData params addr hdest
  rw [set_eq hdest, getKeyID, hvalid, if_neg (by simp)]
  simp only [setData, ne_eq, hp.injective.eq_iff]
  by_cases hflag : addr.is_votecoin = 0 <;>
    simp [versionType, hflag, hashBytes, Blob.ofBytes_val]

/-- **Which destinations come back from their string**: all but the keys of votecoins. -/
theorem get_setString_toString (hp : DistinctPrefixes params) (hash : Bytes → Uint256)
    (addr addr' : CHivemindAddress) (hflag : addr'.is_votecoin = addr.is_votecoin)
    (hdest : dest ≠ .noDestination) :
    (addr.set params dest).2 = true ∧
      ∃ str b, (addr.set params dest).1.toString hash = .ok str ∧
        addr'.setString hash (cStr str) = .ok (b, true) ∧
        (b.get params = dest ↔ addr.is_votecoin = 0 ∨ ∃ id, dest = .scriptID id) := by
  rw [set_eq hdest]
  refine ⟨rfl, ?_⟩
  have hsingle : (addr.setData (params (versionType addr.is_votecoin dest))
      (hashBytes dest)).vchVersion.length = 1 := hp.single _
  obtain ⟨str, hprint, hparse⟩ := setString_toString hash hsingle addr'
  refine ⟨str, _, hprint, hparse, ?_⟩
  rw [← hflag]
  exact get_setData hp hdest

/-- A script, of votecoins, on the main network. -/
theorem get_setString_toString_script :
    ∃ str b, (CHivemindAddress.set mainPrefixes { is_votecoin := 1 }
          (.scriptID (Blob.fill 7))).1.toString (fun _ => Blob.null) = .ok str ∧
        CHivemindAddress.setString (fun _ => Blob.null) { is_votecoin := 1 } (cStr str) =
          .ok (b, true) ∧
        b.get mainPrefixes = .scriptID (Blob.fill 7) := by
  obtain ⟨-, str, b, hprint, hparse, hget⟩ :=
    get_setString_toString distinctPrefixes_main (fun _ => Blob.null) { is_votecoin := 1 }
      { is_votecoin := 1 } rfl (show CTxDestination.scriptID (Blob.fill 7) ≠ .noDestination by simp)
  exact ⟨str, b, hprint, hparse, hget.mpr (Or.inr ⟨_, rfl⟩)⟩

/-- A key of votecoins does not come back. -/
theorem get_setString_toString_votecoinKey :
    ∃ str b, (CHivemindAddress.set mainPrefixes { is_votecoin := 1 }
          (.keyID (Blob.fill 7))).1.toString (fun _ => Blob.null) = .ok str ∧
        CHivemindAddress.setString (fun _ => Blob.null) { is_votecoin := 1 } (cStr str) =
          .ok (b, true) ∧
        b.get mainPrefixes = .noDestination := by
  have hsingle : (CHivemindAddress.set mainPrefixes { is_votecoin := 1 }
      (.keyID (Blob.fill 7))).1.vchVersion.length = 1 := rfl
  obtain ⟨str, hprint, hparse⟩ := setString_toString (fun _ => Blob.null) hsingle
    { is_votecoin := 1 }
  exact ⟨str, _, hprint, hparse, by decide +kernel⟩

end CHivemindAddress
end Hivemind
