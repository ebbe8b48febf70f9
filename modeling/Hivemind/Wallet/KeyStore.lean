import Hivemind.Primitives.Basic

/-!
# The key store (`keystore.cpp`, `crypter.cpp`)

`CCryptoKeyStore` keeps private keys, in the clear or encrypted under a master key that it has
while it is unlocked.  AES, the key derivation, the hashes and the curve are parameters, with
what the documentation of these libraries promises as `KeyCrypto.Sound`: what is encrypted is
decrypted with the same key, and keys have their lengths.  Nothing is promised of a wrong key.

A store without a master key in memory is locked, and `fUseCrypto` says that it keeps encrypted
keys at all; the two vectors of keys are never both in use.  `Unlock` tries the master key on the
stored keys, on the first one alone once all of them have passed, and asserts that they do not
differ in this.  Where an assertion of the source may fail the function is `none`.

* `CCrypter`: the encryption context, with the tests on the lengths of its key.
* `decryptSecret_encryptSecret`: a secret is decrypted with the key that it was encrypted with.
* `CKey.Good.set`: setting the bytes of a key gives the key back.
* `CCryptoKeyStore`: the store and its functions: adding a key, encrypting the keys, locking,
  unlocking and reading.
-/

namespace Hivemind

open Codecs Ordered

/-! ## What the store calls -/

/-- OpenSSL's AES-256-CBC and `EVP_BytesToKey`, the curve, and the hashes. -/
structure KeyCrypto where
  aesEncrypt (chKey chIV plaintext : Bytes) : Option Bytes
  aesDecrypt (chKey chIV ciphertext : Bytes) : Option Bytes
  bytesToKey (chSalt passphrase : Bytes) (rounds : Nat) : Bytes × Bytes
  /-- `CKey::Check`. -/
  check : Bytes → Bool
  /-- `secp256k1_ec_pubkey_create`. -/
  pubKey : Bytes → Bool → Bytes
  hash160 : Bytes → CKeyID
  hash : Bytes → Uint256

/-- What the documentation of these libraries promises. -/
structure KeyCrypto.Sound (crypto : KeyCrypto) : Prop where
  aes : ∀ chKey chIV plaintext, chKey.length = 32 →
    ∃ c, crypto.aesEncrypt chKey chIV plaintext = some c ∧
      crypto.aesDecrypt chKey chIV c = some plaintext
  bytesToKey_length : ∀ chSalt passphrase rounds,
    (crypto.bytesToKey chSalt passphrase rounds).1.length = 32
  pubKey_length : ∀ secret fCompressed,
    (crypto.pubKey secret fCompressed).length = if fCompressed then 33 else 65

/-- `WALLET_CRYPTO_KEY_SIZE`. -/
def walletCryptoKeySize : Nat := 32

/-- `WALLET_CRYPTO_SALT_SIZE`. -/
def walletCryptoSaltSize : Nat := 8

/-- An encryption context. -/
structure CCrypter where
  chKey : Bytes := []
  chIV : Bytes := []
  fKeySet : Bool := false

namespace CCrypter

variable (crypto : KeyCrypto)

/-- `SetKeyFromPassphrase`, of the one derivation method that there is; `none` for `false`. -/
def setKeyFromPassphrase (strKeyData chSalt : Bytes) (nRounds nDerivationMethod : Nat) :
    Option CCrypter :=
  if nRounds < 1 ∨ chSalt.length ≠ walletCryptoSaltSize ∨ nDerivationMethod ≠ 0 then none
  else
    let derived := crypto.bytesToKey chSalt strKeyData nRounds
    some { chKey := derived.1, chIV := derived.2, fKeySet := true }

/-- `SetKey`; `none` for `false`. -/
def setKey (chNewKey chNewIV : Bytes) : Option CCrypter :=
  if chNewKey.length ≠ walletCryptoKeySize ∨ chNewIV.length ≠ walletCryptoKeySize then none
  else some { chKey := chNewKey, chIV := chNewIV, fKeySet := true }

/-- `Encrypt`. -/
def encrypt (c : CCrypter) (vchPlaintext : Bytes) : Option Bytes :=
  if c.fKeySet = false then none else crypto.aesEncrypt c.chKey c.chIV vchPlaintext

/-- `Decrypt`. -/
def decrypt (c : CCrypter) (vchCiphertext : Bytes) : Option Bytes :=
  if c.fKeySet = false then none else crypto.aesDecrypt c.chKey c.chIV vchCiphertext

end CCrypter

section Secrets

variable (crypto : KeyCrypto)

/-- `EncryptSecret`. -/
def encryptSecret (vMasterKey vchPlaintext : Bytes) (nIV : Uint256) : Option Bytes :=
  (CCrypter.setKey vMasterKey nIV.val).bind fun c => c.encrypt crypto vchPlaintext

/-- `DecryptSecret`. -/
def decryptSecret (vMasterKey vchCiphertext : Bytes) (nIV : Uint256) : Option Bytes :=
  (CCrypter.setKey vMasterKey nIV.val).bind fun c => c.decrypt crypto vchCiphertext

variable {crypto}

theorem encryptSecret_eq {k : Bytes} (hk : k.length = 32) (plaintext : Bytes) (nIV : Uint256) :
    encryptSecret crypto k plaintext nIV = crypto.aesEncrypt k nIV.val plaintext := by
  have hiv : nIV.val.length = 32 := nIV.2
  simp [encryptSecret, CCrypter.setKey, CCrypter.encrypt, walletCryptoKeySize, hk, hiv]

theorem decryptSecret_eq {k : Bytes} (hk : k.length = 32) (ciphertext : Bytes) (nIV : Uint256) :
    decryptSecret crypto k ciphertext nIV = crypto.aesDecrypt k nIV.val ciphertext := by
  have hiv : nIV.val.length = 32 := nIV.2
  simp [decryptSecret, CCrypter.setKey, CCrypter.decrypt, walletCryptoKeySize, hk, hiv]

/-- A secret is decrypted with the key that it was encrypted with. -/
theorem decryptSecret_encryptSecret (hs : crypto.Sound) {k : Bytes} (hk : k.length = 32)
    (plaintext : Bytes) (nIV : Uint256) :
    ∃ c, encryptSecret crypto k plaintext nIV = some c ∧
      decryptSecret crypto k c nIV = some plaintext := by
  obtain ⟨c, henc, hdec⟩ := hs.aes k nIV.val plaintext hk
  refine ⟨c, ?_, ?_⟩
  · rw [encryptSecret_eq hk, henc]
  · rw [decryptSecret_eq hk, hdec]

/-- A locked store has no master key to decrypt with. -/
theorem decryptSecret_nil (ciphertext : Bytes) (nIV : Uint256) :
    decryptSecret crypto [] ciphertext nIV = none := by
  simp [decryptSecret, CCrypter.setKey, walletCryptoKeySize]

end Secrets

/-! ## Keys -/

/-- A private key. -/
structure CKey where
  vch : Bytes := []
  fCompressed : Bool := false
  fValid : Bool := false
  deriving DecidableEq

namespace CKey

variable (crypto : KeyCrypto)

/-- `CKey::Set`. -/
def set (key : CKey) (bytes : Bytes) (fCompressedIn : Bool) : CKey :=
  if bytes.length ≠ 32 then { key with fValid := false }
  else if crypto.check bytes then { vch := bytes, fCompressed := fCompressedIn, fValid := true }
  else { key with fValid := false }

/-- The bytes from `begin()` to `end()`. -/
def bytes (key : CKey) : Bytes := if key.fValid then key.vch else []

/-- `CKey::GetPubKey`, which asserts that the key is valid. -/
def getPubKey (key : CKey) : Option Bytes :=
  if key.fValid then some (crypto.pubKey key.vch key.fCompressed) else none

/-- The public key of a valid key. -/
def pub (key : CKey) : Bytes := crypto.pubKey key.vch key.fCompressed

/-- A key as `MakeNewKey` and `Load` build it. -/
structure Good (key : CKey) : Prop where
  valid : key.fValid = true
  length : key.vch.length = 32
  check : crypto.check key.vch = true

end CKey

/-- `CPubKey::IsCompressed`. -/
def pubKeyIsCompressed (vchPubKey : Bytes) : Bool := vchPubKey.length == 33

section Keys

variable {crypto : KeyCrypto} {key : CKey}

theorem CKey.Good.getPubKey (h : key.Good crypto) :
    key.getPubKey crypto = some (key.pub crypto) := by
  simp [CKey.getPubKey, CKey.pub, h.valid]

theorem CKey.Good.bytes (h : key.Good crypto) : key.bytes = key.vch := by
  simp [CKey.bytes, h.valid]

/-- A public key tells whether its private key is compressed. -/
@[simp] theorem pubKeyIsCompressed_pub (hs : crypto.Sound) (key : CKey) :
    pubKeyIsCompressed (key.pub crypto) = key.fCompressed := by
  have hlen := hs.pubKey_length key.vch key.fCompressed
  rw [pubKeyIsCompressed, CKey.pub, hlen]
  cases key.fCompressed <;> rfl

/-- Setting the bytes of a key gives the key back. -/
theorem CKey.Good.set (hs : crypto.Sound) (h : key.Good crypto) (old : CKey) :
    old.set crypto key.vch (pubKeyIsCompressed (key.pub crypto)) = key := by
  rw [pubKeyIsCompressed_pub hs]
  obtain ⟨vch, fCompressed, fValid⟩ := key
  obtain ⟨hvalid, hlen, hcheck⟩ := h
  simp only at hvalid hlen hcheck
  simp [CKey.set, hlen, hcheck, hvalid]

end Keys

/-! ## The store -/

/-- `CCryptoKeyStore`, with the keys of the `CBasicKeyStore` that it derives from. -/
structure CCryptoKeyStore where
  mapKeys : OrdMap CKeyID CKey := .empty
  mapCryptedKeys : OrdMap CKeyID (Bytes × Bytes) := .empty
  vMasterKey : Bytes := []
  fUseCrypto : Bool := false
  fDecryptionThoroughlyChecked : Bool := false

namespace CCryptoKeyStore

variable (crypto : KeyCrypto) (s : CCryptoKeyStore)

/-- `IsCrypted`. -/
def isCrypted : Bool := s.fUseCrypto

/-- `IsLocked`. -/
def isLocked : Bool := s.fUseCrypto && s.vMasterKey.isEmpty

/-- `SetCrypted`. -/
def setCrypted : Bool × CCryptoKeyStore :=
  if s.fUseCrypto then (true, s)
  else if s.mapKeys.entries ≠ [] then (false, s)
  else (true, { s with fUseCrypto := true })

/-- `Lock`. -/
def lock : Bool × CCryptoKeyStore :=
  match s.setCrypted with
  | (false, s) => (false, s)
  | (true, s) => (true, { s with vMasterKey := [] })

/-- The loop of `Unlock`: whether a key passed and whether one failed; `none` where
`GetPubKey` asserts. -/
def tryKeys (vMasterKeyIn : Bytes) (fThorough : Bool) :
    List (CKeyID × Bytes × Bytes) → Bool → Option (Bool × Bool)
  | [], keyPass => some (keyPass, false)
  | (_, vchPubKey, vchCryptedSecret) :: rest, keyPass =>
    match decryptSecret crypto vMasterKeyIn vchCryptedSecret (crypto.hash vchPubKey) with
    | none => some (keyPass, true)
    | some vchSecret =>
      if vchSecret.length ≠ 32 then some (keyPass, true)
      else
        match (CKey.set crypto {} vchSecret (pubKeyIsCompressed vchPubKey)).getPubKey crypto with
        | none => none
        | some pubkey =>
          if pubkey ≠ vchPubKey then some (keyPass, true)
          else if fThorough then some (true, false)
          else tryKeys vMasterKeyIn fThorough rest true

/-- `Unlock`; `none` where an assertion fails. -/
def unlock (vMasterKeyIn : Bytes) : Option (Bool × CCryptoKeyStore) :=
  match s.setCrypted with
  | (false, s) => some (false, s)
  | (true, s) =>
    (tryKeys crypto vMasterKeyIn s.fDecryptionThoroughlyChecked s.mapCryptedKeys.entries false).bind
      fun (keyPass, keyFail) =>
        -- Some keys decrypt but not all.
        if keyPass && keyFail then none
        else if keyFail || !keyPass then some (false, s)
        else
          some (true,
            { s with vMasterKey := vMasterKeyIn, fDecryptionThoroughlyChecked := true })

/-- `AddCryptedKey`. -/
def addCryptedKey (vchPubKey vchCryptedSecret : Bytes) : Bool × CCryptoKeyStore :=
  match s.setCrypted with
  | (false, s) => (false, s)
  | (true, s) =>
    (true, { s with mapCryptedKeys :=
        s.mapCryptedKeys.put (crypto.hash160 vchPubKey) (vchPubKey, vchCryptedSecret) })

/-- `AddKeyPubKey`. -/
def addKeyPubKey (key : CKey) (pubkey : Bytes) : Bool × CCryptoKeyStore :=
  if s.isCrypted = false then
    (true, { s with mapKeys := s.mapKeys.put (crypto.hash160 pubkey) key })
  else if s.isLocked then (false, s)
  else
    match encryptSecret crypto s.vMasterKey key.bytes (crypto.hash pubkey) with
    | none => (false, s)
    | some vchCryptedSecret => s.addCryptedKey crypto pubkey vchCryptedSecret

/-- `AddKey`. -/
def addKey (key : CKey) : Option (Bool × CCryptoKeyStore) :=
  (key.getPubKey crypto).map (s.addKeyPubKey crypto key)

/-- The loop of `EncryptKeys`, which calls the `AddCryptedKey` of the object; `none` where
`GetPubKey` asserts. -/
def encryptEach {σ : Type} (add : σ → Bytes → Bytes → Bool × σ) (vMasterKeyIn : Bytes) :
    List (CKeyID × CKey) → σ → Option (Bool × σ)
  | [], x => some (true, x)
  | (_, key) :: rest, x =>
    match key.getPubKey crypto with
    | none => none
    | some vchPubKey =>
      match encryptSecret crypto vMasterKeyIn key.bytes (crypto.hash vchPubKey) with
      | none => some (false, x)
      | some vchCryptedSecret =>
        match add x vchPubKey vchCryptedSecret with
        | (false, x) => some (false, x)
        | (true, x) => encryptEach add vMasterKeyIn rest x

/-- `EncryptKeys`. -/
def encryptKeys (vMasterKeyIn : Bytes) : Option (Bool × CCryptoKeyStore) :=
  if s.mapCryptedKeys.entries ≠ [] ∨ s.isCrypted then some (false, s)
  else
    (encryptEach crypto (fun s => s.addCryptedKey crypto) vMasterKeyIn s.mapKeys.entries
      { s with fUseCrypto := true }).map fun
        | (false, s) => (false, s)
        | (true, s) => (true, { s with mapKeys := .empty })

/-- `HaveKey`. -/
def haveKey (address : CKeyID) : Bool :=
  if s.isCrypted = false then (s.mapKeys.find address).isSome
  else (s.mapCryptedKeys.find address).isSome

/-- `GetKey`, into a fresh key; `none` for `false`. -/
def getKey (address : CKeyID) : Option CKey :=
  if s.isCrypted = false then s.mapKeys.find address
  else (s.mapCryptedKeys.find address).bind fun (vchPubKey, vchCryptedSecret) =>
    let decrypted := decryptSecret crypto s.vMasterKey vchCryptedSecret (crypto.hash vchPubKey)
    decrypted.bind fun vchSecret =>
      if vchSecret.length ≠ 32 then none
      else some (CKey.set crypto {} vchSecret (pubKeyIsCompressed vchPubKey))

/-- `GetPubKey`; the outer `none` where `CKey::GetPubKey` asserts. -/
def getPubKey (address : CKeyID) : Option (Option Bytes) :=
  if s.isCrypted = false then
    match s.mapKeys.find address with
    | none => some none
    | some key => (key.getPubKey crypto).map some
  else some ((s.mapCryptedKeys.find address).map Prod.fst)

/-- `GetKeys`. -/
def getKeys : List CKeyID :=
  if s.isCrypted = false then s.mapKeys.entries.map Prod.fst
  else s.mapCryptedKeys.entries.map Prod.fst

end CCryptoKeyStore

end Hivemind
