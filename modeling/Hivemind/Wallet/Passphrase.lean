import Hivemind.Wallet.Vault

/-!
# The passphrase of the wallet (`wallet.cpp`, `walletdb.cpp`, `rpcwallet.cpp`)

`CWallet` encrypts its keys under a random master key, and the master key under a key that is
derived from a passphrase.  It writes both to the wallet file, from which `LoadWallet` builds a
locked wallet.

The wallet is a key store whose `AddCryptedKey` also writes to the file, so the loop of the store
that encrypts the keys writes a record for each of them and erases the one in the clear.  The
records are maps from the ids of keys, and the records of the master keys one from numbers; a
restart goes through them in the order of the file and fails where a record does not fit.

The key pool, the watch-only scripts and the key metadata are left out, and so are errors of the
database.  What the wallet measures and draws at random are arguments, of which nothing is
assumed in this module.

* `KeyWallet`, `WalletFile`: the part of `CWallet` that keeps keys, and its records.
* `encryptWallet`, `unlock`, `changeWalletPassphrase`, `load`: the functions of the source.
* `WalletAct`, `KeyWallet.step`, `KeyWallet.runActs`: the calls and restarts as they come.
-/

namespace Hivemind

open Codecs Ordered

/-- `CMasterKey`. -/
structure CMasterKey where
  vchCryptedKey : Bytes
  vchSalt : Bytes
  nDerivationMethod : Nat := 0
  nDeriveIterations : Nat := 25000
  deriving DecidableEq

/-- The records of the wallet file that hold keys. -/
structure WalletFile where
  /-- `key`: a private key, under its public key. -/
  key : OrdMap Bytes CKey := .empty
  /-- `ckey`: an encrypted private key. -/
  ckey : OrdMap Bytes Bytes := .empty
  /-- `mkey`. -/
  mkey : OrdMap Nat CMasterKey := .empty

namespace WalletFile

variable (file : WalletFile)

/-- `WriteKey`, which does not overwrite. -/
def writeKey (vchPubKey : Bytes) (key : CKey) : Bool × WalletFile :=
  if (file.key.find vchPubKey).isSome then (false, file)
  else (true, { file with key := file.key.put vchPubKey key })

/-- `WriteCryptedKey`, which erases the key in the clear. -/
def writeCryptedKey (vchPubKey vchCryptedSecret : Bytes) : Bool × WalletFile :=
  if (file.ckey.find vchPubKey).isSome then (false, file)
  else
    (true, { file with
      ckey := file.ckey.put vchPubKey vchCryptedSecret
      key := file.key.erase vchPubKey })

/-- `WriteMasterKey`. -/
def writeMasterKey (nID : Nat) (kMasterKey : CMasterKey) : WalletFile :=
  { file with mkey := file.mkey.put nID kMasterKey }

end WalletFile

/-- The part of `CWallet` that keeps keys. -/
structure KeyWallet where
  store : CCryptoKeyStore := {}
  mapMasterKeys : OrdMap Nat CMasterKey := .empty
  nMasterKeyMaxID : Nat := 0
  file : WalletFile := {}

/-- The rounds of a key derivation that takes a tenth of a second, as measured. -/
def deriveIterations (measured : Nat) : Nat := if measured < 25000 then 25000 else measured

/-- What `EncryptWallet` draws and measures, and the keys of the pool that it makes. -/
structure EncryptDraw where
  vMasterKey : Bytes
  vchSalt : Bytes
  measured : Nat
  poolKeys : List CKey

namespace KeyWallet

variable (crypto : KeyCrypto) (w : KeyWallet)

/-- `CWallet::AddCryptedKey`. -/
def addCryptedKey (vchPubKey vchCryptedSecret : Bytes) : Bool × KeyWallet :=
  match w.store.addCryptedKey crypto vchPubKey vchCryptedSecret with
  | (false, store) => (false, { w with store := store })
  | (true, store) =>
    let written := w.file.writeCryptedKey vchPubKey vchCryptedSecret
    (written.1, { w with store := store, file := written.2 })

/-- `CWallet::AddKeyPubKey`, where `CCryptoKeyStore::AddKeyPubKey` calls the `AddCryptedKey`
of the wallet. -/
def addKeyPubKey (key : CKey) (pubkey : Bytes) : Bool × KeyWallet :=
  if w.store.isCrypted = false then
    let store := (w.store.addKeyPubKey crypto key pubkey).2
    let written := w.file.writeKey pubkey key
    (written.1, { w with store := store, file := written.2 })
  else if w.store.isLocked then (false, w)
  else
    match encryptSecret crypto w.store.vMasterKey key.bytes (crypto.hash pubkey) with
    | none => (false, w)
    | some vchCryptedSecret => w.addCryptedKey crypto pubkey vchCryptedSecret

/-- `GenerateNewKey` of the key that is drawn; `none` where it asserts or throws. -/
def generateNewKey (secret : CKey) : Option KeyWallet :=
  (secret.getPubKey crypto).bind fun pubkey =>
    match w.addKeyPubKey crypto secret pubkey with
    | (false, _) => none
    | (true, w) => some w

/-- `NewKeyPool`, of the keys that are drawn. -/
def newKeyPool (poolKeys : List CKey) : Option KeyWallet :=
  if w.store.isLocked then some w else poolKeys.foldlM (generateNewKey crypto) w

/-- `CWallet::EncryptKeys`: that of the store, with the `AddCryptedKey` of the wallet. -/
def encryptKeys (vMasterKeyIn : Bytes) : Option (Bool × KeyWallet) :=
  if w.store.mapCryptedKeys.entries ≠ [] ∨ w.store.isCrypted then some (false, w)
  else
    (CCryptoKeyStore.encryptEach crypto (fun w => w.addCryptedKey crypto) vMasterKeyIn
      w.store.mapKeys.entries { w with store := { w.store with fUseCrypto := true } }).map fun
        | (false, w) => (false, w)
        | (true, w) => (true, { w with store := { w.store with mapKeys := .empty } })

/-- The loop of `Unlock` over the master keys. -/
def tryMasterKeys (strWalletPassphrase : Bytes) :
    List (Nat × CMasterKey) → CCryptoKeyStore → Option (Bool × CCryptoKeyStore)
  | [], s => some (false, s)
  | (_, pMasterKey) :: rest, s =>
    match CCrypter.setKeyFromPassphrase crypto strWalletPassphrase pMasterKey.vchSalt
        pMasterKey.nDeriveIterations pMasterKey.nDerivationMethod with
    | none => some (false, s)
    | some crypter =>
      match crypter.decrypt crypto pMasterKey.vchCryptedKey with
      | none => tryMasterKeys strWalletPassphrase rest s -- try another master key
      | some vMasterKey =>
        match s.unlock crypto vMasterKey with
        | none => none
        | some (true, s) => some (true, s)
        | some (false, s) => tryMasterKeys strWalletPassphrase rest s

/-- `CWallet::Unlock`; `none` where the store asserts. -/
def unlock (strWalletPassphrase : Bytes) : Option (Bool × KeyWallet) :=
  (tryMasterKeys crypto strWalletPassphrase w.mapMasterKeys.entries w.store).map
    fun (ok, s) => (ok, { w with store := s })

/-- `Lock`, of the store. -/
def lock : KeyWallet := { w with store := w.store.lock.2 }

/-- `EncryptWallet`; `none` where it asserts or throws. -/
def encryptWallet (strWalletPassphrase : Bytes) (draw : EncryptDraw) : Option (Bool × KeyWallet) :=
  if w.store.isCrypted then some (false, w)
  else
    let rounds := deriveIterations draw.measured
    match CCrypter.setKeyFromPassphrase crypto strWalletPassphrase draw.vchSalt rounds 0 with
    | none => some (false, w)
    | some crypter =>
      match crypter.encrypt crypto draw.vMasterKey with
      | none => some (false, w)
      | some vchCryptedKey =>
        let kMasterKey : CMasterKey :=
          { vchCryptedKey := vchCryptedKey, vchSalt := draw.vchSalt, nDeriveIterations := rounds }
        let nID := w.nMasterKeyMaxID + 1
        let w := { w with
          mapMasterKeys := w.mapMasterKeys.put nID kMasterKey
          nMasterKeyMaxID := nID
          file := w.file.writeMasterKey nID kMasterKey }
        match w.encryptKeys crypto draw.vMasterKey with
        | none => none
        -- half of the keys are encrypted in memory, and half not: it asserts
        | some (false, _) => none
        | some (true, w) =>
          (w.lock.unlock crypto strWalletPassphrase).bind fun (_, w) =>
            (w.newKeyPool crypto draw.poolKeys).map fun w => (true, w.lock)

/-- The loop of `ChangeWalletPassphrase` over the master keys. -/
def rekey (strOld strNew : Bytes) (measured : Nat) (fWasLocked : Bool) :
    List (Nat × CMasterKey) → KeyWallet → Option (Bool × KeyWallet)
  | [], w => some (false, w)
  | (nID, pMasterKey) :: rest, w =>
    match CCrypter.setKeyFromPassphrase crypto strOld pMasterKey.vchSalt
        pMasterKey.nDeriveIterations pMasterKey.nDerivationMethod with
    | none => some (false, w)
    | some crypter =>
      match crypter.decrypt crypto pMasterKey.vchCryptedKey with
      | none => some (false, w)
      | some vMasterKey =>
        match w.store.unlock crypto vMasterKey with
        | none => none
        | some (false, s) => rekey strOld strNew measured fWasLocked rest { w with store := s }
        | some (true, s) =>
          let rounds := deriveIterations measured
          let pMasterKey := { pMasterKey with nDeriveIterations := rounds }
          let w := { w with store := s, mapMasterKeys := w.mapMasterKeys.put nID pMasterKey }
          match CCrypter.setKeyFromPassphrase crypto strNew pMasterKey.vchSalt rounds
              pMasterKey.nDerivationMethod with
          | none => some (false, w)
          | some crypter =>
            match crypter.encrypt crypto vMasterKey with
            | none => some (false, w)
            | some vchCryptedKey =>
              let pMasterKey := { pMasterKey with vchCryptedKey := vchCryptedKey }
              let w := { w with
                mapMasterKeys := w.mapMasterKeys.put nID pMasterKey
                file := w.file.writeMasterKey nID pMasterKey }
              some (true, if fWasLocked then w.lock else w)

/-- `ChangeWalletPassphrase`. -/
def changeWalletPassphrase (strOld strNew : Bytes) (measured : Nat) : Option (Bool × KeyWallet) :=
  let fWasLocked := w.store.isLocked
  let w := w.lock
  rekey crypto strOld strNew measured fWasLocked w.mapMasterKeys.entries w

/-- `LoadKey`, of a `key` record. -/
def loadKey (s : CCryptoKeyStore) (e : Bytes × CKey) : CCryptoKeyStore :=
  (s.addKeyPubKey crypto e.2 e.1).2

/-- `LoadCryptedKey`, of a `ckey` record; `none` for `false`. -/
def loadCryptedKey (s : CCryptoKeyStore) (e : Bytes × Bytes) : Option CCryptoKeyStore :=
  match s.addCryptedKey crypto e.1 e.2 with
  | (false, _) => none
  | (true, s) => some s

/-- `LoadWallet`: `key`, `ckey` and `mkey` records in the order of the file; `none` where it
finds the wallet corrupt. -/
def load (file : WalletFile) : Option KeyWallet :=
  (file.ckey.entries.foldlM (loadCryptedKey crypto)
    (file.key.entries.foldl (loadKey crypto) {})).map fun s =>
      { store := s
        mapMasterKeys := file.mkey
        nMasterKeyMaxID := file.mkey.entries.foldl (fun n e => if n < e.1 then e.1 else n) 0
        file := file }

end KeyWallet

/-! ## The calls -/

/-- What a call is refused for. -/
inductive WalletFault where
  | wrongEncState
  | usage
  | passphraseIncorrect
  | encryptionFailed
  | addKeyFailed
  deriving DecidableEq

/-- The calls that change the keys, and a restart of the node. -/
inductive WalletAct where
  | addKey (key : CKey)
  | encryptwallet (pass : Bytes) (draw : EncryptDraw)
  | walletpassphrase (pass : Bytes)
  | walletpassphrasechange (old new : Bytes) (measured : Nat)
  | walletlock
  | restart

abbrev WalletReply := Except WalletFault Unit

namespace KeyWallet

variable (crypto : KeyCrypto) (w : KeyWallet)

/-- The reply to a `bool` of the wallet. -/
def reply (fault : WalletFault) (r : Bool × KeyWallet) : WalletReply × KeyWallet :=
  (if r.1 then .ok () else .error fault, r.2)

/-- One call; `none` where the node asserts, throws or does not load the wallet. -/
def step : WalletAct → Option (WalletReply × KeyWallet)
  | .addKey key =>
    (key.getPubKey crypto).map fun pubkey => reply .addKeyFailed (w.addKeyPubKey crypto key pubkey)
  | .encryptwallet pass draw =>
    if w.store.isCrypted then some (.error .wrongEncState, w)
    else if pass.length < 1 then some (.error .usage, w)
    else (w.encryptWallet crypto pass draw).map (reply .encryptionFailed)
  | .walletpassphrase pass =>
    if w.store.isCrypted = false then some (.error .wrongEncState, w)
    else if pass.length > 0 then (w.unlock crypto pass).map (reply .passphraseIncorrect)
    else some (.error .usage, w)
  | .walletpassphrasechange old new measured =>
    if w.store.isCrypted = false then some (.error .wrongEncState, w)
    else if old.length < 1 ∨ new.length < 1 then some (.error .usage, w)
    else (w.changeWalletPassphrase crypto old new measured).map (reply .passphraseIncorrect)
  | .walletlock =>
    if w.store.isCrypted = false then some (.error .wrongEncState, w) else some (.ok (), w.lock)
  | .restart => (load crypto w.file).map fun w => (.ok (), w)

/-- The replies of the wallet, and the wallet after them. -/
def runActs : KeyWallet → List WalletAct → Option (List WalletReply × KeyWallet)
  | w, [] => some ([], w)
  | w, a :: acts =>
    (w.step crypto a).bind fun (answer, w) =>
      (runActs w acts).map fun (answers, w) => (answer :: answers, w)

end KeyWallet

end Hivemind
