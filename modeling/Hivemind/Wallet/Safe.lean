import Hivemind.Wallet.Passphrase

/-!
# What the passphrase is for

A safe is a set of keys that can be shut behind a passphrase.  The wallet stands for a safe: this
is the statement of what `CWallet`, its key store and its file are meant to do together, in terms
that know nothing of master keys, salts and records.

A call on a safe is answered by looking at whether it has a passphrase, whether it is shut and
whether the passphrase that was named is the one.  The random draws of a run show only in the
keys that are made.  What is assumed of them is `Careful`: keys are valid, no two of them have
the same hash, lengths are as asked for, and a wrong passphrase decrypts nothing that passes for
a stored key.

* `KeySafe`: the safe, and what the calls do to it.
* `Careful`: what is assumed of what a run draws at random.
* `Mirrors`, `Wraps`, `Seals`: the file has the keys of the store, a passphrase unwraps the
  master key, and how the wallet keeps the keys.
* `Stands`: **a wallet, with its file, that stands for a safe.**
-/

namespace Hivemind

open Codecs Ordered

/-! ## Safes -/

/-- Keys, behind a passphrase once there is one. -/
structure KeySafe where
  keys : OrdMap CKeyID CKey := .empty
  pass : Option Bytes := none
  isOpen : Bool := false

namespace KeySafe

variable (crypto : KeyCrypto) (safe : KeySafe)

/-- A key is filed under the hash of its public key. -/
def file (key : CKey) : KeySafe :=
  { safe with keys := safe.keys.put (crypto.hash160 (key.pub crypto)) key }

/-- Nothing goes into a safe that is shut. -/
def isShut : Bool := safe.pass.isSome && !safe.isOpen

/-- One call. -/
def step : WalletAct → WalletReply × KeySafe
  | .addKey key =>
    if safe.isShut then (.error .addKeyFailed, safe) else (.ok (), safe.file crypto key)
  | .encryptwallet pass draw =>
    if safe.pass.isSome then (.error .wrongEncState, safe)
    else if pass = [] then (.error .usage, safe)
    else
      let filled := draw.poolKeys.foldl (file crypto) safe
      (.ok (), { filled with pass := some pass, isOpen := false })
  | .walletpassphrase pass =>
    if safe.pass = none then (.error .wrongEncState, safe)
    else if pass = [] then (.error .usage, safe)
    else if safe.pass = some pass then (.ok (), { safe with isOpen := true })
    else (.error .passphraseIncorrect, safe)
  | .walletpassphrasechange old new _ =>
    if safe.pass = none then (.error .wrongEncState, safe)
    else if old = [] ∨ new = [] then (.error .usage, safe)
    else if safe.pass = some old then (.ok (), { safe with pass := some new })
    -- a wrong passphrase shuts the safe
    else (.error .passphraseIncorrect, { safe with isOpen := false })
  | .walletlock =>
    if safe.pass = none then (.error .wrongEncState, safe)
    else (.ok (), { safe with isOpen := false })
  | .restart => (.ok (), { safe with isOpen := false })

/-- The replies of the safe, and the safe after them. -/
def runActs : KeySafe → List WalletAct → List WalletReply × KeySafe
  | safe, [] => ([], safe)
  | safe, a :: acts =>
    let r := safe.step crypto a
    let rest := runActs r.2 acts
    (r.1 :: rest.1, rest.2)

/-- The keys that can be read. -/
def getKey (address : CKeyID) : Option CKey :=
  if safe.isShut then none else safe.keys.find address

end KeySafe

/-! ## What a run draws -/

namespace WalletAct

/-- The keys that a call makes. -/
def newKeys : WalletAct → List CKey
  | .addKey key => [key]
  | .encryptwallet _ draw => draw.poolKeys
  | _ => []

/-- The passphrases that a call names. -/
def passes : WalletAct → List Bytes
  | .encryptwallet pass _ => [pass]
  | .walletpassphrase pass => [pass]
  | .walletpassphrasechange old new _ => [old, new]
  | _ => []

/-- The salts and the master keys that a call draws. -/
def seeds : WalletAct → List (Bytes × Bytes)
  | .encryptwallet _ draw => [(draw.vchSalt, draw.vMasterKey)]
  | _ => []

/-- What a call measures. -/
def measures : WalletAct → List Nat
  | .encryptwallet _ draw => [draw.measured]
  | .walletpassphrasechange _ _ measured => [measured]
  | _ => []

/-- What is drawn has the length that the wallet asks for, and keys are valid. -/
structure Good (crypto : KeyCrypto) (a : WalletAct) : Prop where
  keys : ∀ key ∈ a.newKeys, key.Good crypto
  seeds : ∀ e ∈ a.seeds, e.1.length = 8 ∧ e.2.length = 32

end WalletAct

/-- What is found with a wrong passphrase where the master key is wrapped, if anything, is
not the master key and does not fit a key. -/
def PassMisses (crypto : KeyCrypto) (pass pass' salt : Bytes) (rounds : Nat) (master : Bytes)
    (key : CKey) : Prop :=
  ∀ c c' wrapped found, CCrypter.setKeyFromPassphrase crypto pass salt rounds 0 = some c →
    c.encrypt crypto master = some wrapped →
    CCrypter.setKeyFromPassphrase crypto pass' salt rounds 0 = some c' →
    c'.decrypt crypto wrapped = some found → found ≠ master ∧ Misses crypto master found key

/-- What the results about runs assume of what is drawn in them. -/
structure Careful (crypto : KeyCrypto) (all : List WalletAct) : Prop where
  good : ∀ a ∈ all, a.Good crypto
  /-- No key is drawn twice, and no two have the same hash. -/
  distinct : ((all.flatMap WalletAct.newKeys).map fun key => crypto.hash160 (key.pub crypto)).Nodup
  /-- No wrong passphrase happens to fit. -/
  misses : ∀ pass ∈ all.flatMap WalletAct.passes, ∀ pass' ∈ all.flatMap WalletAct.passes,
    pass' ≠ pass → ∀ e ∈ all.flatMap WalletAct.seeds, ∀ m ∈ all.flatMap WalletAct.measures,
    ∀ key ∈ all.flatMap WalletAct.newKeys,
      PassMisses crypto pass pass' e.1 (deriveIterations m) e.2 key

/-! ## Wallets that stand for safes -/

section Stands

variable (crypto : KeyCrypto) (all : List WalletAct)

/-- The wallet file has the keys of the store. -/
structure Mirrors (s : CCryptoKeyStore) (file : WalletFile) : Prop where
  key : ∀ p, p ∈ file.key.entries ↔
    (crypto.hash160 p.1, p.2) ∈ s.mapKeys.entries ∧ p.2.pub crypto = p.1
  ckey : ∀ p, p ∈ file.ckey.entries ↔ (crypto.hash160 p.1, p) ∈ s.mapCryptedKeys.entries

/-- The passphrase unwraps the master key. -/
structure Wraps (pass master : Bytes) (mk : CMasterKey) : Prop where
  pass_mem : pass ∈ all.flatMap WalletAct.passes
  seed_mem : (mk.vchSalt, master) ∈ all.flatMap WalletAct.seeds
  rounds : ∃ m ∈ all.flatMap WalletAct.measures, mk.nDeriveIterations = deriveIterations m
  method : mk.nDerivationMethod = 0
  wraps : ∃ c,
    CCrypter.setKeyFromPassphrase crypto pass mk.vchSalt mk.nDeriveIterations 0 = some c ∧
    c.encrypt crypto master = some mk.vchCryptedKey ∧
    c.decrypt crypto mk.vchCryptedKey = some master

/-- How the wallet keeps the keys, with and without a passphrase. -/
def Seals (w : KeyWallet) (keys : OrdMap CKeyID CKey) (isOpen : Bool) : Option Bytes → Prop
  | none => Holds crypto w.store ⟨keys, .plain⟩ ∧ w.mapMasterKeys = .empty ∧
      w.nMasterKeyMaxID = 0 ∧ w.file.mkey = .empty
  | some pass => ∃ master mk, Wraps crypto all pass master mk ∧
      Holds crypto w.store ⟨keys, if isOpen then .opened master else .sealed (some master)⟩ ∧
      w.mapMasterKeys.entries = [(1, mk)] ∧ w.file.mkey = w.mapMasterKeys

/-- The wallet stands for the safe. -/
structure Stands (w : KeyWallet) (safe : KeySafe) : Prop where
  nonempty : safe.keys.entries ≠ []
  drawn : ∀ id key, safe.keys.find id = some key → key ∈ all.flatMap WalletAct.newKeys
  mirrors : Mirrors crypto w.store w.file
  seals : Seals crypto all w safe.keys safe.isOpen safe.pass

end Stands

end Hivemind
