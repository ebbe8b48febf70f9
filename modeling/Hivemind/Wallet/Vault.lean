import Hivemind.Wallet.KeyStore

/-!
# What the key store is for

A vault is a set of keys behind a guard: in the clear, sealed under a master key, or opened with
it.  The key store stands for a vault, and each of its operations does what the operation of the
vault does.

The guard of a vault is what two flags and two vectors of the store say together, and `Guards` is
that reading; what it leaves out cannot be reached.  A vault without keys is a case of its own:
the store can be locked before it has a master key, and accepts no master key since there is no
key to try it on.

A wrong master key is refused because it does not fit the first stored key.  No cipher promises
that, so `Misses` says it of the master keys and the keys of a run: what decryption gives, if
anything, is not a secret with the public key of the record.

* `Holds`: a store that stands for a vault.
* `Holds.addKey`, `Holds.encryptKeys`, `Holds.lock`, `Holds.unlock`: the operations.
* `Holds.getKey`, `Holds.getPubKey`: reading.
* `runActs_refines`: **the store answers as the vault does, and its assertions never fail**, over
  every run in which a wrong master key does not fit a stored key.
-/

namespace Hivemind

open Codecs Ordered

/-! ## Vaults -/

/-- How the keys are kept.  A store without keys can be sealed before it has a master key. -/
inductive Guard where
  | plain
  | sealed (master : Option Bytes)
  | opened (master : Bytes)
  deriving DecidableEq

/-- The master key that the keys are sealed under. -/
def Guard.master : Guard → Option Bytes
  | .plain => none
  | .sealed m => m
  | .opened k => some k

/-- Keys behind a guard. -/
structure Vault where
  keys : OrdMap CKeyID CKey := .empty
  guard : Guard := .plain

/-- The operations of a key store that change it. -/
inductive KeyAct where
  | addKey (key : CKey)
  | encryptKeys (vMasterKeyIn : Bytes)
  | lock
  | unlock (vMasterKeyIn : Bytes)

namespace Vault

variable (crypto : KeyCrypto) (v : Vault)

/-- A key is filed under the hash of its public key. -/
def file (key : CKey) : Vault :=
  { v with keys := v.keys.put (crypto.hash160 (key.pub crypto)) key }

/-- Nothing is added to a sealed vault. -/
def addKey (key : CKey) : Bool × Vault :=
  match v.guard with
  | .sealed _ => (false, v)
  | _ => (true, v.file crypto key)

/-- A vault is sealed once. -/
def encryptKeys (k : Bytes) : Bool × Vault :=
  match v.guard with
  | .plain => (true, { v with guard := .sealed (some k) })
  | _ => (false, v)

/-- A vault in the clear is locked only while it is empty. -/
def lock : Bool × Vault :=
  match v.guard with
  | .plain => if v.keys.entries = [] then (true, { v with guard := .sealed none }) else (false, v)
  | .sealed _ => (true, v)
  | .opened k => (true, { v with guard := .sealed (some k) })

/-- The master key opens a vault that has keys, and nothing else does. -/
def unlock (k : Bytes) : Bool × Vault :=
  match v.guard.master with
  | none => (false, if v.keys.entries = [] then { v with guard := .sealed none } else v)
  | some master =>
    if v.keys.entries ≠ [] ∧ k = master then (true, { v with guard := .opened master })
    else (false, v)

/-- One operation. -/
def step : KeyAct → Bool × Vault
  | .addKey key => v.addKey crypto key
  | .encryptKeys k => v.encryptKeys k
  | .lock => v.lock
  | .unlock k => v.unlock k

/-- The keys that can be read. -/
def getKey (address : CKeyID) : Option CKey :=
  match v.guard with
  | .sealed _ => none
  | _ => v.keys.find address

end Vault

/-! ## Stores that stand for vaults -/

section Holds

variable (crypto : KeyCrypto)

/-- A key as it is stored under a master key. -/
def sealKey (k : Bytes) (key : CKey) : Bytes × Bytes :=
  (key.pub crypto, (encryptSecret crypto k key.vch (crypto.hash (key.pub crypto))).getD [])

/-- Every key is stored under `k`. -/
def SealedUnder (k : Bytes) (keys : OrdMap CKeyID CKey) (crypted : OrdMap CKeyID (Bytes × Bytes)) :
    Prop :=
  ∀ id, crypted.find id = (keys.find id).map (sealKey crypto k)

/-- The keys are valid, and each is filed under its id. -/
def Filings (keys : OrdMap CKeyID CKey) : Prop :=
  ∀ id key, keys.find id = some key → key.Good crypto ∧ id = crypto.hash160 (key.pub crypto)

/-- The store keeps its keys as the guard says. -/
def Guards (s : CCryptoKeyStore) (keys : OrdMap CKeyID CKey) : Guard → Prop
  | .plain => s.fUseCrypto = false ∧ s.mapKeys = keys ∧ s.mapCryptedKeys = .empty ∧
      s.vMasterKey = []
  | .sealed none => s.fUseCrypto = true ∧ s.mapKeys = .empty ∧ s.mapCryptedKeys = .empty ∧
      s.vMasterKey = [] ∧ keys = .empty
  | .sealed (some k) => s.fUseCrypto = true ∧ s.mapKeys = .empty ∧ s.vMasterKey = [] ∧
      k.length = 32 ∧ SealedUnder crypto k keys s.mapCryptedKeys
  | .opened k => s.fUseCrypto = true ∧ s.mapKeys = .empty ∧ s.vMasterKey = k ∧
      k.length = 32 ∧ SealedUnder crypto k keys s.mapCryptedKeys

/-- The store stands for the vault. -/
structure Holds (s : CCryptoKeyStore) (v : Vault) : Prop where
  filings : Filings crypto v.keys
  guards : Guards crypto s v.keys v.guard

/-- `k'` does not fit a key that is sealed under `k`: what it decrypts to, if anything, is
not the secret of that public key. -/
def Misses (k k' : Bytes) (key : CKey) : Prop :=
  ∀ c, encryptSecret crypto k key.vch (crypto.hash (key.pub crypto)) = some c →
    ∀ secret, decryptSecret crypto k' c (crypto.hash (key.pub crypto)) = some secret →
      secret.length = 32 →
        crypto.check secret = true ∧ crypto.pubKey secret key.fCompressed ≠ key.pub crypto

end Holds

variable {crypto : KeyCrypto} {s : CCryptoKeyStore} {v : Vault} {k k' : Bytes} {key : CKey}

/-! ## Sealed keys -/

section Sealed

variable {keys : OrdMap CKeyID CKey} {crypted : OrdMap CKeyID (Bytes × Bytes)}

/-- A stored key is decrypted with the master key to the key that it was. -/
theorem decrypt_sealKey (hs : crypto.Sound) (hk : k.length = 32) (key : CKey) :
    encryptSecret crypto k key.vch (crypto.hash (key.pub crypto)) = some (sealKey crypto k key).2 ∧
      decryptSecret crypto k (sealKey crypto k key).2 (crypto.hash (key.pub crypto)) =
        some key.vch := by
  obtain ⟨c, henc, hdec⟩ :=
    decryptSecret_encryptSecret hs hk key.vch (crypto.hash (key.pub crypto))
  have hsnd : (sealKey crypto k key).2 = c := by simp [sealKey, henc]
  rw [hsnd]
  exact ⟨henc, hdec⟩

theorem SealedUnder.mem (h : SealedUnder crypto k keys crypted) (hf : Filings crypto keys)
    {e : CKeyID × Bytes × Bytes} (he : e ∈ crypted.entries) :
    ∃ key, key.Good crypto ∧ keys.find e.1 = some key ∧ e.2 = sealKey crypto k key := by
  have hfind := h e.1
  rw [OrdMap.find_eq_some.mpr he, eq_comm, Option.map_eq_some_iff] at hfind
  obtain ⟨key, hkey, hseal⟩ := hfind
  exact ⟨key, (hf _ _ hkey).1, hkey, hseal.symm⟩

theorem SealedUnder.nil_iff (h : SealedUnder crypto k keys crypted) :
    crypted.entries = [] ↔ keys.entries = [] := by
  rw [OrdMap.entries_eq_nil_iff, OrdMap.entries_eq_nil_iff]
  apply forall_congr'
  intro id
  rw [h id, Option.map_eq_none_iff]

theorem SealedUnder.put (h : SealedUnder crypto k keys crypted) (id : CKeyID) (key : CKey) :
    SealedUnder crypto k (keys.put id key) (crypted.put id (sealKey crypto k key)) := by
  intro id'
  rw [OrdMap.find_put, OrdMap.find_put]
  split
  · rfl
  · exact h id'

theorem Filings.put (h : Filings crypto keys) (hgood : key.Good crypto) :
    Filings crypto (keys.put (crypto.hash160 (key.pub crypto)) key) := by
  intro id key' hfind
  rw [OrdMap.find_put] at hfind
  split at hfind
  · obtain rfl := Option.some.inj hfind
    exact ⟨hgood, by assumption⟩
  · exact h id key' hfind

/-- The master key passes every stored key, checked one by one or by the first. -/
theorem tryKeys_master (hs : crypto.Sound) (hk : k.length = 32) (fThorough : Bool)
    {l : List (CKeyID × Bytes × Bytes)}
    (hl : ∀ e ∈ l, ∃ key, key.Good crypto ∧ e.2 = sealKey crypto k key) (keyPass : Bool) :
    CCryptoKeyStore.tryKeys crypto k fThorough l keyPass = some (keyPass || !l.isEmpty, false) := by
  induction l generalizing keyPass with
  | nil => simp [CCryptoKeyStore.tryKeys]
  | cons e l ih =>
      obtain ⟨key, hgood, hseal⟩ := hl e List.mem_cons_self
      obtain ⟨id, pub, c⟩ := e
      obtain ⟨rfl, rfl⟩ := Prod.mk.inj hseal
      have hdec := (decrypt_sealKey hs hk key).2
      have hrest := ih (fun e he => hl e (List.mem_cons_of_mem _ he)) true
      rw [sealKey] at hdec
      simp only [CCryptoKeyStore.tryKeys, hdec, hgood.length, hgood.set hs, hgood.getPubKey, hrest]
      simp

/-- A key that misses the first stored key ends the loop there. -/
theorem tryKeys_misses (hs : crypto.Sound) (hk : k.length = 32) (fThorough : Bool)
    (hmiss : Misses crypto k k' key) (id : CKeyID) (l : List (CKeyID × Bytes × Bytes))
    (keyPass : Bool) :
    CCryptoKeyStore.tryKeys crypto k' fThorough ((id, sealKey crypto k key) :: l) keyPass =
      some (keyPass, true) := by
  have henc := (decrypt_sealKey hs hk key).1
  have hpub : (sealKey crypto k key).1 = key.pub crypto := rfl
  rw [show sealKey crypto k key = (key.pub crypto, (sealKey crypto k key).2) from rfl]
  simp only [CCryptoKeyStore.tryKeys]
  cases hdec : decryptSecret crypto k' (sealKey crypto k key).2
      (crypto.hash (key.pub crypto)) with
  | none => rfl
  | some secret =>
      by_cases hlen : secret.length = 32
      · obtain ⟨hcheck, hne⟩ := hmiss _ henc secret hdec hlen
        simp [hlen, CKey.set, CKey.getPubKey, hcheck, pubKeyIsCompressed_pub hs, hne]
      · simp [hlen]

end Sealed

/-! ## The operations -/

/-- **Adding a key** files it, in the clear or sealed, unless the store is locked. -/
theorem Holds.addKey (hs : crypto.Sound) (h : Holds crypto s v) (hgood : key.Good crypto) :
    ∃ s', s.addKeyPubKey crypto key (key.pub crypto) = ((v.addKey crypto key).1, s') ∧
      Holds crypto s' (v.addKey crypto key).2 := by
  obtain ⟨mapKeys, mapCryptedKeys, vMasterKey, fUseCrypto, fChecked⟩ := s
  obtain ⟨keys, guard⟩ := v
  obtain ⟨hf, hg⟩ := h
  cases guard with
  | plain =>
      obtain ⟨rfl, rfl, rfl, rfl⟩ := hg
      refine ⟨_, rfl, hf.put hgood, ?_⟩
      simp [Guards, Vault.addKey, Vault.file]
  | sealed m =>
      have hlocked : fUseCrypto = true ∧ vMasterKey = [] := by
        cases m with
        | none => exact ⟨hg.1, hg.2.2.2.1⟩
        | some k => exact ⟨hg.1, hg.2.2.1⟩
      obtain ⟨rfl, rfl⟩ := hlocked
      refine ⟨_, ?_, hf, hg⟩
      simp [CCryptoKeyStore.addKeyPubKey, CCryptoKeyStore.isCrypted, CCryptoKeyStore.isLocked,
        Vault.addKey]
  | opened k =>
      obtain ⟨rfl, rfl, rfl, hk, hseal⟩ := hg
      have hne : vMasterKey ≠ [] := by
        rintro rfl
        simp at hk
      have henc := (decrypt_sealKey hs hk key).1
      rw [← hgood.bytes] at henc
      let crypted :=
        mapCryptedKeys.put (crypto.hash160 (key.pub crypto)) (sealKey crypto vMasterKey key)
      refine ⟨⟨.empty, crypted, vMasterKey, true, fChecked⟩, ?_, hf.put hgood, rfl, rfl, rfl, hk,
        hseal.put _ key⟩
      simp [CCryptoKeyStore.addKeyPubKey, CCryptoKeyStore.isCrypted, CCryptoKeyStore.isLocked,
        CCryptoKeyStore.addCryptedKey, CCryptoKeyStore.setCrypted, Vault.addKey, hne, henc]
      rfl

/-- **The rule for the loop that seals the keys**, when each key can be added. -/
theorem encryptEach_eq (hs : crypto.Sound) (hk : k.length = 32) {σ : Type}
    {add : σ → Bytes → Bytes → Bool × σ} {next : σ → CKeyID × CKey → σ}
    {Ok : List (CKeyID × CKey) → σ → Prop}
    (hadd : ∀ e l x, Ok (e :: l) x →
      add x (sealKey crypto k e.2).1 (sealKey crypto k e.2).2 = (true, next x e) ∧
        Ok l (next x e))
    {l : List (CKeyID × CKey)} (hl : ∀ e ∈ l, e.2.Good crypto) {x : σ} (hx : Ok l x) :
    CCryptoKeyStore.encryptEach crypto add k l x = some (true, l.foldl next x) := by
  induction l generalizing x with
  | nil => rfl
  | cons e l ih =>
      have hgood := hl e List.mem_cons_self
      have henc := (decrypt_sealKey hs hk e.2).1
      have hpub : (sealKey crypto k e.2).1 = e.2.pub crypto := rfl
      obtain ⟨hstep, hrest⟩ := hadd e l x hx
      rw [hpub] at hstep
      simp only [CCryptoKeyStore.encryptEach, hgood.getPubKey, hgood.bytes, henc, hstep]
      exact ih (fun e he => hl e (List.mem_cons_of_mem _ he)) hrest

/-- The keys of a store, all sealed. -/
def sealAll (crypto : KeyCrypto) (k : Bytes) (l : List (CKeyID × CKey)) :
    OrdMap CKeyID (Bytes × Bytes) :=
  l.foldl (fun m e => m.put (crypto.hash160 (e.2.pub crypto)) (sealKey crypto k e.2)) .empty

theorem sealedUnder_sealAll {keys : OrdMap CKeyID CKey} (hf : Filings crypto keys) (k : Bytes) :
    SealedUnder crypto k keys (sealAll crypto k keys.entries) := by
  have hcongr : sealAll crypto k keys.entries =
      keys.entries.foldl (fun m e => m.put e.1 (sealKey crypto k e.2)) .empty := by
    apply List.foldl_ext
    intro m e he
    rw [← (hf e.1 e.2 (OrdMap.find_eq_some.mpr he)).2]
  intro id
  have hloop := @OrdMap.foldl_entries _ _ _ _
    (fun (m : OrdMap CKeyID (Bytes × Bytes)) (e : CKeyID × CKey) =>
      m.put e.1 (sealKey crypto k e.2))
    (fun _ _ key => some (sealKey crypto k key)) (fun m e id => OrdMap.find_put m e.1 id _)
    keys .empty id
  rw [hcongr, hloop]
  cases keys.find id <;> rfl

/-- The store with one more key sealed. -/
def CCryptoKeyStore.putSealed (crypto : KeyCrypto) (k : Bytes) (s : CCryptoKeyStore)
    (e : CKeyID × CKey) : CCryptoKeyStore :=
  { s with mapCryptedKeys :=
      s.mapCryptedKeys.put (crypto.hash160 (e.2.pub crypto)) (sealKey crypto k e.2) }

theorem foldl_putSealed (k : Bytes) (l : List (CKeyID × CKey)) (s : CCryptoKeyStore)
    (hempty : s.mapCryptedKeys = .empty) :
    l.foldl (CCryptoKeyStore.putSealed crypto k) s =
      { s with mapCryptedKeys := sealAll crypto k l } := by
  rw [sealAll, ← hempty]
  clear hempty
  induction l generalizing s with
  | nil => rfl
  | cons e l ih => rw [List.foldl_cons, List.foldl_cons, ih]; rfl

theorem addCryptedKey_sealed (hcrypt : s.fUseCrypto = true) (k : Bytes) (e : CKeyID × CKey) :
    s.addCryptedKey crypto (sealKey crypto k e.2).1 (sealKey crypto k e.2).2 =
      (true, s.putSealed crypto k e) := by
  rw [CCryptoKeyStore.addCryptedKey, CCryptoKeyStore.setCrypted, if_pos hcrypt]
  rfl

/-- The loop of `EncryptKeys` in the store. -/
theorem encryptEach_store (hs : crypto.Sound) (hk : k.length = 32) (hcrypt : s.fUseCrypto = true)
    (hempty : s.mapCryptedKeys = .empty) {l : List (CKeyID × CKey)}
    (hl : ∀ e ∈ l, e.2.Good crypto) :
    CCryptoKeyStore.encryptEach crypto (fun s => s.addCryptedKey crypto) k l s =
      some (true, { s with mapCryptedKeys := sealAll crypto k l }) := by
  have hadd : ∀ (e : CKeyID × CKey) (l : List (CKeyID × CKey)) (s : CCryptoKeyStore),
      s.fUseCrypto = true →
      s.addCryptedKey crypto (sealKey crypto k e.2).1 (sealKey crypto k e.2).2 =
        (true, s.putSealed crypto k e) ∧ (s.putSealed crypto k e).fUseCrypto = true :=
    fun e _ s hcrypt => ⟨addCryptedKey_sealed hcrypt k e, hcrypt⟩
  have hloop :=
    @encryptEach_eq crypto k hs hk _ _ _ (fun _ s => s.fUseCrypto = true) hadd l hl s hcrypt
  rw [hloop, foldl_putSealed k l s hempty]

/-- **Encrypting the keys** seals a vault that is in the clear. -/
theorem Holds.encryptKeys (hs : crypto.Sound) (h : Holds crypto s v) (hk : k.length = 32) :
    ∃ s', s.encryptKeys crypto k = some ((v.encryptKeys k).1, s') ∧
      Holds crypto s' (v.encryptKeys k).2 := by
  obtain ⟨mapKeys, mapCryptedKeys, vMasterKey, fUseCrypto, fChecked⟩ := s
  obtain ⟨keys, guard⟩ := v
  obtain ⟨hf, hg⟩ := h
  cases guard with
  | plain =>
      obtain ⟨rfl, rfl, rfl, rfl⟩ := hg
      have hgoods : ∀ e ∈ mapKeys.entries, e.2.Good crypto := fun e he =>
        (hf e.1 e.2 (OrdMap.find_eq_some.mpr he)).1
      have hloop := @encryptEach_store crypto
        ⟨mapKeys, .empty, [], true, fChecked⟩ k hs hk rfl rfl mapKeys.entries hgoods
      refine ⟨⟨.empty, sealAll crypto k mapKeys.entries, [], true, fChecked⟩, ?_, hf, rfl, rfl, rfl,
        hk, sealedUnder_sealAll hf k⟩
      rw [CCryptoKeyStore.encryptKeys, if_neg (by simp [CCryptoKeyStore.isCrypted, OrdMap.empty]),
        hloop]
      rfl
  | sealed m =>
      have hcrypted : fUseCrypto = true := by
        cases m with
        | none => exact hg.1
        | some k => exact hg.1
      refine ⟨_, ?_, hf, hg⟩
      simp [CCryptoKeyStore.encryptKeys, CCryptoKeyStore.isCrypted, Vault.encryptKeys, hcrypted]
  | opened m =>
      have hcrypted : fUseCrypto = true := hg.1
      refine ⟨_, ?_, hf, hg⟩
      simp [CCryptoKeyStore.encryptKeys, CCryptoKeyStore.isCrypted, Vault.encryptKeys, hcrypted]

/-- What a guard that is not plain says of the store. -/
theorem Guards.crypted {keys : OrdMap CKeyID CKey} {g : Guard} (h : Guards crypto s keys g)
    (hg : g ≠ .plain) : s.fUseCrypto = true := by
  cases g with
  | plain => exact absurd rfl hg
  | sealed m =>
      cases m with
      | none => exact h.1
      | some k => exact h.1
  | opened k => exact h.1

theorem CCryptoKeyStore.setCrypted_of_crypted (h : s.fUseCrypto = true) :
    s.setCrypted = (true, s) := by
  simp [CCryptoKeyStore.setCrypted, h]

/-- **Locking** forgets the master key. -/
theorem Holds.lock (h : Holds crypto s v) :
    ∃ s', s.lock = (v.lock.1, s') ∧ Holds crypto s' v.lock.2 := by
  obtain ⟨mapKeys, mapCryptedKeys, vMasterKey, fUseCrypto, fChecked⟩ := s
  obtain ⟨keys, guard⟩ := v
  obtain ⟨hf, hg⟩ := h
  cases guard with
  | plain =>
      obtain ⟨rfl, rfl, rfl, rfl⟩ := hg
      by_cases hnil : mapKeys.entries = []
      · have hkeys : mapKeys = .empty :=
          OrdMap.ext_find fun id => by rw [OrdMap.entries_eq_nil_iff.mp hnil id]; rfl
        subst hkeys
        exact ⟨_, rfl, hf, rfl, rfl, rfl, rfl, rfl⟩
      · refine ⟨⟨mapKeys, .empty, [], false, fChecked⟩, ?_, ?_, ?_⟩
        · simp [CCryptoKeyStore.lock, CCryptoKeyStore.setCrypted, Vault.lock, hnil]
        · simpa [Vault.lock, hnil] using hf
        · simp [Vault.lock, hnil, Guards]
  | sealed m =>
      cases m with
      | none =>
          obtain ⟨rfl, rfl, rfl, rfl, rfl⟩ := hg
          exact ⟨_, rfl, hf, rfl, rfl, rfl, rfl, rfl⟩
      | some k =>
          obtain ⟨rfl, rfl, rfl, hk, hseal⟩ := hg
          exact ⟨_, rfl, hf, rfl, rfl, rfl, hk, hseal⟩
  | opened k =>
      obtain ⟨rfl, rfl, rfl, hk, hseal⟩ := hg
      exact ⟨_, rfl, hf, rfl, rfl, rfl, hk, hseal⟩

/-- The first stored key tells whether a master key is the right one. -/
theorem unlock_sealed (hs : crypto.Sound) (hf : Filings crypto v.keys) (hk : k.length = 32)
    (hcrypt : s.fUseCrypto = true) (hseal : SealedUnder crypto k v.keys s.mapCryptedKeys)
    (hmiss : k' ≠ k → ∀ id key, v.keys.find id = some key → Misses crypto k k' key) :
    s.unlock crypto k' = some (if v.keys.entries ≠ [] ∧ k' = k then
        (true, { s with vMasterKey := k, fDecryptionThoroughlyChecked := true })
      else (false, s)) := by
  have hset := CCryptoKeyStore.setCrypted_of_crypted hcrypt
  have hmem := fun e he => @SealedUnder.mem _ _ _ _ hseal hf e he
  by_cases hkk : k' = k
  · subst hkk
    have htry := tryKeys_master hs hk s.fDecryptionThoroughlyChecked (l := s.mapCryptedKeys.entries)
      (fun e he => by
        obtain ⟨key, hgood, -, hseal⟩ := hmem e he
        exact ⟨key, hgood, hseal⟩) false
    rw [CCryptoKeyStore.unlock, hset]
    simp only [htry, Option.bind_some]
    by_cases hnil : v.keys.entries = []
    · simp [hnil, hseal.nil_iff.mpr hnil]
    · simp [hnil, hseal.nil_iff.not.mpr hnil]
  · rw [CCryptoKeyStore.unlock, hset]
    cases hentries : s.mapCryptedKeys.entries with
    | nil => simp [hentries, CCryptoKeyStore.tryKeys, hkk]
    | cons e l =>
        obtain ⟨key, -, hfind, hkey⟩ := hmem e (by simp [hentries])
        obtain ⟨id, stored⟩ := e
        obtain rfl := hkey
        simp [hentries, tryKeys_misses hs hk _ (hmiss hkk id key hfind), hkk]

/-- **Unlocking** succeeds with the master key of a vault that has keys, whether all keys are
checked or only one. -/
theorem Holds.unlock (hs : crypto.Sound) (h : Holds crypto s v)
    (hmiss : ∀ k, v.guard.master = some k → k' ≠ k →
      ∀ id key, v.keys.find id = some key → Misses crypto k k' key) :
    ∃ s', s.unlock crypto k' = some ((v.unlock k').1, s') ∧ Holds crypto s' (v.unlock k').2 := by
  obtain ⟨keys, guard⟩ := v
  obtain ⟨hf, hg⟩ := h
  cases guard with
  | plain =>
      obtain ⟨hplain, hmap, hcrypted, hmaster⟩ := hg
      by_cases hnil : keys.entries = []
      · have hkeys : keys = .empty :=
          OrdMap.ext_find fun id => by rw [OrdMap.entries_eq_nil_iff.mp hnil id]; rfl
        subst hkeys
        refine ⟨{ s with fUseCrypto := true }, ?_, hf, rfl, hmap, hcrypted, hmaster, rfl⟩
        simp [CCryptoKeyStore.unlock, CCryptoKeyStore.setCrypted, CCryptoKeyStore.tryKeys,
          Vault.unlock, Guard.master, hplain, hmap, hcrypted, OrdMap.empty]
      · refine ⟨s, ?_, ?_⟩
        · simp [CCryptoKeyStore.unlock, CCryptoKeyStore.setCrypted, Vault.unlock, Guard.master,
            hplain, hmap, hnil]
        · have hv : (Vault.unlock ⟨keys, .plain⟩ k').2 = ⟨keys, .plain⟩ := by
            simp [Vault.unlock, Guard.master, hnil]
          rw [hv]
          exact ⟨hf, hplain, hmap, hcrypted, hmaster⟩
  | sealed m =>
      cases m with
      | none =>
          obtain ⟨hcrypt, hmap, hcrypted, hmaster, rfl⟩ := hg
          refine ⟨s, ?_, hf, hcrypt, hmap, hcrypted, hmaster, rfl⟩
          simp [CCryptoKeyStore.unlock, CCryptoKeyStore.setCrypted, CCryptoKeyStore.tryKeys,
            Vault.unlock, Guard.master, hcrypt, hcrypted, OrdMap.empty]
      | some k =>
          obtain ⟨hcrypt, hmap, hmaster, hk, hseal⟩ := hg
          rw [unlock_sealed hs hf hk hcrypt hseal (hmiss k rfl)]
          by_cases hopen : keys.entries ≠ [] ∧ k' = k
          · simp only [Vault.unlock, Guard.master, if_pos hopen]
            exact ⟨_, rfl, hf, hcrypt, hmap, rfl, hk, hseal⟩
          · simp only [Vault.unlock, Guard.master, if_neg hopen]
            exact ⟨_, rfl, hf, hcrypt, hmap, hmaster, hk, hseal⟩
  | opened k =>
      obtain ⟨hcrypt, hmap, hmaster, hk, hseal⟩ := hg
      rw [unlock_sealed hs hf hk hcrypt hseal (hmiss k rfl)]
      by_cases hopen : keys.entries ≠ [] ∧ k' = k
      · simp only [Vault.unlock, Guard.master, if_pos hopen]
        exact ⟨_, rfl, hf, hcrypt, hmap, rfl, hk, hseal⟩
      · simp only [Vault.unlock, Guard.master, if_neg hopen]
        exact ⟨_, rfl, hf, hcrypt, hmap, hmaster, hk, hseal⟩

/-! ## Reading -/

/-- **A store gives the keys of its vault**, and none while it is locked. -/
theorem Holds.getKey (hs : crypto.Sound) (h : Holds crypto s v) (id : CKeyID) :
    s.getKey crypto id = v.getKey id := by
  obtain ⟨keys, guard⟩ := v
  obtain ⟨hf, hg⟩ := h
  cases guard with
  | plain =>
      obtain ⟨hplain, rfl, -, -⟩ := hg
      simp [CCryptoKeyStore.getKey, CCryptoKeyStore.isCrypted, hplain, Vault.getKey]
  | sealed m =>
      have hlocked : s.vMasterKey = [] := by
        cases m with
        | none => exact hg.2.2.2.1
        | some k => exact hg.2.2.1
      simp [CCryptoKeyStore.getKey, CCryptoKeyStore.isCrypted, hg.crypted, hlocked,
        decryptSecret_nil, Vault.getKey]
  | opened k =>
      obtain ⟨hcrypt, -, hmaster, hk, hseal⟩ := hg
      simp only [CCryptoKeyStore.getKey, CCryptoKeyStore.isCrypted, hcrypt, hseal id, hmaster,
        Vault.getKey]
      cases hfind : keys.find id with
      | none => rfl
      | some key =>
          have hgood := (hf id key hfind).1
          have hdec := (decrypt_sealKey hs hk key).2
          rw [sealKey] at hdec
          simp [sealKey, hdec, hgood.length, hgood.set hs]

/-- The ids and the public keys are there to be read while the store is locked. -/
theorem Holds.getPubKey (h : Holds crypto s v) (id : CKeyID) :
    s.getPubKey crypto id = some ((v.keys.find id).map (CKey.pub crypto)) ∧
      s.haveKey id = (v.keys.find id).isSome := by
  obtain ⟨keys, guard⟩ := v
  obtain ⟨hf, hg⟩ := h
  have hcrypted : ∀ k, s.fUseCrypto = true → SealedUnder crypto k keys s.mapCryptedKeys →
      s.getPubKey crypto id = some ((keys.find id).map (CKey.pub crypto)) ∧
        s.haveKey id = (keys.find id).isSome := by
    intro k hcrypt hseal
    simp only [CCryptoKeyStore.getPubKey, CCryptoKeyStore.haveKey, CCryptoKeyStore.isCrypted,
      hcrypt, hseal id]
    cases keys.find id <;> simp [sealKey]
  cases guard with
  | plain =>
      obtain ⟨hplain, rfl, -, -⟩ := hg
      simp only [CCryptoKeyStore.getPubKey, CCryptoKeyStore.haveKey, CCryptoKeyStore.isCrypted,
        hplain]
      cases hfind : s.mapKeys.find id with
      | none => simp
      | some key => simp [(hf id key hfind).1.getPubKey]
  | sealed m =>
      cases m with
      | none =>
          obtain ⟨hcrypt, -, hempty, -, rfl⟩ := hg
          exact hcrypted [] hcrypt fun id => by rw [hempty]; rfl
      | some k => exact hcrypted k hg.1 hg.2.2.2.2
  | opened k => exact hcrypted k hg.1 hg.2.2.2.2

/-! ## Runs -/

/-- One operation of the store; `none` where an assertion fails. -/
def CCryptoKeyStore.step (crypto : KeyCrypto) (s : CCryptoKeyStore) :
    KeyAct → Option (Bool × CCryptoKeyStore)
  | .addKey key => s.addKey crypto key
  | .encryptKeys k => s.encryptKeys crypto k
  | .lock => some s.lock
  | .unlock k => s.unlock crypto k

/-- The answers of the store, and the store after them. -/
def CCryptoKeyStore.runActs (crypto : KeyCrypto) :
    CCryptoKeyStore → List KeyAct → Option (List Bool × CCryptoKeyStore)
  | s, [] => some ([], s)
  | s, a :: acts =>
    (s.step crypto a).bind fun (answer, s) =>
      (runActs crypto s acts).map fun (answers, s) => (answer :: answers, s)

/-- The answers of the vault, and the vault after them. -/
def Vault.runActs (crypto : KeyCrypto) : Vault → List KeyAct → List Bool × Vault
  | v, [] => ([], v)
  | v, a :: acts =>
    let r := v.step crypto a
    let rest := runActs crypto r.2 acts
    (r.1 :: rest.1, rest.2)

/-- The keys that are added are valid, and the master key that is set is as long as
`EncryptWallet` makes it. -/
def KeyAct.Good (crypto : KeyCrypto) : KeyAct → Prop
  | .addKey key => key.Good crypto
  | .encryptKeys k => k.length = 32
  | _ => True

/-- Where the keys and the master key of a vault come from. -/
structure Vault.From (acts : List KeyAct) (v : Vault) : Prop where
  keys : ∀ id key, v.keys.find id = some key → .addKey key ∈ acts
  master : ∀ k, v.guard.master = some k → .encryptKeys k ∈ acts

theorem Vault.From.step {acts : List KeyAct} (h : v.From acts) {a : KeyAct} (ha : a ∈ acts) :
    (v.step crypto a).2.From acts := by
  obtain ⟨keys, guard⟩ := v
  obtain ⟨hkeys, hmaster⟩ := h
  cases a with
  | addKey key =>
      have hput : ∀ id key', (keys.put (crypto.hash160 (key.pub crypto)) key).find id =
          some key' → .addKey key' ∈ acts := by
        intro id key' hfind
        rw [OrdMap.find_put] at hfind
        split at hfind
        · obtain rfl := Option.some.inj hfind
          exact ha
        · exact hkeys id key' hfind
      cases guard with
      | plain => exact ⟨hput, hmaster⟩
      | sealed m => exact ⟨hkeys, hmaster⟩
      | opened k => exact ⟨hput, hmaster⟩
  | encryptKeys k =>
      cases guard with
      | plain =>
          refine ⟨hkeys, ?_⟩
          intro k' hk'
          obtain rfl := Option.some.inj hk'
          exact ha
      | sealed m => exact ⟨hkeys, hmaster⟩
      | opened k => exact ⟨hkeys, hmaster⟩
  | lock =>
      cases guard with
      | plain =>
          simp only [Vault.step, Vault.lock]
          split
          · exact ⟨hkeys, fun k hk => by simp [Guard.master] at hk⟩
          · exact ⟨hkeys, hmaster⟩
      | sealed m => exact ⟨hkeys, hmaster⟩
      | opened k => exact ⟨hkeys, hmaster⟩
  | unlock k =>
      simp only [Vault.step, Vault.unlock]
      cases hm : guard.master with
      | none =>
          simp only
          split
          · exact ⟨hkeys, fun k hk => by simp [Guard.master] at hk⟩
          · exact ⟨hkeys, hmaster⟩
      | some master =>
          simp only
          split
          · refine ⟨hkeys, ?_⟩
            intro k' hk'
            exact hmaster k' (hm.trans hk')
          · exact ⟨hkeys, hmaster⟩

/-- One operation of the store is the operation of its vault. -/
theorem Holds.step (hs : crypto.Sound) (h : Holds crypto s v) {a : KeyAct} (ha : a.Good crypto)
    (hmiss : ∀ k', a = .unlock k' → ∀ k, v.guard.master = some k → k' ≠ k →
      ∀ id key, v.keys.find id = some key → Misses crypto k k' key) :
    ∃ s', s.step crypto a = some ((v.step crypto a).1, s') ∧
      Holds crypto s' (v.step crypto a).2 := by
  cases a with
  | addKey key =>
      obtain ⟨s', hadd, hholds⟩ := h.addKey hs ha
      refine ⟨s', ?_, hholds⟩
      simp [CCryptoKeyStore.step, CCryptoKeyStore.addKey, CKey.Good.getPubKey ha, hadd, Vault.step]
  | encryptKeys k => exact h.encryptKeys hs ha
  | lock =>
      obtain ⟨s', hlock, hholds⟩ := h.lock
      exact ⟨s', congrArg some hlock, hholds⟩
  | unlock k => exact h.unlock hs (hmiss k rfl)

theorem Holds.run (hs : crypto.Sound) {all : List KeyAct} (hgood : ∀ a ∈ all, a.Good crypto)
    (hmiss : ∀ k k' key, .encryptKeys k ∈ all → .unlock k' ∈ all → .addKey key ∈ all → k' ≠ k →
      Misses crypto k k' key)
    {acts : List KeyAct} (hacts : ∀ a ∈ acts, a ∈ all) (h : Holds crypto s v) (hv : v.From all) :
    ∃ s', s.runActs crypto acts = some ((v.runActs crypto acts).1, s') ∧
      Holds crypto s' (v.runActs crypto acts).2 := by
  induction acts generalizing s v with
  | nil => exact ⟨s, rfl, h⟩
  | cons a acts ih =>
      have ha := hacts a List.mem_cons_self
      obtain ⟨s₁, hstep, h₁⟩ := h.step hs (hgood a ha) (by
        intro attempt hunlock k hk hne id key hfind
        subst hunlock
        exact hmiss k attempt key (hv.master k hk) ha (hv.keys id key hfind) hne)
      obtain ⟨s₂, hrun, h₂⟩ := ih (fun b hb => hacts b (List.mem_cons_of_mem _ hb)) h₁ (hv.step ha)
      refine ⟨s₂, ?_, h₂⟩
      simp [CCryptoKeyStore.runActs, hstep, hrun, Vault.runActs]

/-- **The store answers every run as a vault does**: its assertions do not fail, it gives the
keys exactly while they are not sealed, and the master key that sealed them opens them. -/
theorem runActs_refines (hs : crypto.Sound) (acts : List KeyAct)
    (hgood : ∀ a ∈ acts, a.Good crypto)
    (hmiss : ∀ k k' key, .encryptKeys k ∈ acts → .unlock k' ∈ acts → .addKey key ∈ acts →
      k' ≠ k → Misses crypto k k' key) :
    ∃ s, CCryptoKeyStore.runActs crypto {} acts = some ((Vault.runActs crypto {} acts).1, s) ∧
      ∀ id, s.getKey crypto id = (Vault.runActs crypto {} acts).2.getKey id ∧
        s.getPubKey crypto id =
          some (((Vault.runActs crypto {} acts).2.keys.find id).map (CKey.pub crypto)) ∧
        s.haveKey id = ((Vault.runActs crypto {} acts).2.keys.find id).isSome := by
  have hstart : Holds crypto {} {} :=
    ⟨fun id key hfind => by simp at hfind, rfl, rfl, rfl, rfl⟩
  have hfrom : Vault.From acts {} :=
    ⟨fun id key hfind => by simp at hfind, fun k hk => by simp [Guard.master] at hk⟩
  obtain ⟨s, hrun, hholds⟩ := hstart.run hs hgood hmiss (fun a ha => ha) hfrom
  refine ⟨s, hrun, ?_⟩
  intro id
  exact ⟨hholds.getKey hs id, hholds.getPubKey id⟩

/-! ## An example -/

/-- A cipher that files the key with the text, and keys with readable public keys. -/
def exampleCrypto : KeyCrypto where
  aesEncrypt chKey _ plaintext := some (chKey ++ plaintext)
  aesDecrypt chKey _ ciphertext :=
    if ciphertext.take 32 = chKey then some (ciphertext.drop 32) else none
  bytesToKey chSalt passphrase rounds :=
    ((passphrase ++ chSalt ++ List.replicate 32 (UInt8.ofNat rounds)).take 32, chSalt)
  check _ := true
  pubKey secret fCompressed :=
    if fCompressed then 2 :: (secret ++ List.replicate 32 0).take 32
    else 4 :: (secret ++ List.replicate 64 0).take 64
  hash160 b := Blob.ofBytes ((b ++ List.replicate 20 0).take 20)
  hash b := Blob.ofBytes ((b ++ List.replicate 32 0).take 32)

theorem exampleCrypto_sound : exampleCrypto.Sound where
  aes := by
    intro chKey chIV plaintext hlen
    refine ⟨_, rfl, ?_⟩
    have htake : (chKey ++ plaintext).take 32 = chKey := List.take_left' hlen
    have hdrop : (chKey ++ plaintext).drop 32 = plaintext := List.drop_left' hlen
    simp [exampleCrypto, htake, hdrop]
  bytesToKey_length := by
    intro chSalt passphrase rounds
    simp [exampleCrypto]
    omega
  pubKey_length := by
    intro secret fCompressed
    cases fCompressed <;> simp [exampleCrypto]

/-- This cipher notices every wrong key. -/
theorem exampleCrypto_misses (hk : k.length = 32) (hne : k' ≠ k) (key : CKey) :
    Misses exampleCrypto k k' key := by
  intro c henc secret hdec
  rw [encryptSecret_eq hk] at henc
  obtain rfl : k ++ key.vch = c := Option.some.inj henc
  exfalso
  by_cases hlen : k'.length = 32
  · have htake : (k ++ key.vch).take 32 = k := List.take_left' hk
    rw [decryptSecret_eq hlen] at hdec
    simp [exampleCrypto, htake] at hdec
    exact hne hdec.1.symm
  · simp [decryptSecret, CCrypter.setKey, walletCryptoKeySize, hlen] at hdec

/-- A key of equal bytes. -/
def exampleSecret (b : UInt8) : CKey := ⟨List.replicate 32 b, true, true⟩

theorem exampleSecret_good (b : UInt8) : (exampleSecret b).Good exampleCrypto :=
  ⟨rfl, by simp [exampleSecret], rfl⟩

/-- A store that is encrypted, tried with a wrong key, opened, added to, locked and opened
again. -/
def exampleKeyActs : List KeyAct :=
  [.addKey (exampleSecret 1), .encryptKeys (List.replicate 32 9), .addKey (exampleSecret 2),
    .unlock (List.replicate 32 8), .unlock (List.replicate 32 9), .addKey (exampleSecret 3),
    .lock, .unlock (List.replicate 32 9)]

theorem exampleKeyActs_refines :
    ∃ s, CCryptoKeyStore.runActs exampleCrypto {} exampleKeyActs =
        some ([true, true, false, false, true, true, true, true], s) ∧
      s.getKey exampleCrypto (exampleCrypto.hash160 ((exampleSecret 3).pub exampleCrypto)) =
        some (exampleSecret 3) := by
  obtain ⟨s, hrun, hread⟩ := runActs_refines exampleCrypto_sound exampleKeyActs
    (by simp [exampleKeyActs, KeyAct.Good, exampleSecret_good])
    (by
      intro k k' key hk _ _ hne
      have hlen : k.length = 32 := by
        simp [exampleKeyActs] at hk
        simp [hk]
      exact exampleCrypto_misses hlen hne key)
  refine ⟨s, ?_, ?_⟩
  · rw [hrun]
    congr 2
  · rw [(hread _).1]
    decide +kernel

end Hivemind
