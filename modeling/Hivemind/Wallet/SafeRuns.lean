import Hivemind.Wallet.SafeKeys

/-!
# The wallet is a safe

The second half: each call on the wallet does what the call on the safe does, a restart loads a
wallet that stands for the same safe, shut, and both together give whole runs.

A wallet that was encrypted has one master key, wrapped under the passphrase; changing the
passphrase replaces its record in place, so that there is one passphrase at any time.
`LoadWallet` builds the store anew from the records; that it is the old store again, without its
master key, rests on the records being those of the store's keys and no others.  The keys that a
run will still make are not in the safe, which is what lets them go in.

* `Stands.unlock`, `Stands.lock`, `Stands.rekey`, `Stands.encrypt`, `Stands.load`: the calls.
* `Stands.step`: every call, and every restart, does what it does to the safe.
* `KeyWallet.runActs_safe`: **the wallet opens with the passphrase that was set last and with no
  other, and no key is lost**, over every run of calls and restarts.
-/

namespace Hivemind

open Codecs Ordered

variable {crypto : KeyCrypto} {all : List WalletAct} {w : KeyWallet} {safe : KeySafe} {key : CKey}

/-! ## Opening and shutting -/

/-- Stores of the same sealed keys hold them alike. -/
theorem Mirrors.of_holds {s s' : CCryptoKeyStore} {file : WalletFile} (h : Mirrors crypto s file)
    {keys : OrdMap CKeyID CKey} {g g' : Guard} {master : Bytes}
    (hs : Holds crypto s ⟨keys, g⟩) (hs' : Holds crypto s' ⟨keys, g'⟩)
    (hg : g.master = some master) (hg' : g'.master = some master) : Mirrors crypto s' file := by
  have hstored : ∀ {s : CCryptoKeyStore} {g : Guard}, Holds crypto s ⟨keys, g⟩ →
      g.master = some master →
      s.mapKeys = .empty ∧ SealedUnder crypto master keys s.mapCryptedKeys := by
    intro s g hholds hg
    cases g with
    | plain => cases hg
    | sealed m =>
        obtain rfl : m = some master := hg
        exact ⟨hholds.guards.2.1, hholds.guards.2.2.2.2⟩
    | opened k =>
        obtain rfl := Option.some.inj hg
        exact ⟨hholds.guards.2.1, hholds.guards.2.2.2.2⟩
  obtain ⟨hkeys, hseal⟩ := hstored hs hg
  obtain ⟨hkeys', hseal'⟩ := hstored hs' hg'
  have hcrypted : s'.mapCryptedKeys = s.mapCryptedKeys :=
    OrdMap.ext_find fun id => (hseal' id).trans (hseal id).symm
  refine ⟨?_, ?_⟩
  · rw [hkeys', ← hkeys]
    exact h.key
  · rw [hcrypted]
    exact h.ckey

/-- The guard of a store whose keys are encrypted. -/
def guardOf (isOpen : Bool) (master : Bytes) : Guard :=
  if isOpen then .opened master else .sealed (some master)

@[simp] theorem master_guardOf (isOpen : Bool) (master : Bytes) :
    (guardOf isOpen master).master = some master := by
  cases isOpen <;> rfl

/-- A wallet with a passphrase, opened or shut. -/
theorem Stands.withStore {pass : Bytes} (h : Stands crypto all w safe)
    (hpass : safe.pass = some pass) {master : Bytes} {mk : CMasterKey}
    (hwraps : Wraps crypto all pass master mk)
    (hholds : Holds crypto w.store ⟨safe.keys, guardOf safe.isOpen master⟩)
    (hmap : w.mapMasterKeys.entries = [(1, mk)]) (hmkey : w.file.mkey = w.mapMasterKeys)
    {s' : CCryptoKeyStore} (isOpen : Bool)
    (hholds' : Holds crypto s' ⟨safe.keys, guardOf isOpen master⟩) :
    Stands crypto all { w with store := s' } { safe with isOpen := isOpen } := by
  refine ⟨h.nonempty, h.drawn, ?_, ?_⟩
  · exact h.mirrors.of_holds hholds hholds' (master_guardOf _ _) (master_guardOf _ _)
  · simp only [hpass]
    exact ⟨master, mk, hwraps, hholds', hmap, hmkey⟩

/-- The parts of a wallet with a passphrase. -/
theorem Stands.parts {pass : Bytes} (h : Stands crypto all w safe) (hpass : safe.pass = some pass) :
    ∃ master mk, Wraps crypto all pass master mk ∧
      Holds crypto w.store ⟨safe.keys, guardOf safe.isOpen master⟩ ∧
      w.mapMasterKeys.entries = [(1, mk)] ∧ w.file.mkey = w.mapMasterKeys := by
  have hseals := h.seals
  rw [hpass] at hseals
  exact hseals

theorem Stands.isCrypted (h : Stands crypto all w safe) :
    w.store.isCrypted = safe.pass.isSome := by
  have hseals := h.seals
  cases hpass : safe.pass with
  | none =>
      rw [hpass] at hseals
      exact hseals.1.guards.1
  | some pass =>
      obtain ⟨master, mk, -, hholds, -⟩ := h.parts hpass
      have hg : guardOf safe.isOpen master ≠ .plain := by cases safe.isOpen <;> simp [guardOf]
      exact hholds.guards.crypted hg

/-- **Unlocking** opens the safe with its passphrase only. -/
theorem Stands.unlock (hs : crypto.Sound) (hc : Careful crypto all)
    (h : Stands crypto all w safe) {pass pass' : Bytes} (hpass : safe.pass = some pass)
    (hmem : pass' ∈ all.flatMap WalletAct.passes) :
    ∃ w', w.unlock crypto pass' = some (decide (pass' = pass), w') ∧
      Stands crypto all w' (if pass' = pass then { safe with isOpen := true } else safe) := by
  obtain ⟨master, mk, hwraps, hholds, hmap, hmkey⟩ := h.parts hpass
  by_cases hright : pass' = pass
  · subst hright
    obtain ⟨c, s', hset, hdec, hunlock, hopened⟩ :=
      hwraps.opens hs hholds (master_guardOf _ _) h.nonempty
    refine ⟨{ w with store := s' }, ?_, ?_⟩
    · simp [KeyWallet.unlock, hmap, KeyWallet.tryMasterKeys, hset, hdec, hunlock]
    · rw [if_pos rfl]
      exact h.withStore hpass hwraps hholds hmap hmkey true hopened
  · obtain ⟨c, hset, hrest⟩ :=
      hwraps.refuses hs hc hholds (master_guardOf _ _) h.nonempty h.drawn hmem hright
    rw [if_neg hright]
    rcases hrest with hnone | ⟨found, s', hfound, hunlock, hkept⟩
    · refine ⟨w, ?_, h⟩
      simp [KeyWallet.unlock, hmap, KeyWallet.tryMasterKeys, hset, hnone, hright]
    · refine ⟨{ w with store := s' }, ?_, ?_⟩
      · simp [KeyWallet.unlock, hmap, KeyWallet.tryMasterKeys, hset, hfound, hunlock, hright]
      · exact h.withStore hpass hwraps hholds hmap hmkey safe.isOpen hkept

/-- **Locking** shuts the safe. -/
theorem Stands.lock (h : Stands crypto all w safe) {pass : Bytes} (hpass : safe.pass = some pass) :
    Stands crypto all w.lock { safe with isOpen := false } := by
  obtain ⟨master, mk, hwraps, hholds, hmap, hmkey⟩ := h.parts hpass
  obtain ⟨s', hlock, hshut⟩ := hholds.lock
  have hguard : (Vault.lock ⟨safe.keys, guardOf safe.isOpen master⟩).2 =
      ⟨safe.keys, guardOf false master⟩ := by
    cases safe.isOpen <;> rfl
  rw [hguard] at hshut
  have hstore : w.store.lock.2 = s' := by rw [hlock]
  have hstands := h.withStore hpass hwraps hholds hmap hmkey false hshut
  rw [← hstore] at hstands
  exact hstands

/-- **Changing the passphrase** takes the old one, and a wrong one shuts the safe. -/
theorem Stands.rekey (hs : crypto.Sound) (hc : Careful crypto all)
    (h : Stands crypto all w safe) {pass old new : Bytes} (hpass : safe.pass = some pass)
    (hold : old ∈ all.flatMap WalletAct.passes) (hnew : new ∈ all.flatMap WalletAct.passes)
    {measured : Nat} (hm : measured ∈ all.flatMap WalletAct.measures) :
    ∃ w', w.changeWalletPassphrase crypto old new measured = some (decide (old = pass), w') ∧
      Stands crypto all w' (if old = pass then { safe with pass := some new }
        else { safe with isOpen := false }) := by
  have hwas : w.store.isLocked = !safe.isOpen := by
    obtain ⟨master, mk, -, hholds, -⟩ := h.parts hpass
    rw [CCryptoKeyStore.isLocked]
    cases hopen : safe.isOpen with
    | false =>
        rw [hopen] at hholds
        simp [hholds.guards.1, hholds.guards.2.2.1]
    | true =>
        rw [hopen] at hholds
        obtain ⟨hcrypt, -, hmaster, hk, -⟩ := hholds.guards
        cases master with
        | nil => simp at hk
        | cons b master => simp [hcrypt, hmaster]
  have hshut := h.lock hpass
  obtain ⟨master, mk, hwraps, hholds, hmap, hmkey⟩ := hshut.parts hpass
  rw [KeyWallet.changeWalletPassphrase, hmap, hwas]
  by_cases hright : old = pass
  · subst hright
    obtain ⟨c, s', hset, hdec, hunlock, hopened⟩ :=
      hwraps.opens hs hholds (master_guardOf _ _) h.nonempty
    obtain ⟨a, ha, hseed⟩ := List.mem_flatMap.mp hwraps.seed_mem
    have hsalt : mk.vchSalt.length = 8 := (hc.good a ha |>.seeds _ hseed).1
    obtain ⟨c', wrapped, hset', henc', hdec'⟩ := exists_wrap hs new hsalt measured master
    have hset'' := hset'
    rw [← hwraps.method] at hset''
    let mk' : CMasterKey :=
      { mk with nDeriveIterations := deriveIterations measured, vchCryptedKey := wrapped }
    let w₁ : KeyWallet := { w.lock with
      store := s'
      mapMasterKeys := ((w.lock.mapMasterKeys.put 1
        { mk with nDeriveIterations := deriveIterations measured }).put 1 mk')
      file := w.lock.file.writeMasterKey 1 mk' }
    have hwraps' : Wraps crypto all new master mk' :=
      ⟨hnew, hwraps.seed_mem, ⟨measured, hm, rfl⟩, hwraps.method, c', hset', henc', hdec'⟩
    have hmap' : w₁.mapMasterKeys.entries = [(1, mk')] := by
      simp [w₁, OrdMap.put, hmap]
    have hmkey' : w₁.file.mkey = w₁.mapMasterKeys := by
      apply OrdMap.ext_find
      intro k
      simp only [w₁, WalletFile.writeMasterKey, hmkey, OrdMap.find_put]
      split <;> rfl
    have hmir := hshut.mirrors.of_holds hholds hopened (master_guardOf _ _)
      (master_guardOf true master)
    have hstands : Stands crypto all w₁ { safe with pass := some new, isOpen := true } :=
      ⟨h.nonempty, h.drawn, ⟨hmir.key, hmir.ckey⟩, master, mk', hwraps', hopened, hmap', hmkey'⟩
    refine ⟨if !safe.isOpen then w₁.lock else w₁, ?_, ?_⟩
    · simp [KeyWallet.rekey, hset, hdec, hunlock, hset'', henc', w₁, mk']
    · rw [if_pos rfl]
      cases hopen : safe.isOpen with
      | false =>
          exact hstands.lock rfl
      | true =>
          exact hstands
  · obtain ⟨c, hset, hrest⟩ :=
      hwraps.refuses hs hc hholds (master_guardOf _ _) h.nonempty h.drawn hold hright
    rw [if_neg hright]
    rcases hrest with hnone | ⟨found, s', hfound, hunlock, hkept⟩
    · refine ⟨w.lock, ?_, hshut⟩
      simp [KeyWallet.rekey, hset, hnone, hright]
    · refine ⟨{ w.lock with store := s' }, ?_, ?_⟩
      · simp [KeyWallet.rekey, hset, hfound, hunlock, hright]
      · exact hshut.withStore hpass hwraps hholds hmap hmkey false hkept

/-- The keys of a pool that are drawn go into an open wallet. -/
theorem Stands.pool (hs : crypto.Sound) (h : Stands crypto all w safe) (hopen : safe.isShut = false)
    {poolKeys : List CKey} (hgood : ∀ key ∈ poolKeys, key.Good crypto)
    (hdrawn : ∀ key ∈ poolKeys, key ∈ all.flatMap WalletAct.newKeys)
    (hnew : ∀ key ∈ poolKeys, safe.keys.find (crypto.hash160 (key.pub crypto)) = none)
    (hnodup : (poolKeys.map fun key => crypto.hash160 (key.pub crypto)).Nodup) :
    ∃ w', poolKeys.foldlM (KeyWallet.generateNewKey crypto) w = some w' ∧
      Stands crypto all w' (poolKeys.foldl (KeySafe.file crypto) safe) := by
  induction poolKeys generalizing w safe with
  | nil => exact ⟨w, rfl, h⟩
  | cons key poolKeys ih =>
      rw [List.map_cons, List.nodup_cons] at hnodup
      have hkey := hgood key List.mem_cons_self
      obtain ⟨w₁, hadd, h₁⟩ := h.addKey hs hkey (hdrawn key List.mem_cons_self)
        (hnew key List.mem_cons_self)
      rw [hopen] at hadd h₁
      have hnew₁ : ∀ key' ∈ poolKeys,
          (safe.file crypto key).keys.find (crypto.hash160 (key'.pub crypto)) = none := by
        intro key' hkey'
        rw [KeySafe.file, OrdMap.find_put_of_ne _ _ ?_]
        · exact hnew key' (List.mem_cons_of_mem _ hkey')
        · intro heq
          exact hnodup.1 (heq ▸ List.mem_map_of_mem
            (f := fun key => crypto.hash160 (key.pub crypto)) hkey')
      obtain ⟨w₂, hfold, h₂⟩ := ih (h₁ : Stands crypto all w₁ (safe.file crypto key)) hopen
        (fun key hk => hgood key (List.mem_cons_of_mem _ hk))
        (fun key hk => hdrawn key (List.mem_cons_of_mem _ hk)) hnew₁ hnodup.2
      refine ⟨w₂, ?_, h₂⟩
      have hgen : w.generateNewKey crypto key = some w₁ := by
        simp [KeyWallet.generateNewKey, hkey.getPubKey, hadd]
      rw [List.foldlM_cons, hgen]
      exact hfold

theorem KeySafe.foldl_file (pass : Option Bytes) (isOpen : Bool) (l : List CKey) (safe : KeySafe) :
    l.foldl (KeySafe.file crypto) { safe with pass := pass, isOpen := isOpen } =
      { l.foldl (KeySafe.file crypto) safe with pass := pass, isOpen := isOpen } := by
  induction l generalizing safe with
  | nil => rfl
  | cons key l ih => exact ih (safe.file crypto key)

/-- **Encrypting the wallet** shuts its keys, and those of a new pool, behind the passphrase. -/
theorem Stands.encrypt (hs : crypto.Sound) (hc : Careful crypto all)
    (h : Stands crypto all w safe) (hplain : safe.pass = none) {pass : Bytes} {draw : EncryptDraw}
    (hact : .encryptwallet pass draw ∈ all)
    (hnew : ∀ key ∈ draw.poolKeys, safe.keys.find (crypto.hash160 (key.pub crypto)) = none)
    (hnodup : (draw.poolKeys.map fun key => crypto.hash160 (key.pub crypto)).Nodup) :
    ∃ w', w.encryptWallet crypto pass draw = some (true, w') ∧
      Stands crypto all w' { draw.poolKeys.foldl (KeySafe.file crypto) safe with
        pass := some pass, isOpen := false } := by
  have hgood := hc.good _ hact
  obtain ⟨hsalt, hlen⟩ := hgood.seeds (draw.vchSalt, draw.vMasterKey) (by simp [WalletAct.seeds])
  have hseals := h.seals
  rw [hplain] at hseals
  obtain ⟨hholds, hmap, hmax, hmkey⟩ := hseals
  obtain ⟨c, wrapped, hset, henc, hdec⟩ := exists_wrap hs pass hsalt draw.measured draw.vMasterKey
  let mk : CMasterKey :=
    { vchCryptedKey := wrapped, vchSalt := draw.vchSalt
      nDeriveIterations := deriveIterations draw.measured }
  let w₁ : KeyWallet := { w with
    mapMasterKeys := w.mapMasterKeys.put 1 mk
    nMasterKeyMaxID := 1
    file := w.file.writeMasterKey 1 mk }
  have hmir₁ : Mirrors crypto w₁.store w₁.file := ⟨h.mirrors.key, h.mirrors.ckey⟩
  have hholds₁ : Holds crypto w₁.store ⟨safe.keys, .plain⟩ := hholds
  obtain ⟨w₂, henckeys, hholds₂, hmir₂, hmap₂, hmkey₂⟩ :=
    KeyWallet.encryptKeys_plain hs hlen hholds₁ hmir₁
  have hwraps : Wraps crypto all pass draw.vMasterKey mk := by
    refine ⟨?_, ?_, ⟨draw.measured, ?_, rfl⟩, rfl, c, hset, henc, hdec⟩
    · exact List.mem_flatMap.mpr ⟨_, hact, by simp [WalletAct.passes]⟩
    · exact List.mem_flatMap.mpr ⟨_, hact, by simp [WalletAct.seeds, mk]⟩
    · exact List.mem_flatMap.mpr ⟨_, hact, by simp [WalletAct.measures]⟩
  have hstands₂ : Stands crypto all w₂ { safe with pass := some pass, isOpen := false } := by
    refine ⟨h.nonempty, h.drawn, hmir₂, draw.vMasterKey, mk, hwraps, hholds₂, ?_, ?_⟩
    · rw [hmap₂]
      simp [w₁, hmap, OrdMap.put, OrdMap.empty]
    · rw [hmkey₂, hmap₂]
      simp [w₁, hmap, hmkey, WalletFile.writeMasterKey]
  obtain ⟨w₃, hunlock, h₃⟩ := (hstands₂.lock rfl).unlock hs hc rfl hwraps.pass_mem
  rw [if_pos rfl] at h₃
  have hkeys : ∀ key ∈ draw.poolKeys, key ∈ all.flatMap WalletAct.newKeys := fun key hkey =>
    List.mem_flatMap.mpr ⟨_, hact, hkey⟩
  obtain ⟨w₄, hpool, h₄⟩ := h₃.pool hs rfl hgood.keys hkeys hnew hnodup
  have h₄' : Stands crypto all w₄ { draw.poolKeys.foldl (KeySafe.file crypto) safe with
      pass := some pass, isOpen := true } := by
    rw [← KeySafe.foldl_file]
    exact h₄
  have hlocked : w₃.store.isLocked = false := by
    obtain ⟨master, mk', -, hholds, -⟩ := h₃.parts rfl
    obtain ⟨-, -, hmaster, hk, -⟩ := hholds.guards
    rw [CCryptoKeyStore.isLocked, hmaster]
    cases master with
    | nil => simp at hk
    | cons b master => simp
  refine ⟨w₄.lock, ?_, h₄'.lock rfl⟩
  have hcrypted : w.store.isCrypted = false := by rw [h.isCrypted, hplain]; rfl
  have hpool' : w₃.newKeyPool crypto draw.poolKeys = some w₄ := by
    rw [KeyWallet.newKeyPool, hlocked]
    exact hpool
  simp only [decide_true] at hunlock
  have hid : w.nMasterKeyMaxID + 1 = 1 := by rw [hmax]
  simp only [KeyWallet.encryptWallet, hcrypted, hset, henc, hid]
  rw [show ({ w with
      mapMasterKeys := w.mapMasterKeys.put 1 mk
      nMasterKeyMaxID := 1
      file := w.file.writeMasterKey 1 mk } : KeyWallet) = w₁ from rfl, henckeys]
  simp [hunlock, hpool']

/-! ## Loading -/

/-- What `LoadWallet` makes of the keys in the clear. -/
theorem foldl_loadKey (l : List (Bytes × CKey)) (s : CCryptoKeyStore) (h : s.fUseCrypto = false) :
    l.foldl (KeyWallet.loadKey crypto) s =
      { s with mapKeys := s.mapKeys.putAll (l.map fun e => (crypto.hash160 e.1, e.2)) } := by
  induction l generalizing s with
  | nil => rfl
  | cons e l ih =>
      have hload : KeyWallet.loadKey crypto s e =
          { s with mapKeys := s.mapKeys.put (crypto.hash160 e.1) e.2 } := by
        simp [KeyWallet.loadKey, CCryptoKeyStore.addKeyPubKey, CCryptoKeyStore.isCrypted, h]
      rw [List.foldl_cons, hload]
      exact ih _ h

/-- What `LoadWallet` makes of the encrypted keys. -/
theorem foldlM_loadCryptedKey (l : List (Bytes × Bytes)) (s : CCryptoKeyStore)
    (h : s.mapKeys = .empty) :
    l.foldlM (KeyWallet.loadCryptedKey crypto) s =
      some { s with
        fUseCrypto := s.fUseCrypto || !l.isEmpty
        mapCryptedKeys := s.mapCryptedKeys.putAll (l.map fun e => (crypto.hash160 e.1, e)) } := by
  induction l generalizing s with
  | nil => simp [OrdMap.putAll]
  | cons e l ih =>
      have hload : KeyWallet.loadCryptedKey crypto s e = some { s with
          fUseCrypto := true
          mapCryptedKeys := s.mapCryptedKeys.put (crypto.hash160 e.1) e } := by
        cases hcrypt : s.fUseCrypto <;>
          simp [KeyWallet.loadCryptedKey, CCryptoKeyStore.addCryptedKey,
            CCryptoKeyStore.setCrypted, hcrypt, h, OrdMap.empty]
      rw [List.foldlM_cons, hload, Option.bind_eq_bind, Option.bind_some]
      refine (ih _ ?_).trans ?_
      · exact h
      · simp [OrdMap.putAll]

/-- The keys that are loaded in the clear. -/
theorem Mirrors.load_key {s : CCryptoKeyStore} {file : WalletFile} (h : Mirrors crypto s file)
    (hf : Filings crypto s.mapKeys) :
    OrdMap.empty.putAll (file.key.entries.map fun e => (crypto.hash160 e.1, e.2)) = s.mapKeys := by
  have hnodup : ((file.key.entries.map fun e => (crypto.hash160 e.1, e.2)).map
      Prod.fst).Nodup := by
    rw [List.map_map]
    refine List.pairwise_map.mpr ((List.pairwise_iff_forall_sublist.mpr ?_))
    intro e e' hsub hid
    have hlt := List.pairwise_iff_forall_sublist.mp file.key.sorted hsub
    obtain ⟨hmem, hpub⟩ := (h.key e).mp (hsub.subset (by simp))
    obtain ⟨hmem', hpub'⟩ := (h.key e').mp (hsub.subset (by simp))
    simp only [Function.comp_apply] at hid
    rw [← hid] at hmem'
    have hval := OrdMap.unique hmem hmem'
    rw [← hpub, ← hpub', hval] at hlt
    exact lt_irrefl _ hlt
  apply OrdMap.ext_mem
  rintro ⟨id, key⟩
  rw [OrdMap.mem_putAll_empty hnodup, List.mem_map]
  constructor
  · rintro ⟨e, he, heq⟩
    obtain ⟨rfl, rfl⟩ := Prod.mk.inj heq
    exact ((h.key e).mp he).1
  · intro hmem
    have hid := (hf id key (OrdMap.find_eq_some.mpr hmem)).2
    refine ⟨(key.pub crypto, key), (h.key _).mpr ⟨?_, rfl⟩, ?_⟩
    · rw [← hid]
      exact hmem
    · rw [← hid]

/-- The encrypted keys that are loaded. -/
theorem Mirrors.load_ckey {s : CCryptoKeyStore} {file : WalletFile} (h : Mirrors crypto s file)
    (hids : ∀ id e, s.mapCryptedKeys.find id = some e → id = crypto.hash160 e.1) :
    OrdMap.empty.putAll (file.ckey.entries.map fun e => (crypto.hash160 e.1, e)) =
      s.mapCryptedKeys := by
  have hnodup : ((file.ckey.entries.map fun e => (crypto.hash160 e.1, e)).map
      Prod.fst).Nodup := by
    rw [List.map_map]
    refine List.pairwise_map.mpr ((List.pairwise_iff_forall_sublist.mpr ?_))
    intro e e' hsub hid
    have hlt := List.pairwise_iff_forall_sublist.mp file.ckey.sorted hsub
    have hmem := (h.ckey e).mp (hsub.subset (by simp))
    have hmem' := (h.ckey e').mp (hsub.subset (by simp))
    simp only [Function.comp_apply] at hid
    rw [← hid] at hmem'
    rw [OrdMap.unique hmem hmem'] at hlt
    exact lt_irrefl _ hlt
  apply OrdMap.ext_mem
  rintro ⟨id, e⟩
  rw [OrdMap.mem_putAll_empty hnodup, List.mem_map]
  constructor
  · rintro ⟨e', he', heq⟩
    obtain ⟨rfl, rfl⟩ := Prod.mk.inj heq
    exact (h.ckey e').mp he'
  · intro hmem
    have hid := hids id e (OrdMap.find_eq_some.mpr hmem)
    refine ⟨e, (h.ckey e).mpr ?_, ?_⟩
    · rw [← hid]
      exact hmem
    · rw [← hid]

/-- **Loading the file** gives the safe back, shut. -/
theorem Stands.load (h : Stands crypto all w safe) :
    ∃ w', KeyWallet.load crypto w.file = some w' ∧
      Stands crypto all w' { safe with isOpen := false } := by
  have hseals := h.seals
  cases hpass : safe.pass with
  | none =>
      rw [hpass] at hseals
      obtain ⟨⟨hf, hplain, hkeys, hcrypted, hmaster⟩, hmap, hmax, hmkey⟩ := hseals
      simp only at hf hkeys
      have hckey : w.file.ckey.entries = [] := by
        rw [List.eq_nil_iff_forall_not_mem]
        intro p hp
        have hmem := (h.mirrors.ckey p).mp hp
        simp [hcrypted, OrdMap.empty] at hmem
      have hload := h.mirrors.load_key (hkeys ▸ hf)
      refine ⟨⟨{ mapKeys := safe.keys }, .empty, 0, w.file⟩, ?_, h.nonempty, h.drawn, ?_, ?_⟩
      · rw [KeyWallet.load, hckey, foldl_loadKey _ _ rfl, hload, hkeys, hmkey]
        rfl
      · refine ⟨?_, ?_⟩
        · intro p
          rw [h.mirrors.key, hkeys]
        · intro p
          rw [h.mirrors.ckey, hcrypted]
      · exact ⟨⟨hf, rfl, rfl, rfl, rfl⟩, rfl, rfl, hmkey⟩
  | some pass =>
      obtain ⟨master, mk, hwraps, hholds, hmap, hmkey⟩ := h.parts hpass
      obtain ⟨s', hlock, hshut⟩ := hholds.lock
      have hguard : (Vault.lock ⟨safe.keys, guardOf safe.isOpen master⟩).2 =
          ⟨safe.keys, .sealed (some master)⟩ := by
        cases safe.isOpen <;> rfl
      rw [hguard] at hshut
      have hmir := h.mirrors.of_holds hholds hshut (master_guardOf _ _) rfl
      obtain ⟨hf, hcrypt, hempty, hnone, hk, hseal⟩ := hshut
      have hkey : w.file.key.entries = [] := by
        rw [List.eq_nil_iff_forall_not_mem]
        intro p hp
        have hmem := ((hmir.key p).mp hp).1
        simp [hempty, OrdMap.empty] at hmem
      have hids : ∀ id e, s'.mapCryptedKeys.find id = some e → id = crypto.hash160 e.1 := by
        intro id e hfind
        rw [hseal, Option.map_eq_some_iff] at hfind
        obtain ⟨key, hkey, rfl⟩ := hfind
        exact (hf id key hkey).2
      have hload := hmir.load_ckey hids
      have hne : w.file.ckey.entries ≠ [] := by
        intro hnil
        rw [hnil] at hload
        exact h.nonempty (hseal.nil_iff.mp (by rw [← hload]; rfl))
      have hisEmpty : w.file.ckey.entries.isEmpty = false := by
        cases hentries : w.file.ckey.entries with
        | nil => exact absurd hentries hne
        | cons e l => rfl
      let loaded : CCryptoKeyStore :=
        { fUseCrypto := true, mapCryptedKeys := s'.mapCryptedKeys }
      refine ⟨⟨loaded, w.file.mkey, 1, w.file⟩, ?_, h.nonempty, h.drawn, ?_, ?_⟩
      · rw [KeyWallet.load, hkey, List.foldl_nil, foldlM_loadCryptedKey _ _ rfl, hload, hisEmpty,
          hmkey, hmap]
        rfl
      · refine ⟨?_, hmir.ckey⟩
        intro p
        rw [hmir.key, hempty]
      · exact ⟨master, mk, hwraps, ⟨hf, rfl, rfl, rfl, hk, hseal⟩, by rw [hmkey, hmap], rfl⟩

/-! ## Runs -/

/-- The keys that a run still makes are not in the safe. -/
structure KeySafe.Room (crypto : KeyCrypto) (safe : KeySafe) (acts : List WalletAct) : Prop where
  free : ∀ key ∈ acts.flatMap WalletAct.newKeys,
    safe.keys.find (crypto.hash160 (key.pub crypto)) = none
  nodup : ((acts.flatMap WalletAct.newKeys).map
    fun key => crypto.hash160 (key.pub crypto)).Nodup

theorem KeySafe.find_foldl_file {id : CKeyID} {l : List CKey}
    (hother : ∀ key ∈ l, id ≠ crypto.hash160 (key.pub crypto)) (safe : KeySafe) :
    (l.foldl (KeySafe.file crypto) safe).keys.find id = safe.keys.find id := by
  induction l generalizing safe with
  | nil => rfl
  | cons key l ih =>
      rw [List.foldl_cons, ih (fun key hk => hother key (List.mem_cons_of_mem _ hk))]
      exact OrdMap.find_put_of_ne _ _ (hother key List.mem_cons_self)

/-- A call adds no key but those that it makes. -/
theorem KeySafe.step_find {a : WalletAct} {id : CKeyID}
    (hother : ∀ key ∈ a.newKeys, id ≠ crypto.hash160 (key.pub crypto)) (safe : KeySafe) :
    (safe.step crypto a).2.keys.find id = safe.keys.find id := by
  cases a with
  | addKey key =>
      simp only [KeySafe.step]
      split
      · rfl
      · exact OrdMap.find_put_of_ne _ _ (hother key (by simp [WalletAct.newKeys]))
  | encryptwallet pass draw =>
      simp only [KeySafe.step]
      split
      · rfl
      · split
        · rfl
        · exact KeySafe.find_foldl_file hother safe
  | walletpassphrase pass =>
      simp only [KeySafe.step]
      split
      · rfl
      · split
        · rfl
        · split <;> rfl
  | walletpassphrasechange old new measured =>
      simp only [KeySafe.step]
      split
      · rfl
      · split
        · rfl
        · split <;> rfl
  | walletlock =>
      simp only [KeySafe.step]
      split <;> rfl
  | restart => rfl

theorem KeySafe.Room.step {a : WalletAct} {acts : List WalletAct}
    (h : safe.Room crypto (a :: acts)) : (safe.step crypto a).2.Room crypto acts := by
  obtain ⟨hfree, hnodup⟩ := h
  rw [List.flatMap_cons] at hfree hnodup
  rw [List.map_append, List.nodup_append] at hnodup
  refine ⟨?_, hnodup.2.1⟩
  intro key hkey
  rw [KeySafe.step_find]
  · exact hfree key (List.mem_append_right _ hkey)
  · intro key' hkey' heq
    exact hnodup.2.2 _ (List.mem_map_of_mem hkey') _ (List.mem_map_of_mem hkey) heq.symm

/-- **A call does to the wallet what it does to the safe**, and a restart shuts it. -/
theorem Stands.step (hs : crypto.Sound) (hc : Careful crypto all) (h : Stands crypto all w safe)
    {a : WalletAct} {acts : List WalletAct} (ha : a ∈ all) (hroom : safe.Room crypto (a :: acts)) :
    ∃ w', w.step crypto a = some ((safe.step crypto a).1, w') ∧
      Stands crypto all w' (safe.step crypto a).2 := by
  obtain ⟨hfree, hnodup⟩ := hroom
  rw [List.flatMap_cons] at hfree hnodup
  rw [List.map_append, List.nodup_append] at hnodup
  have hfree : ∀ key ∈ a.newKeys, safe.keys.find (crypto.hash160 (key.pub crypto)) = none :=
    fun key hkey => hfree key (List.mem_append_left _ hkey)
  have hcrypted := h.isCrypted
  cases a with
  | addKey key =>
      have hmem : key ∈ (WalletAct.addKey key).newKeys := by simp [WalletAct.newKeys]
      have hgood := (hc.good _ ha).keys key hmem
      obtain ⟨w', hadd, hstands⟩ :=
        h.addKey hs hgood (List.mem_flatMap.mpr ⟨_, ha, hmem⟩) (hfree key hmem)
      refine ⟨w', ?_, ?_⟩
      · simp only [KeyWallet.step, hgood.getPubKey, Option.map_some, hadd, KeySafe.step]
        cases safe.isShut <;> rfl
      · simp only [KeySafe.step]
        cases hshut : safe.isShut <;> simpa [hshut] using hstands
  | encryptwallet pass draw =>
      cases hpass : safe.pass with
      | some p =>
          rw [hpass] at hcrypted
          exact ⟨w, by simp [KeyWallet.step, hcrypted, KeySafe.step, hpass],
            by simpa [KeySafe.step, hpass] using h⟩
      | none =>
          rw [hpass] at hcrypted
          by_cases hnil : pass = []
          · exact ⟨w, by simp [KeyWallet.step, hcrypted, KeySafe.step, hpass, hnil],
              by simpa [KeySafe.step, hpass, hnil] using h⟩
          · obtain ⟨w', henc, hstands⟩ := h.encrypt hs hc hpass ha hfree hnodup.1
            have hlen : ¬pass.length < 1 := by
              have := List.length_pos_iff.mpr hnil
              omega
            refine ⟨w', ?_, ?_⟩
            · simp [KeyWallet.step, hcrypted, hlen, henc, KeyWallet.reply, KeySafe.step, hpass,
                hnil]
            · simpa [KeySafe.step, hpass, hnil] using hstands
  | walletpassphrase pass =>
      cases hpass : safe.pass with
      | none =>
          rw [hpass] at hcrypted
          exact ⟨w, by simp [KeyWallet.step, hcrypted, KeySafe.step, hpass],
            by simpa [KeySafe.step, hpass] using h⟩
      | some p =>
          rw [hpass] at hcrypted
          by_cases hnil : pass = []
          · exact ⟨w, by simp [KeyWallet.step, hcrypted, KeySafe.step, hpass, hnil],
              by simpa [KeySafe.step, hpass, hnil] using h⟩
          · have hmem : pass ∈ all.flatMap WalletAct.passes :=
              List.mem_flatMap.mpr ⟨_, ha, by simp [WalletAct.passes]⟩
            obtain ⟨w', hunlock, hstands⟩ := h.unlock hs hc hpass hmem
            have hlen : pass.length > 0 := List.length_pos_iff.mpr hnil
            refine ⟨w', ?_, ?_⟩
            · by_cases hright : pass = p
              · subst hright
                simp [KeyWallet.step, hcrypted, hlen, hunlock, KeyWallet.reply, KeySafe.step, hpass,
                  hnil]
              · have hne : p ≠ pass := fun h => hright h.symm
                simp [KeyWallet.step, hcrypted, hlen, hunlock, KeyWallet.reply, KeySafe.step, hpass,
                  hnil, hright, hne]
            · by_cases hright : pass = p
              · subst hright
                simpa [KeySafe.step, hpass, hnil] using hstands
              · have hne : p ≠ pass := fun h => hright h.symm
                simpa [KeySafe.step, hpass, hnil, hright, hne] using hstands
  | walletpassphrasechange old new measured =>
      cases hpass : safe.pass with
      | none =>
          rw [hpass] at hcrypted
          exact ⟨w, by simp [KeyWallet.step, hcrypted, KeySafe.step, hpass],
            by simpa [KeySafe.step, hpass] using h⟩
      | some p =>
          rw [hpass] at hcrypted
          by_cases hnil : old = [] ∨ new = []
          · exact ⟨w, by simp [KeyWallet.step, hcrypted, KeySafe.step, hpass, hnil],
              by simpa [KeySafe.step, hpass, hnil] using h⟩
          · have hold : old ∈ all.flatMap WalletAct.passes :=
              List.mem_flatMap.mpr ⟨_, ha, by simp [WalletAct.passes]⟩
            have hnew : new ∈ all.flatMap WalletAct.passes :=
              List.mem_flatMap.mpr ⟨_, ha, by simp [WalletAct.passes]⟩
            have hm : measured ∈ all.flatMap WalletAct.measures :=
              List.mem_flatMap.mpr ⟨_, ha, by simp [WalletAct.measures]⟩
            obtain ⟨w', hchange, hstands⟩ := h.rekey hs hc hpass hold hnew hm
            refine ⟨w', ?_, ?_⟩
            · by_cases hright : old = p
              · subst hright
                simp [KeyWallet.step, hcrypted, hchange, KeyWallet.reply, KeySafe.step, hpass, hnil]
              · have hne : p ≠ old := fun h => hright h.symm
                simp [KeyWallet.step, hcrypted, hchange, KeyWallet.reply, KeySafe.step, hpass, hnil,
                  hright, hne]
            · by_cases hright : old = p
              · subst hright
                simpa [KeySafe.step, hpass, hnil] using hstands
              · have hne : p ≠ old := fun h => hright h.symm
                simpa [KeySafe.step, hpass, hnil, hright, hne] using hstands
  | walletlock =>
      cases hpass : safe.pass with
      | none =>
          rw [hpass] at hcrypted
          exact ⟨w, by simp [KeyWallet.step, hcrypted, KeySafe.step, hpass],
            by simpa [KeySafe.step, hpass] using h⟩
      | some p =>
          rw [hpass] at hcrypted
          exact ⟨w.lock, by simp [KeyWallet.step, hcrypted, KeySafe.step, hpass],
            by simpa [KeySafe.step, hpass] using h.lock hpass⟩
  | restart =>
      obtain ⟨w', hload, hstands⟩ := h.load
      exact ⟨w', by simp [KeyWallet.step, hload, KeySafe.step], hstands⟩

/-! ## Whole runs -/

theorem Stands.run (hs : crypto.Sound) (hc : Careful crypto all) {acts : List WalletAct}
    (hacts : ∀ a ∈ acts, a ∈ all) (h : Stands crypto all w safe) (hroom : safe.Room crypto acts) :
    ∃ w', w.runActs crypto acts = some ((safe.runActs crypto acts).1, w') ∧
      Stands crypto all w' (safe.runActs crypto acts).2 := by
  induction acts generalizing w safe with
  | nil => exact ⟨w, rfl, h⟩
  | cons a acts ih =>
      obtain ⟨w₁, hstep, h₁⟩ := h.step hs hc (hacts a List.mem_cons_self) hroom
      obtain ⟨w₂, hrun, h₂⟩ := ih (fun b hb => hacts b (List.mem_cons_of_mem _ hb)) h₁ hroom.step
      refine ⟨w₂, ?_, h₂⟩
      simp [KeyWallet.runActs, hstep, hrun, KeySafe.runActs]

/-- A wallet gives the keys of its safe. -/
theorem Stands.getKey (hs : crypto.Sound) (h : Stands crypto all w safe) (id : CKeyID) :
    w.store.getKey crypto id = safe.getKey id ∧
      w.store.haveKey id = (safe.keys.find id).isSome := by
  have hseals := h.seals
  cases hpass : safe.pass with
  | none =>
      rw [hpass] at hseals
      refine ⟨?_, (hseals.1.getPubKey id).2⟩
      rw [hseals.1.getKey hs id]
      simp [Vault.getKey, KeySafe.getKey, KeySafe.isShut, hpass]
  | some pass =>
      obtain ⟨master, mk, -, hholds, -⟩ := h.parts hpass
      refine ⟨?_, (hholds.getPubKey id).2⟩
      rw [hholds.getKey hs id]
      cases hopen : safe.isOpen <;>
        simp [Vault.getKey, KeySafe.getKey, KeySafe.isShut, hpass, hopen, guardOf]

/-- The first key of a new wallet. -/
theorem Stands.start (hc : Careful crypto all) (hact : .addKey key ∈ all) :
    ∃ w, KeyWallet.step crypto {} (.addKey key) = some (.ok (), w) ∧
      Stands crypto all w (KeySafe.file crypto {} key) := by
  have hgood := (hc.good _ hact).keys key (by simp [WalletAct.newKeys])
  have hmir : Mirrors crypto {} {} := by
    constructor <;> intro p <;> simp [OrdMap.empty]
  have hadd := @KeyWallet.addKeyPubKey_plain crypto {} key rfl rfl
  refine ⟨KeyWallet.putPlain crypto {} key, ?_, ?_, ?_, hmir.putKey rfl, ?_⟩
  · simp [KeyWallet.step, hgood.getPubKey, hadd, KeyWallet.reply]
  · simp [KeySafe.file, OrdMap.put]
  · intro id key' hfind
    rw [KeySafe.file, OrdMap.find_put] at hfind
    split at hfind
    · obtain rfl := Option.some.inj hfind
      exact List.mem_flatMap.mpr ⟨_, hact, by simp [WalletAct.newKeys]⟩
    · cases hfind
  · have hf : Filings crypto .empty := fun id key' hfind => by cases hfind
    exact ⟨⟨hf.put hgood, rfl, rfl, rfl, rfl⟩, rfl, rfl, rfl⟩

/-- **The wallet is a safe.**  From its first key on, over every run of calls and restarts, it
answers as the safe does: the passphrase that was set last opens it and no other does, and it
gives back every key that was put in, except while it is shut.  No assertion fails, no key is
refused by the file, and the file can always be loaded. -/
theorem KeyWallet.runActs_safe (hs : crypto.Sound) (key : CKey) (acts : List WalletAct)
    (hc : Careful crypto (.addKey key :: acts)) :
    ∃ w, KeyWallet.runActs crypto {} (.addKey key :: acts) =
        some ((KeySafe.runActs crypto {} (.addKey key :: acts)).1, w) ∧
      ∀ id, w.store.getKey crypto id =
          (KeySafe.runActs crypto {} (.addKey key :: acts)).2.getKey id ∧
        w.store.haveKey id =
          ((KeySafe.runActs crypto {} (.addKey key :: acts)).2.keys.find id).isSome := by
  obtain ⟨w₁, hstep, h₁⟩ := Stands.start hc List.mem_cons_self
  have hroom : KeySafe.Room crypto {} (.addKey key :: acts) := ⟨fun key hkey => rfl, hc.distinct⟩
  have hsub : ∀ a ∈ acts, a ∈ WalletAct.addKey key :: acts :=
    fun a ha => List.mem_cons_of_mem _ ha
  obtain ⟨w, hrun, h⟩ := h₁.run hs hc hsub hroom.step
  refine ⟨w, ?_, fun id => h.getKey hs id⟩
  simp only [KeyWallet.runActs, hstep, Option.bind_some, hrun, Option.map_some]
  rfl

/-! ## An example -/

theorem examplePass_misses {a b : UInt8} (hne : b ≠ a) (salt : Bytes) (rounds : Nat)
    (master : Bytes) (key : CKey) :
    PassMisses exampleCrypto [a] [b] salt rounds master key := by
  intro c c' wrapped found hset henc hset' hfound
  rw [CCrypter.setKeyFromPassphrase] at hset hset'
  split at hset
  · cases hset
  · rename_i hok
    rw [if_neg hok] at hset'
    obtain rfl := Option.some.inj hset
    obtain rfl := Option.some.inj hset'
    obtain rfl := Option.some.inj henc
    exfalso
    have hlen := exampleCrypto_sound.bytesToKey_length salt [a] rounds
    have htake : ((exampleCrypto.bytesToKey salt [a] rounds).1 ++ master).take 32 =
        (exampleCrypto.bytesToKey salt [a] rounds).1 := List.take_left' hlen
    have hkeys : (exampleCrypto.bytesToKey salt [a] rounds).1 ≠
        (exampleCrypto.bytesToKey salt [b] rounds).1 := by
      simp [exampleCrypto, hne.symm]
    have hdec : exampleCrypto.aesDecrypt (exampleCrypto.bytesToKey salt [b] rounds).1
        (exampleCrypto.bytesToKey salt [b] rounds).2
        ((exampleCrypto.bytesToKey salt [a] rounds).1 ++ master) = some found := hfound
    have hnone : exampleCrypto.aesDecrypt (exampleCrypto.bytesToKey salt [b] rounds).1
        (exampleCrypto.bytesToKey salt [b] rounds).2
        ((exampleCrypto.bytesToKey salt [a] rounds).1 ++ master) = none :=
      if_neg fun heq => hkeys (htake.symm.trans heq)
    rw [hnone] at hdec
    cases hdec

/-- What an example wallet draws. -/
def exampleDraw : EncryptDraw where
  vMasterKey := List.replicate 32 9
  vchSalt := List.replicate 8 5
  measured := 30000
  poolKeys := [exampleSecret 2, exampleSecret 3]

/-- A wallet that is encrypted, tried with a wrong passphrase, opened, given another passphrase
and restarted. -/
def exampleWalletActs : List WalletAct :=
  [.encryptwallet [1] exampleDraw, .walletpassphrase [2], .walletpassphrase [1],
    .addKey (exampleSecret 4), .walletpassphrasechange [1] [3] 40000, .restart,
    .walletpassphrase [1], .walletpassphrase [3]]

theorem exampleWalletActs_careful :
    Careful exampleCrypto (.addKey (exampleSecret 1) :: exampleWalletActs) where
  good := by
    intro a ha
    simp only [exampleWalletActs, List.mem_cons, List.not_mem_nil, or_false] at ha
    rcases ha with rfl | rfl | rfl | rfl | rfl | rfl | rfl | rfl | rfl <;>
      constructor <;>
      simp [WalletAct.newKeys, WalletAct.seeds, exampleDraw, exampleSecret_good]
  distinct := by decide +kernel
  misses := by
    have hpasses : ∀ pass ∈ (WalletAct.addKey (exampleSecret 1) :: exampleWalletActs).flatMap
        WalletAct.passes, ∃ a, pass = [a] := by
      simp [exampleWalletActs, WalletAct.passes]
    intro pass hpass pass' hpass' hne e _ m _ key _
    obtain ⟨a, rfl⟩ := hpasses pass hpass
    obtain ⟨b, rfl⟩ := hpasses pass' hpass'
    have hab : b ≠ a := fun h => hne (congrArg (fun x => [x]) h)
    exact examplePass_misses hab e.1 (deriveIterations m) e.2 key

theorem exampleWalletActs_safe :
    ∃ w, KeyWallet.runActs exampleCrypto {} (.addKey (exampleSecret 1) :: exampleWalletActs) =
        some ([.ok (), .ok (), .error .passphraseIncorrect, .ok (), .ok (), .ok (), .ok (),
          .error .passphraseIncorrect, .ok ()], w) ∧
      w.store.getKey exampleCrypto
        (exampleCrypto.hash160 ((exampleSecret 4).pub exampleCrypto)) =
        some (exampleSecret 4) := by
  obtain ⟨w, hrun, hread⟩ := KeyWallet.runActs_safe exampleCrypto_sound (exampleSecret 1)
    exampleWalletActs exampleWalletActs_careful
  refine ⟨w, ?_, ?_⟩
  · rw [hrun]
    congr 2
  · rw [(hread _).1]
    decide +kernel

end Hivemind
