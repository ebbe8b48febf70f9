import Hivemind.Wallet.Safe

/-!
# Keys that go into the safe

The first half of the relation between wallets and safes: what adding a key does to the store and
to the file, what encrypting all keys does, and which passphrases open the store.

Adding a key and encrypting the keys write to both sides, one record for each key, and the loop
that encrypts does so while it goes over the keys in the clear.  The loop is compared with a fold
that seals every key, in the store and in the file alike, so that the two still have the same
keys when it is over.

* `Mirrors.find_none`: a key that is not in the store is not in the file.
* `Stands.addKey`: a key goes into a safe that is not shut, and into the file.
* `KeyWallet.encryptKeys_plain`: encrypting the keys in the store and in the file.
* `exists_wrap`: a master key can be wrapped under every passphrase.
* `Wraps.opens`, `Wraps.refuses`: **a passphrase opens the store if and only if it is the one
  that the master key is wrapped under**.
-/

namespace Hivemind

open Codecs Ordered

variable {crypto : KeyCrypto} {all : List WalletAct} {w : KeyWallet} {safe : KeySafe} {key : CKey}

/-! ## Adding a key -/

/-- A key that is not in the store is not in the file. -/
theorem Mirrors.find_none {s : CCryptoKeyStore} {file : WalletFile} (h : Mirrors crypto s file)
    {pub : Bytes} (hkey : s.mapKeys.find (crypto.hash160 pub) = none)
    (hckey : s.mapCryptedKeys.find (crypto.hash160 pub) = none) :
    file.key.find pub = none ∧ file.ckey.find pub = none := by
  constructor
  · apply OrdMap.find_eq_none.mpr
    intro key hmem
    exact OrdMap.find_eq_none.mp hkey key ((h.key _).mp hmem).1
  · apply OrdMap.find_eq_none.mpr
    intro c hmem
    exact OrdMap.find_eq_none.mp hckey (pub, c) ((h.ckey _).mp hmem)

theorem Mirrors.putKey {s : CCryptoKeyStore} {file : WalletFile} (h : Mirrors crypto s file)
    (hnew : s.mapKeys.find (crypto.hash160 (key.pub crypto)) = none) :
    Mirrors crypto { s with mapKeys := s.mapKeys.put (crypto.hash160 (key.pub crypto)) key }
      { file with key := file.key.put (key.pub crypto) key } := by
  refine ⟨?_, h.ckey⟩
  rintro ⟨pub, key'⟩
  rw [OrdMap.mem_put, OrdMap.mem_put, h.key]
  constructor
  · rintro (heq | ⟨hne, hmem, hpub⟩)
    · obtain ⟨rfl, rfl⟩ := Prod.mk.inj heq
      exact ⟨Or.inl rfl, rfl⟩
    · refine ⟨Or.inr ⟨?_, hmem⟩, hpub⟩
      intro hid
      simp only at hid hmem
      rw [hid] at hmem
      exact OrdMap.find_eq_none.mp hnew _ hmem
  · rintro ⟨heq | ⟨hne, hmem⟩, hpub⟩
    · obtain ⟨-, rfl⟩ := Prod.mk.inj heq
      exact Or.inl (Prod.ext hpub.symm rfl)
    · refine Or.inr ⟨?_, hmem, hpub⟩
      rintro rfl
      exact hne rfl

theorem Mirrors.putCrypted {s : CCryptoKeyStore} {file : WalletFile} (h : Mirrors crypto s file)
    (hplain : s.mapKeys = .empty) {pub c : Bytes}
    (hnew : s.mapCryptedKeys.find (crypto.hash160 pub) = none) :
    Mirrors crypto
      { s with mapCryptedKeys := s.mapCryptedKeys.put (crypto.hash160 pub) (pub, c) }
      { file with ckey := file.ckey.put pub c, key := file.key.erase pub } := by
  constructor
  · intro p
    have hold := h.key p
    rw [hplain] at hold ⊢
    rw [OrdMap.mem_erase, hold]
    simp [OrdMap.empty]
  · rintro ⟨pub', c'⟩
    rw [OrdMap.mem_put, OrdMap.mem_put, h.ckey]
    constructor
    · rintro (heq | ⟨hne, hmem⟩)
      · obtain ⟨rfl, rfl⟩ := Prod.mk.inj heq
        exact Or.inl rfl
      · refine Or.inr ⟨?_, hmem⟩
        intro hid
        simp only at hid hmem
        rw [hid] at hmem
        exact OrdMap.find_eq_none.mp hnew _ hmem
    · rintro (heq | ⟨hne, hmem⟩)
      · exact Or.inl (Prod.mk.inj heq).2
      · refine Or.inr ⟨?_, hmem⟩
        rintro rfl
        exact hne rfl

/-- The wallet after a key is added in the clear. -/
def KeyWallet.putPlain (crypto : KeyCrypto) (w : KeyWallet) (key : CKey) : KeyWallet :=
  { w with
    store := { w.store with
      mapKeys := w.store.mapKeys.put (crypto.hash160 (key.pub crypto)) key }
    file := { w.file with key := w.file.key.put (key.pub crypto) key } }

/-- The wallet after a key is added under a master key. -/
def KeyWallet.putSealed (crypto : KeyCrypto) (master : Bytes) (w : KeyWallet) (e : CKeyID × CKey) :
    KeyWallet :=
  { w with
    store := w.store.putSealed crypto master e
    file := { w.file with
      ckey := w.file.ckey.put (e.2.pub crypto) (sealKey crypto master e.2).2
      key := w.file.key.erase (e.2.pub crypto) } }

theorem KeyWallet.addKeyPubKey_plain (hplain : w.store.isCrypted = false)
    (hnew : w.file.key.find (key.pub crypto) = none) :
    w.addKeyPubKey crypto key (key.pub crypto) = (true, w.putPlain crypto key) := by
  simp [addKeyPubKey, hplain, CCryptoKeyStore.addKeyPubKey, WalletFile.writeKey, hnew, putPlain]

theorem KeyWallet.addCryptedKey_sealed {master : Bytes} (hcrypt : w.store.fUseCrypto = true)
    (e : CKeyID × CKey) (hnew : w.file.ckey.find (e.2.pub crypto) = none) :
    w.addCryptedKey crypto (sealKey crypto master e.2).1 (sealKey crypto master e.2).2 =
      (true, w.putSealed crypto master e) := by
  have hpub : (sealKey crypto master e.2).1 = e.2.pub crypto := rfl
  rw [addCryptedKey, Hivemind.addCryptedKey_sealed hcrypt]
  simp [hpub, WalletFile.writeCryptedKey, hnew, putSealed]

/-- **Adding a key** puts it into a safe that is not shut. -/
theorem Stands.addKey (hs : crypto.Sound) (h : Stands crypto all w safe) (hgood : key.Good crypto)
    (hdrawn : key ∈ all.flatMap WalletAct.newKeys)
    (hnew : safe.keys.find (crypto.hash160 (key.pub crypto)) = none) :
    ∃ w', w.addKeyPubKey crypto key (key.pub crypto) = (!safe.isShut, w') ∧
      Stands crypto all w' (if safe.isShut then safe else safe.file crypto key) := by
  obtain ⟨keys, pass, isOpen⟩ := safe
  obtain ⟨hne, hfrom, hmir, hseals⟩ := h
  have hne' : (keys.put (crypto.hash160 (key.pub crypto)) key).entries ≠ [] := by
    intro hnil
    have hfind := OrdMap.entries_eq_nil_iff.mp hnil (crypto.hash160 (key.pub crypto))
    simp at hfind
  have hfrom' : ∀ id key', (keys.put (crypto.hash160 (key.pub crypto)) key).find id = some key' →
      key' ∈ all.flatMap WalletAct.newKeys := by
    intro id key' hfind
    rw [OrdMap.find_put] at hfind
    split at hfind
    · obtain rfl := Option.some.inj hfind
      exact hdrawn
    · exact hfrom id key' hfind
  cases pass with
  | none =>
      obtain ⟨hholds, hmap, hmax, hmkey⟩ := hseals
      obtain ⟨hplain, hkeys, hcrypted, hmaster⟩ := hholds.guards
      simp only at hkeys hnew
      have hstore : w.store.mapKeys.find (crypto.hash160 (key.pub crypto)) = none := by
        rw [hkeys, hnew]
      have hfile := (hmir.find_none hstore (by rw [hcrypted]; rfl)).1
      refine ⟨_, w.addKeyPubKey_plain hplain hfile, hne', hfrom', hmir.putKey hstore, ?_⟩
      refine ⟨⟨hholds.filings.put hgood, hplain, ?_, hcrypted, hmaster⟩, hmap, hmax, hmkey⟩
      simp only [KeyWallet.putPlain, hkeys, KeySafe.file]
      rfl
  | some pass =>
      obtain ⟨master, mk, hwraps, hholds, hmap, hmkey⟩ := hseals
      cases isOpen with
      | false =>
          obtain ⟨hcrypt, -, hmaster, -, -⟩ := hholds.guards
          refine ⟨w, ?_, hne, hfrom, hmir, master, mk, hwraps, hholds, hmap, hmkey⟩
          simp [KeyWallet.addKeyPubKey, CCryptoKeyStore.isCrypted, CCryptoKeyStore.isLocked, hcrypt,
            hmaster, KeySafe.isShut]
      | true =>
          obtain ⟨hcrypt, hkeys, hmaster, hk, hseal⟩ := hholds.guards
          have hstore : w.store.mapCryptedKeys.find (crypto.hash160 (key.pub crypto)) = none := by
            rw [hseal, hnew]
            rfl
          have hfile := (hmir.find_none (by rw [hkeys]; rfl) hstore).2
          have hopen : w.store.vMasterKey.isEmpty = false := by
            rw [hmaster]
            cases master with
            | nil => simp at hk
            | cons => rfl
          have henc := (decrypt_sealKey hs hk key).1
          rw [← hgood.bytes, ← hmaster] at henc
          have hadd : w.addKeyPubKey crypto key (key.pub crypto) =
              (true, w.putSealed crypto master (crypto.hash160 (key.pub crypto), key)) := by
            simp only [KeyWallet.addKeyPubKey, CCryptoKeyStore.isCrypted, CCryptoKeyStore.isLocked,
              hcrypt, hopen, henc]
            rw [hmaster]
            exact KeyWallet.addCryptedKey_sealed hcrypt (crypto.hash160 (key.pub crypto), key) hfile
          refine ⟨_, hadd, hne', hfrom', hmir.putCrypted hkeys hstore, ?_⟩
          exact ⟨master, mk, hwraps, ⟨hholds.filings.put hgood, hcrypt, hkeys, hmaster, hk,
            hseal.put _ key⟩, hmap, hmkey⟩

/-! ## Encrypting -/

/-- The wallet after all keys are sealed. -/
theorem KeyWallet.foldl_putSealed (master : Bytes) (l : List (CKeyID × CKey)) (w : KeyWallet) :
    l.foldl (putSealed crypto master) w =
      { w with
        store := l.foldl (CCryptoKeyStore.putSealed crypto master) w.store
        file := { w.file with
          ckey := w.file.ckey.putAll (l.map fun e => sealKey crypto master e.2)
          key := w.file.key.eraseAll (l.map fun e => e.2.pub crypto) } } := by
  induction l generalizing w with
  | nil => rfl
  | cons e l ih => rw [List.foldl_cons, ih]; rfl

/-- The public keys of a store are distinct. -/
theorem Filings.nodup_pubs {keys : OrdMap CKeyID CKey} (hf : Filings crypto keys) :
    (keys.entries.map fun e => e.2.pub crypto).Nodup := by
  have hids : (keys.entries.map Prod.fst).Nodup :=
    List.pairwise_map.mpr (keys.sorted.imp fun hlt => ne_of_lt hlt)
  have heq : keys.entries.map Prod.fst =
      (keys.entries.map fun e => e.2.pub crypto).map crypto.hash160 := by
    rw [List.map_map]
    apply List.map_congr_left
    intro e he
    exact (hf e.1 e.2 (OrdMap.find_eq_some.mpr he)).2
  rw [heq] at hids
  exact hids.of_map

/-- **The loop of `EncryptKeys`** in the wallet. -/
theorem KeyWallet.encryptEach_wallet (hs : crypto.Sound) {master : Bytes}
    (hk : master.length = 32) (hcrypt : w.store.fUseCrypto = true)
    {l : List (CKeyID × CKey)} (hl : ∀ e ∈ l, e.2.Good crypto)
    (hnodup : (l.map fun e => e.2.pub crypto).Nodup) (hnew : w.file.ckey = .empty) :
    CCryptoKeyStore.encryptEach crypto (fun w => w.addCryptedKey crypto) master l w =
      some (true, l.foldl (putSealed crypto master) w) := by
  let Ok : List (CKeyID × CKey) → KeyWallet → Prop := fun l w =>
    w.store.fUseCrypto = true ∧ (l.map fun e => e.2.pub crypto).Nodup ∧
      ∀ e ∈ l, w.file.ckey.find (e.2.pub crypto) = none
  have hadd : ∀ (e : CKeyID × CKey) (l : List (CKeyID × CKey)) (w : KeyWallet), Ok (e :: l) w →
      w.addCryptedKey crypto (sealKey crypto master e.2).1 (sealKey crypto master e.2).2 =
        (true, w.putSealed crypto master e) ∧ Ok l (w.putSealed crypto master e) := by
    rintro e l w ⟨hcrypt, hnodup, hnew⟩
    rw [List.map_cons, List.nodup_cons] at hnodup
    refine ⟨addCryptedKey_sealed hcrypt e (hnew e List.mem_cons_self), hcrypt, hnodup.2, ?_⟩
    intro e' he'
    have hne : e'.2.pub crypto ≠ e.2.pub crypto := by
      intro heq
      exact hnodup.1 (heq ▸ List.mem_map_of_mem (f := fun e => e.2.pub crypto) he')
    exact (OrdMap.find_put_of_ne _ _ hne).trans (hnew e' (List.mem_cons_of_mem _ he'))
  have hok : Ok l w := ⟨hcrypt, hnodup, fun e _ => by rw [hnew]; rfl⟩
  exact @encryptEach_eq crypto master hs hk _ _ _ Ok hadd l hl w hok

/-- The file after all keys are sealed. -/
theorem Mirrors.sealAll {keys : OrdMap CKeyID CKey} {s : CCryptoKeyStore} {file : WalletFile}
    (h : Mirrors crypto s file) (hf : Filings crypto keys) (hkeys : s.mapKeys = keys)
    (hcrypted : s.mapCryptedKeys = .empty) (master : Bytes) (s' : CCryptoKeyStore)
    (hkeys' : s'.mapKeys = .empty)
    (hcrypted' : s'.mapCryptedKeys = Hivemind.sealAll crypto master keys.entries) :
    Mirrors crypto s' { file with
      ckey := file.ckey.putAll (keys.entries.map fun e => sealKey crypto master e.2)
      key := file.key.eraseAll (keys.entries.map fun e => e.2.pub crypto) } := by
  subst hkeys
  constructor
  · intro p
    rw [hkeys']
    have hnone : p ∉ (file.key.eraseAll
        (s.mapKeys.entries.map fun e => e.2.pub crypto)).entries := by
      intro hmem
      have hfind := OrdMap.find_eq_some.mpr hmem
      rw [OrdMap.find_eraseAll] at hfind
      split at hfind
      · cases hfind
      · rename_i hnot
        obtain ⟨hmem, hpub⟩ := (h.key _).mp (OrdMap.find_eq_some.mp hfind)
        exact hnot (hpub ▸ List.mem_map_of_mem (f := fun e => e.2.pub crypto) hmem)
    simp [hnone, OrdMap.empty]
  · rintro ⟨pub, c⟩
    have hempty : file.ckey = .empty := by
      apply OrdMap.ext_mem
      intro p
      rw [h.ckey, hcrypted]
      simp [OrdMap.empty]
    have hnodup : ((s.mapKeys.entries.map fun e => sealKey crypto master e.2).map
        Prod.fst).Nodup := by
      rw [List.map_map]
      exact hf.nodup_pubs
    rw [hempty, OrdMap.mem_putAll_empty hnodup, hcrypted', ← OrdMap.find_eq_some,
      sealedUnder_sealAll hf master, Option.map_eq_some_iff, List.mem_map]
    constructor
    · rintro ⟨e, he, heq⟩
      have hfind := OrdMap.find_eq_some.mpr he
      have hpub : e.2.pub crypto = pub := (Prod.mk.inj heq).1
      rw [(hf _ _ hfind).2, hpub] at hfind
      exact ⟨e.2, hfind, heq⟩
    · rintro ⟨key, hfind, heq⟩
      exact ⟨(crypto.hash160 pub, key), OrdMap.find_eq_some.mp hfind, heq⟩

/-- Encrypting the keys of a wallet in the clear. -/
theorem KeyWallet.encryptKeys_plain (hs : crypto.Sound) {master : Bytes} (hk : master.length = 32)
    {keys : OrdMap CKeyID CKey} (hholds : Holds crypto w.store ⟨keys, .plain⟩)
    (hmir : Mirrors crypto w.store w.file) :
    ∃ w', w.encryptKeys crypto master = some (true, w') ∧
      Holds crypto w'.store ⟨keys, .sealed (some master)⟩ ∧ Mirrors crypto w'.store w'.file ∧
      w'.mapMasterKeys = w.mapMasterKeys ∧ w'.file.mkey = w.file.mkey := by
  obtain ⟨hf, hplain, hkeys, hcrypted, hmaster⟩ := hholds
  simp only at hf hkeys
  have hgoods : ∀ e ∈ w.store.mapKeys.entries, e.2.Good crypto := fun e he =>
    (hf e.1 e.2 (OrdMap.find_eq_some.mpr (hkeys ▸ he))).1
  have hempty : w.file.ckey = .empty := by
    apply OrdMap.ext_mem
    intro p
    rw [hmir.ckey, hcrypted]
    simp [OrdMap.empty]
  have hloop := @encryptEach_wallet crypto { w with store := { w.store with fUseCrypto := true } }
    hs master hk rfl w.store.mapKeys.entries hgoods (hkeys ▸ hf.nodup_pubs) hempty
  have hnot : ¬(w.store.mapCryptedKeys.entries ≠ [] ∨ w.store.isCrypted = true) := by
    simp [hcrypted, CCryptoKeyStore.isCrypted, hplain, OrdMap.empty]
  subst hkeys
  let keys := w.store.mapKeys
  let crypted : CCryptoKeyStore := { w.store with
    fUseCrypto := true
    mapKeys := .empty
    mapCryptedKeys := sealAll crypto master keys.entries }
  let file : WalletFile := { w.file with
    ckey := w.file.ckey.putAll (keys.entries.map fun e => sealKey crypto master e.2)
    key := w.file.key.eraseAll (keys.entries.map fun e => e.2.pub crypto) }
  refine ⟨{ w with store := crypted, file := file }, ?_, ?_, ?_, rfl, rfl⟩
  · have hstore := @Hivemind.foldl_putSealed crypto master w.store.mapKeys.entries
      { w.store with fUseCrypto := true } hcrypted
    rw [KeyWallet.encryptKeys, if_neg hnot, hloop, KeyWallet.foldl_putSealed]
    simp only [hstore, Option.map_some]
    rfl
  · exact ⟨hf, rfl, rfl, hmaster, hk, sealedUnder_sealAll hf master⟩
  · exact hmir.sealAll hf rfl hcrypted master crypted rfl rfl

/-! ## Passphrases -/

theorem deriveIterations_pos (measured : Nat) : 1 ≤ deriveIterations measured := by
  rw [deriveIterations]
  split <;> omega

theorem setKeyFromPassphrase_eq (pass : Bytes) {salt : Bytes} (hsalt : salt.length = 8) (m : Nat) :
    CCrypter.setKeyFromPassphrase crypto pass salt (deriveIterations m) 0 =
      some ⟨(crypto.bytesToKey salt pass (deriveIterations m)).1,
        (crypto.bytesToKey salt pass (deriveIterations m)).2, true⟩ := by
  have hpos := deriveIterations_pos m
  rw [CCrypter.setKeyFromPassphrase, if_neg]
  simp only [walletCryptoSaltSize, hsalt]
  omega

/-- A master key can be wrapped under every passphrase. -/
theorem exists_wrap (hs : crypto.Sound) (pass : Bytes) {salt : Bytes} (hsalt : salt.length = 8)
    (m : Nat) (master : Bytes) :
    ∃ c wrapped, CCrypter.setKeyFromPassphrase crypto pass salt (deriveIterations m) 0 = some c ∧
      c.encrypt crypto master = some wrapped ∧ c.decrypt crypto wrapped = some master := by
  obtain ⟨wrapped, henc, hdec⟩ := hs.aes _ (crypto.bytesToKey salt pass (deriveIterations m)).2
    master (hs.bytesToKey_length salt pass (deriveIterations m))
  exact ⟨_, wrapped, setKeyFromPassphrase_eq pass hsalt m, henc, hdec⟩

section Unlock

variable {pass pass' master : Bytes} {mk : CMasterKey} {s : CCryptoKeyStore}
  {keys : OrdMap CKeyID CKey} {g : Guard}

/-- **The passphrase opens the store.** -/
theorem Wraps.opens (hs : crypto.Sound) (hwraps : Wraps crypto all pass master mk)
    (hholds : Holds crypto s ⟨keys, g⟩) (hg : g.master = some master) (hne : keys.entries ≠ []) :
    ∃ c s', CCrypter.setKeyFromPassphrase crypto pass mk.vchSalt mk.nDeriveIterations
        mk.nDerivationMethod = some c ∧
      c.decrypt crypto mk.vchCryptedKey = some master ∧
      s.unlock crypto master = some (true, s') ∧ Holds crypto s' ⟨keys, .opened master⟩ := by
  obtain ⟨c, hset, -, hdec⟩ := hwraps.wraps
  obtain ⟨s', hunlock, hopened⟩ := @Holds.unlock crypto s ⟨keys, g⟩ master hs hholds (by
    intro k hk hne
    exact absurd (Option.some.inj (hg.symm.trans hk)) hne)
  simp only [Vault.unlock, hg, hne, ne_eq, not_false_eq_true, and_self, if_true] at hunlock hopened
  exact ⟨c, s', by rw [hwraps.method]; exact hset, hdec, hunlock, hopened⟩

/-- **No other passphrase does.** -/
theorem Wraps.refuses (hs : crypto.Sound) (hc : Careful crypto all)
    (hwraps : Wraps crypto all pass master mk) (hholds : Holds crypto s ⟨keys, g⟩)
    (hg : g.master = some master) (hne : keys.entries ≠ [])
    (hdrawn : ∀ id key, keys.find id = some key → key ∈ all.flatMap WalletAct.newKeys)
    (hpass : pass' ∈ all.flatMap WalletAct.passes) (hother : pass' ≠ pass) :
    ∃ c, CCrypter.setKeyFromPassphrase crypto pass' mk.vchSalt mk.nDeriveIterations
        mk.nDerivationMethod = some c ∧
      (c.decrypt crypto mk.vchCryptedKey = none ∨
        ∃ found s', c.decrypt crypto mk.vchCryptedKey = some found ∧
          s.unlock crypto found = some (false, s') ∧ Holds crypto s' ⟨keys, g⟩) := by
  obtain ⟨m, hm, hrounds⟩ := hwraps.rounds
  obtain ⟨a, ha, hseed⟩ := List.mem_flatMap.mp hwraps.seed_mem
  have hsalt := ((hc.good a ha).seeds _ hseed).1
  obtain ⟨c, hset, henc, hdec⟩ := hwraps.wraps
  have hset' := @setKeyFromPassphrase_eq crypto pass' _ hsalt m
  rw [hwraps.method, hrounds]
  refine ⟨_, hset', ?_⟩
  rcases hfound : CCrypter.decrypt crypto _ mk.vchCryptedKey with _ | found
  · exact Or.inl rfl
  · refine Or.inr ⟨found, ?_⟩
    have hmisses : ∀ id key, keys.find id = some key →
        found ≠ master ∧ Misses crypto master found key := by
      intro id key hfind
      rw [hrounds] at hset
      exact hc.misses pass hwraps.pass_mem pass' hpass hother _ hwraps.seed_mem m hm key
        (hdrawn id key hfind) c _ _ found hset henc hset' hfound
    obtain ⟨e, he⟩ := List.exists_mem_of_ne_nil _ hne
    have hfindne := (hmisses e.1 e.2 (OrdMap.find_eq_some.mpr he)).1
    obtain ⟨s', hunlock, hkept⟩ := @Holds.unlock crypto s ⟨keys, g⟩ found hs hholds (by
      intro k hk hne id key hfind
      obtain rfl := Option.some.inj (hg.symm.trans hk)
      exact (hmisses id key hfind).2)
    simp only [Vault.unlock, hg, hfindne, and_false, if_false] at hunlock hkept
    exact ⟨s', rfl, hunlock, hkept⟩

end Unlock

end Hivemind
