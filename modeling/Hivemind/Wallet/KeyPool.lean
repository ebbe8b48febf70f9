import Hivemind.Lib.Runs
import Hivemind.Script.Destination

/-!
# The key pool (`wallet.cpp`)

The wallet keeps keys in store, each under an index in the wallet file.  A `CReserveKey` takes
the key of the lowest index out of the set of indices, and later keeps it, which erases the
record, or returns the index.  The set is topped up behind its highest index.

`draw` names the keys that `MakeNewKey` makes, in order, and `nKeyPool` is `-keypool`.  A restart
loads the indices from the file, so an index that was reserved and neither kept nor returned is
back in the set; the hands are empty then.

New indices are numbered from the highest index of the set, not of the file.  When the set has
run dry while a key is reserved, the numbering starts again at one and may meet the index of that
key; this is the one thing that a run must not do, and in a wallet that stays unlocked it does
not, because each reservation tops the pool up first.

* `PoolWallet.Inv`: an index is in the set or in one hand, and has a key of its own.
* `PoolWallet.Inv.step`: it is kept while the pool does not run dry under a reserved key.
* `PoolWallet.goes_of_open`: in a wallet that stays unlocked it does not.
* `PoolWallet.run_pool`: **no key is in two hands or given out twice, and every record that is
  asked for is there.**
-/

namespace Hivemind

open Codecs Ordered Runs

/-- `CReserveKey`: the index and the key that it has. -/
structure CReserveKey where
  nIndex : Nat
  vchPubKey : Bytes
  deriving DecidableEq

/-- The part of the wallet that keeps the pool. -/
structure PoolWallet where
  /-- `setKeyPool`. -/
  setKeyPool : OrdMap Nat Unit := .empty
  /-- The `pool` records of the wallet file. -/
  pool : OrdMap Nat Bytes := .empty
  /-- The number of keys drawn. -/
  drawn : Nat := 0
  locked : Bool := false
  /-- The reserve keys that have a key, by the name of the variable. -/
  hands : OrdMap Nat CReserveKey := .empty
  /-- The keys that were kept or handed out, the last one first. -/
  given : List Bytes := []

namespace PoolWallet

variable (draw : Nat → Bytes) (nKeyPool : Nat) (s : PoolWallet)

/-- `GenerateNewKey`. -/
def generateNewKey : Bytes × PoolWallet := (draw s.drawn, { s with drawn := s.drawn + 1 })

/-- `HaveKey`, of a key that was drawn. -/
def haveKey (pubkey : Bytes) : Bool := (List.range s.drawn).any fun i => draw i == pubkey

/-- A new key under an index: `WritePool` and `setKeyPool.insert`. -/
def writeNew (nIndex : Nat) : PoolWallet :=
  let (pubkey, s) := s.generateNewKey draw
  { s with pool := s.pool.put nIndex pubkey, setKeyPool := s.setKeyPool.put nIndex () }

/-- The index behind the last one. -/
def nEnd : Nat :=
  match s.setKeyPool.entries.getLast? with
  | none => 1
  | some e => e.1 + 1

/-- The loop of `TopUpKeyPool`. -/
def topUpLoop (size : Nat) : Nat → PoolWallet → PoolWallet
  | 0, s => s
  | fuel + 1, s =>
    if s.setKeyPool.entries.length < size then topUpLoop size fuel (s.writeNew draw s.nEnd)
    else s

/-- `TopUpKeyPool`. -/
def topUpKeyPool (kpSize : Nat) : PoolWallet :=
  if s.locked then s
  else
    -- both are an `unsigned int`
    let nTargetSize := (if kpSize > 0 then kpSize else nKeyPool) % 2 ^ 32
    let size := (nTargetSize + 1) % 2 ^ 32
    topUpLoop draw size size s

/-- `NewKeyPool`. -/
def newKeyPool : PoolWallet :=
  let s := { s with
    pool := s.pool.eraseAll (s.setKeyPool.entries.map Prod.fst)
    setKeyPool := .empty }
  if s.locked then s
  else (List.range nKeyPool).foldl (fun s i => s.writeNew draw (i + 1)) s

/-- `ReserveKeyFromKeyPool`: the key, if there is one; the outer `none` where it throws. -/
def reserveKeyFromKeyPool : Option (Option CReserveKey × PoolWallet) :=
  let s := if s.locked then s else s.topUpKeyPool draw nKeyPool 0
  -- Get the oldest key
  match s.setKeyPool.entries with
  | [] => some (none, s)
  | (nIndex, _) :: _ =>
    let s := { s with setKeyPool := s.setKeyPool.erase nIndex }
    match s.pool.find nIndex with
    | none => none
    | some vchPubKey =>
      if s.haveKey draw vchPubKey = false then none
      else if pubKeyIsValid vchPubKey = false then none
      else some (some ⟨nIndex, vchPubKey⟩, s)

/-- `KeepKey`. -/
def keepKey (nIndex : Nat) : PoolWallet := { s with pool := s.pool.erase nIndex }

/-- `ReturnKey`. -/
def returnKey (nIndex : Nat) : PoolWallet := { s with setKeyPool := s.setKeyPool.put nIndex () }

/-- `GetKeyFromPool`. -/
def getKeyFromPool : Option PoolWallet :=
  (s.reserveKeyFromKeyPool draw nKeyPool).map fun
    | (none, s) =>
      if s.locked then s
      else
        let (pubkey, s) := s.generateNewKey draw
        { s with given := pubkey :: s.given }
    | (some key, s) => { s.keepKey key.nIndex with given := key.vchPubKey :: s.given }

/-- `GetOldestKeyPoolTime`. -/
def getOldestKeyPoolTime : Option PoolWallet :=
  (s.reserveKeyFromKeyPool draw nKeyPool).map fun
    | (none, s) => s
    | (some key, s) => s.returnKey key.nIndex

/-- `CReserveKey::GetReservedKey`. -/
def getReservedKey (r : Nat) : Option PoolWallet :=
  match s.hands.find r with
  | some _ => some s
  | none =>
    (s.reserveKeyFromKeyPool draw nKeyPool).map fun
      | (none, s) => s
      | (some key, s) => { s with hands := s.hands.put r key }

/-- `CReserveKey::KeepKey`. -/
def keepReserved (r : Nat) : PoolWallet :=
  match s.hands.find r with
  | none => s
  | some key =>
    { s.keepKey key.nIndex with hands := s.hands.erase r, given := key.vchPubKey :: s.given }

/-- `CReserveKey::ReturnKey`, which its destructor calls. -/
def returnReserved (r : Nat) : PoolWallet :=
  match s.hands.find r with
  | none => s
  | some key => { s.returnKey key.nIndex with hands := s.hands.erase r }

/-- The pool as `LoadWallet` finds it. -/
def load (locked : Bool) : PoolWallet :=
  { s with
    setKeyPool := s.pool.entries.foldl (fun m e => m.put e.1 ()) .empty
    hands := .empty
    locked := locked }

end PoolWallet

/-- What happens to the pool. -/
inductive PoolAct where
  | newKeyPool
  | topUpKeyPool (kpSize : Nat)
  | getReservedKey (r : Nat)
  | keepKey (r : Nat)
  | returnKey (r : Nat)
  | getKeyFromPool
  | getOldestKeyPoolTime
  | lock
  | unlock
  | restart (locked : Bool)

namespace PoolWallet

variable (draw : Nat → Bytes) (nKeyPool : Nat)

/-- One event; `none` where the wallet throws or asserts. -/
def step (s : PoolWallet) : PoolAct → Option PoolWallet
  | .newKeyPool => some (s.newKeyPool draw nKeyPool)
  | .topUpKeyPool kpSize => some (s.topUpKeyPool draw nKeyPool kpSize)
  | .getReservedKey r => s.getReservedKey draw nKeyPool r
  | .keepKey r => some (s.keepReserved r)
  | .returnKey r => some (s.returnReserved r)
  | .getKeyFromPool => s.getKeyFromPool draw nKeyPool
  | .getOldestKeyPoolTime => s.getOldestKeyPoolTime draw nKeyPool
  | .lock => some { s with locked := true }
  | .unlock => some { s with locked := false }
  | .restart locked => some (s.load locked)

/-! ## The invariant -/

/-- The pool has run dry while a key is reserved: the indices would start again at one. -/
def Dry (s : PoolWallet) : Prop := s.setKeyPool.entries = [] ∧ s.hands.entries ≠ []

/-- The numbering goes on: it does not start again while a key is reserved. -/
def Goes (s : PoolWallet) (a : PoolAct) : Prop :=
  ¬s.Dry ∧ (a = .newKeyPool → s.hands.entries = [])

/-- No key was drawn twice so far. -/
def Unrepeated (s : PoolWallet) : Prop :=
  ∀ i < s.drawn, ∀ j < s.drawn, draw i = draw j → i = j

/-- Each index is in the set or in one hand, and has a key of its own that was never given. -/
structure Inv (s : PoolWallet) : Prop where
  record : ∀ n, s.pool.find n ≠ none ↔
    s.setKeyPool.find n = some () ∨ ∃ r key, s.hands.find r = some key ∧ key.nIndex = n
  hand : ∀ r key, s.hands.find r = some key →
    s.pool.find key.nIndex = some key.vchPubKey ∧ s.setKeyPool.find key.nIndex = none
  apart : ∀ r r' key key', s.hands.find r = some key → s.hands.find r' = some key' →
    key.nIndex = key'.nIndex → r = r'
  fresh : ∀ n pubkey, s.pool.find n = some pubkey → ∃ i < s.drawn, pubkey = draw i
  own : s.Unrepeated draw →
    ∀ n n' pubkey, s.pool.find n = some pubkey → s.pool.find n' = some pubkey → n = n'
  given_nodup : s.Unrepeated draw → s.given.Nodup
  given_drawn : ∀ pubkey ∈ s.given, ∃ i < s.drawn, pubkey = draw i
  given_gone : s.Unrepeated draw → ∀ pubkey ∈ s.given, ∀ n, s.pool.find n ≠ some pubkey
  below : ¬s.Dry → ∀ r key, s.hands.find r = some key →
    ∃ m, s.setKeyPool.find m = some () ∧ key.nIndex < m

variable {draw nKeyPool} {s : PoolWallet}

theorem Inv.start : Inv draw {} where
  record := by simp
  hand := by simp
  apart := by simp
  fresh := by simp
  own := by simp
  given_nodup _ := List.nodup_nil
  given_drawn := by simp
  given_gone := by simp
  below := by simp

/-! ## New keys -/

/-- No record is behind the last index. -/
theorem Inv.find_nEnd (h : Inv draw s) (hdry : ¬s.Dry) : s.pool.find s.nEnd = none := by
  by_contra hfound
  have hbehind : ∃ m, s.setKeyPool.find m = some () ∧ s.nEnd ≤ m := by
    rcases (h.record _).mp hfound with hset | ⟨r, key, hkey, hn⟩
    · exact ⟨_, hset, le_refl _⟩
    · obtain ⟨m, hm, hlt⟩ := h.below hdry r key hkey
      exact ⟨m, hm, by omega⟩
  obtain ⟨m, hm, hle⟩ := hbehind
  have hmem := OrdMap.find_eq_some.mp hm
  rw [nEnd] at hle
  cases hlast : s.setKeyPool.entries.getLast? with
  | none =>
      rw [List.getLast?_eq_none_iff.mp hlast] at hmem
      cases hmem
  | some e =>
      have hlast_le := OrdMap.le_of_getLast hlast hmem
      rw [hlast] at hle
      simp only at hle hlast_le
      omega

theorem entries_put_ne_nil {α β : Type} [LinearOrder α] (m : OrdMap α β) (k : α) (v : β) :
    (m.put k v).entries ≠ [] := by
  intro hnil
  have hfind := OrdMap.entries_eq_nil_iff.mp hnil k
  simp at hfind

/-- The keys that were drawn before another one do not repeat if none does with it. -/
theorem unrepeated_of_succ {t : PoolWallet} (hdrawn : t.drawn = s.drawn + 1)
    (h : t.Unrepeated draw) :
    s.Unrepeated draw ∧ ∀ pubkey, (∃ i < s.drawn, pubkey = draw i) → pubkey ≠ draw s.drawn := by
  refine ⟨fun i hi j hj => h i (by omega) j (by omega), ?_⟩
  rintro pubkey ⟨i, hi, rfl⟩ heq
  have := h i (by omega) s.drawn (by omega) heq
  omega

theorem not_dry_writeNew (n : Nat) : ¬(s.writeNew draw n).Dry :=
  fun hdry => entries_put_ne_nil _ _ _ hdry.1

/-- **A new key** under an index without a record. -/
theorem Inv.writeNew (h : Inv draw s) (hdry : ¬s.Dry) {n : Nat}
    (hnew : s.pool.find n = none) : Inv draw (s.writeNew draw n) := by
  have hset : s.setKeyPool.find n = none := by
    cases hset : s.setKeyPool.find n with
    | none => rfl
    | some u => exact absurd hnew ((h.record n).mpr (Or.inl hset))
  constructor
  · intro m
    simp only [PoolWallet.writeNew, generateNewKey, OrdMap.find_put]
    by_cases hm : m = n
    · simp [hm]
    · simp only [hm, if_false]
      exact h.record m
  · intro r key hkey
    obtain ⟨hpool, hout⟩ := h.hand r key hkey
    have hne : key.nIndex ≠ n := by
      rintro rfl
      rw [hnew] at hpool
      cases hpool
    simp only [PoolWallet.writeNew, generateNewKey, OrdMap.find_put, hne, if_false]
    exact ⟨hpool, hout⟩
  · exact h.apart
  · intro m pubkey hfind
    simp only [PoolWallet.writeNew, generateNewKey, OrdMap.find_put] at hfind ⊢
    split at hfind
    · exact ⟨s.drawn, by omega, (Option.some.inj hfind).symm⟩
    · obtain ⟨i, hi, hdraw⟩ := h.fresh m pubkey hfind
      exact ⟨i, by omega, hdraw⟩
  · intro hunrepeated m m' pubkey hfind hfind'
    obtain ⟨hbefore, hunused⟩ := unrepeated_of_succ rfl hunrepeated
    simp only [PoolWallet.writeNew, generateNewKey, OrdMap.find_put] at hfind hfind'
    split at hfind <;> split at hfind'
    · subst m m'
      rfl
    · exact absurd (Option.some.inj hfind).symm (hunused _ (h.fresh _ _ hfind'))
    · exact absurd (Option.some.inj hfind').symm (hunused _ (h.fresh _ _ hfind))
    · exact h.own hbefore m m' pubkey hfind hfind'
  · intro hunrepeated
    exact h.given_nodup (unrepeated_of_succ rfl hunrepeated).1
  · intro pubkey hmem
    obtain ⟨i, hi, hdraw⟩ := h.given_drawn pubkey hmem
    exact ⟨i, Nat.lt_succ_of_lt hi, hdraw⟩
  · intro hunrepeated pubkey hmem m
    obtain ⟨hbefore, hunused⟩ := unrepeated_of_succ rfl hunrepeated
    simp only [PoolWallet.writeNew, generateNewKey, OrdMap.find_put]
    split
    · intro heq
      exact hunused _ (h.given_drawn pubkey hmem) (Option.some.inj heq).symm
    · exact h.given_gone hbefore pubkey hmem m
  · intro _ r key hkey
    obtain ⟨m, hm, hlt⟩ := h.below hdry r key hkey
    refine ⟨m, ?_, hlt⟩
    simp only [PoolWallet.writeNew, generateNewKey, OrdMap.find_put]
    split
    · rfl
    · exact hm

/-- `t` is the pool `s` with keys that were added behind the last index. -/
structure Topped (draw : Nat → Bytes) (s t : PoolWallet) : Prop where
  inv : Inv draw t
  not_dry : ¬t.Dry
  hands : t.hands = s.hands
  locked : t.locked = s.locked

/-- Topping up puts keys behind the last index. -/
theorem Inv.topUpLoop (size : Nat) (fuel : Nat) (h : Inv draw s)
    (hdry : ¬s.Dry) : Topped draw s (topUpLoop draw size fuel s) := by
  induction fuel generalizing s with
  | zero => exact ⟨h, hdry, rfl, rfl⟩
  | succ fuel ih =>
      rw [PoolWallet.topUpLoop]
      split
      · have hrest := ih (h.writeNew hdry (h.find_nEnd hdry)) (not_dry_writeNew _)
        exact ⟨hrest.inv, hrest.not_dry, hrest.hands, hrest.locked⟩
      · exact ⟨h, hdry, rfl, rfl⟩

/-- The fuel of the loop is enough: the set is as large as asked for. -/
theorem length_topUpLoop (size : Nat) (fuel : Nat) (h : Inv draw s)
    (hdry : ¬s.Dry) (hfuel : size ≤ s.setKeyPool.entries.length + fuel) :
    size ≤ (topUpLoop draw size fuel s).setKeyPool.entries.length := by
  induction fuel generalizing s with
  | zero => exact hfuel
  | succ fuel ih =>
      rw [PoolWallet.topUpLoop]
      split
      · refine ih (h.writeNew hdry (h.find_nEnd hdry)) (not_dry_writeNew _) ?_
        have hnew : s.setKeyPool.find s.nEnd = none := by
          cases hset : s.setKeyPool.find s.nEnd with
          | none => rfl
          | some u => exact absurd (h.find_nEnd hdry) ((h.record _).mpr (Or.inl hset))
        have hlen := OrdMap.length_put_of_new hnew ()
        simp only [PoolWallet.writeNew, generateNewKey]
        omega
      · omega

theorem Inv.topUpKeyPool (nKeyPool kpSize : Nat) (h : Inv draw s) (hdry : ¬s.Dry) :
    Topped draw s (s.topUpKeyPool draw nKeyPool kpSize) := by
  rw [PoolWallet.topUpKeyPool]
  split
  · exact ⟨h, hdry, rfl, rfl⟩
  · exact h.topUpLoop _ _ hdry

/-- Topping up leaves more keys than `-keypool` asks for. -/
theorem length_topUpKeyPool (h : Inv draw s) (hdry : ¬s.Dry)
    (hlocked : s.locked = false) (hsize : nKeyPool + 1 < 2 ^ 32) :
    nKeyPool + 1 ≤ (s.topUpKeyPool draw nKeyPool 0).setKeyPool.entries.length := by
  have hsmall : (nKeyPool % 2 ^ 32 + 1) % 2 ^ 32 = nKeyPool + 1 := by omega
  simp only [PoolWallet.topUpKeyPool, hlocked, lt_irrefl, if_false, hsmall, Bool.false_eq_true]
  exact length_topUpLoop _ _ h hdry (by omega)

/-! ## Reserving -/

/-- A key that is drawn is in the key store. -/
theorem haveKey_of_drawn {pubkey : Bytes} (h : ∃ i < s.drawn, pubkey = draw i) :
    s.haveKey draw pubkey = true := by
  obtain ⟨i, hi, rfl⟩ := h
  rw [haveKey, List.any_eq_true]
  exact ⟨i, List.mem_range.mpr hi, by simp⟩

/-- **Reserving a key** does not throw, and takes the lowest index of a pool that is topped up. -/
theorem Inv.reserve (nKeyPool : Nat) (hvalid : ∀ i, pubKeyIsValid (draw i) = true)
    (h : Inv draw s) (hdry : ¬s.Dry) :
    ∃ t, t = (if s.locked then s else s.topUpKeyPool draw nKeyPool 0) ∧ Topped draw s t ∧
      ((t.setKeyPool.entries = [] ∧ s.reserveKeyFromKeyPool draw nKeyPool = some (none, t)) ∨
        ∃ key : CReserveKey, t.pool.find key.nIndex = some key.vchPubKey ∧
          t.setKeyPool.find key.nIndex = some () ∧
          (∀ m, t.setKeyPool.find m = some () → key.nIndex ≤ m) ∧
          s.reserveKeyFromKeyPool draw nKeyPool =
            some (some key, { t with setKeyPool := t.setKeyPool.erase key.nIndex })) := by
  obtain ⟨t, ht⟩ : ∃ t, t = (if s.locked then s else s.topUpKeyPool draw nKeyPool 0) := ⟨_, rfl⟩
  have htopped : Topped draw s t := by
    rw [ht]
    split
    · exact ⟨h, hdry, rfl, rfl⟩
    · exact h.topUpKeyPool nKeyPool 0 hdry
  refine ⟨t, ht, htopped, ?_⟩
  have hinv := htopped.inv
  rw [reserveKeyFromKeyPool, ← ht]
  cases hentries : t.setKeyPool.entries with
  | nil => exact Or.inl ⟨rfl, by simp⟩
  | cons e rest =>
      obtain ⟨nIndex, u⟩ := e
      have hset : t.setKeyPool.find nIndex = some () :=
        OrdMap.find_eq_some.mpr (by simp [hentries])
      obtain ⟨pubkey, hpool⟩ :=
        Option.ne_none_iff_exists'.mp ((hinv.record nIndex).mpr (Or.inl hset))
      have hdrawn := hinv.fresh nIndex pubkey hpool
      have hvalid : pubKeyIsValid pubkey = true := by
        obtain ⟨i, -, rfl⟩ := hdrawn
        exact hvalid i
      have hhave : ({ t with setKeyPool := t.setKeyPool.erase nIndex } : PoolWallet).haveKey draw
          pubkey = true := haveKey_of_drawn hdrawn
      refine Or.inr ⟨⟨nIndex, pubkey⟩, hpool, hset, ?_, ?_⟩
      · intro m hm
        exact OrdMap.le_of_head hentries (OrdMap.find_eq_some.mp hm)
      · simp [hpool, hhave, hvalid]

/-! ## Hands -/

/-- The lowest index goes into a free hand. -/
theorem Inv.take (h : Inv draw s) (hdry : ¬s.Dry) {r : Nat} (hfree : s.hands.find r = none)
    {key : CReserveKey} (hpool : s.pool.find key.nIndex = some key.vchPubKey)
    (hset : s.setKeyPool.find key.nIndex = some ())
    (hleast : ∀ m, s.setKeyPool.find m = some () → key.nIndex ≤ m) :
    Inv draw { s with
      setKeyPool := s.setKeyPool.erase key.nIndex
      hands := s.hands.put r key } := by
  have hother : ∀ r' key', s.hands.find r' = some key' → key'.nIndex ≠ key.nIndex := by
    intro r' key' hkey' heq
    have hout := (h.hand r' key' hkey').2
    rw [heq, hset] at hout
    cases hout
  constructor
  · intro n
    rw [h.record]
    simp only [OrdMap.find_erase, OrdMap.find_put]
    constructor
    · rintro (hn | ⟨r', key', hkey', hn⟩)
      · by_cases heq : n = key.nIndex
        · exact Or.inr ⟨r, key, by simp, heq.symm⟩
        · exact Or.inl (by simp [heq, hn])
      · refine Or.inr ⟨r', key', ?_, hn⟩
        have hne : r' ≠ r := by
          rintro rfl
          rw [hfree] at hkey'
          cases hkey'
        rw [if_neg hne, hkey']
    · rintro (hn | ⟨r', key', hkey', hn⟩)
      · split at hn
        · cases hn
        · exact Or.inl hn
      · split at hkey'
        · obtain rfl := Option.some.inj hkey'
          exact Or.inl (hn ▸ hset)
        · exact Or.inr ⟨r', key', hkey', hn⟩
  · intro r' key' hkey'
    simp only [OrdMap.find_erase, OrdMap.find_put] at hkey' ⊢
    split at hkey'
    · obtain rfl := Option.some.inj hkey'
      exact ⟨hpool, by simp⟩
    · obtain ⟨hpool', hout⟩ := h.hand r' key' hkey'
      exact ⟨hpool', by simp [hother r' key' hkey', hout]⟩
  · intro r₁ r₂ key₁ key₂ h₁ h₂ heq
    simp only [OrdMap.find_put] at h₁ h₂
    split at h₁ <;> split at h₂
    · subst r₁ r₂
      rfl
    · obtain rfl := Option.some.inj h₁
      exact absurd heq.symm (hother r₂ key₂ h₂)
    · obtain rfl := Option.some.inj h₂
      exact absurd heq (hother r₁ key₁ h₁)
    · exact h.apart r₁ r₂ key₁ key₂ h₁ h₂ heq
  · exact h.fresh
  · exact h.own
  · exact h.given_nodup
  · exact h.given_drawn
  · exact h.given_gone
  · intro hdry' r' key' hkey'
    have hne : (s.setKeyPool.erase key.nIndex).entries ≠ [] := by
      intro hnil
      exact hdry' ⟨hnil, entries_put_ne_nil _ _ _⟩
    obtain ⟨e, he⟩ := List.exists_mem_of_ne_nil _ hne
    have hmem := OrdMap.mem_erase.mp he
    have hfind : s.setKeyPool.find e.1 = some () := OrdMap.find_eq_some.mpr hmem.2
    have hlt : key.nIndex < e.1 := lt_of_le_of_ne (hleast e.1 hfind) fun heq => hmem.1 heq.symm
    simp only [OrdMap.find_put] at hkey'
    split at hkey'
    · obtain rfl := Option.some.inj hkey'
      exact ⟨e.1, by simp [OrdMap.find_erase, hmem.1, hfind], hlt⟩
    · obtain ⟨m, hm, hltm⟩ := h.below hdry r' key' hkey'
      by_cases heq : m = key.nIndex
      · exact ⟨e.1, by simp [OrdMap.find_erase, hmem.1, hfind], by omega⟩
      · exact ⟨m, by simp [OrdMap.find_erase, heq, hm], hltm⟩

/-- A kept key leaves the pool for good. -/
theorem Inv.keepReserved (h : Inv draw s) (r : Nat) : Inv draw (s.keepReserved r) := by
  rw [PoolWallet.keepReserved]
  cases hkey : s.hands.find r with
  | none => exact h
  | some key =>
      obtain ⟨hpool, hout⟩ := h.hand r key hkey
      have hothers : ∀ r' key', r' ≠ r → s.hands.find r' = some key' →
          key'.nIndex ≠ key.nIndex := fun r' key' hne hkey' heq =>
        hne (h.apart r' r key' key hkey' hkey heq)
      constructor
      · intro n
        simp only [keepKey, OrdMap.find_erase]
        by_cases hn : n = key.nIndex
        · subst hn
          simp only [if_true, ne_eq, not_true_eq_false, false_iff, not_or, not_exists, not_and]
          refine ⟨by simp [hout], ?_⟩
          intro r' key' hkey'
          split at hkey'
          · cases hkey'
          · exact hothers r' key' (by assumption) hkey'
        · simp only [hn, if_false]
          rw [h.record]
          constructor
          · rintro (hset | ⟨r', key', hkey', hidx⟩)
            · exact Or.inl hset
            · refine Or.inr ⟨r', key', ?_, hidx⟩
              have hne : r' ≠ r := by
                rintro rfl
                rw [hkey] at hkey'
                obtain rfl := Option.some.inj hkey'
                exact hn hidx.symm
              rw [if_neg hne, hkey']
          · rintro (hset | ⟨r', key', hkey', hidx⟩)
            · exact Or.inl hset
            · split at hkey'
              · cases hkey'
              · exact Or.inr ⟨r', key', hkey', hidx⟩
      · intro r' key' hkey'
        simp only [keepKey, OrdMap.find_erase] at hkey' ⊢
        split at hkey'
        · cases hkey'
        · obtain ⟨hpool', hout'⟩ := h.hand r' key' hkey'
          have hne := hothers r' key' (by assumption) hkey'
          exact ⟨by simp [hne, hpool'], hout'⟩
      · intro r₁ r₂ key₁ key₂ h₁ h₂ heq
        simp only [OrdMap.find_erase] at h₁ h₂
        split at h₁
        · cases h₁
        · split at h₂
          · cases h₂
          · exact h.apart r₁ r₂ key₁ key₂ h₁ h₂ heq
      · intro n pubkey hfind
        simp only [keepKey, OrdMap.find_erase] at hfind
        split at hfind
        · cases hfind
        · exact h.fresh n pubkey hfind
      · intro hunrepeated n n' pubkey hfind hfind'
        simp only [keepKey, OrdMap.find_erase] at hfind hfind'
        split at hfind
        · cases hfind
        · split at hfind'
          · cases hfind'
          · exact h.own hunrepeated n n' pubkey hfind hfind'
      · intro hunrepeated
        refine List.nodup_cons.mpr ⟨?_, h.given_nodup hunrepeated⟩
        intro hmem
        exact h.given_gone hunrepeated _ hmem _ hpool
      · intro pubkey hmem
        rcases List.mem_cons.mp hmem with rfl | hmem
        · exact h.fresh _ _ hpool
        · exact h.given_drawn pubkey hmem
      · intro hunrepeated pubkey hmem n
        simp only [keepKey, OrdMap.find_erase]
        split
        · simp
        · rename_i hn
          rcases List.mem_cons.mp hmem with rfl | hmem
          · intro hfind
            exact hn (h.own hunrepeated _ _ _ hfind hpool)
          · exact h.given_gone hunrepeated pubkey hmem n
      · intro hdry' r' key' hkey'
        have hdry : ¬s.Dry := by
          intro hdry
          apply hdry'
          refine ⟨hdry.1, ?_⟩
          intro hnil
          rw [OrdMap.entries_eq_nil_iff.mp hnil r'] at hkey'
          cases hkey'
        simp only [OrdMap.find_erase] at hkey'
        split at hkey'
        · cases hkey'
        · exact h.below hdry r' key' hkey'

/-- A returned key goes back into the pool. -/
theorem Inv.returnReserved (h : Inv draw s) (hdry : ¬s.Dry) (r : Nat) :
    Inv draw (s.returnReserved r) := by
  rw [PoolWallet.returnReserved]
  cases hkey : s.hands.find r with
  | none => exact h
  | some key =>
      have hothers : ∀ r' key', r' ≠ r → s.hands.find r' = some key' →
          key'.nIndex ≠ key.nIndex := fun r' key' hne hkey' heq =>
        hne (h.apart r' r key' key hkey' hkey heq)
      constructor
      · intro n
        simp only [returnKey]
        rw [h.record]
        simp only [OrdMap.find_put, OrdMap.find_erase]
        constructor
        · rintro (hset | ⟨r', key', hkey', hn⟩)
          · exact Or.inl (by split <;> [rfl; exact hset])
          · by_cases hr : r' = r
            · subst hr
              rw [hkey] at hkey'
              obtain rfl := Option.some.inj hkey'
              exact Or.inl (by rw [if_pos hn.symm])
            · exact Or.inr ⟨r', key', by rw [if_neg hr, hkey'], hn⟩
        · rintro (hset | ⟨r', key', hkey', hn⟩)
          · split at hset
            · exact Or.inr ⟨r, key, hkey, by simp_all⟩
            · exact Or.inl hset
          · split at hkey'
            · cases hkey'
            · exact Or.inr ⟨r', key', hkey', hn⟩
      · intro r' key' hkey'
        simp only [returnKey, OrdMap.find_put, OrdMap.find_erase] at hkey' ⊢
        split at hkey'
        · cases hkey'
        · obtain ⟨hpool', hout'⟩ := h.hand r' key' hkey'
          have hne := hothers r' key' (by assumption) hkey'
          exact ⟨hpool', by rw [if_neg hne, hout']⟩
      · intro r₁ r₂ key₁ key₂ h₁ h₂ heq
        simp only [OrdMap.find_erase] at h₁ h₂
        split at h₁
        · cases h₁
        · split at h₂
          · cases h₂
          · exact h.apart r₁ r₂ key₁ key₂ h₁ h₂ heq
      · exact h.fresh
      · exact h.own
      · exact h.given_nodup
      · exact h.given_drawn
      · exact h.given_gone
      · intro _ r' key' hkey'
        simp only [OrdMap.find_erase] at hkey'
        split at hkey'
        · cases hkey'
        · obtain ⟨m, hm, hlt⟩ := h.below hdry r' key' hkey'
          refine ⟨m, ?_, hlt⟩
          simp only [returnKey, OrdMap.find_put]
          split
          · rfl
          · exact hm

/-- A key that is made and given at once. -/
theorem Inv.give (h : Inv draw s) :
    Inv draw { s with drawn := s.drawn + 1, given := draw s.drawn :: s.given } := by
  have hlater : ∀ {pubkey}, (∃ i < s.drawn, pubkey = draw i) →
      ∃ i < s.drawn + 1, pubkey = draw i := fun ⟨i, hi, hdraw⟩ => ⟨i, by omega, hdraw⟩
  refine ⟨h.record, h.hand, h.apart, ?_, ?_, ?_, ?_, ?_, h.below⟩
  · intro n pubkey hfind
    exact hlater (h.fresh n pubkey hfind)
  · intro hunrepeated
    exact h.own (unrepeated_of_succ rfl hunrepeated).1
  · intro hunrepeated
    obtain ⟨hbefore, hunused⟩ := unrepeated_of_succ rfl hunrepeated
    refine List.nodup_cons.mpr ⟨?_, h.given_nodup hbefore⟩
    intro hmem
    exact hunused _ (h.given_drawn _ hmem) rfl
  · intro pubkey hmem
    rcases List.mem_cons.mp hmem with rfl | hmem
    · exact ⟨s.drawn, Nat.lt_succ_self _, rfl⟩
    · exact hlater (h.given_drawn pubkey hmem)
  · intro hunrepeated pubkey hmem n hfind
    obtain ⟨hbefore, hunused⟩ := unrepeated_of_succ rfl hunrepeated
    rcases List.mem_cons.mp hmem with rfl | hmem
    · exact hunused _ (h.fresh n _ hfind) rfl
    · exact h.given_gone hbefore pubkey hmem n hfind

/-- There is always a hand that is free. -/
theorem exists_free_hand (s : PoolWallet) : ∃ r, s.hands.find r = none := by
  obtain ⟨r, hr⟩ := Infinite.exists_notMem_finset (s.hands.entries.map Prod.fst).toFinset
  refine ⟨r, OrdMap.find_eq_none.mpr ?_⟩
  intro key hmem
  exact hr (by simpa using ⟨key, hmem⟩)

theorem Inv.getReservedKey (nKeyPool : Nat) (hvalid : ∀ i, pubKeyIsValid (draw i) = true)
    (h : Inv draw s) (hdry : ¬s.Dry) (r : Nat) :
    ∃ s', s.getReservedKey draw nKeyPool r = some s' ∧ Inv draw s' := by
  rw [PoolWallet.getReservedKey]
  cases hfree : s.hands.find r with
  | some key => exact ⟨s, rfl, h⟩
  | none =>
      obtain ⟨t, -, ht, ⟨-, hnone⟩ | ⟨key, hpool, hset, hleast, hsome⟩⟩ :=
        h.reserve nKeyPool hvalid hdry
      · exact ⟨t, by simp [hnone], ht.inv⟩
      · have htfree : t.hands.find r = none := ht.hands ▸ hfree
        exact ⟨_, by simp only [hsome, Option.map_some],
          ht.inv.take ht.not_dry htfree hpool hset hleast⟩

/-- A key out of the pool is one that is taken into a free hand and kept. -/
theorem Inv.getKeyFromPool (nKeyPool : Nat) (hvalid : ∀ i, pubKeyIsValid (draw i) = true)
    (h : Inv draw s) (hdry : ¬s.Dry) :
    ∃ s', s.getKeyFromPool draw nKeyPool = some s' ∧ Inv draw s' := by
  rw [PoolWallet.getKeyFromPool]
  obtain ⟨t, -, ht, ⟨-, hnone⟩ | ⟨key, hpool, hset, hleast, hsome⟩⟩ :=
    h.reserve nKeyPool hvalid hdry
  · simp only [hnone, Option.map_some, generateNewKey]
    refine ⟨_, rfl, ?_⟩
    split
    · exact ht.inv
    · exact ht.inv.give
  · obtain ⟨r, hfree⟩ := exists_free_hand t
    have hkept := (ht.inv.take ht.not_dry hfree hpool hset hleast).keepReserved r
    have hhands : (t.hands.put r key).erase r = t.hands := by
      apply OrdMap.ext_find
      intro r'
      rw [OrdMap.find_erase, OrdMap.find_put]
      split
      · rename_i hr
        rw [hr, hfree]
      · rfl
    simp only [PoolWallet.keepReserved, OrdMap.find_put_self, keepKey, hhands] at hkept
    exact ⟨_, by simp only [hsome, Option.map_some]; rfl, hkept⟩

/-- Looking at the oldest key only tops the pool up. -/
theorem Inv.getOldestKeyPoolTime (nKeyPool : Nat) (hvalid : ∀ i, pubKeyIsValid (draw i) = true)
    (h : Inv draw s) (hdry : ¬s.Dry) :
    ∃ s', s.getOldestKeyPoolTime draw nKeyPool = some s' ∧ Inv draw s' := by
  rw [PoolWallet.getOldestKeyPoolTime]
  obtain ⟨t, -, ht, ⟨-, hnone⟩ | ⟨key, -, hset, -, hsome⟩⟩ := h.reserve nKeyPool hvalid hdry
  · exact ⟨t, by simp [hnone], ht.inv⟩
  · have hback : (t.setKeyPool.erase key.nIndex).put key.nIndex () = t.setKeyPool := by
      apply OrdMap.ext_find
      intro n
      rw [OrdMap.find_put, OrdMap.find_erase]
      split
      · rename_i hn
        rw [hn, hset]
      · rfl
    refine ⟨_, by simp only [hsome, Option.map_some]; rfl, ?_⟩
    simpa only [returnKey, hback] using ht.inv

/-! ## The pool as a whole -/

/-- Numbering a new pool from one, with no key reserved. -/
theorem Inv.writeRange (n : Nat) (h : Inv draw s) (hhands : s.hands.entries = [])
    (hempty : ∀ m, s.pool.find m = none) :
    Inv draw ((List.range n).foldl (fun s i => s.writeNew draw (i + 1)) s) := by
  have hloop : ∀ n, Inv draw ((List.range n).foldl (fun s i => s.writeNew draw (i + 1)) s) ∧
      ((List.range n).foldl (fun s i => s.writeNew draw (i + 1)) s).hands.entries = [] ∧
      ∀ m, n < m →
        ((List.range n).foldl (fun s i => s.writeNew draw (i + 1)) s).pool.find m = none := by
    intro n
    induction n with
    | zero => exact ⟨h, hhands, fun m _ => hempty m⟩
    | succ n ih =>
        obtain ⟨hinv, hnil, hnone⟩ := ih
        rw [List.range_succ, List.foldl_append, List.foldl_cons, List.foldl_nil]
        refine ⟨hinv.writeNew ?_ (hnone _ (Nat.lt_succ_self n)), hnil, ?_⟩
        · exact fun hdry => hdry.2 hnil
        · intro m hm
          have hbehind := hnone m (by omega)
          simp only [PoolWallet.writeNew, generateNewKey] at hbehind ⊢
          rw [OrdMap.find_put_of_ne _ _ (by omega), hbehind]
  exact (hloop n).1

theorem Inv.newKeyPool (nKeyPool : Nat) (h : Inv draw s) (hhands : s.hands.entries = []) :
    Inv draw (s.newKeyPool draw nKeyPool) := by
  have hempty : ∀ m, (s.pool.eraseAll (s.setKeyPool.entries.map Prod.fst)).find m = none := by
    intro m
    rw [OrdMap.find_eraseAll]
    split
    · rfl
    · rename_i hout
      by_contra hfound
      rcases (h.record m).mp hfound with hset | ⟨r, key, hkey, -⟩
      · exact hout (List.mem_map.mpr ⟨_, OrdMap.find_eq_some.mp hset, rfl⟩)
      · rw [OrdMap.entries_eq_nil_iff.mp hhands r] at hkey
        cases hkey
  have hcleared : Inv draw { s with
      pool := s.pool.eraseAll (s.setKeyPool.entries.map Prod.fst), setKeyPool := .empty } := by
    have hnohand := OrdMap.entries_eq_nil_iff.mp hhands
    constructor <;> simp [hempty, hnohand]
    · exact h.given_nodup
    · exact h.given_drawn
  rw [PoolWallet.newKeyPool]
  split
  · exact hcleared
  · exact hcleared.writeRange nKeyPool hhands hempty

/-- `LoadWallet` puts every record into the set. -/
theorem find_load (m : Nat) (locked : Bool) :
    (s.load locked).setKeyPool.find m = (s.pool.find m).map fun _ => () := by
  simp only [load]
  rw [OrdMap.foldl_entries (g := fun _ _ _ => some ())]
  · cases s.pool.find m <;> rfl
  · intro set e k
    exact OrdMap.find_put set e.1 k ()

theorem Inv.load (h : Inv draw s) (locked : Bool) : Inv draw (s.load locked) := by
  refine ⟨?_, ?_, ?_, h.fresh, h.own, h.given_nodup, h.given_drawn, h.given_gone, ?_⟩
  · intro n
    rw [find_load]
    show s.pool.find n ≠ none ↔ _
    cases s.pool.find n <;> simp [PoolWallet.load]
  all_goals simp [PoolWallet.load]

/-- **One event** does not throw and keeps the invariant. -/
theorem Inv.step (nKeyPool : Nat) (hvalid : ∀ i, pubKeyIsValid (draw i) = true)
    (h : Inv draw s) {a : PoolAct} (hgoes : s.Goes a) :
    ∃ s', s.step draw nKeyPool a = some s' ∧ Inv draw s' := by
  obtain ⟨hdry, hnew⟩ := hgoes
  cases a with
  | newKeyPool => exact ⟨_, rfl, h.newKeyPool nKeyPool (hnew rfl)⟩
  | topUpKeyPool kpSize => exact ⟨_, rfl, (h.topUpKeyPool nKeyPool kpSize hdry).inv⟩
  | getReservedKey r => exact h.getReservedKey nKeyPool hvalid hdry r
  | keepKey r => exact ⟨_, rfl, h.keepReserved r⟩
  | returnKey r => exact ⟨_, rfl, h.returnReserved hdry r⟩
  | getKeyFromPool => exact h.getKeyFromPool nKeyPool hvalid hdry
  | getOldestKeyPoolTime => exact h.getOldestKeyPoolTime nKeyPool hvalid hdry
  | lock => exact ⟨_, rfl, ⟨h.record, h.hand, h.apart, h.fresh, h.own, h.given_nodup,
      h.given_drawn, h.given_gone, h.below⟩⟩
  | unlock => exact ⟨_, rfl, ⟨h.record, h.hand, h.apart, h.fresh, h.own, h.given_nodup,
      h.given_drawn, h.given_gone, h.below⟩⟩
  | restart locked => exact ⟨_, rfl, h.load locked⟩

/-! ## Unlocked wallets -/

end PoolWallet

/-- What happens to a pool whose wallet is never locked, once it was made. -/
def PoolAct.IsOpen : PoolAct → Prop
  | .newKeyPool | .lock => False
  | .restart locked => locked = false
  | _ => True

namespace PoolWallet

variable {draw : Nat → Bytes} {nKeyPool : Nat} {s : PoolWallet}

/-- The pool is unlocked and has not run dry. -/
structure Ready (draw : Nat → Bytes) (s : PoolWallet) : Prop where
  inv : Inv draw s
  unlocked : s.locked = false
  not_dry : ¬s.Dry

/-- What the set is short of after a key was taken out of it. -/
theorem entries_erase_ne_nil {m : OrdMap Nat Unit} (h : 2 ≤ m.entries.length) (n : Nat) :
    (m.erase n).entries ≠ [] := by
  intro hnil
  have hall : ∀ e ∈ m.entries, e = (n, ()) := by
    intro e he
    by_contra hne
    have hmem : e ∈ (m.erase n).entries :=
      OrdMap.mem_erase.mpr ⟨fun heq => hne (Prod.ext heq rfl), he⟩
    rw [hnil] at hmem
    cases hmem
  have hsorted := m.sorted
  rw [List.eq_replicate_iff.mpr ⟨rfl, hall⟩] at hsorted
  obtain ⟨k, hk⟩ : ∃ k, m.entries.length = k + 2 := ⟨_, (Nat.sub_add_cancel h).symm⟩
  rw [hk, List.replicate_succ, List.replicate_succ] at hsorted
  exact lt_irrefl n (List.rel_of_pairwise_cons hsorted List.mem_cons_self)

/-- An unlocked pool has a key left when one was reserved. -/
theorem Ready.reserve (hvalid : ∀ i, pubKeyIsValid (draw i) = true) (hpos : 1 ≤ nKeyPool)
    (hsize : nKeyPool + 1 < 2 ^ 32) (h : Ready draw s) {key : Option CReserveKey}
    {s' : PoolWallet}
    (hres : s.reserveKeyFromKeyPool draw nKeyPool = some (key, s')) :
    s'.locked = false ∧ s'.setKeyPool.entries ≠ [] := by
  obtain ⟨t, ht, htopped, hcase⟩ := h.inv.reserve nKeyPool hvalid h.not_dry
  have hlen := length_topUpKeyPool h.inv h.not_dry h.unlocked hsize
  rw [h.unlocked, if_neg Bool.false_ne_true] at ht
  rw [← ht] at hlen
  have hunlocked := htopped.locked.trans h.unlocked
  rcases hcase with ⟨hnil, -⟩ | ⟨key', -, -, -, hsome⟩
  · rw [hnil] at hlen
    simp at hlen
  · rw [hsome, Option.some.injEq, Prod.mk.injEq] at hres
    obtain ⟨-, rfl⟩ := hres
    exact ⟨hunlocked, entries_erase_ne_nil (by omega) _⟩

theorem Ready.goes (h : Ready draw s) {a : PoolAct} (ha : a.IsOpen) : s.Goes a := by
  refine ⟨h.not_dry, ?_⟩
  rintro rfl
  exact ha.elim

/-- An open event keeps the pool ready. -/
theorem Ready.step (hvalid : ∀ i, pubKeyIsValid (draw i) = true) (hpos : 1 ≤ nKeyPool)
    (hsize : nKeyPool + 1 < 2 ^ 32) (h : Ready draw s) {a : PoolAct} (ha : a.IsOpen)
    {s' : PoolWallet} (hstep : s.step draw nKeyPool a = some s') : Ready draw s' := by
  have hinv : Inv draw s' := by
    obtain ⟨s₁, h₁, hkept⟩ := h.inv.step nKeyPool hvalid (h.goes ha)
    rw [hstep] at h₁
    exact Option.some.inj h₁ ▸ hkept
  have hnot_dry : ∀ {t : PoolWallet}, t.setKeyPool.entries ≠ [] → ¬t.Dry :=
    fun hne hdry => hne hdry.1
  cases a with
  | newKeyPool => exact ha.elim
  | lock => exact ha.elim
  | topUpKeyPool kpSize =>
      obtain rfl := Option.some.inj hstep
      have htopped := h.inv.topUpKeyPool nKeyPool kpSize h.not_dry
      exact ⟨hinv, htopped.locked.trans h.unlocked, htopped.not_dry⟩
  | getReservedKey r =>
      rw [PoolWallet.step, getReservedKey] at hstep
      split at hstep
      · obtain rfl := Option.some.inj hstep
        exact h
      · obtain ⟨⟨key, t⟩, hres, rfl⟩ := Option.map_eq_some_iff.mp hstep
        obtain ⟨hunlocked, hne⟩ := h.reserve hvalid hpos hsize hres
        cases key <;> exact ⟨hinv, hunlocked, hnot_dry hne⟩
  | keepKey r =>
      obtain rfl := Option.some.inj hstep
      refine ⟨hinv, ?_, ?_⟩
      · rw [PoolWallet.keepReserved]
        split <;> exact h.unlocked
      · rintro ⟨hnil, hhands⟩
        apply h.not_dry
        rw [PoolWallet.keepReserved] at hnil hhands
        split at hnil
        · simp_all [Dry]
        · refine ⟨hnil, ?_⟩
          intro hempty
          simp_all [OrdMap.entries_eq_nil_iff]
  | returnKey r =>
      obtain rfl := Option.some.inj hstep
      rw [PoolWallet.returnReserved] at hinv ⊢
      split at hinv
      · exact h
      · exact ⟨hinv, h.unlocked, hnot_dry (entries_put_ne_nil _ _ _)⟩
  | getKeyFromPool =>
      obtain ⟨⟨key, t⟩, hres, rfl⟩ := Option.map_eq_some_iff.mp hstep
      obtain ⟨hunlocked, hne⟩ := h.reserve hvalid hpos hsize hres
      cases key with
      | none =>
          simp only [hunlocked, Bool.false_eq_true, if_false] at hinv ⊢
          exact ⟨hinv, hunlocked, hnot_dry hne⟩
      | some key => exact ⟨hinv, hunlocked, hnot_dry hne⟩
  | getOldestKeyPoolTime =>
      obtain ⟨⟨key, t⟩, hres, rfl⟩ := Option.map_eq_some_iff.mp hstep
      obtain ⟨hunlocked, hne⟩ := h.reserve hvalid hpos hsize hres
      cases key with
      | none => exact ⟨hinv, hunlocked, hnot_dry hne⟩
      | some key => exact ⟨hinv, hunlocked, hnot_dry (entries_put_ne_nil _ _ _)⟩
  | unlock =>
      obtain rfl := Option.some.inj hstep
      exact ⟨hinv, rfl, h.not_dry⟩
  | restart locked =>
      obtain rfl := Option.some.inj hstep
      exact ⟨hinv, ha, fun hdry => hdry.2 rfl⟩

/-- In a wallet that stays unlocked the pool does not run dry. -/
theorem goes_of_open (hvalid : ∀ i, pubKeyIsValid (draw i) = true) (hpos : 1 ≤ nKeyPool)
    (hsize : nKeyPool + 1 < 2 ^ 32) {acts : List PoolAct} (hopen : ∀ a ∈ acts, a.IsOpen) :
    ∀ pre a s, pre ++ [a] <+: acts → run (step draw nKeyPool) {} pre = some s → s.Goes a := by
  intro pre a s hpre hrun
  have hsub := hpre.subset
  have hstart : Ready draw {} := ⟨Inv.start, rfl, fun hdry => hdry.2 rfl⟩
  have hready : Ready draw s := by
    refine run_inv_of_mem (Ready draw) ?_ hstart hrun
    intro t b hb t' ht hstep
    exact ht.step hvalid hpos hsize (hopen b (hsub (by simp [hb]))) hstep
  exact hready.goes (hopen a (hsub (by simp)))

/-! ## Runs -/

/-- **Runs**: while the pool does not run dry under a reserved key, no event throws and no index is
reserved twice; unless a key was drawn twice, no key is in two hands or given out twice. -/
theorem run_pool (hvalid : ∀ i, pubKeyIsValid (draw i) = true) {acts : List PoolAct}
    (hgoes : ∀ pre a s, pre ++ [a] <+: acts → run (step draw nKeyPool) {} pre = some s → s.Goes a) :
    ∃ s, run (step draw nKeyPool) {} acts = some s ∧
      (∀ r key, s.hands.find r = some key → s.setKeyPool.find key.nIndex = none ∧
        ∀ r' key', s.hands.find r' = some key' → r ≠ r' → key.nIndex ≠ key'.nIndex) ∧
      (s.Unrepeated draw → s.given.Nodup ∧
        (∀ pubkey ∈ s.given, ∀ n, s.pool.find n ≠ some pubkey) ∧
        ∀ r key, s.hands.find r = some key → key.vchPubKey ∉ s.given ∧
          ∀ r' key', s.hands.find r' = some key' → r ≠ r' → key.vchPubKey ≠ key'.vchPubKey) := by
  obtain ⟨s, hrun, h⟩ := run_total (Inv draw) Goes (fun s a hs ha => hs.step nKeyPool hvalid ha)
    Inv.start hgoes
  have hidx : ∀ r r' key key', s.hands.find r = some key → s.hands.find r' = some key' →
      r ≠ r' → key.nIndex ≠ key'.nIndex :=
    fun r r' key key' hkey hkey' hne heq => hne (h.apart r r' key key' hkey hkey' heq)
  refine ⟨s, hrun, ?_, ?_⟩
  · intro r key hkey
    exact ⟨(h.hand r key hkey).2, fun r' key' => hidx r r' key key' hkey⟩
  · intro hunrepeated
    refine ⟨h.given_nodup hunrepeated, h.given_gone hunrepeated, ?_⟩
    intro r key hkey
    have hpool := (h.hand r key hkey).1
    refine ⟨fun hmem => h.given_gone hunrepeated _ hmem _ hpool, ?_⟩
    intro r' key' hkey' hne heq
    have hpool' := (h.hand r' key' hkey').1
    exact hidx r r' key key' hkey hkey' hne (h.own hunrepeated _ _ _ hpool (heq ▸ hpool'))

/-- Compressed keys. -/
def examplePoolKey (i : Nat) : Bytes := 2 :: List.replicate 32 (UInt8.ofNat i)

/-- Two keys are reserved; one is kept and one returned, before a restart. -/
def examplePoolActs : List PoolAct :=
  [.topUpKeyPool 0, .getReservedKey 1, .getReservedKey 2, .getOldestKeyPoolTime, .keepKey 1,
    .returnKey 2, .restart false, .getKeyFromPool, .getReservedKey 1]

theorem examplePoolActs_pool :
    ∃ s, run (step examplePoolKey 2) {} examplePoolActs = some s ∧
      (∀ r key, s.hands.find r = some key → s.setKeyPool.find key.nIndex = none ∧
        ∀ r' key', s.hands.find r' = some key' → r ≠ r' → key.nIndex ≠ key'.nIndex) ∧
      (s.Unrepeated examplePoolKey → s.given.Nodup ∧
        (∀ pubkey ∈ s.given, ∀ n, s.pool.find n ≠ some pubkey) ∧
        ∀ r key, s.hands.find r = some key → key.vchPubKey ∉ s.given ∧
          ∀ r' key', s.hands.find r' = some key' → r ≠ r' → key.vchPubKey ≠ key'.vchPubKey) := by
  have hvalid : ∀ i, pubKeyIsValid (examplePoolKey i) = true := by
    intro i
    simp [examplePoolKey, pubKeyIsValid, pubKeyLen]
  refine run_pool hvalid (goes_of_open hvalid (by omega) (by omega) ?_)
  simp [examplePoolActs, PoolAct.IsOpen]

end PoolWallet

end Hivemind
