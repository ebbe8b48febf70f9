import Hivemind.Coins.Coins
import Hivemind.Lib.OrdMap
import Hivemind.Lib.Outcome

/-!
# Layers of coins

`CCoinsViewCache` of `coins.cpp`: caches on top of each other, over a view at the bottom.
An entry of a cache is `DIRTY` when it may differ from what the layer below has, and
`FRESH` when that layer has nothing, or only pruned coins.  A flush moves the dirty
entries of the top cache to the layer below.

The view at the bottom may drop pruned coins or keep them, and it may change its mind.

Coins are pruned when all their outputs are spent.  A layer keeps pruned coins when the
layer below has some that are not, since the flush has to spend those; their height and
version are still there.  They are gone once a flush has reached a layer that had the coins
as new.  What a modification finds of pruned coins therefore depends on the flushes before
it, and layers can be one flat map only for modifications that do not look at that.  Those
of `UpdateCoins` do not: one writes the coins anew, the other spends an output.

* `CoinsStack.view`: the coins that are visible at the top.
* `LayerInv`: what the flags of a layer mean.
* `CoinsStack.apply_spec`: what one step does to the visible coins.
* `coins_of_run`: the layers against one flat map, over a whole run.
* `pruned_coins_keep_height`: two runs with the same modifications that end differently.
-/

namespace Hivemind

open Ordered Outcomes

/-! ## The layers -/

/-- `CCoinsCacheEntry`. -/
structure CCoinsCacheEntry where
  coins : CCoins := {}
  dirty : Bool := false
  fresh : Bool := false

/-- `CCoinsViewCache`. -/
structure CCoinsViewCache where
  cacheCoins : OrdMap Uint256 CCoinsCacheEntry := OrdMap.empty
  hashBlock : Uint256 := Blob.null

/-- What the view at the bottom is free to do. -/
structure BaseChoice where
  /-- `GetCoins` finds pruned coins. -/
  answers : Uint256 → Bool
  /-- `BatchWrite` keeps pruned coins. -/
  keeps : Uint256 → Bool
  /-- `BatchWrite` writes entries that are not dirty. -/
  writesClean : Uint256 → Bool

/-- The caches from the top down, and the view at the bottom. -/
structure CoinsStack where
  caches : List CCoinsViewCache := []
  base : CCoinsView := {}

/-- Why a step is not taken. -/
inductive CacheFault where
  /-- There is no cache. -/
  | noLayer
  /-- An assertion of `BatchWrite` fails. -/
  | asserted
  deriving DecidableEq

/-! ## The view at the bottom -/

/-- `GetCoins` of the view at the bottom. -/
def baseGetCoins (choice : BaseChoice) (base : CCoinsView) (txid : Uint256) : Option CCoins :=
  (base.accessCoins txid).filter fun coins => !coins.isPruned || choice.answers txid

/-- One entry that is written to the view at the bottom. -/
def baseWriteEntry (choice : BaseChoice) (coins : OrdMap Uint256 CCoins)
    (e : Uint256 × CCoinsCacheEntry) : OrdMap Uint256 CCoins :=
  if !e.2.dirty && !choice.writesClean e.1 then coins
  else if e.2.coins.isPruned && !choice.keeps e.1 then coins.erase e.1
  else coins.put e.1 e.2.coins

/-- `BatchWrite` of the view at the bottom. -/
def baseBatchWrite (choice : BaseChoice) (base : CCoinsView) (cache : CCoinsViewCache) :
    CCoinsView where
  coins := cache.cacheCoins.entries.foldl (baseWriteEntry choice) base.coins
  bestBlock := if cache.hashBlock = Blob.null then base.bestBlock else cache.hashBlock

/-! ## The caches -/

/-- `FetchCoins`: the coins, and the caches with what has been fetched.  `AccessCoins` and
`GetCoins` return what it returns. -/
def fetchCoins (choice : BaseChoice) (base : CCoinsView) (txid : Uint256) :
    List CCoinsViewCache → Option CCoins × List CCoinsViewCache
  | [] => (baseGetCoins choice base txid, [])
  | cache :: below => match cache.cacheCoins.find txid with
    | some e => (some e.coins, cache :: below)
    | none => match fetchCoins choice base txid below with
      | (none, below) => (none, cache :: below)
      | (some coins, below) =>
        (some coins, { cache with
          cacheCoins := cache.cacheCoins.put txid { coins, fresh := coins.isPruned } } :: below)

/-- `HaveCoins`. -/
def haveCoins (choice : BaseChoice) (base : CCoinsView) (txid : Uint256)
    (caches : List CCoinsViewCache) : Bool :=
  (fetchCoins choice base txid caches).1.any fun coins => !coins.vout.isEmpty

/-- The entry that `ModifyCoins` gives access to, and the caches below. -/
def modifierEntry (choice : BaseChoice) (base : CCoinsView) (txid : Uint256)
    (cache : CCoinsViewCache) (below : List CCoinsViewCache) :
    CCoinsCacheEntry × List CCoinsViewCache :=
  match cache.cacheCoins.find txid with
  | some e => ({ e with dirty := true }, below)
  | none => match fetchCoins choice base txid below with
    | (none, below) => ({ coins := {}, dirty := true, fresh := true }, below)
    | (some coins, below) => ({ coins, dirty := true, fresh := coins.isPruned }, below)

/-- `~CCoinsModifier`. -/
def endModifier (txid : Uint256) (e : CCoinsCacheEntry) (cache : CCoinsViewCache) :
    CCoinsViewCache :=
  { cache with
    cacheCoins := if e.fresh && e.coins.cleanup.isPruned then cache.cacheCoins.erase txid
      else cache.cacheCoins.put txid { e with coins := e.coins.cleanup } }

/-- `ModifyCoins`, the modification, and the end of the modifier. -/
def modifyCoins (choice : BaseChoice) (base : CCoinsView) (txid : Uint256) (f : CCoins → CCoins)
    (cache : CCoinsViewCache) (below : List CCoinsViewCache) : List CCoinsViewCache :=
  let (e, below) := modifierEntry choice base txid cache below
  endModifier txid { e with coins := f e.coins } cache :: below

/-- One entry that `BatchWrite` moves to a cache. -/
def batchWriteEntry (cacheCoins : OrdMap Uint256 CCoinsCacheEntry)
    (e : Uint256 × CCoinsCacheEntry) : Except CacheFault (OrdMap Uint256 CCoinsCacheEntry) :=
  if !e.2.dirty then .ok cacheCoins
  else match cacheCoins.find e.1 with
    | none =>
      if e.2.coins.isPruned then .ok cacheCoins
      else if !e.2.fresh then .error .asserted
      else .ok (cacheCoins.put e.1 { coins := e.2.coins, dirty := true, fresh := true })
    | some us =>
      if us.fresh && e.2.coins.isPruned then .ok (cacheCoins.erase e.1)
      else .ok (cacheCoins.put e.1 { us with coins := e.2.coins, dirty := true })

/-- `BatchWrite` of a cache. -/
def batchWrite (parent child : CCoinsViewCache) : Except CacheFault CCoinsViewCache := do
  let cacheCoins ← child.cacheCoins.entries.foldlM batchWriteEntry parent.cacheCoins
  .ok { cacheCoins, hashBlock := child.hashBlock }

/-! ## Steps -/

/-- A step at the top of the layers. -/
inductive CacheStep where
  | accessCoins (choice : BaseChoice) (txid : Uint256)
  | haveCoins (choice : BaseChoice) (txid : Uint256)
  | modifyCoins (choice : BaseChoice) (txid : Uint256) (f : CCoins → CCoins)
  /-- A new cache on top. -/
  | push
  /-- `Flush`, and the end of the cache. -/
  | flush (choice : BaseChoice)

/-- The layers after a step. -/
def CoinsStack.apply (s : CoinsStack) : CacheStep → Except CacheFault CoinsStack
  | .push => .ok { s with caches := {} :: s.caches }
  | .accessCoins choice txid | .haveCoins choice txid => match s.caches with
    | [] => .error .noLayer
    | caches => .ok { s with caches := (fetchCoins choice s.base txid caches).2 }
  | .modifyCoins choice txid f => match s.caches with
    | [] => .error .noLayer
    | cache :: below => .ok { s with caches := modifyCoins choice s.base txid f cache below }
  | .flush choice => match s.caches with
    | [] => .error .noLayer
    | [cache] => .ok { caches := [], base := baseBatchWrite choice s.base cache }
    | cache :: parent :: below => do
      let parent ← batchWrite parent cache
      .ok { s with caches := parent :: below }

/-- The layers after a run. -/
def runCaches : List CacheStep → CoinsStack → Except CacheFault CoinsStack
  | [], s => .ok s
  | step :: steps, s => do
    let s' ← s.apply step
    runCaches steps s'

/-- The flat map after a step: a modification is applied to the coins that the map has. -/
def CacheStep.applyFlat (step : CacheStep) (flat : CCoinsView) : CCoinsView :=
  match step with
  | .modifyCoins _ txid f => flat.setCoins txid (f (flat.getCoins txid))
  | _ => flat

/-- The flat map after a run. -/
def runFlat (steps : List CacheStep) (flat : CCoinsView) : CCoinsView :=
  steps.foldl (fun flat step => step.applyFlat flat) flat

/-! ## What is visible -/

/-- Coins with something left; pruned coins count as absent. -/
def seen (o : Option CCoins) : Option CCoins := o.filter fun coins => !coins.isPruned

theorem seen_some_of_pruned {c : CCoins} (h : c.isPruned = true) : seen (some c) = none := by
  simp [seen, h]

theorem seen_some_of_not_pruned {c : CCoins} (h : c.isPruned = false) : seen (some c) = some c := by
  simp [seen, h]

/-- The coins that the top layer has, or the first layer below that has any. -/
def viewCoins (base : CCoinsView) : List CCoinsViewCache → Uint256 → Option CCoins
  | [], txid => base.accessCoins txid
  | cache :: below, txid => match cache.cacheCoins.find txid with
    | some e => some e.coins
    | none => viewCoins base below txid

theorem viewCoins_of_find {base : CCoinsView} {cache : CCoinsViewCache}
    {below : List CCoinsViewCache} {txid : Uint256} {e : CCoinsCacheEntry}
    (h : cache.cacheCoins.find txid = some e) :
    viewCoins base (cache :: below) txid = some e.coins := by
  rw [viewCoins, h]

theorem viewCoins_of_find_none {base : CCoinsView} {cache : CCoinsViewCache}
    {below : List CCoinsViewCache} {txid : Uint256} (h : cache.cacheCoins.find txid = none) :
    viewCoins base (cache :: below) txid = viewCoins base below txid := by
  rw [viewCoins, h]

/-- The layer has an entry; the view at the bottom need not tell. -/
def hasEntry : List CCoinsViewCache → Uint256 → Prop
  | [], _ => True
  | cache :: _, txid => cache.cacheCoins.find txid ≠ none

/-! ## The invariant -/

/-- What an entry of a cache says of the layers below. -/
structure EntryInv (base : CCoinsView) (below : List CCoinsViewCache) (txid : Uint256)
    (e : CCoinsCacheEntry) : Prop where
  fresh : e.fresh = true → seen (viewCoins base below txid) = none
  clean : e.dirty = false → seen (some e.coins) = seen (viewCoins base below txid)
  fetched : e.fresh = false → hasEntry below txid

/-- What the flags of a cache mean. -/
def LayerInv (base : CCoinsView) (cache : CCoinsViewCache) (below : List CCoinsViewCache) : Prop :=
  ∀ txid e, cache.cacheCoins.find txid = some e → EntryInv base below txid e

/-- The flags of all layers. -/
def StackInv (base : CCoinsView) : List CCoinsViewCache → Prop
  | [] => True
  | cache :: below => LayerInv base cache below ∧ StackInv base below

/-- The layers show the same coins, and have at least the same entries at the top. -/
structure SameView (base : CCoinsView) (caches caches' : List CCoinsViewCache) : Prop where
  view : ∀ txid, seen (viewCoins base caches' txid) = seen (viewCoins base caches txid)
  entry : ∀ txid, hasEntry caches txid → hasEntry caches' txid

theorem SameView.refl (base : CCoinsView) (caches : List CCoinsViewCache) :
    SameView base caches caches := ⟨fun _ => rfl, fun _ h => h⟩

theorem EntryInv.sameView {base : CCoinsView} {below below' : List CCoinsViewCache} {txid : Uint256}
    {e : CCoinsCacheEntry} (h : EntryInv base below txid e) (hsame : SameView base below below') :
    EntryInv base below' txid e := by
  refine ⟨?_, ?_, ?_⟩
  · intro hfresh
    rw [hsame.view]
    exact h.fresh hfresh
  · intro hclean
    rw [hsame.view]
    exact h.clean hclean
  · intro hold
    exact hsame.entry txid (h.fetched hold)

/-- What is below a cache may be fetched. -/
theorem SameView.cons {base : CCoinsView} {below below' : List CCoinsViewCache}
    (h : SameView base below below') (cache : CCoinsViewCache) :
    SameView base (cache :: below) (cache :: below') := by
  refine ⟨?_, fun _ hentry => hentry⟩
  intro txid
  cases hfind : cache.cacheCoins.find txid with
  | some e => rw [viewCoins_of_find hfind, viewCoins_of_find hfind]
  | none => rw [viewCoins_of_find_none hfind, viewCoins_of_find_none hfind, h.view]

/-- **Fetching coins** returns what is visible, and changes nothing that is. -/
theorem fetchCoins_spec (choice : BaseChoice) {base : CCoinsView} (txid : Uint256)
    {caches : List CCoinsViewCache} (inv : StackInv base caches) :
    seen (fetchCoins choice base txid caches).1 = seen (viewCoins base caches txid) ∧
      StackInv base (fetchCoins choice base txid caches).2 ∧
      SameView base caches (fetchCoins choice base txid caches).2 ∧
      ((fetchCoins choice base txid caches).1 ≠ none →
        hasEntry (fetchCoins choice base txid caches).2 txid) := by
  induction caches with
  | nil =>
      refine ⟨?_, trivial, SameView.refl base [], fun _ => trivial⟩
      show ((base.accessCoins txid).filter _).filter _ = (base.accessCoins txid).filter _
      rw [Option.filter_filter]
      congr 1
      funext coins
      cases coins.isPruned <;> simp
  | cons cache below ih =>
      obtain ⟨hseen, hinv, hsame, hentry⟩ := ih inv.2
      rw [fetchCoins]
      cases hfind : cache.cacheCoins.find txid with
      | some e =>
          refine ⟨?_, inv, SameView.refl base _, fun _ => ?_⟩
          · rw [viewCoins_of_find hfind]
          · show cache.cacheCoins.find txid ≠ none
            rw [hfind]
            exact Option.some_ne_none e
      | none =>
          generalize fetchCoins choice base txid below = fetched at hseen hinv hsame hentry ⊢
          obtain ⟨o, below'⟩ := fetched
          have hlayer : LayerInv base cache below' :=
            fun x e hx => (inv.1 x e hx).sameView hsame
          cases o with
          | none =>
              refine ⟨?_, ⟨hlayer, hinv⟩, hsame.cons cache, fun h => absurd rfl h⟩
              rw [viewCoins_of_find_none hfind, ← hseen]
          | some coins =>
              simp only
              refine ⟨?_, ⟨?_, hinv⟩, ⟨?_, ?_⟩, fun _ => ?_⟩
              · rw [viewCoins_of_find_none hfind, ← hseen]
              · intro x e hx
                rw [OrdMap.find_put] at hx
                split_ifs at hx with hxt
                · cases hx
                  subst hxt
                  refine ⟨?_, ?_, ?_⟩
                  · intro hfresh
                    rw [hsame.view, ← hseen]
                    exact seen_some_of_pruned hfresh
                  · intro _
                    rw [hsame.view, ← hseen]
                  · intro _
                    exact hentry (Option.some_ne_none coins)
                · exact hlayer x e hx
              · intro x
                by_cases hxt : x = txid
                · subst hxt
                  rw [viewCoins_of_find (OrdMap.find_put_self ..), viewCoins_of_find_none hfind, ← hseen]
                · have hput : (cache.cacheCoins.put txid
                      { coins := coins, fresh := coins.isPruned }).find x = cache.cacheCoins.find x :=
                    OrdMap.find_put_of_ne _ _ hxt
                  rw [← (hsame.cons cache).view x]
                  simp only [viewCoins, hput]
              · intro x hx
                show OrdMap.find x _ ≠ none
                rw [OrdMap.find_put]
                split_ifs
                · exact Option.some_ne_none _
                · exact hx
              · show OrdMap.find txid _ ≠ none
                rw [OrdMap.find_put_self]
                exact Option.some_ne_none _

/-- The entry that a modifier gets: it has the coins that are visible, and says of the layers
below what an entry says. -/
theorem modifierEntry_spec (choice : BaseChoice) {base : CCoinsView} (txid : Uint256)
    {cache : CCoinsViewCache} {below : List CCoinsViewCache}
    (inv : StackInv base (cache :: below)) {e : CCoinsCacheEntry} {below' : List CCoinsViewCache}
    (h : modifierEntry choice base txid cache below = (e, below')) :
    seen (some e.coins) = seen (viewCoins base (cache :: below) txid) ∧
      EntryInv base below' txid e ∧ e.dirty = true ∧ StackInv base below' ∧
      SameView base below below' := by
  rw [modifierEntry] at h
  cases hfind : cache.cacheCoins.find txid with
  | some us =>
      rw [hfind] at h
      cases h
      have hus := inv.1 txid us hfind
      refine ⟨?_, ⟨hus.fresh, by rintro ⟨⟩, hus.fetched⟩, rfl, inv.2, SameView.refl base below⟩
      rw [viewCoins_of_find hfind]
  | none =>
      rw [hfind] at h
      rw [viewCoins_of_find_none hfind]
      obtain ⟨hseen, hinv, hsame, hentry⟩ := fetchCoins_spec choice txid inv.2
      generalize fetchCoins choice base txid below = fetched at h hseen hinv hsame hentry
      obtain ⟨o, below₁⟩ := fetched
      cases o with
      | none =>
          cases h
          refine ⟨?_, ⟨?_, by rintro ⟨⟩, by rintro ⟨⟩⟩, rfl, hinv, hsame⟩
          · rw [← hseen]
            exact seen_some_of_pruned rfl
          · intro _
            rw [hsame.view, ← hseen]
            rfl
      | some coins =>
          cases h
          refine ⟨hseen, ⟨?_, by rintro ⟨⟩, ?_⟩, rfl, hinv, hsame⟩
          · intro hfresh
            rw [hsame.view, ← hseen]
            exact seen_some_of_pruned hfresh
          · intro _
            exact hentry (Option.some_ne_none coins)

/-- **Modifying coins** starts from the visible coins, and leaves the result as the visible
coins. -/
theorem modifyCoins_spec (choice : BaseChoice) {base : CCoinsView} (txid : Uint256)
    (f : CCoins → CCoins) {cache : CCoinsViewCache} {below : List CCoinsViewCache}
    (inv : StackInv base (cache :: below)) {given : CCoins}
    (hgiven : (modifierEntry choice base txid cache below).1.coins = given) :
    seen (some given) = seen (viewCoins base (cache :: below) txid) ∧
      StackInv base (modifyCoins choice base txid f cache below) ∧
      seen (viewCoins base (modifyCoins choice base txid f cache below) txid) =
        seen (some (f given).cleanup) ∧
      ∀ x, x ≠ txid → seen (viewCoins base (modifyCoins choice base txid f cache below) x) =
        seen (viewCoins base (cache :: below) x) := by
  cases hentry : modifierEntry choice base txid cache below with
  | mk e below' =>
      obtain ⟨hseen, hinv, hdirty, hstack, hsame⟩ := modifierEntry_spec choice txid inv hentry
      rw [hentry] at hgiven
      subst hgiven
      rw [modifyCoins, hentry]
      simp only [endModifier]
      have hold : ∀ {x us}, x ≠ txid → cache.cacheCoins.find x = some us →
          EntryInv base below' x us := fun _ hx => (inv.1 _ _ hx).sameView hsame
      by_cases hdrop : (e.fresh && (f e.coins).cleanup.isPruned) = true
      · -- the layers below have nothing, and neither has this one
        rw [if_pos hdrop]
        rw [Bool.and_eq_true] at hdrop
        have hnone : (cache.cacheCoins.erase txid).find txid = none := by
          rw [OrdMap.find_erase, if_pos rfl]
        refine ⟨hseen, ⟨?_, hstack⟩, ?_, ?_⟩
        · intro x us hx
          rw [OrdMap.find_erase] at hx
          split_ifs at hx with hxt
          exact hold hxt hx
        · rw [viewCoins_of_find_none hnone, hinv.fresh hdrop.1, seen_some_of_pruned hdrop.2]
        · intro x hxt
          have hfind : (cache.cacheCoins.erase txid).find x = cache.cacheCoins.find x := by
            rw [OrdMap.find_erase, if_neg hxt]
          rw [← (hsame.cons cache).view x]
          simp only [viewCoins, hfind]
      · rw [if_neg hdrop]
        refine ⟨hseen, ⟨?_, hstack⟩, ?_, ?_⟩
        · intro x us hx
          rw [OrdMap.find_put] at hx
          split_ifs at hx with hxt
          · cases hx
            subst hxt
            refine ⟨hinv.fresh, ?_, hinv.fetched⟩
            intro hclean
            rw [show e.dirty = false from hclean] at hdirty
            cases hdirty
          · exact hold hxt hx
        · rw [viewCoins_of_find (OrdMap.find_put_self ..)]
        · intro x hxt
          have hfind : (cache.cacheCoins.put txid { e with coins := (f e.coins).cleanup }).find x =
              cache.cacheCoins.find x := OrdMap.find_put_of_ne _ _ hxt
          rw [← (hsame.cons cache).view x]
          simp only [viewCoins, hfind]

/-! ## Flushing -/

/-- What `BatchWrite` leaves of an entry, from what the parent had and what the child has. -/
def mergedEntry (us : Option CCoinsCacheEntry) (e : CCoinsCacheEntry) : Option CCoinsCacheEntry :=
  if !e.dirty then us
  else match us with
    | none => if e.coins.isPruned then none
      else some { coins := e.coins, dirty := true, fresh := true }
    | some us => if us.fresh && e.coins.isPruned then none
      else some { us with coins := e.coins, dirty := true }

/-- **`BatchWrite` of a cache**: no assertion fails, and the entries are merged one by one. -/
theorem batchWrite_spec {base : CCoinsView} {child parent : CCoinsViewCache}
    {below : List CCoinsViewCache} (inv : LayerInv base child (parent :: below)) :
    ∃ parent', batchWrite parent child = .ok parent' ∧ ∀ txid, parent'.cacheCoins.find txid =
      (child.cacheCoins.find txid).elim (parent.cacheCoins.find txid)
        (mergedEntry (parent.cacheCoins.find txid)) := by
  have hloop := @OrdMap.foldlM_entries _ _ _ CacheFault _ batchWriteEntry
    (fun _ us e => us = none → e.coins.isPruned = false → e.dirty = true → e.fresh = true)
    (fun _ us e => mergedEntry us e) ?_ child.cacheCoins parent.cacheCoins ?_
  · obtain ⟨merged, hok, hfind⟩ := hloop
    refine ⟨{ cacheCoins := merged, hashBlock := child.hashBlock }, ?_, hfind⟩
    rw [batchWrite, hok]
    rfl
  · rintro m ⟨txid, e⟩ hfresh
    simp only [batchWriteEntry, mergedEntry]
    cases hdirty : e.dirty with
    | false =>
        refine ⟨m, rfl, ?_⟩
        intro k
        simp
    | true =>
        simp only [Bool.not_true, Bool.false_eq_true, if_false]
        cases hfind : m.find txid with
        | none =>
            simp only at hfresh ⊢
            cases hpruned : e.coins.isPruned with
            | true =>
                refine ⟨m, rfl, ?_⟩
                intro k
                by_cases hk : k = txid
                · simp [hk, hfind]
                · simp [hk]
            | false =>
                rw [hfresh hfind hpruned hdirty]
                refine ⟨_, rfl, ?_⟩
                intro k
                rw [OrdMap.find_put]
                by_cases hk : k = txid
                · simp [hk, hfind]
                · simp [hk]
        | some us =>
            simp only
            by_cases hdrop : (us.fresh && e.coins.isPruned) = true
            · rw [if_pos hdrop]
              refine ⟨_, rfl, ?_⟩
              intro k
              rw [OrdMap.find_erase]
              by_cases hk : k = txid
              · simp [hk, hfind, hdrop]
              · simp [hk]
            · rw [if_neg hdrop]
              refine ⟨_, rfl, ?_⟩
              intro k
              rw [OrdMap.find_put]
              by_cases hk : k = txid
              · simp [hk, hfind, hdrop]
              · simp [hk]
  · intro txid e hfind hnone _ _
    by_contra hfresh
    exact (inv txid e hfind).fetched (by simpa using hfresh) hnone

/-- **Flushing to a cache** changes nothing that is visible. -/
theorem flush_spec {base : CCoinsView} {child parent parent' : CCoinsViewCache}
    {below : List CCoinsViewCache} (inv : StackInv base (child :: parent :: below))
    (hfind : ∀ txid, parent'.cacheCoins.find txid =
      (child.cacheCoins.find txid).elim (parent.cacheCoins.find txid)
        (mergedEntry (parent.cacheCoins.find txid))) :
    StackInv base (parent' :: below) ∧ ∀ txid, seen (viewCoins base (parent' :: below) txid) =
      seen (viewCoins base (child :: parent :: below) txid) := by
  obtain ⟨hchild, hparent, hbelow⟩ := inv
  have hentry : ∀ txid, (∀ us, parent'.cacheCoins.find txid = some us →
        EntryInv base below txid us) ∧
      seen (viewCoins base (parent' :: below) txid) =
        seen (viewCoins base (child :: parent :: below) txid) := by
    intro txid
    have hmerged := hfind txid
    cases hc : child.cacheCoins.find txid with
    | none =>
        rw [hc, Option.elim_none] at hmerged
        rw [viewCoins_of_find_none hc]
        refine ⟨fun us hus => hparent txid us (hmerged.symm.trans hus), ?_⟩
        simp only [viewCoins, hmerged]
    | some e =>
        rw [hc, Option.elim_some] at hmerged
        rw [viewCoins_of_find hc]
        have he := hchild txid e hc
        cases hdirty : e.dirty with
        | false =>
            -- the entry is the same in both layers
            simp only [mergedEntry, hdirty, Bool.not_false, if_true] at hmerged
            refine ⟨fun us hus => hparent txid us (hmerged.symm.trans hus), ?_⟩
            rw [he.clean hdirty]
            simp only [viewCoins, hmerged]
        | true =>
            simp only [mergedEntry, hdirty, Bool.not_true, Bool.false_eq_true, if_false] at hmerged
            cases hp : parent.cacheCoins.find txid with
            | none =>
                have hfresh : e.fresh = true := by
                  by_contra hne
                  exact he.fetched (by simpa using hne) hp
                have hnone := he.fresh hfresh
                rw [viewCoins_of_find_none hp] at hnone
                rw [hp] at hmerged
                cases hpruned : e.coins.isPruned with
                | true =>
                    rw [hpruned] at hmerged
                    simp only [if_true] at hmerged
                    refine ⟨?_, ?_⟩
                    · intro us hus
                      rw [hmerged] at hus
                      cases hus
                    · rw [viewCoins_of_find_none hmerged, hnone, seen_some_of_pruned hpruned]
                | false =>
                    rw [hpruned] at hmerged
                    simp only [Bool.false_eq_true, if_false] at hmerged
                    refine ⟨?_, ?_⟩
                    · intro us hus
                      rw [hmerged] at hus
                      cases hus
                      exact ⟨fun _ => hnone, by rintro ⟨⟩, by rintro ⟨⟩⟩
                    · rw [viewCoins_of_find hmerged]
            | some us =>
                rw [hp] at hmerged
                have hus := hparent txid us hp
                simp only at hmerged
                by_cases hdrop : (us.fresh && e.coins.isPruned) = true
                · rw [if_pos hdrop] at hmerged
                  rw [Bool.and_eq_true] at hdrop
                  refine ⟨?_, ?_⟩
                  · intro us' hus'
                    rw [hmerged] at hus'
                    cases hus'
                  · rw [viewCoins_of_find_none hmerged, hus.fresh hdrop.1,
                      seen_some_of_pruned hdrop.2]
                · rw [if_neg hdrop] at hmerged
                  refine ⟨?_, ?_⟩
                  · intro us' hus'
                    rw [hmerged] at hus'
                    cases hus'
                    exact ⟨hus.fresh, by rintro ⟨⟩, hus.fetched⟩
                  · rw [viewCoins_of_find hmerged]
  exact ⟨⟨fun txid us hus => (hentry txid).1 us hus, hbelow⟩, fun txid => (hentry txid).2⟩

/-- What `BatchWrite` leaves in the view at the bottom. -/
theorem accessCoins_baseBatchWrite (choice : BaseChoice) (base : CCoinsView)
    (cache : CCoinsViewCache) (txid : Uint256) :
    (baseBatchWrite choice base cache).accessCoins txid =
      (cache.cacheCoins.find txid).elim (base.accessCoins txid) fun e =>
        if !e.dirty && !choice.writesClean txid then base.accessCoins txid
        else if e.coins.isPruned && !choice.keeps txid then none else some e.coins := by
  refine @OrdMap.foldl_entries _ _ _ _ (baseWriteEntry choice)
    (fun k old e => if !e.dirty && !choice.writesClean k then old
      else if e.coins.isPruned && !choice.keeps k then none else some e.coins) ?_
    cache.cacheCoins base.coins txid
  rintro m ⟨k', e⟩ k
  simp only [baseWriteEntry]
  by_cases hk : k = k'
  · subst hk
    simp only [if_true]
    split_ifs
    · rfl
    · rw [OrdMap.find_erase, if_pos rfl]
    · rw [OrdMap.find_put_self]
  · rw [if_neg hk]
    split_ifs
    · rfl
    · rw [OrdMap.find_erase, if_neg hk]
    · rw [OrdMap.find_put_of_ne _ _ hk]

/-- **Flushing to the view at the bottom** changes nothing that is visible. -/
theorem baseBatchWrite_spec (choice : BaseChoice) {base : CCoinsView} {cache : CCoinsViewCache}
    (inv : LayerInv base cache []) (txid : Uint256) :
    seen ((baseBatchWrite choice base cache).accessCoins txid) =
      seen (viewCoins base [cache] txid) := by
  rw [accessCoins_baseBatchWrite]
  cases hfind : cache.cacheCoins.find txid with
  | none =>
      rw [viewCoins_of_find_none hfind]
      rfl
  | some e =>
      rw [viewCoins_of_find hfind, Option.elim_some]
      split_ifs with hskip hdrop
      · simp only [Bool.and_eq_true, Bool.not_eq_true'] at hskip
        exact ((inv txid e hfind).clean hskip.1).symm
      · rw [Bool.and_eq_true] at hdrop
        rw [seen_some_of_pruned hdrop.1]
        rfl
      · rfl

/-! ## Steps on what is visible -/

/-- What a step does to the visible coins: a modification is applied to some coins that look
like them, and nothing else changes. -/
def CacheStep.Shows (step : CacheStep) (before after : Uint256 → Option CCoins) : Prop :=
  match step with
  | .modifyCoins _ txid f =>
    (∃ c, seen (some c) = before txid ∧ after txid = seen (some (f c).cleanup)) ∧
      ∀ x, x ≠ txid → after x = before x
  | _ => ∀ x, after x = before x

/-- The coins that are visible at the top. -/
def CoinsStack.view (s : CoinsStack) (txid : Uint256) : Option CCoins :=
  seen (viewCoins s.base s.caches txid)

/-- **One step**: no assertion fails, the flags keep their meaning, and the visible coins are
modified as the step says. -/
theorem CoinsStack.apply_spec {s : CoinsStack} (inv : StackInv s.base s.caches) (step : CacheStep) :
    s.apply step ≠ .error .asserted ∧ ∀ s', s.apply step = .ok s' →
      StackInv s'.base s'.caches ∧ step.Shows s.view s'.view := by
  obtain ⟨caches, base⟩ := s
  cases step with
  | push =>
      refine ⟨by rintro ⟨⟩, ?_⟩
      rintro s' ⟨⟩
      refine ⟨⟨?_, inv⟩, fun _ => rfl⟩
      rintro txid e ⟨⟩
  | accessCoins choice txid =>
      cases caches with
      | nil => exact ⟨by rintro ⟨⟩, by rintro s' ⟨⟩⟩
      | cons cache below =>
          refine ⟨by rintro ⟨⟩, ?_⟩
          rintro s' ⟨⟩
          obtain ⟨-, hinv, hsame, -⟩ := fetchCoins_spec choice txid inv
          exact ⟨hinv, hsame.view⟩
  | haveCoins choice txid =>
      cases caches with
      | nil => exact ⟨by rintro ⟨⟩, by rintro s' ⟨⟩⟩
      | cons cache below =>
          refine ⟨by rintro ⟨⟩, ?_⟩
          rintro s' ⟨⟩
          obtain ⟨-, hinv, hsame, -⟩ := fetchCoins_spec choice txid inv
          exact ⟨hinv, hsame.view⟩
  | modifyCoins choice txid f =>
      cases caches with
      | nil => exact ⟨by rintro ⟨⟩, by rintro s' ⟨⟩⟩
      | cons cache below =>
          refine ⟨by rintro ⟨⟩, ?_⟩
          rintro s' ⟨⟩
          obtain ⟨hgiven, hinv, hself, hother⟩ := modifyCoins_spec choice txid f inv rfl
          exact ⟨hinv, ⟨_, hgiven, hself⟩, hother⟩
  | flush choice =>
      cases caches with
      | nil => exact ⟨by rintro ⟨⟩, by rintro s' ⟨⟩⟩
      | cons cache below =>
          cases below with
          | nil =>
              refine ⟨by rintro ⟨⟩, ?_⟩
              rintro s' ⟨⟩
              exact ⟨trivial, baseBatchWrite_spec choice inv.1⟩
          | cons parent below =>
              obtain ⟨parent', hwrite, hfind⟩ := batchWrite_spec inv.1
              obtain ⟨hinv, hview⟩ := flush_spec inv hfind
              have happly : CoinsStack.apply ⟨cache :: parent :: below, base⟩ (.flush choice) =
                  .ok ⟨parent' :: below, base⟩ := by
                rw [CoinsStack.apply]
                simp only [hwrite]
                rfl
              rw [happly]
              refine ⟨by rintro ⟨⟩, ?_⟩
              rintro s' ⟨⟩
              exact ⟨hinv, hview⟩

/-- **A whole run**: no assertion fails, whatever the modifications are. -/
theorem StackInv.run {s : CoinsStack} (inv : StackInv s.base s.caches) (steps : List CacheStep) :
    runCaches steps s ≠ .error .asserted ∧
      ∀ s', runCaches steps s = .ok s' → StackInv s'.base s'.caches := by
  induction steps generalizing s with
  | nil =>
      refine ⟨by rintro ⟨⟩, ?_⟩
      rintro s' ⟨⟩
      exact inv
  | cons step steps ih =>
      obtain ⟨hassert, hstep⟩ := CoinsStack.apply_spec inv step
      rw [runCaches]
      cases happly : s.apply step with
      | error fault =>
          refine ⟨?_, by rintro s' ⟨⟩⟩
          rintro ⟨⟩
          exact hassert happly
      | ok s₁ => exact ih (hstep s₁ happly).1

/-! ## Layers against a flat map -/

/-- The modification makes no difference between pruned coins. -/
def TreatsPrunedAlike (f : CCoins → CCoins) : Prop :=
  ∀ c c', c.isPruned = true → c'.isPruned = true →
    seen (some (f c).cleanup) = seen (some (f c').cleanup)

/-- The modifications of the run make no difference between pruned coins. -/
def RunTreatsPrunedAlike (steps : List CacheStep) : Prop :=
  ∀ choice txid f, CacheStep.modifyCoins choice txid f ∈ steps → TreatsPrunedAlike f

/-- Coins that are written anew, as `UpdateCoins` does for a new transaction. -/
theorem treatsPrunedAlike_const (coins : CCoins) : TreatsPrunedAlike fun _ => coins :=
  fun _ _ _ _ => rfl

/-- Nothing is spent of pruned coins. -/
theorem treatsPrunedAlike_spend (nPos : UInt32) : TreatsPrunedAlike (CCoins.spend nPos) := by
  have hnone : ∀ c : CCoins, c.isPruned = true → seen (some (c.spend nPos).cleanup) = none := by
    intro c hc
    have hspend : c.spend nPos = c := by
      rw [CCoins.spend, if_neg]
      rw [CCoins.isAvailable_iff]
      rintro ⟨o, ho⟩
      rw [CCoins.output_of_isPruned hc] at ho
      cases ho
    refine seen_some_of_pruned ?_
    rw [hspend]
    rw [CCoins.isPruned, List.all_eq_true] at hc ⊢
    exact fun o ho => hc o ((List.rdropWhile_prefix CTxOut.isNull c.vout).subset ho)
  intro c c' hc hc'
  rw [hnone c hc, hnone c' hc']

/-- Coins that look the same are modified in the same way. -/
theorem TreatsPrunedAlike.seen_eq {f : CCoins → CCoins} (hf : TreatsPrunedAlike f) {c c' : CCoins}
    (h : seen (some c) = seen (some c')) :
    seen (some (f c).cleanup) = seen (some (f c').cleanup) := by
  cases hc : c.isPruned with
  | true =>
      cases hc' : c'.isPruned with
      | true => exact hf c c' hc hc'
      | false =>
          rw [seen_some_of_pruned hc, seen_some_of_not_pruned hc'] at h
          cases h
  | false =>
      cases hc' : c'.isPruned with
      | true =>
          rw [seen_some_of_not_pruned hc, seen_some_of_pruned hc'] at h
          cases h
      | false =>
          rw [seen_some_of_not_pruned hc, seen_some_of_not_pruned hc'] at h
          cases h
          rfl

theorem seen_getCoins (flat : CCoinsView) (txid : Uint256) :
    seen (some (flat.getCoins txid)) = seen (flat.accessCoins txid) := by
  rw [CCoinsView.getCoins]
  cases flat.accessCoins txid with
  | none => rfl
  | some c => rfl

/-- What a write leaves in the flat map. -/
theorem seen_setCoins (flat : CCoinsView) (txid : Uint256) (c : CCoins) :
    seen ((flat.setCoins txid c).accessCoins txid) = seen (some c.cleanup) := by
  rw [CCoinsView.accessCoins, CCoinsView.setCoins]
  simp only
  split_ifs with hpruned
  · rw [OrdMap.find_erase, if_pos rfl, seen_some_of_pruned hpruned]
    rfl
  · rw [OrdMap.find_put_self]

/-- The flat map shows the same coins as the layers. -/
structure Refines (s : CoinsStack) (flat : CCoinsView) : Prop where
  inv : StackInv s.base s.caches
  view : ∀ txid, s.view txid = seen (flat.accessCoins txid)

/-- One step of both. -/
theorem Refines.step {s s' : CoinsStack} {flat : CCoinsView} (h : Refines s flat) {step : CacheStep}
    (halike : ∀ choice txid f, step = .modifyCoins choice txid f → TreatsPrunedAlike f)
    (happly : s.apply step = .ok s') : Refines s' (step.applyFlat flat) := by
  obtain ⟨hinv, hshows⟩ := (CoinsStack.apply_spec h.inv step).2 s' happly
  refine ⟨hinv, ?_⟩
  intro x
  cases step with
  | modifyCoins choice txid f =>
      obtain ⟨⟨c, hc, hself⟩, hother⟩ := hshows
      rw [CacheStep.applyFlat]
      by_cases hx : x = txid
      · subst hx
        rw [hself, seen_setCoins]
        refine (halike choice x f rfl).seen_eq ?_
        rw [hc, h.view, seen_getCoins]
      · rw [hother x hx, h.view, CCoinsView.accessCoins_setCoins_of_ne _ hx]
  | accessCoins choice txid => exact (hshows x).trans (h.view x)
  | haveCoins choice txid => exact (hshows x).trans (h.view x)
  | push => exact (hshows x).trans (h.view x)
  | flush choice => exact (hshows x).trans (h.view x)

/-- A whole run of both. -/
theorem Refines.run {s s' : CoinsStack} {flat : CCoinsView} (h : Refines s flat)
    {steps : List CacheStep} (halike : RunTreatsPrunedAlike steps)
    (hrun : runCaches steps s = .ok s') : Refines s' (runFlat steps flat) := by
  induction steps generalizing s flat with
  | nil =>
      cases hrun
      exact h
  | cons step steps ih =>
      rw [runCaches, bind_eq_ok] at hrun
      obtain ⟨s₁, happly, hrest⟩ := hrun
      refine ih (h.step ?_ happly) ?_ hrest
      · rintro choice txid f rfl
        exact halike choice txid f (List.mem_cons_self ..)
      · exact fun choice txid f hmem => halike choice txid f (List.mem_cons_of_mem _ hmem)

/-! ### Coins that are cleaned up -/

/-- Nothing is left of pruned coins, as `Cleanup` leaves them. -/
def Tidy (c : CCoins) : Prop := c.isPruned = true → c.vout = []

theorem tidy_cleanup (c : CCoins) : Tidy c.cleanup := by
  intro hpruned
  show c.vout.rdropWhile CTxOut.isNull = []
  by_contra hne
  -- the last output that is left is not spent
  have hlast := List.rdropWhile_last_not CTxOut.isNull c.vout hne
  rw [CCoins.isPruned, List.all_eq_true] at hpruned
  exact hlast (hpruned _ (List.getLast_mem hne))

/-- All coins of the layers are cleaned up. -/
structure TidyStack (s : CoinsStack) : Prop where
  base : ∀ txid c, s.base.accessCoins txid = some c → Tidy c
  caches : ∀ cache ∈ s.caches, ∀ txid e, cache.cacheCoins.find txid = some e → Tidy e.coins

theorem TidyStack.tail {base : CCoinsView} {cache : CCoinsViewCache} {below : List CCoinsViewCache}
    (h : TidyStack ⟨cache :: below, base⟩) : TidyStack ⟨below, base⟩ where
  base := h.base
  caches cache' hmem := h.caches cache' (List.mem_cons_of_mem _ hmem)

theorem TidyStack.cons {base : CCoinsView} {cache : CCoinsViewCache} {below : List CCoinsViewCache}
    (h : TidyStack ⟨below, base⟩)
    (hcache : ∀ txid e, cache.cacheCoins.find txid = some e → Tidy e.coins) :
    TidyStack ⟨cache :: below, base⟩ where
  base := h.base
  caches cache' hmem := by
    rcases List.mem_cons.mp hmem with rfl | hmem
    · exact hcache
    · exact h.caches cache' hmem

theorem TidyStack.fetchCoins {s : CoinsStack} (h : TidyStack s) (choice : BaseChoice)
    (txid : Uint256) :
    (∀ c, (fetchCoins choice s.base txid s.caches).1 = some c → Tidy c) ∧
      TidyStack { s with caches := (fetchCoins choice s.base txid s.caches).2 } := by
  obtain ⟨caches, base⟩ := s
  induction caches with
  | nil =>
      refine ⟨?_, h⟩
      intro c hc
      exact h.base txid c (Option.filter_eq_some_iff.mp hc).1
  | cons cache below ih =>
      have hcache := h.caches cache (List.mem_cons_self ..)
      obtain ⟨hcoins, htidy⟩ := ih h.tail
      simp only at hcoins htidy ⊢
      rw [Hivemind.fetchCoins]
      cases hfind : cache.cacheCoins.find txid with
      | some e =>
          refine ⟨?_, h⟩
          rintro c ⟨⟩
          exact hcache txid e hfind
      | none =>
          generalize Hivemind.fetchCoins choice base txid below = fetched at hcoins htidy ⊢
          obtain ⟨o, below'⟩ := fetched
          cases o with
          | none => exact ⟨by rintro c ⟨⟩, htidy.cons hcache⟩
          | some coins =>
              refine ⟨?_, htidy.cons fun x e hx => ?_⟩
              · rintro c ⟨⟩
                exact hcoins coins rfl
              · rw [OrdMap.find_put] at hx
                split_ifs at hx
                · cases hx
                  exact hcoins coins rfl
                · exact hcache x e hx

theorem TidyStack.modifierEntry {base : CCoinsView} {below : List CCoinsViewCache}
    (h : TidyStack ⟨below, base⟩) (choice : BaseChoice) (txid : Uint256)
    (cache : CCoinsViewCache) :
    TidyStack ⟨(modifierEntry choice base txid cache below).2, base⟩ := by
  rw [Hivemind.modifierEntry]
  cases hfind : cache.cacheCoins.find txid with
  | some e => exact h
  | none =>
      have hfetch := (h.fetchCoins choice txid).2
      simp only at hfetch ⊢
      generalize Hivemind.fetchCoins choice base txid below = fetched at hfetch ⊢
      obtain ⟨o, below'⟩ := fetched
      cases o with
      | none => exact hfetch
      | some coins => exact hfetch

/-- Whatever was modified, the modifier cleans it up. -/
theorem tidy_endModifier {cache : CCoinsViewCache} {txid : Uint256} {e : CCoinsCacheEntry}
    (hcache : ∀ x e', cache.cacheCoins.find x = some e' → Tidy e'.coins) (x : Uint256)
    (e' : CCoinsCacheEntry) (hx : (endModifier txid e cache).cacheCoins.find x = some e') :
    Tidy e'.coins := by
  simp only [endModifier] at hx
  split_ifs at hx
  · rw [OrdMap.find_erase] at hx
    split_ifs at hx
    exact hcache x e' hx
  · rw [OrdMap.find_put] at hx
    split_ifs at hx
    · cases hx
      exact tidy_cleanup _
    · exact hcache x e' hx

theorem tidy_mergedEntry {us : Option CCoinsCacheEntry} {e e' : CCoinsCacheEntry}
    (hus : ∀ u, us = some u → Tidy u.coins) (he : Tidy e.coins) (h : mergedEntry us e = some e') :
    Tidy e'.coins := by
  by_cases hdirty : e.dirty = true
  · simp only [mergedEntry, hdirty, Bool.not_true, Bool.false_eq_true, if_false] at h
    cases us with
    | none =>
        simp only at h
        split_ifs at h
        cases h
        exact he
    | some u =>
        simp only at h
        split_ifs at h
        cases h
        exact he
  · simp only [mergedEntry, hdirty, Bool.not_false, if_true] at h
    exact hus e' h

/-- A flush to the base. -/
theorem tidy_baseBatchWrite {base : CCoinsView} {cache : CCoinsViewCache}
    (hbase : ∀ txid c, base.accessCoins txid = some c → Tidy c)
    (hcache : ∀ txid e, cache.cacheCoins.find txid = some e → Tidy e.coins) (choice : BaseChoice)
    (txid : Uint256) (c : CCoins)
    (hc : (baseBatchWrite choice base cache).accessCoins txid = some c) : Tidy c := by
  rw [accessCoins_baseBatchWrite] at hc
  cases hfind : cache.cacheCoins.find txid with
  | none =>
      rw [hfind] at hc
      exact hbase txid c hc
  | some e =>
      rw [hfind, Option.elim_some] at hc
      split_ifs at hc
      · exact hbase txid c hc
      · cases hc
        exact hcache txid e hfind

theorem TidyStack.step {s s' : CoinsStack} (inv : StackInv s.base s.caches) (h : TidyStack s)
    {step : CacheStep} (happly : s.apply step = .ok s') : TidyStack s' := by
  obtain ⟨caches, base⟩ := s
  cases caches with
  | nil =>
      cases step with
      | push =>
          cases happly
          exact h.cons (by rintro txid e ⟨⟩)
      | accessCoins choice txid => cases happly
      | haveCoins choice txid => cases happly
      | modifyCoins choice txid f => cases happly
      | flush choice => cases happly
  | cons cache below =>
      have hcache := h.caches cache (List.mem_cons_self ..)
      cases step with
      | push =>
          cases happly
          exact h.cons (by rintro txid e ⟨⟩)
      | accessCoins choice txid =>
          cases happly
          exact (h.fetchCoins choice txid).2
      | haveCoins choice txid =>
          cases happly
          exact (h.fetchCoins choice txid).2
      | modifyCoins choice txid f =>
          cases happly
          exact (h.tail.modifierEntry choice txid cache).cons (tidy_endModifier hcache)
      | flush choice =>
          cases below with
          | nil =>
              cases happly
              exact ⟨tidy_baseBatchWrite h.base hcache choice, by rintro cache' ⟨⟩⟩
          | cons parent below =>
              obtain ⟨parent', hwrite, hmerged⟩ := batchWrite_spec inv.1
              rw [CoinsStack.apply] at happly
              simp only [hwrite] at happly
              cases happly
              refine h.tail.tail.cons fun txid us hus => ?_
              -- the coins come from one of the two caches
              have hparent := h.tail.caches parent (List.mem_cons_self ..)
              rw [hmerged] at hus
              cases hfind : cache.cacheCoins.find txid with
              | none =>
                  rw [hfind] at hus
                  exact hparent txid us hus
              | some e =>
                  rw [hfind, Option.elim_some] at hus
                  exact tidy_mergedEntry (hparent txid) (hcache txid e hfind) hus

theorem TidyStack.run {s s' : CoinsStack} (inv : StackInv s.base s.caches) (h : TidyStack s)
    {steps : List CacheStep} (hrun : runCaches steps s = .ok s') : TidyStack s' := by
  induction steps generalizing s with
  | nil =>
      cases hrun
      exact h
  | cons step steps ih =>
      rw [runCaches, bind_eq_ok] at hrun
      obtain ⟨s₁, happly, hrest⟩ := hrun
      exact ih ((CoinsStack.apply_spec inv step).2 s₁ happly).1 (h.step inv happly) hrest

/-- **Layers against a flat map**: over every run no assertion of `BatchWrite` fails.  If the
modifications make no difference between pruned coins, what is visible at the top is what is
in the flat map, pruned coins counting as absent.  `HaveCoins` finds at least the coins that
are not pruned, and no others if the view at the bottom has been cleaned up. -/
theorem coins_of_run (base : CCoinsView) (steps : List CacheStep) :
    runCaches steps { base } ≠ .error .asserted ∧
    (RunTreatsPrunedAlike steps → ∀ s, runCaches steps { base } = .ok s → ∀ choice txid,
      seen (fetchCoins choice s.base txid s.caches).1 =
        seen ((runFlat steps base).accessCoins txid) ∧
      (seen ((runFlat steps base).accessCoins txid) ≠ none →
        haveCoins choice s.base txid s.caches = true) ∧
      ((∀ x c, base.accessCoins x = some c → Tidy c) →
        haveCoins choice s.base txid s.caches = true →
          seen ((runFlat steps base).accessCoins txid) ≠ none)) := by
  have hstart : Refines { base } base := ⟨trivial, fun _ => rfl⟩
  refine ⟨(hstart.inv.run steps).1, ?_⟩
  intro halike s hok choice txid
  have href := hstart.run halike hok
  have hseen : seen (fetchCoins choice s.base txid s.caches).1 =
      seen ((runFlat steps base).accessCoins txid) :=
    (fetchCoins_spec choice txid href.inv).1.trans (href.view txid)
  refine ⟨hseen, ?_, ?_⟩
  · intro hne
    rw [← hseen] at hne
    rw [haveCoins]
    cases hcoins : (fetchCoins choice s.base txid s.caches).1 with
    | none =>
        rw [hcoins] at hne
        exact absurd rfl hne
    | some c =>
        rw [hcoins] at hne
        rw [Option.any_some, Bool.not_eq_true', List.isEmpty_eq_false_iff]
        intro hempty
        refine hne (seen_some_of_pruned ?_)
        rw [CCoins.isPruned, hempty]
        rfl
  · intro htidy hhave
    have hstack : TidyStack s := TidyStack.run hstart.inv ⟨htidy, by rintro cache ⟨⟩⟩ hok
    rw [← hseen]
    rw [haveCoins, Option.any_eq_true] at hhave
    obtain ⟨c, hc, hvout⟩ := hhave
    have hctidy := (hstack.fetchCoins choice txid).1 c hc
    rw [hc, seen_some_of_not_pruned]
    · exact Option.some_ne_none c
    · by_contra hpruned
      rw [hctidy (by simpa using hpruned)] at hvout
      cases hvout

/-! ## Two outputs, one spent -/

/-- A view at the bottom that hands out pruned coins and drops them when they are written. -/
def exampleChoice : BaseChoice where
  answers _ := true
  keeps _ := false
  writesClean _ := false

def twoOutputs : CCoins where
  vout := [{ nValue := 5, scriptPubKey := [] }, { nValue := 6, scriptPubKey := [] }]
  nHeight := 7
  nVersion := 2

/-- A transaction is added in one layer and flushed; its first output is spent two layers up,
and what is left goes down one layer. -/
def spentOnceRun : List CacheStep :=
  [.push, .modifyCoins exampleChoice Blob.null fun _ => twoOutputs, .flush exampleChoice,
    .push, .push, .haveCoins exampleChoice Blob.null,
    .modifyCoins exampleChoice Blob.null (CCoins.spend 0), .flush exampleChoice, .push]

theorem spentOnceRun_treatsPrunedAlike : RunTreatsPrunedAlike spentOnceRun := by
  intro choice txid f hmem
  simp only [spentOnceRun, List.mem_cons, CacheStep.modifyCoins.injEq, reduceCtorEq, false_or,
    List.not_mem_nil, or_false] at hmem
  rcases hmem with ⟨-, -, rfl⟩ | ⟨-, -, rfl⟩
  · exact treatsPrunedAlike_const twoOutputs
  · exact treatsPrunedAlike_spend 0

/-- The second output is there, in the top layer as in the flat map. -/
theorem coins_of_spentOnceRun :
    ∃ s, runCaches spentOnceRun {} = .ok s ∧
      (seen (fetchCoins exampleChoice s.base Blob.null s.caches).1).map CCoins.vout =
        some [CTxOut.null, { nValue := 6, scriptPubKey := [] }] ∧
      haveCoins exampleChoice s.base Blob.null s.caches = true := by
  have hok : (runCaches spentOnceRun {}).isOk = true := by decide
  cases hrun : runCaches spentOnceRun {} with
  | error fault =>
      rw [hrun] at hok
      cases hok
  | ok s =>
      have hcoins := (coins_of_run {} spentOnceRun).2 spentOnceRun_treatsPrunedAlike s hrun
      obtain ⟨hseen, hhave, -⟩ := hcoins exampleChoice Blob.null
      refine ⟨s, rfl, ?_, hhave (by decide)⟩
      rw [hseen]
      decide

/-! ## Pruned coins that a modification tells apart -/

/-- A transaction is added in one layer and all of it is spent in the next; after some other
steps, outputs come back to what is there of it. -/
def spentAndBack (steps : List CacheStep) : List CacheStep :=
  [.push, .modifyCoins exampleChoice Blob.null fun _ => twoOutputs, .push,
    .modifyCoins exampleChoice Blob.null fun c => { c with vout := [] }] ++ steps ++
  [.modifyCoins exampleChoice Blob.null fun c => { c with vout := twoOutputs.vout }]

/-- The height of the coins that a run leaves at the top. -/
def heightAfter (steps : List CacheStep) : Option Int :=
  match runCaches steps {} with
  | .error _ => none
  | .ok s => (seen (fetchCoins exampleChoice s.base Blob.null s.caches).1).map CCoins.nHeight

/-- **Layers that are visible**: the pruned coins of a layer keep their height until they are
flushed, and a modification may bring it back.  With the same modifications, a flush in
between makes a difference, so that no flat map agrees with both runs. -/
theorem pruned_coins_keep_height :
    heightAfter (spentAndBack []) = some 7 ∧
    heightAfter (spentAndBack [.flush exampleChoice, .push]) = some 0 ∧
    runFlat (spentAndBack [.flush exampleChoice, .push]) {} = runFlat (spentAndBack []) {} ∧
    (seen ((runFlat (spentAndBack []) {}).accessCoins Blob.null)).map CCoins.nHeight = some 0 := by
  refine ⟨?_, ?_, rfl, ?_⟩
  · decide
  · decide
  · decide

end Hivemind
