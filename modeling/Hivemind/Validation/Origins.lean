import Hivemind.Validation.MarketIndex

/-!
# The origins of market objects

An object is found under the hash of its record, with the transaction that carried it.
`ConnectBlock` does not look whether the object is there already, so a later block that repeats
the record puts its own transaction in the place of the first one; `getOutcomeTx` then takes the
reputation of a branch from the outputs of that transaction.

Whether the origins along a chain are stable is a question about the blocks and about the index
at each of them, since a record that is not in the index yet may be carried for the first time.
The condition is therefore stated along the chain: a block repeats no object of the index it is
connected to, unless it is in the transaction that the index names already.

* `origin`: the transaction that a lookup names as the origin of an object.
* `origin_carried`: what one block does to the origins.
* `origins_stable_iff`: **when connecting blocks leaves the origins of the objects alone.**
* `repeated_branch_changes_origin`: a chain of two blocks that does not.
-/

namespace Hivemind

open Codecs Ordered Outcomes

/-! ## Origins -/

/-- The transaction that a lookup names as the origin of an object. -/
def origin (op : MarketOp) (objid : Uint256) (market : LevelDB) : Option Uint256 :=
  (getObj op objid market).map MarketObj.txid

/-- The block repeats no object of the index, unless it is in the transaction that the
index names already. -/
def RepeatsKeepOrigin (ctx : Context) (block : CBlock) (market : LevelDB) : Prop :=
  ∀ op objid t o, origin op objid market = some t →
    lastWrite op objid (fun _ => true) (carriedObjs ctx block) = some o → o.txid = t

/-- Every block of the chain does so, on the index it is connected to. -/
def ChainKeepsOrigins (ctx : Context) : List (CBlock × CBlockIndex) → CCoinsView × Disk → Prop
  | [], _ => True
  | (block, pindex) :: blocks, (view, disk) =>
    match connectBlock ctx block pindex false view disk with
    | (.error _, _) => True
    | (.ok view', disk') =>
      RepeatsKeepOrigin ctx block disk.market ∧ ChainKeepsOrigins ctx blocks (view', disk')

/-- Once an object is in the index with an origin, connecting more blocks of the chain
does not change it. -/
def OriginsStable (ctx : Context) (blocks : List (CBlock × CBlockIndex)) (s : CCoinsView × Disk) :
    Prop :=
  ∀ bs₁ bs₂ bs₃ s₁ s₂, blocks = bs₁ ++ bs₂ ++ bs₃ → connectChain ctx bs₁ s = .ok s₁ →
    connectChain ctx bs₂ s₁ = .ok s₂ →
    ∀ op objid t, origin op objid s₁.2.market = some t → origin op objid s₂.2.market = some t

/-- The index is one that runs of the database leave. -/
def WrittenIndex (market : LevelDB) : Prop :=
  ∃ written, AllSizesOk (writtenObjs written) ∧ market = runDb written

theorem WrittenIndex.carried {market : LevelDB} (h : WrittenIndex market) (ctx : Context)
    (block : CBlock) : WrittenIndex (writeMarketIndex (carriedObjs ctx block) market) := by
  obtain ⟨written, hsizes, rfl⟩ := h
  refine ⟨written ++ [block].map fun b => .index (carriedObjs ctx b), ?_, ?_⟩
  · rw [writtenObjs_carried]
    exact hsizes.append (allSizesOk_carried ctx [block])
  · rw [← foldl_carried_eq_runDb]
    rfl

/-- **What a block does to the origins**: those of the objects it carries become its
own transactions, and the others stay. -/
theorem origin_carried {ctx : Context} {market : LevelDB} (h : WrittenIndex market)
    (block : CBlock) (op : MarketOp) (objid : Uint256) :
    origin op objid (writeMarketIndex (carriedObjs ctx block) market) =
      ((lastWrite op objid (fun _ => true) (carriedObjs ctx block)).map MarketObj.txid).or
        (origin op objid market) := by
  obtain ⟨written, hsizes, rfl⟩ := h
  have hget := @getObj_carried ctx written hsizes [block] op objid
  rw [← foldl_carried_eq_runDb] at hget
  have hbase := @getObj_carried ctx written hsizes [] op objid
  rw [← foldl_carried_eq_runDb] at hbase
  simp only [List.foldl_cons, List.foldl_nil, List.flatMap_cons, List.flatMap_nil,
    List.append_nil] at hget hbase
  rw [origin, origin, hget, hbase, lastWrite_append]
  cases lastWrite op objid (fun _ => true) (carriedObjs ctx block) <;>
    cases lastWrite op objid (fun _ => true) (writtenObjs written) <;> rfl

/-- One block keeps the origins exactly if it repeats no object elsewhere. -/
theorem repeatsKeepOrigin_iff {ctx : Context} {market : LevelDB} (h : WrittenIndex market)
    (block : CBlock) :
    RepeatsKeepOrigin ctx block market ↔
      ∀ op objid t, origin op objid market = some t →
        origin op objid (writeMarketIndex (carriedObjs ctx block) market) = some t := by
  constructor
  · intro hkeep op objid t ht
    rw [origin_carried h, ht]
    cases hl : lastWrite op objid (fun _ => true) (carriedObjs ctx block) with
    | none => rfl
    | some o => exact congrArg some (hkeep op objid t o ht hl)
  · intro hstable op objid t o ht hl
    have := hstable op objid t ht
    rw [origin_carried h, hl] at this
    exact Option.some.inj this

theorem connectBlock_writes {ctx : Context} {block : CBlock} {pindex : CBlockIndex}
    {view view' : CCoinsView} {disk disk' : Disk}
    (h : connectBlock ctx block pindex false view disk = (.ok view', disk')) :
    disk'.market = writeMarketIndex (carriedObjs ctx block) disk.market := by
  rcases connectBlock_market ctx block pindex view disk with ⟨s, hs, -⟩ | ⟨_, objs, -, hobjs, hm⟩
  · rw [h] at hs
    cases hs
  · rw [h] at hm
    rw [carriedObjs_of_ok hobjs]
    exact hm

theorem chainKeepsOrigins_cons {ctx : Context} {block : CBlock} {pindex : CBlockIndex}
    {blocks : List (CBlock × CBlockIndex)} {view view' : CCoinsView} {disk disk' : Disk}
    (h : connectBlock ctx block pindex false view disk = (.ok view', disk')) :
    ChainKeepsOrigins ctx ((block, pindex) :: blocks) (view, disk) ↔
      RepeatsKeepOrigin ctx block disk.market ∧ ChainKeepsOrigins ctx blocks (view', disk') := by
  rw [ChainKeepsOrigins, h]

/-- The condition on the rest of a chain, at the state that its first part leaves. -/
theorem chainKeepsOrigins_append {ctx : Context} {bs bs' : List (CBlock × CBlockIndex)}
    {s s' : CCoinsView × Disk} (hs : WrittenIndex s.2.market)
    (hkeeps : ChainKeepsOrigins ctx (bs ++ bs') s) (h : connectChain ctx bs s = .ok s') :
    WrittenIndex s'.2.market ∧ ChainKeepsOrigins ctx bs' s' := by
  induction bs generalizing s with
  | nil =>
      obtain rfl := Except.ok.inj h
      exact ⟨hs, hkeeps⟩
  | cons b bs ih =>
      obtain ⟨block, pindex⟩ := b
      obtain ⟨view, disk⟩ := s
      obtain ⟨view₁, disk₁, hb, hrest⟩ := connectChain_cons h
      rw [List.cons_append, chainKeepsOrigins_cons hb] at hkeeps
      have hs₁ : WrittenIndex disk₁.market := by
        rw [connectBlock_writes hb]
        exact hs.carried ctx block
      exact ih hs₁ hkeeps.2 hrest

theorem origin_connectChain {ctx : Context} {bs bs' : List (CBlock × CBlockIndex)}
    {s s' : CCoinsView × Disk} (hs : WrittenIndex s.2.market)
    (hkeeps : ChainKeepsOrigins ctx (bs ++ bs') s) (h : connectChain ctx bs s = .ok s')
    {op : MarketOp} {objid t : Uint256} (ht : origin op objid s.2.market = some t) :
    origin op objid s'.2.market = some t := by
  induction bs generalizing s with
  | nil =>
      obtain rfl := Except.ok.inj h
      exact ht
  | cons b bs ih =>
      obtain ⟨block, pindex⟩ := b
      obtain ⟨view, disk⟩ := s
      obtain ⟨view₁, disk₁, hb, hrest⟩ := connectChain_cons h
      rw [List.cons_append, chainKeepsOrigins_cons hb] at hkeeps
      have hmarket := connectBlock_writes hb
      have hs₁ : WrittenIndex disk₁.market := by
        rw [hmarket]
        exact hs.carried ctx block
      refine ih hs₁ hkeeps.2 hrest ?_
      show origin op objid disk₁.market = some t
      rw [hmarket]
      exact (repeatsKeepOrigin_iff hs block).mp hkeeps.1 op objid t ht

/-- **When the origins are stable**: along a chain of blocks, the origins of the
objects in the index never change if and only if no block repeats an object of the index
outside the transaction it came from. -/
theorem origins_stable_iff (ctx : Context) (blocks : List (CBlock × CBlockIndex))
    (s : CCoinsView × Disk) (hs : WrittenIndex s.2.market) :
    OriginsStable ctx blocks s ↔ ChainKeepsOrigins ctx blocks s := by
  constructor
  · intro hstable
    induction blocks generalizing s with
    | nil => trivial
    | cons b blocks ih =>
        obtain ⟨block, pindex⟩ := b
        obtain ⟨view, disk⟩ := s
        rcases hb : connectBlock ctx block pindex false view disk with ⟨_ | view₁, disk₁⟩
        · rw [ChainKeepsOrigins, hb]
          trivial
        · have hmarket := connectBlock_writes hb
          have hs₁ : WrittenIndex disk₁.market := by
            rw [hmarket]
            exact hs.carried ctx block
          rw [chainKeepsOrigins_cons hb, repeatsKeepOrigin_iff hs, ← hmarket]
          constructor
          · exact hstable [] [(block, pindex)] blocks (view, disk) (view₁, disk₁) rfl rfl
              (connectChain_singleton hb)
          · refine ih _ hs₁ fun bs₁ bs₂ bs₃ s₁ s₂ hsplit h₁ h₂ => ?_
            refine hstable ((block, pindex) :: bs₁) bs₂ bs₃ s₁ s₂ (by rw [hsplit]; rfl) ?_ h₂
            rw [connectChain, hb]
            exact h₁
  · rintro hkeeps bs₁ bs₂ bs₃ s₁ s₂ rfl h₁ h₂ op objid t ht
    rw [List.append_assoc] at hkeeps
    obtain ⟨hs₁, hkeeps₁⟩ := chainKeepsOrigins_append hs hkeeps h₁
    exact origin_connectChain hs₁ hkeeps₁ h₂ ht

/-- **A branch changes hands**: the second block repeats the branch of the first in
its own coinbase, and the index names that coinbase from then on. -/
theorem repeated_branch_changes_origin :
    (exampleBranchCoinbase 2).getHash exampleEnv.hash ≠
      (exampleBranchCoinbase 1).getHash exampleEnv.hash ∧
    ∀ env : Env,
      (exampleBranchCoinbase 2).getHash env.hash ≠ (exampleBranchCoinbase 1).getHash env.hash →
      ¬ OriginsStable (exampleContext env)
        [(coinbaseBlock env.hash none (exampleBranchCoinbase 1),
          coinbaseIndex env.hash none 0 (exampleBranchCoinbase 1)),
        (secondBlock env (exampleBranchCoinbase 1) (exampleBranchCoinbase 2),
          secondIndex env (exampleBranchCoinbase 1) (exampleBranchCoinbase 2))] ({}, {}) := by
  refine ⟨by decide +kernel, fun env hne hstable => ?_⟩
  obtain ⟨disk₀, disk₁, hfirst, hmarket₀, hsecond, hmarket₁, -⟩ := connectBlock_second
    soundCoinbase_branch_one soundCoinbase_branch_two hne (blockObjs_branch env 1)
    (blockObjs_branch env 2)
  have horigin₀ : origin .branch (exampleBranch.getHash env.hash) disk₀.market =
      some ((exampleBranchCoinbase 1).getHash env.hash) := by
    rw [origin, hmarket₀, getObj_of_marketObjCtr marketObjCtr_exampleBranch]
    rfl
  have horigin₁ : origin .branch (exampleBranch.getHash env.hash) disk₁.market =
      some ((exampleBranchCoinbase 2).getHash env.hash) := by
    rw [origin, hmarket₁, getObj_of_marketObjCtr marketObjCtr_exampleBranch]
    rfl
  have hkept := hstable [_] [_] [] _ _ rfl (connectChain_singleton hfirst)
    (connectChain_singleton hsecond) .branch _ _ horigin₀
  rw [horigin₁] at hkept
  exact hne (Option.some.inj hkept)

/-- A chain whose second block carries nothing keeps the branch of the first. -/
theorem origins_stable_plain :
    WrittenIndex (({}, {}) : CCoinsView × Disk).2.market ∧
    ∀ env : Env, OriginsStable (exampleContext env)
      [(coinbaseBlock env.hash none (exampleBranchCoinbase 1),
          coinbaseIndex env.hash none 0 (exampleBranchCoinbase 1)),
        (secondBlock env (exampleBranchCoinbase 1) examplePlainCoinbase,
          secondIndex env (exampleBranchCoinbase 1) examplePlainCoinbase)] ({}, {}) := by
  have hindex : WrittenIndex (({}, {}) : CCoinsView × Disk).2.market :=
    ⟨[], fun w hw => (nomatch hw), rfl⟩
  refine ⟨hindex, fun env => (origins_stable_iff (exampleContext env) _ ({}, {}) hindex).mpr ?_⟩
  have hfirst : RepeatsKeepOrigin (exampleContext env)
      (coinbaseBlock env.hash none (exampleBranchCoinbase 1)) OrdMap.empty := by
    intro op objid t o ht
    cases ht
  have hsecond : ∀ market, RepeatsKeepOrigin (exampleContext env)
      (secondBlock env (exampleBranchCoinbase 1) examplePlainCoinbase) market := by
    intro market op objid t o _ hl
    cases hl
  rw [ChainKeepsOrigins]
  split
  · trivial
  · refine ⟨hfirst, ?_⟩
    rw [ChainKeepsOrigins]
    split
    · trivial
    · exact ⟨hsecond _, trivial⟩

end Hivemind
