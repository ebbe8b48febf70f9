import Hivemind.Miner.Template

/-!
# What a block is assembled from

The selection loop of `CreateNewBlock`: whatever the priorities, the fees and the order of the
heap are, each transaction of the pool is in the queue at most once, and a transaction is taken
when its inputs are there and the limits leave room for it.

A transaction of the pool whose inputs are made by others of the pool waits as an orphan until
the last of these has been taken, and is put into the queue then.  The invariant says what is
pending (in the queue, waiting or taken) and that each transaction taken spends from the coins at
the start or from an earlier one of the block.  It is kept by both outcomes of a turn, taking and
leaving out, so the order in which the heap gives out its elements does not enter.

* `enqueue_cases`, `selectTx_taken`: what one turn of each loop does.
* `Assembling`: what the selection keeps.
* `assembled_of_select`: **which transactions are taken**, and in which order.
* `assembled_of_select_two`: the second transaction comes after the first, though it has the
  higher priority.
* `select_limits`: two limits of what can be said.
-/

namespace Hivemind

open Codecs Ordered Outcomes

variable {st : MinerState} {b b' : Backlog} {s s' : SelectState} {p : TxPriority}
  {queue ready : List TxPriority} {tx : CTransaction}

/-! ## The backlog -/

/-- The transactions of the queue, and those that wait for others. -/
def Backlog.txs (b : Backlog) : List CTransaction :=
  b.queue.map TxPriority.tx ++ b.orphans.map COrphan.tx

/-- A transaction of the pool comes into the queue or waits, once, or it is left out. -/
theorem enqueue_cases (h : enqueue st b tx = .ok b') :
    b' = b ∨ tx.isCoinBase = false ∧ b'.txs.Perm (tx :: b.txs) := by
  rw [enqueue] at h
  split_ifs at h with hskip
  · exact Or.inl (Except.ok.inj h).symm
  cases hprio : prioInputs st tx.vin {} with
  | none =>
      simp only [hprio] at h
      exact Or.inl (Except.ok.inj h).symm
  | some prio =>
      simp only [hprio, bind_eq_ok] at h
      obtain ⟨nValueOut, -, h⟩ := h
      rw [Bool.or_eq_true, not_or, Bool.not_eq_true] at hskip
      refine Or.inr ⟨hskip.1, ?_⟩
      split_ifs at h with hempty
      · obtain rfl := Except.ok.inj h
        rw [Backlog.txs, Backlog.txs, List.map_append, List.append_assoc]
        exact List.perm_middle
      · obtain rfl := Except.ok.inj h
        rw [Backlog.txs, Backlog.txs, List.map_append, ← List.append_assoc]
        exact List.perm_append_singleton _ _

/-- **The backlog** has transactions of the pool, each at most as often as the pool. -/
theorem foldlM_enqueue {l : List (Uint256 × CTxMemPoolEntry)}
    (h : l.foldlM (fun b p => enqueue st b p.2.tx) b = .ok b')
    (hb : ∀ tx ∈ b.txs, tx.isCoinBase = false) :
    (∀ tx ∈ b'.txs, tx.isCoinBase = false) ∧
      b'.txs.Subperm (b.txs ++ l.map fun e => e.2.tx) := by
  induction l generalizing b with
  | nil =>
      obtain rfl := Except.ok.inj h
      rw [List.map_nil, List.append_nil]
      exact ⟨hb, List.Subperm.refl _⟩
  | cons e l ih =>
      obtain ⟨b₁, henqueue, hrest⟩ := bind_eq_ok.mp h
      rcases enqueue_cases henqueue with rfl | ⟨hcoinbase, hperm⟩
      · obtain ⟨hall, hsub⟩ := ih hrest hb
        refine ⟨hall, hsub.trans ?_⟩
        exact ((List.sublist_cons_self _ _).append_left _).subperm
      · have hb₁ : ∀ tx ∈ b₁.txs, tx.isCoinBase = false := by
          intro tx htx
          rcases List.mem_cons.mp (hperm.subset htx) with rfl | htx
          · exact hcoinbase
          · exact hb tx htx
        obtain ⟨hall, hsub⟩ := ih hrest hb₁
        refine ⟨hall, hsub.trans ?_⟩
        exact ((hperm.append_right _).trans List.perm_middle.symm).subperm

/-- No transaction is in the pool under two ids. -/
theorem nodup_pool {hash : Bytes → Uint256} {pool : CTxMemPool}
    (hpool : CTxMemPool.PoolOk hash pool) :
    (pool.mapTx.entries.map fun e => e.2.tx).Nodup := by
  rw [List.Nodup, List.pairwise_map]
  refine pool.mapTx.sorted.imp_of_mem ?_
  intro e e' he he' hlt heq
  have hkey := hpool.keyed e.1 e.2 (OrdMap.find_eq_some.mpr he)
  have hkey' := hpool.keyed e'.1 e'.2 (OrdMap.find_eq_some.mpr he')
  rw [← hkey, ← hkey', heq] at hlt
  exact lt_irrefl _ hlt

theorem backlog_spec (hpool : CTxMemPool.PoolOk st.ctx.hash st.mempool)
    (h : backlog st = .ok b) :
    b.txs.Nodup ∧ ∀ tx ∈ b.txs, tx.isCoinBase = false ∧ st.mempool.Has st.ctx.hash tx := by
  obtain ⟨hall, hsub⟩ := foldlM_enqueue h (by simp [Backlog.txs])
  have hsub' : b.txs.Subperm (st.mempool.mapTx.entries.map fun e => e.2.tx) := hsub
  obtain ⟨l, hperm, hl⟩ := hsub'
  refine ⟨hperm.nodup_iff.mp (hl.nodup (nodup_pool hpool)), fun tx htx => ⟨hall tx htx, ?_⟩⟩
  obtain ⟨e, he, rfl⟩ := List.mem_map.mp (hl.subset (hperm.symm.subset htx))
  have hfind := OrdMap.find_eq_some.mpr he
  exact ⟨e.2, by rw [hpool.keyed _ _ hfind]; exact hfind, rfl⟩

/-! ## One turn -/

/-- The orphans are those that are ready and those that are not. -/
theorem perm_releaseOrphans (txid : Uint256) (os : List COrphan) :
    ((releaseOrphans txid os).1.map TxPriority.tx ++
      (releaseOrphans txid os).2.map COrphan.tx).Perm (os.map COrphan.tx) := by
  induction os with
  | nil => rfl
  | cons o os ih =>
      rw [releaseOrphans]
      simp only
      split_ifs with hready
      · exact ih.cons _
      · exact List.perm_middle.trans (ih.cons _)

/-- A transaction is taken. -/
structure Taken (st : MinerState) (s : SelectState) (p : TxPriority) (ready : List TxPriority)
    (s' : SelectState) : Prop where
  room : s.nBlockSize + p.tx.serSize < st.nBlockMaxSize
  inputs : s.view.haveInputs p.tx = true
  nBlockSize : s'.nBlockSize = s.nBlockSize + p.tx.serSize
  sigOps : ∃ n, s.nBlockSigOps + n < maxBlockSigOps ∧ s'.nBlockSigOps = s.nBlockSigOps + n ∧
    s'.vTxSigOps = s.vTxSigOps ++ [n]
  view : ∃ undo, updateCoins st.ctx.toEnv p.tx s.view st.nHeight = .ok (s'.view, undo)
  vtx : s'.vtx = s.vtx ++ [p.tx]
  ready_eq : ready = (releaseOrphans (p.tx.getHash st.ctx.hash) s.orphans).1
  orphans : s'.orphans = (releaseOrphans (p.tx.getHash st.ctx.hash) s.orphans).2

theorem selectTx_taken (h : selectTx st s p = .ok (ready, s')) :
    (ready = [] ∧ s' = { s with fSortedByFee := s'.fSortedByFee }) ∨ Taken st s p ready s' := by
  simp only [selectTx] at h
  split_ifs at h with hlimits hinputs
  · cases h
    exact Or.inl ⟨rfl, rfl⟩
  · cases h
    exact Or.inl ⟨rfl, rfl⟩
  · simp only [bind_eq_ok, raising_eq_ok] at h
    obtain ⟨nValueIn, -, nValueOut, -, nSigOps, -, h⟩ := h
    split_ifs at h with hmax
    · cases h
      exact Or.inl ⟨rfl, rfl⟩
    · simp only [bind_eq_ok] at h
      obtain ⟨ok, -, h⟩ := h
      split_ifs at h with hok
      · cases h
        exact Or.inl ⟨rfl, rfl⟩
      · simp only [bind_eq_ok] at h
        obtain ⟨⟨view, undo⟩, hupd, h⟩ := h
        cases h
        have hroom : s.nBlockSize + p.tx.serSize < st.nBlockMaxSize := by
          have hwithin : withinLimits st s p = true := by simpa using hlimits
          simp only [withinLimits, Bool.and_eq_true, decide_eq_true_eq] at hwithin
          exact hwithin.1.1
        exact Or.inr
          { room := hroom
            inputs := by simpa using hinputs
            nBlockSize := rfl
            sigOps := ⟨_, by simpa using hmax, rfl, rfl⟩
            view := ⟨undo, hupd⟩
            vtx := rfl
            ready_eq := rfl
            orphans := rfl }

/-- Spending makes no output available. -/
theorem getOutputFor_of_spendInputs {vin : List CTxIn} {view view' : CCoinsView} {undo : CTxUndo}
    (h : spendInputs vin view = .ok (view', undo)) {o : COutPoint} {txout : CTxOut}
    (ho : view'.getOutputFor o = some txout) : view.getOutputFor o = some txout := by
  induction vin generalizing view undo with
  | nil =>
      cases h
      exact ho
  | cons txin vin ih =>
      rw [spendInputs] at h
      cases hget : view.getOutputFor txin.prevout with
      | none => simp [hget] at h
      | some x =>
          simp only [hget, map_eq_ok] at h
          obtain ⟨⟨view₁, undo₁⟩, hspend, heq⟩ := h
          obtain ⟨rfl, -⟩ := Prod.mk.inj heq
          have hbefore := ih hspend
          rw [CCoinsView.getOutputFor_spend] at hbefore
          split_ifs at hbefore
          exact hbefore

/-- `UpdateCoins` makes no outputs available but those of the transaction. -/
theorem getOutputFor_updateCoins {env : Env} {view view' : CCoinsView} {nHeight : Int}
    {undo : CTxUndo} (h : updateCoins env tx view nHeight = .ok (view', undo)) {o : COutPoint}
    {txout : CTxOut} (ho : view'.getOutputFor o = some txout) :
    view.getOutputFor o = some txout ∨ tx.getHash env.hash = o.hash := by
  simp only [updateCoins, map_eq_ok] at h
  obtain ⟨⟨view₁, undo₁⟩, hspend, heq⟩ := h
  obtain ⟨rfl, -⟩ := Prod.mk.inj heq
  by_cases hown : o.hash = tx.getHash env.hash
  · exact Or.inr hown.symm
  · rw [CCoinsView.getOutputFor, CCoinsView.getCoins_setCoins_of_ne _ hown] at ho
    exact Or.inl (getOutputFor_of_spendInputs hspend ho)

/-! ## The invariant -/

/-- The transactions that may come into the block, wait, or are in it. -/
def SelectState.pending (s : SelectState) (queue : List TxPriority) : List CTransaction :=
  queue.map TxPriority.tx ++ (s.orphans.map COrphan.tx ++ s.vtx)

/-- What the transaction spends is in the coins at the start, or made by one of `vtx`. -/
def SpendsFrom (st : MinerState) (vtx : List CTransaction) (o : COutPoint) : Prop :=
  (st.pcoinsTip.getOutputFor o).isSome = true ∨ ∃ tx ∈ vtx, tx.getHash st.ctx.hash = o.hash

theorem SpendsFrom.mono {vtx vtx' : List CTransaction} {o : COutPoint}
    (h : SpendsFrom st vtx o) (hsub : vtx ⊆ vtx') : SpendsFrom st vtx' o :=
  h.imp_right fun ⟨tx, htx, hhash⟩ => ⟨tx, hsub htx, hhash⟩

/-- What the selection keeps. -/
structure Assembling (st : MinerState) (queue : List TxPriority) (s : SelectState) : Prop where
  known : ∀ tx ∈ s.pending queue, tx.isCoinBase = false ∧ st.mempool.Has st.ctx.hash tx
  nodup : (s.pending queue).Nodup
  after : ∀ (i : Nat) tx, s.vtx[i]? = some tx → ∀ txin ∈ tx.vin,
    SpendsFrom st (s.vtx.take i) txin.prevout
  view : ∀ o txout, s.view.getOutputFor o = some txout → SpendsFrom st s.vtx o
  nBlockSize : s.nBlockSize = 1000 + (s.vtx.map CTransaction.serSize).sum
  room : s.vtx = [] ∨ s.nBlockSize < st.nBlockMaxSize
  nBlockSigOps : s.nBlockSigOps = 100 + s.vTxSigOps.sum
  sigOps : s.nBlockSigOps < maxBlockSigOps

namespace Assembling

/-- A transaction is taken off the queue and left out. -/
theorem skip (h : Assembling st queue s) {rest : List TxPriority} (hperm : queue.Perm (p :: rest))
    (fSortedByFee : Bool) : Assembling st rest { s with fSortedByFee } := by
  have hsub : (s.pending rest).Subperm (s.pending queue) := by
    have hqueue := (hperm.map TxPriority.tx).append_right (s.orphans.map COrphan.tx ++ s.vtx)
    exact ((List.sublist_cons_self _ _).append_right _).subperm.trans hqueue.symm.subperm
  obtain ⟨l, hl, hsublist⟩ := hsub
  exact
    { known := fun tx htx => h.known tx (hsublist.subset (hl.symm.subset htx))
      nodup := hl.nodup_iff.mp (hsublist.nodup h.nodup)
      after := h.after
      view := h.view
      nBlockSize := h.nBlockSize
      room := h.room
      nBlockSigOps := h.nBlockSigOps
      sigOps := h.sigOps }

/-- A transaction is taken into the block. -/
theorem take (h : Assembling st queue s) {rest : List TxPriority} (hperm : queue.Perm (p :: rest))
    (ht : Taken st s p ready s') : Assembling st (rest ++ ready) s' := by
  have hpending : (s'.pending (rest ++ ready)).Perm (s.pending queue) := by
    have hqueue := hperm.map TxPriority.tx
    have horphans := perm_releaseOrphans (p.tx.getHash st.ctx.hash) s.orphans
    rw [← ht.ready_eq, ← ht.orphans] at horphans
    rw [List.perm_iff_count] at hqueue horphans ⊢
    intro tx
    have hcount := hqueue tx
    have hcount' := horphans tx
    simp only [SelectState.pending, ht.vtx, List.map_append, List.map_cons, List.count_append,
      List.count_cons, List.count_nil] at hcount hcount' ⊢
    omega
  have hp : p.tx ∈ s.pending queue :=
    List.mem_append_left _ (List.mem_map_of_mem (hperm.symm.subset List.mem_cons_self))
  have hinputs := (CCoinsView.haveInputs_iff (h.known _ hp).1).mp ht.inputs
  obtain ⟨n, hlt, hsigOps, hvTxSigOps⟩ := ht.sigOps
  obtain ⟨undo, hupdate⟩ := ht.view
  constructor
  case known => exact fun tx htx => h.known tx (hpending.subset htx)
  case nodup => exact hpending.nodup_iff.mpr h.nodup
  case after =>
    intro i tx htx txin hmem
    rw [ht.vtx] at htx ⊢
    rcases Nat.lt_trichotomy i s.vtx.length with hlt | rfl | hgt
    · rw [List.getElem?_append_left hlt] at htx
      rw [List.take_append_of_le_length hlt.le]
      exact h.after i tx htx txin hmem
    · rw [List.getElem?_concat_length] at htx
      obtain rfl := Option.some.inj htx
      obtain ⟨txout, hout⟩ := hinputs txin hmem
      rw [List.take_left]
      exact h.view _ _ hout
    · rw [List.getElem?_eq_none (by simp; omega)] at htx
      cases htx
  case view =>
    intro o txout hout
    rw [ht.vtx]
    rcases getOutputFor_updateCoins hupdate hout with hbefore | hown
    · exact (h.view o txout hbefore).mono (List.subset_append_left _ _)
    · exact Or.inr ⟨p.tx, by simp, hown⟩
  case nBlockSize =>
    rw [ht.nBlockSize, ht.vtx, h.nBlockSize, List.map_append, List.sum_append, List.map_singleton,
      List.sum_singleton, Nat.add_assoc]
  case room => exact Or.inr (ht.nBlockSize ▸ ht.room)
  case nBlockSigOps =>
    rw [hsigOps, hvTxSigOps, h.nBlockSigOps, List.sum_append, List.sum_singleton, Nat.add_assoc]
  case sigOps => exact hsigOps ▸ hlt

end Assembling

/-- **The selection keeps the invariant**, whatever the heap gives out. -/
theorem selectLoop_assembling {n : Nat} (h : Assembling st queue s)
    (hrun : selectLoop st n queue s = .ok s') : ∃ queue', Assembling st queue' s' := by
  induction n generalizing queue s with
  | zero =>
      obtain rfl := Except.ok.inj hrun
      exact ⟨queue, h⟩
  | succ n ih =>
      rw [selectLoop] at hrun
      cases hpop : st.heap.pop s.fSortedByFee queue with
      | none =>
          simp only [hpop] at hrun
          obtain rfl := Except.ok.inj hrun
          exact ⟨queue, h⟩
      | some r =>
          obtain ⟨p, rest⟩ := r
          have hperm := st.heap.perm hpop
          simp only [hpop, bind_eq_ok] at hrun
          obtain ⟨⟨ready, s₁⟩, hselect, hrest⟩ := hrun
          rcases selectTx_taken hselect with ⟨rfl, hs₁⟩ | ht
          · refine ih ?_ hrest
            rw [List.append_nil, hs₁]
            exact h.skip hperm _
          · exact ih (h.take hperm ht) hrest

/-! ## The transactions of the block -/

/-- The transactions that are selected: they are distinct, each comes after those of the pool
that it spends from, no output is spent twice, and the limits are kept. -/
structure Assembled (st : MinerState) (s : SelectState) : Prop where
  fromPool : ∀ tx ∈ s.vtx, st.mempool.Has st.ctx.hash tx
  distinct : s.vtx.Nodup
  /-- An output that is in the coins already does not wait for a transaction of the pool. -/
  after : ∀ (i : Nat) tx, s.vtx[i]? = some tx → ∀ txin ∈ tx.vin,
    st.pcoinsTip.getOutputFor txin.prevout = none →
      ∀ P, st.mempool.Has st.ctx.hash P → P.getHash st.ctx.hash = txin.prevout.hash →
        P ∈ s.vtx.take i
  spentOnce : (s.vtx.flatMap fun tx => tx.vin.map CTxIn.prevout).Nodup
  size : s.vtx = [] ∨ 1000 + (s.vtx.map CTransaction.serSize).sum < st.nBlockMaxSize
  sigOps : 100 + s.vTxSigOps.sum < maxBlockSigOps

theorem CTxMemPool.Has.unique {hash : Bytes → Uint256} {pool : CTxMemPool} {tx tx' : CTransaction}
    (h : pool.Has hash tx) (h' : pool.Has hash tx') (heq : tx.getHash hash = tx'.getHash hash) :
    tx = tx' := by
  obtain ⟨entry, hfind, rfl⟩ := h
  obtain ⟨entry', hfind', rfl⟩ := h'
  rw [heq, hfind'] at hfind
  rw [Option.some.inj hfind]

theorem nodup_of_getElem? {α : Type} {l : List α}
    (h : ∀ (i j : Nat) a, l[i]? = some a → l[j]? = some a → i = j) : l.Nodup := by
  rw [List.nodup_iff_getElem?_ne_getElem?]
  intro i j hij hj heq
  exact hij.ne (h i j l[j] (heq.trans (List.getElem?_eq_getElem hj)) (List.getElem?_eq_getElem hj))

/-- Distinct transactions of the pool spend distinct outputs. -/
theorem nodup_prevouts {hash : Bytes → Uint256} {pool : CTxMemPool}
    (hpool : CTxMemPool.PoolOk hash pool) {vtx : List CTransaction} (hnodup : vtx.Nodup)
    (hall : ∀ tx ∈ vtx, pool.Has hash tx) :
    (vtx.flatMap fun tx => tx.vin.map CTxIn.prevout).Nodup := by
  have hpoint : ∀ (tx : CTransaction) (n : Nat) o,
      (tx.vin.map CTxIn.prevout)[n]? = some o → (CInPoint.mk tx n).outpoint = some o := by
    intro tx n o ho
    rwa [List.getElem?_map] at ho
  rw [List.nodup_flatMap]
  constructor
  · intro tx htx
    refine nodup_of_getElem? fun i j o hi hj => ?_
    have hsame := hpool.spent_once (p := ⟨tx, i⟩) (q := ⟨tx, j⟩) (hall tx htx) (hall tx htx)
      (hpoint tx i o hi) (hpoint tx j o hj)
    exact congrArg CInPoint.n hsame
  · refine hnodup.pairwise_of_forall_ne ?_
    intro tx htx tx' htx' hne
    rw [Function.onFun, List.disjoint_left]
    intro o ho ho'
    obtain ⟨i, hi⟩ := List.mem_iff_getElem?.mp ho
    obtain ⟨j, hj⟩ := List.mem_iff_getElem?.mp ho'
    have hsame := hpool.spent_once (p := ⟨tx, i⟩) (q := ⟨tx', j⟩) (hall tx htx) (hall tx' htx')
      (hpoint tx i o hi) (hpoint tx' j o hj)
    exact hne (congrArg CInPoint.ptx hsame)

theorem Assembling.assembled (hpool : CTxMemPool.PoolOk st.ctx.hash st.mempool)
    (h : Assembling st queue s) : Assembled st s := by
  have hvtx : ∀ tx ∈ s.vtx, st.mempool.Has st.ctx.hash tx := fun tx htx =>
    (h.known tx (List.mem_append_right _ (List.mem_append_right _ htx))).2
  have hnodup : s.vtx.Nodup := h.nodup.of_append_right.of_append_right
  constructor
  case fromPool => exact hvtx
  case distinct => exact hnodup
  case after =>
    intro i tx htx txin hmem hnone P hP hhash
    rcases h.after i tx htx txin hmem with hsome | ⟨P', hP', hhash'⟩
    · simp [hnone] at hsome
    · have hsame := (hvtx P' (List.mem_of_mem_take hP')).unique hP (hhash'.trans hhash.symm)
      exact hsame ▸ hP'
  case spentOnce => exact nodup_prevouts hpool hnodup hvtx
  case size => exact h.room.imp_right fun hlt => h.nBlockSize ▸ hlt
  case sigOps => exact h.nBlockSigOps ▸ h.sigOps

/-- The selection starts from the backlog. -/
theorem assembling_start (hpool : CTxMemPool.PoolOk st.ctx.hash st.mempool)
    (h : backlog st = .ok b) (fSortedByFee : Bool) :
    Assembling st b.queue { orphans := b.orphans, fSortedByFee, view := st.pcoinsTip } := by
  obtain ⟨hnodup, hall⟩ := backlog_spec hpool h
  have hpending : b.queue.map TxPriority.tx ++ (b.orphans.map COrphan.tx ++ []) = b.txs := by
    rw [List.append_nil, Backlog.txs]
  constructor
  case known => rwa [SelectState.pending, hpending]
  case nodup => rwa [SelectState.pending, hpending]
  case after => simp
  case view => exact fun o txout ho => Or.inl (by rw [ho]; rfl)
  case nBlockSize => rfl
  case room => exact Or.inl rfl
  case nBlockSigOps => rfl
  case sigOps =>
    have hlimit : 100 < maxBlockSigOps := by decide
    exact hlimit

/-- **What a block is assembled from.**  For every memory pool whose maps fit together, whatever
has been added to the priorities and the fees, and in whichever order the heap gives out the
best transactions. -/
theorem assembled_of_select (hpool : CTxMemPool.PoolOk st.ctx.hash st.mempool)
    (h : select st = .ok s) : Assembled st s := by
  simp only [select, bind_eq_ok] at h
  obtain ⟨b, hbacklog, hloop⟩ := h
  obtain ⟨queue, hend⟩ := selectLoop_assembling (assembling_start hpool hbacklog _) hloop
  exact hend.assembled hpool

/-! ### A transaction and one that spends it -/

/-- Every input of the pool is in the coins or made in the pool. -/
def PoolInputs (st : MinerState) : Prop :=
  ∀ tx, st.mempool.Has st.ctx.hash tx → ∀ txin ∈ tx.vin,
    (st.pcoinsTip.getOutputFor txin.prevout).isSome = true ∨
      ∃ P, st.mempool.Has st.ctx.hash P ∧ P.getHash st.ctx.hash = txin.prevout.hash ∧
        txin.prevout.n.toNat < P.vout.length

/-- A miner with the given pool and coins. -/
def poolMiner (mempool : CTxMemPool) (pcoinsTip : CCoinsView) (blockMaxSize : Nat) : MinerState :=
  { exampleMiner [] with mempool, pcoinsTip, blockMaxSize }

/-- A transaction that hands one coin on. -/
def handOn (o : COutPoint) : CTransaction where
  vin := [{ prevout := o }]
  vout := [⟨1, [0x51]⟩]

def handOnFirst : CTransaction := handOn ⟨Blob.fill 1, 0⟩

def handOnSecond : CTransaction := handOn ⟨handOnFirst.getHash exampleHash, 0⟩

/-- Both in the pool; the priority of the second has been raised. -/
def handOnPool : CTxMemPool :=
  { (CTxMemPool.addUnchecked (CTxMemPool.addUnchecked {} (handOnFirst.getHash exampleHash)
      { tx := handOnFirst }) (handOnSecond.getHash exampleHash) { tx := handOnSecond }) with
    mapDeltas := OrdMap.empty.put (handOnSecond.getHash exampleHash) (1000000000, 0) }

/-- One coin more. -/
def oneCoin (txid : Uint256) (view : CCoinsView) : CCoinsView :=
  view.setCoins txid { vout := [⟨1, [0x51]⟩] }

/-- The first transaction can be spent from the coins, and the second one from the pool. -/
def handOnMiner : MinerState := poolMiner handOnPool (oneCoin (Blob.fill 1) {}) 750000

/-- The output that the second one spends is in the coins already. -/
def knownMiner : MinerState :=
  poolMiner handOnPool (oneCoin (handOnFirst.getHash exampleHash) (oneCoin (Blob.fill 1) {})) 750000

/-- There is no room for transactions of the pool. -/
def smallMiner : MinerState := poolMiner {} {} 1000

theorem poolOk_handOnPool : CTxMemPool.PoolOk exampleHash handOnPool := by
  have hone : CTxMemPool.PoolOk exampleHash (CTxMemPool.addUnchecked {}
      (handOnFirst.getHash exampleHash) { tx := handOnFirst }) :=
    @CTxMemPool.PoolOk.addUnchecked exampleHash {} CTxMemPool.poolOk_empty { tx := handOnFirst }
      (by decide +kernel) (by decide +kernel) (by decide +kernel)
  have htwo : CTxMemPool.PoolOk exampleHash (CTxMemPool.addUnchecked (CTxMemPool.addUnchecked {}
      (handOnFirst.getHash exampleHash) { tx := handOnFirst })
      (handOnSecond.getHash exampleHash) { tx := handOnSecond }) :=
    @CTxMemPool.PoolOk.addUnchecked exampleHash _ hone { tx := handOnSecond } (by decide +kernel)
      (by decide +kernel) (by decide +kernel)
  exact ⟨htwo.keyed, htwo.spends, htwo.total⟩

theorem has_handOnPool {tx : CTransaction} (h : handOnPool.Has exampleHash tx) :
    tx = handOnFirst ∨ tx = handOnSecond := by
  obtain ⟨entry, hfind, rfl⟩ := h
  simp only [handOnPool, CTxMemPool.addUnchecked, OrdMap.find_put, OrdMap.find_empty] at hfind
  split_ifs at hfind
  · exact Or.inr (by rw [← Option.some.inj hfind])
  · exact Or.inl (by rw [← Option.some.inj hfind])

theorem exists_select (st : MinerState) {l : List CTransaction}
    (h : (select st).toOption.map SelectState.vtx = some l) :
    ∃ s, select st = .ok s ∧ s.vtx = l := by
  cases hselect : select st with
  | error e => simp [hselect, Except.toOption] at h
  | ok s =>
      rw [hselect] at h
      exact ⟨s, rfl, Option.some.inj h⟩

/-- The second transaction comes after the first, though it has the higher priority. -/
theorem assembled_of_select_two : ∃ s, select handOnMiner = .ok s ∧
    s.vtx = [handOnFirst, handOnSecond] ∧ Assembled handOnMiner s := by
  have hvtx : (select handOnMiner).toOption.map SelectState.vtx =
      some [handOnFirst, handOnSecond] := by decide +kernel
  obtain ⟨s, hselect, hvtx⟩ := exists_select handOnMiner hvtx
  exact ⟨s, hselect, hvtx, assembled_of_select poolOk_handOnPool hselect⟩

/-- **Two limits of what can be said.**  Where `-blockmaxsize` is at most 1000, the block without
transactions of the pool has the greatest size already.  And where the coins have an output that
the pool makes too, the transaction that spends it does not wait. -/
theorem select_limits :
    (CTxMemPool.PoolOk exampleHash {} ∧ PoolInputs smallMiner ∧
      ∃ s, select smallMiner = .ok s ∧
        ¬ 1000 + (s.vtx.map CTransaction.serSize).sum < smallMiner.nBlockMaxSize) ∧
    (CTxMemPool.PoolOk exampleHash handOnPool ∧ PoolInputs knownMiner ∧
      ∃ s, select knownMiner = .ok s ∧
        ¬ ∀ (i : Nat) tx, s.vtx[i]? = some tx → ∀ txin ∈ tx.vin,
          ∀ P, handOnPool.Has exampleHash P → P.getHash exampleHash = txin.prevout.hash →
            P ∈ s.vtx.take i) := by
  have hsmall : (select smallMiner).toOption.map SelectState.vtx = some [] := by decide +kernel
  have hknown : (select knownMiner).toOption.map SelectState.vtx =
      some [handOnSecond, handOnFirst] := by decide +kernel
  refine ⟨⟨CTxMemPool.poolOk_empty, ?_, ?_⟩, poolOk_handOnPool, ?_, ?_⟩
  · rintro tx ⟨entry, hfind, -⟩
    cases hfind
  · obtain ⟨s, hselect, hvtx⟩ := exists_select smallMiner hsmall
    refine ⟨s, hselect, ?_⟩
    rw [hvtx]
    decide
  · intro tx htx txin htxin
    rcases has_handOnPool htx with rfl | rfl
    · obtain rfl := List.mem_singleton.mp htxin
      exact Or.inl (by decide +kernel)
    · obtain rfl := List.mem_singleton.mp htxin
      exact Or.inl (by decide +kernel)
  · obtain ⟨s, hselect, hvtx⟩ := exists_select knownMiner hknown
    refine ⟨s, hselect, fun hall => ?_⟩
    have hfirst : handOnPool.Has exampleHash handOnFirst := by
      refine ⟨{ tx := handOnFirst }, ?_, rfl⟩
      simp only [handOnPool, CTxMemPool.addUnchecked, OrdMap.find_put, if_true]
      exact if_neg (by decide +kernel)
    have hbefore := hall 0 handOnSecond (by rw [hvtx]; rfl) _ List.mem_cons_self handOnFirst
      hfirst rfl
    simp at hbefore

end Hivemind
