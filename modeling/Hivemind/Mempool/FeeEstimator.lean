import Hivemind.Lib.OrderStat
import Hivemind.Mempool.Accept

/-!
# Estimating fees

`CBlockAverage` and `CMinerPolicyEstimator` of `txmempool.cpp`: the fees and priorities of
transactions are kept by the number of blocks that they took to confirm, and an estimate is
picked from all of them in order.  The sorted samples are cached; doubles are read as exact
numbers.

A block that counts empties the caches, takes a sample of at most ten transactions for each
number of blocks, and then logs its estimates, which fills the caches again.  So a cache is never
out of date, and an estimate is a function of the samples.  The shuffle that picks the sample is
a parameter of the step, a permutation of the entries.

An estimate for `n` blocks is in the middle of the samples of that number, after those of all
smaller numbers in descending order; a larger number is further down.

* `estimateFrom_eq`: a coherent cache does not show in an estimate.
* `Coherent.step`, `Coherent.run`: **the caches stay coherent** over every run.
* `estimateOf_mem`, `estimateOf_anti`: what is picked, and that it falls with the number of
  blocks.
* `estimateFee_spec`: all of it, after a run.
-/

namespace Hivemind

/-! ## Samples -/

/-- `boost::circular_buffer`: at most `capacity` items, the oldest first. -/
structure CircularBuffer (capacity : Nat) (α : Type) where
  toList : List α
  length_le : toList.length ≤ capacity

namespace CircularBuffer

variable {capacity : Nat} {α : Type}

def empty : CircularBuffer capacity α := ⟨[], Nat.zero_le _⟩

/-- `push_back`: the oldest item of a full buffer goes. -/
def pushBack (buf : CircularBuffer capacity α) (x : α) : CircularBuffer capacity α where
  toList := (buf.toList ++ [x]).drop (buf.toList.length + 1 - capacity)
  length_le := by
    rw [List.length_drop, List.length_append, List.length_singleton]
    omega

end CircularBuffer

/-- `CBlockAverage`. -/
structure CBlockAverage where
  feeSamples : CircularBuffer 100 CFeeRate := CircularBuffer.empty
  prioritySamples : CircularBuffer 100 ℚ := CircularBuffer.empty

namespace CBlockAverage

def recordFee (average : CBlockAverage) (feeRate : CFeeRate) : CBlockAverage :=
  { average with feeSamples := average.feeSamples.pushBack feeRate }

def recordPriority (average : CBlockAverage) (priority : ℚ) : CBlockAverage :=
  { average with prioritySamples := average.prioritySamples.pushBack priority }

/-- `AreSane`, of a fee. -/
def areSaneFee (fee minRelayFee : CFeeRate) : Bool :=
  !(fee.nSatoshisPerK < 0) && !(minRelayFee.getFee 1000 * 10000 < fee.getFee 1000)

/-- `AreSane`, of a priority. -/
def areSanePriority (priority : ℚ) : Bool := 0 ≤ priority

end CBlockAverage

/-- `CTxMemPoolEntry::GetPriority`; `none` is the exception of `GetValueOut`. -/
def CTxMemPoolEntry.getPriority (entry : CTxMemPoolEntry) (currentHeight : UInt32) : Option ℚ :=
  entry.tx.getValueOut.toOption.map fun nValueOut =>
    entry.dPriority + (currentHeight - entry.nHeight).toNat * (nValueOut + entry.nFee).toInt /
      entry.tx.calculateModifiedSize entry.getTxSize

/-! ## Estimates -/

section Estimate

variable {α : Type} (ge : α → α → Bool) (d : α)

/-- `index` in the sorted samples: after the samples of the buckets before, in the middle of
those of bucket `n`. -/
def estimateIndex (samples : List (List α)) (n : Nat) : Nat :=
  ((samples.take n).map List.length).sum + (samples.getD n []).length / 2

/-- `estimateFee` and `estimatePriority`, of all buckets of samples and the cached sorted ones:
the estimate and the new cache.  `d` is what they return where there are too few samples. -/
def estimateFrom (samples : List (List α)) (sorted : List α) (nBlocksToConfirm : Int) :
    α × List α :=
  let nBlocksToConfirm := nBlocksToConfirm - 1
  if nBlocksToConfirm < 0 ∨ samples.length ≤ nBlocksToConfirm then (d, sorted)
  else
    let sorted := if sorted.length = 0 then samples.flatten.mergeSort ge else sorted
    if sorted.length < 11 then (d, sorted)
    else
      let index := min (estimateIndex samples nBlocksToConfirm.toNat) (sorted.length - 1)
      (sorted.getD index d, sorted)

end Estimate

/-- `CMinerPolicyEstimator`. -/
structure CMinerPolicyEstimator where
  history : List CBlockAverage
  sortedFeeSamples : List CFeeRate := []
  sortedPrioritySamples : List ℚ := []
  nBestSeenHeight : Int32 := 0

namespace CMinerPolicyEstimator

/-- `CMinerPolicyEstimator(nEntries)`. -/
def ofEntries (nEntries : Nat) : CMinerPolicyEstimator where
  history := List.replicate nEntries {}

/-- `std::greater<CFeeRate>`, or equal. -/
def geFee (a b : CFeeRate) : Bool := b.nSatoshisPerK ≤ a.nSatoshisPerK

/-- `std::greater<double>`, or equal. -/
def gePriority (a b : ℚ) : Bool := b ≤ a

/-- The samples of the buckets. -/
def feeSamples (history : List CBlockAverage) : List (List CFeeRate) :=
  history.map fun average => average.feeSamples.toList

def prioritySamples (history : List CBlockAverage) : List (List ℚ) :=
  history.map fun average => average.prioritySamples.toList

/-- `estimateFee`. -/
def estimateFee (est : CMinerPolicyEstimator) (nBlocksToConfirm : Int) :
    CFeeRate × CMinerPolicyEstimator :=
  let (fee, sorted) :=
    estimateFrom geFee ⟨0⟩ (feeSamples est.history) est.sortedFeeSamples nBlocksToConfirm
  (fee, { est with sortedFeeSamples := sorted })

/-- `estimatePriority`. -/
def estimatePriority (est : CMinerPolicyEstimator) (nBlocksToConfirm : Int) :
    ℚ × CMinerPolicyEstimator :=
  let (priority, sorted) := estimateFrom gePriority (-1) (prioritySamples est.history)
    est.sortedPrioritySamples nBlocksToConfirm
  (priority, { est with sortedPrioritySamples := sorted })

/-- `seenTxConfirm`; `none` is the failed assertion. -/
def seenTxConfirm (history : List CBlockAverage) (feeRate minRelayFee : CFeeRate) (dPriority : ℚ)
    (nBlocksAgo : Nat) : Option (List CBlockAverage) :=
  if history.length = 0 then none
  else
    -- the last bucket records everything else
    let nBlocksTruncated := min nBlocksAgo (history.length - 1)
    let sufficientFee : Bool := minRelayFee.nSatoshisPerK < feeRate.nSatoshisPerK
    let sufficientPriority := allowFree dPriority
    if sufficientFee && !sufficientPriority && CBlockAverage.areSaneFee feeRate minRelayFee then
      some (history.modify nBlocksTruncated fun average => average.recordFee feeRate)
    else if sufficientPriority && !sufficientFee && CBlockAverage.areSanePriority dPriority then
      some (history.modify nBlocksTruncated fun average => average.recordPriority dPriority)
    else some history

/-- One turn of the first loop of `seenBlock`, over the entries of the block; `none` is the
exception of `at`. -/
def bucketEntry (nBlockHeight : Int32) (buckets : List (List CTxMemPoolEntry))
    (entry : CTxMemPoolEntry) : Option (List (List CTxMemPoolEntry)) :=
  let delta := (nBlockHeight.toUInt32 - entry.nHeight).toInt32
  if delta ≤ 0 then some buckets
  else
    let delta := delta.toInt.toNat
    let delta := if buckets.length ≤ delta - 1 then buckets.length else delta
    if delta = 0 then none else some (buckets.modify (delta - 1) fun e => e ++ [entry])

/-- At most ten entries of a bucket, after `random_shuffle`. -/
def subsample (shuffle : List CTxMemPoolEntry → List CTxMemPoolEntry) (e : List CTxMemPoolEntry) :
    List CTxMemPoolEntry :=
  if 10 < e.length then (shuffle e).take 10 else e

/-- One sampled entry of bucket `i`. -/
def seenEntry (minRelayFee : CFeeRate) (i : Nat) (history : List CBlockAverage)
    (entry : CTxMemPoolEntry) : Option (List CBlockAverage) :=
  let feeRate := CFeeRate.ofFee entry.nFee (UInt64.ofNat entry.getTxSize)
  (entry.getPriority entry.nHeight).bind fun dPriority =>
    seenTxConfirm history feeRate minRelayFee dPriority i

/-- One turn of the second loop of `seenBlock`. -/
def seenBucket (minRelayFee : CFeeRate)
    (shuffle : Nat → List CTxMemPoolEntry → List CTxMemPoolEntry) (history : List CBlockAverage)
    (bucket : List CTxMemPoolEntry × Nat) : Option (List CBlockAverage) :=
  (subsample (shuffle bucket.2) bucket.1).foldlM (seenEntry minRelayFee bucket.2) history

/-- The estimates that `seenBlock` logs for bucket `i`. -/
def logEstimates (est : CMinerPolicyEstimator) (i : Nat) : CMinerPolicyEstimator :=
  if ((feeSamples est.history).getD i []).length +
      ((prioritySamples est.history).getD i []).length = 0 then est
  else ((est.estimateFee (i + 1)).2.estimatePriority (i + 1)).2

/-- `seenBlock`, with the shuffle of each bucket; `none` is an exception, which only an
estimator without buckets or an entry whose outputs are out of range can raise. -/
def seenBlock (est : CMinerPolicyEstimator) (entries : List CTxMemPoolEntry)
    (nBlockHeight : Int32) (minRelayFee : CFeeRate)
    (shuffle : Nat → List CTxMemPoolEntry → List CTxMemPoolEntry) :
    Option CMinerPolicyEstimator :=
  -- side chains and reorganizations do not count
  if nBlockHeight ≤ est.nBestSeenHeight then some est
  else do
    let buckets ← entries.foldlM (bucketEntry nBlockHeight) (List.replicate est.history.length [])
    let history ← buckets.zipIdx.foldlM (seenBucket minRelayFee shuffle) est.history
    let est : CMinerPolicyEstimator := { history := history, nBestSeenHeight := nBlockHeight }
    some ((List.range history.length).foldl logEstimates est)

end CMinerPolicyEstimator

/-! ## What an estimate is -/

section Estimate

variable {α : Type} (ge : α → α → Bool) (d : α)

/-- The estimate for bucket `n`, from the samples alone. -/
def estimateOf (samples : List (List α)) (n : Nat) : α :=
  if samples.flatten.length < 11 then d
  else (samples.flatten.mergeSort ge).getD
    (min (estimateIndex samples n) (samples.flatten.length - 1)) d

/-- The cache is empty, or it holds the samples in order. -/
def CoherentCache (samples : List (List α)) (sorted : List α) : Prop :=
  sorted = [] ∨ sorted = samples.flatten.mergeSort ge

variable {ge d} {samples : List (List α)} {sorted : List α}

/-- What the cache is after the test for it. -/
theorem CoherentCache.refill (h : CoherentCache ge samples sorted) :
    (if sorted.length = 0 then samples.flatten.mergeSort ge else sorted) =
      samples.flatten.mergeSort ge := by
  rcases h with rfl | rfl
  · rfl
  · split <;> rfl

/-- An estimate keeps the cache coherent. -/
theorem CoherentCache.estimateFrom (h : CoherentCache ge samples sorted) (n : Int) :
    CoherentCache ge samples (estimateFrom ge d samples sorted n).2 := by
  unfold Hivemind.estimateFrom
  dsimp only
  rw [h.refill]
  split_ifs
  · exact h
  · exact Or.inr rfl
  · exact Or.inr rfl

/-- **A coherent cache does not show in an estimate.** -/
theorem estimateFrom_eq (h : CoherentCache ge samples sorted) {n : Nat} (hn : 1 ≤ n)
    (hle : n ≤ samples.length) :
    (estimateFrom ge d samples sorted n).1 = estimateOf ge d samples (n - 1) := by
  have hindex : ((n : Int) - 1).toNat = n - 1 := by omega
  unfold estimateFrom estimateOf
  dsimp only
  rw [if_neg (by omega), h.refill, List.length_mergeSort, hindex]
  split_ifs <;> rfl

theorem estimateOf_of_few (h : samples.flatten.length < 11) (n : Nat) :
    estimateOf ge d samples n = d := if_pos h

/-- With enough samples an estimate is one of them. -/
theorem estimateOf_mem (h : 11 ≤ samples.flatten.length) (n : Nat) :
    estimateOf ge d samples n ∈ samples.flatten := by
  have hlt : min (estimateIndex samples n) (samples.flatten.length - 1) <
      (samples.flatten.mergeSort ge).length := by
    rw [List.length_mergeSort]
    omega
  rw [estimateOf, if_neg (by omega), List.getD_eq_getElem _ _ hlt]
  exact List.mem_mergeSort.mp (List.getElem_mem hlt)

theorem estimateIndex_le_succ (samples : List (List α)) (n : Nat) :
    estimateIndex samples n ≤ estimateIndex samples (n + 1) := by
  have hsum : ((samples.take (n + 1)).map List.length).sum =
      ((samples.take n).map List.length).sum + (samples.getD n []).length := by
    rw [List.take_add_one, List.map_append, List.sum_append, List.getD_eq_getElem?_getD]
    cases samples[n]? <;> simp
  rw [estimateIndex, estimateIndex, hsum]
  omega

/-- **Estimates fall** with the number of blocks. -/
theorem estimateOf_anti (htrans : ∀ a b c, ge a b = true → ge b c = true → ge a c = true)
    (htotal : ∀ a b, (ge a b || ge b a) = true) {n m : Nat} (hle : n ≤ m) :
    ge (estimateOf ge d samples n) (estimateOf ge d samples m) = true := by
  have hrefl : ∀ a, ge a a = true := fun a => by simpa using htotal a a
  rw [estimateOf, estimateOf]
  split_ifs with hfew
  · exact hrefl d
  have hindex : estimateIndex samples n ≤ estimateIndex samples m :=
    monotone_nat_of_le_succ (estimateIndex_le_succ samples) hle
  have hsorted := List.pairwise_mergeSort htrans htotal samples.flatten
  have hlen : (samples.flatten.mergeSort ge).length = samples.flatten.length :=
    List.length_mergeSort _
  rw [List.getD_eq_getElem _ _ (by omega), List.getD_eq_getElem _ _ (by omega)]
  rcases Nat.lt_or_ge (min (estimateIndex samples n) (samples.flatten.length - 1))
    (min (estimateIndex samples m) (samples.flatten.length - 1)) with hlt | hge
  · exact List.pairwise_iff_getElem.mp hsorted _ _ (by omega) (by omega) hlt
  · simp only [show min (estimateIndex samples n) (samples.flatten.length - 1) =
      min (estimateIndex samples m) (samples.flatten.length - 1) by omega]
    exact hrefl _

end Estimate

namespace CMinerPolicyEstimator

/-! ## Runs -/

/-- A call of the estimator. -/
inductive Call
  | seenBlock (entries : List CTxMemPoolEntry) (nBlockHeight : Int32) (minRelayFee : CFeeRate)
      (shuffle : Nat → List CTxMemPoolEntry → List CTxMemPoolEntry)
  | estimateFee (nBlocksToConfirm : Int)
  | estimatePriority (nBlocksToConfirm : Int)

def step (est : CMinerPolicyEstimator) : Call → Option CMinerPolicyEstimator
  | .seenBlock entries nBlockHeight minRelayFee shuffle =>
    est.seenBlock entries nBlockHeight minRelayFee shuffle
  | .estimateFee n => some (est.estimateFee n).2
  | .estimatePriority n => some (est.estimatePriority n).2

def run (est : CMinerPolicyEstimator) (calls : List Call) : Option CMinerPolicyEstimator :=
  calls.foldlM step est

/-- The caches hold nothing that is out of date. -/
structure Coherent (est : CMinerPolicyEstimator) : Prop where
  fees : CoherentCache geFee (feeSamples est.history) est.sortedFeeSamples
  priorities : CoherentCache gePriority (prioritySamples est.history) est.sortedPrioritySamples

theorem coherent_ofEntries (nEntries : Nat) : Coherent (ofEntries nEntries) :=
  ⟨Or.inl rfl, Or.inl rfl⟩

theorem Coherent.estimateFee {est : CMinerPolicyEstimator} (h : Coherent est) (n : Int) :
    Coherent (est.estimateFee n).2 :=
  ⟨h.fees.estimateFrom n, h.priorities⟩

theorem Coherent.estimatePriority {est : CMinerPolicyEstimator} (h : Coherent est) (n : Int) :
    Coherent (est.estimatePriority n).2 :=
  ⟨h.fees, h.priorities.estimateFrom n⟩

theorem Coherent.logEstimates {est : CMinerPolicyEstimator} (h : Coherent est) (i : Nat) :
    Coherent (est.logEstimates i) := by
  rw [CMinerPolicyEstimator.logEstimates]
  split
  · exact h
  · exact (h.estimateFee _).estimatePriority _

theorem Coherent.foldl_logEstimates {est : CMinerPolicyEstimator} (h : Coherent est)
    (is : List Nat) : Coherent (is.foldl CMinerPolicyEstimator.logEstimates est) := by
  induction is generalizing est with
  | nil => exact h
  | cons i is ih => exact ih (h.logEstimates i)

/-- A block that counts leaves the caches empty before it logs its estimates. -/
theorem Coherent.seenBlock {est est' : CMinerPolicyEstimator} (h : Coherent est)
    {entries : List CTxMemPoolEntry} {nBlockHeight : Int32} {minRelayFee : CFeeRate}
    {shuffle : Nat → List CTxMemPoolEntry → List CTxMemPoolEntry}
    (hseen : est.seenBlock entries nBlockHeight minRelayFee shuffle = some est') :
    Coherent est' := by
  unfold CMinerPolicyEstimator.seenBlock at hseen
  split_ifs at hseen
  · cases hseen
    exact h
  · obtain ⟨buckets, -, hseen⟩ := Option.bind_eq_some_iff.mp hseen
    obtain ⟨history, -, hseen⟩ := Option.bind_eq_some_iff.mp hseen
    cases hseen
    exact Coherent.foldl_logEstimates ⟨Or.inl rfl, Or.inl rfl⟩ _

theorem Coherent.step {est est' : CMinerPolicyEstimator} (h : Coherent est) {call : Call}
    (hstep : est.step call = some est') : Coherent est' := by
  cases call with
  | seenBlock entries nBlockHeight minRelayFee shuffle => exact h.seenBlock hstep
  | estimateFee n =>
      cases hstep
      exact h.estimateFee n
  | estimatePriority n =>
      cases hstep
      exact h.estimatePriority n

/-- **The caches stay coherent** over every run. -/
theorem Coherent.run {est est' : CMinerPolicyEstimator} (h : Coherent est) {calls : List Call}
    (hrun : est.run calls = some est') : Coherent est' := by
  induction calls generalizing est with
  | nil =>
      cases hrun
      exact h
  | cons call calls ih =>
      rw [CMinerPolicyEstimator.run, List.foldlM_cons] at hrun
      obtain ⟨next, hstep, hrest⟩ := Option.bind_eq_some_iff.mp hrun
      exact ih (h.step hstep) hrest

/-! ### The number of buckets -/

theorem length_foldlM {α β : Type} {f : List β → α → Option (List β)}
    (hf : ∀ bs a bs', f bs a = some bs' → bs'.length = bs.length) {as : List α} {bs bs' : List β}
    (h : as.foldlM f bs = some bs') : bs'.length = bs.length := by
  induction as generalizing bs with
  | nil =>
      cases h
      rfl
  | cons a as ih =>
      rw [List.foldlM_cons] at h
      obtain ⟨next, hnext, hrest⟩ := Option.bind_eq_some_iff.mp h
      rw [ih hrest, hf _ _ _ hnext]

theorem length_seenTxConfirm {history history' : List CBlockAverage}
    {feeRate minRelayFee : CFeeRate} {dPriority : ℚ} {nBlocksAgo : Nat}
    (h : seenTxConfirm history feeRate minRelayFee dPriority nBlocksAgo = some history') :
    history'.length = history.length := by
  unfold seenTxConfirm at h
  dsimp only at h
  split_ifs at h
  · cases h
    exact List.length_modify ..
  · cases h
    exact List.length_modify ..
  · cases h
    rfl

theorem history_logEstimates (est : CMinerPolicyEstimator) (is : List Nat) :
    (is.foldl logEstimates est).history = est.history := by
  induction is generalizing est with
  | nil => rfl
  | cons i is ih =>
      rw [List.foldl_cons, ih, logEstimates]
      split <;> rfl

theorem length_step {est est' : CMinerPolicyEstimator} {call : Call}
    (h : est.step call = some est') : est'.history.length = est.history.length := by
  cases call with
  | seenBlock entries nBlockHeight minRelayFee shuffle =>
      rw [step, seenBlock] at h
      split_ifs at h
      · cases h
        rfl
      · obtain ⟨buckets, -, h⟩ := Option.bind_eq_some_iff.mp h
        obtain ⟨history, hhistory, h⟩ := Option.bind_eq_some_iff.mp h
        cases h
        rw [history_logEstimates]
        refine length_foldlM (fun bs bucket bs' hbucket => ?_) hhistory
        refine length_foldlM (fun as entry as' hentry => ?_) hbucket
        obtain ⟨dPriority, -, hconfirm⟩ := Option.bind_eq_some_iff.mp hentry
        exact length_seenTxConfirm hconfirm
  | estimateFee n =>
      cases h
      rfl
  | estimatePriority n =>
      cases h
      rfl

/-- An estimator keeps its number of buckets. -/
theorem length_history {nEntries : Nat} {calls : List Call} {est : CMinerPolicyEstimator}
    (hrun : (ofEntries nEntries).run calls = some est) : est.history.length = nEntries := by
  have hkept : ∀ (calls : List Call) (start : CMinerPolicyEstimator), start.run calls = some est →
      est.history.length = start.history.length := by
    intro calls
    induction calls with
    | nil =>
        intro start h
        cases h
        rfl
    | cons call calls ih =>
        intro start h
        rw [run, List.foldlM_cons] at h
        obtain ⟨next, hstep, hrest⟩ := Option.bind_eq_some_iff.mp h
        rw [ih next hrest, length_step hstep]
  rw [hkept calls _ hrun, ofEntries, List.length_replicate]

/-! ## Estimates after a run -/

theorem geFee_trans (a b c : CFeeRate) (hab : geFee a b = true) (hbc : geFee b c = true) :
    geFee a c = true := by
  rw [geFee, decide_eq_true_eq] at *
  exact Int64.le_trans hbc hab

theorem geFee_total (a b : CFeeRate) : (geFee a b || geFee b a) = true := by
  rw [geFee, geFee, Bool.or_eq_true, decide_eq_true_eq, decide_eq_true_eq]
  exact Int64.le_total ..

/-- In a reachable estimator an estimate is made from the samples alone. -/
theorem estimateFee_eq {nEntries : Nat} {calls : List Call} {est : CMinerPolicyEstimator}
    (hrun : (ofEntries nEntries).run calls = some est) {n : Nat} (hn : 1 ≤ n)
    (hle : n ≤ est.history.length) :
    (est.estimateFee n).1 = estimateOf geFee ⟨0⟩ (feeSamples est.history) (n - 1) := by
  have hcoherent := (coherent_ofEntries nEntries).run hrun
  exact estimateFrom_eq hcoherent.fees hn (by rwa [feeSamples, List.length_map])

/-- **Coherent estimates.**  After every run an estimated fee depends on the samples alone,
is one of them if there are at least eleven and zero otherwise, and falls with the number of
blocks. -/
theorem estimateFee_spec (nEntries : Nat) (calls : List Call) (est : CMinerPolicyEstimator)
    (hrun : (ofEntries nEntries).run calls = some est) (n : Nat) (hn : 1 ≤ n)
    (hle : n ≤ est.history.length) :
    (∀ nEntries' calls' est', (ofEntries nEntries').run calls' = some est' →
      feeSamples est'.history = feeSamples est.history →
      (est'.estimateFee n).1 = (est.estimateFee n).1) ∧
    (11 ≤ (feeSamples est.history).flatten.length →
      (est.estimateFee n).1 ∈ (feeSamples est.history).flatten) ∧
    ((feeSamples est.history).flatten.length < 11 → (est.estimateFee n).1 = ⟨0⟩) ∧
    ∀ m, n ≤ m → m ≤ est.history.length →
      (est.estimateFee m).1.nSatoshisPerK ≤ (est.estimateFee n).1.nSatoshisPerK := by
  rw [estimateFee_eq hrun hn hle]
  refine ⟨fun nEntries' calls' est' hrun' hsame => ?_, fun h => estimateOf_mem h _,
    fun h => estimateOf_of_few h _, fun m hnm hm => ?_⟩
  · have hlen : est'.history.length = est.history.length := by
      simpa [feeSamples] using congrArg List.length hsame
    rw [estimateFee_eq hrun' hn (by omega), hsame]
  · rw [estimateFee_eq hrun (hn.trans hnm) hm]
    exact decide_eq_true_iff.mp
      (estimateOf_anti geFee_trans geFee_total (show n - 1 ≤ m - 1 by omega))

/-- Twelve transactions of the block before and twelve of the one before that. -/
def exampleConfirmed : List CTxMemPoolEntry :=
  (List.range 24).map fun i =>
    { tx := {}, nFee := Int64.ofNat (100 + i), nHeight := if i % 2 = 0 then 4 else 3 }

theorem estimateFee_example :
    ∃ est, (ofEntries 2).run [.seenBlock exampleConfirmed 5 ⟨1000⟩ (fun _ e => e.reverse),
        .estimateFee 1] = some est ∧
      (est.estimateFee 2).1.nSatoshisPerK ≤ (est.estimateFee 1).1.nSatoshisPerK := by
  have hsome : ((ofEntries 2).run [.seenBlock exampleConfirmed 5 ⟨1000⟩ (fun _ e => e.reverse),
      .estimateFee 1]).isSome := by decide +kernel
  obtain ⟨est, hrun⟩ := Option.isSome_iff_exists.mp hsome
  have hlen := length_history hrun
  have hspec := estimateFee_spec 2 _ est hrun 1 le_rfl (by omega)
  exact ⟨est, hrun, hspec.2.2.2 2 (by omega) (by omega)⟩

end CMinerPolicyEstimator
end Hivemind
