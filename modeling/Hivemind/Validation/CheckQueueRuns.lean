import Mathlib.Algebra.Order.BigOperators.Group.Finset
import Hivemind.Validation.Balance
import Hivemind.Validation.BlocksSpec
import Hivemind.Validation.CheckQueueInv

/-!
# Runs of the check queue

What holds of every interleaving of the threads, and what it comes to for `ConnectBlock`.

That `Wait` returns the right answer is the invariant at the moment of its return.  That it
returns at all needs two things more: some thread can always take a turn while the master waits,
which is that no wake-up is lost, and the turns are bounded by the work there is, which every
turn lowers.  Fewer than `2 ^ 32` checks are added between two waits; a block has far fewer
inputs.

A block connected with the queue hands the checks of each transaction over and goes on, where one
connected without threads runs them at once and stops at the first failure; the two are compared
transaction by transaction.

* `answers_right`: **what `Wait` returns is whether all the checks added since the last time
  succeed**, in any interleaving; no check is run twice.
* `idle_between`: between two uses the queue is as the constructor of `CCheckQueueControl`
  asserts.
* `wait_ends`: no wake-up is lost, and `Wait` ends.
* `parallel_iff_serial`, `connectBlock_serial`: connecting a block with the queue accepts what
  connecting it without threads accepts.
-/

namespace Hivemind
namespace CCheckQueue

open Runs Outcomes

variable {T ι : Type} {check : T → Bool} {s : System T ι}

/-! ## No wake-up is lost -/

/-- No critical section is open, and the master does not wait for work that nobody has. -/
structure Awake (s : System T ι) : Prop where
  free : ∀ t, s.place t ≠ .holding
  notified : s.place none = .waiting → s.q.queue = [] ∧ s.q.nTodo ≠ 0

namespace Awake

theorem new (nBatchSize : UInt32) : Awake (System.new nBatchSize : System T ι) := by
  constructor <;> simp [System.new]

theorem wake_ne_holding {p : Place T} (hp : p ≠ .holding) : p.wake ≠ .holding := by
  cases p <;> simp_all [Place.wake]

variable [DecidableEq ι] {t : Option ι}

/-- One thread goes anywhere else. -/
theorem move (h : Awake s) {p : Place T} {hist : History T} (hp : p ≠ .holding)
    (hwaits : p ≠ .waiting) :
    Awake { s with place := Function.update s.place t p, hist } where
  free := (Function.forall_update_iff _ fun _ (p : Place T) => p ≠ .holding).mpr
    ⟨hp, fun u _ => h.free u⟩
  notified := by
    intro hnone
    by_cases ht : none = t
    · subst ht
      exact absurd hnone (by simpa using hwaits)
    · exact h.notified (by simpa [Function.update_of_ne ht] using hnone)

/-- The end of a critical section. -/
theorem proceed (hfree : ∀ u ≠ t, s.place u ≠ .holding)
    (hnotified : t ≠ none → s.place none = .waiting → s.q.queue = [] ∧ s.q.nTodo ≠ 0) :
    Awake (s.proceed t) := by
  have hother (p : Place T) (hp : p ≠ .holding) (u : Option ι) :
      Function.update s.place t p u ≠ .holding :=
    (Function.forall_update_iff _ fun _ (p : Place T) => p ≠ .holding).mpr ⟨hp, hfree⟩ u
  have hnone (p : Place T) (hp : t = none → p ≠ .waiting)
      (hwait : Function.update s.place t p none = .waiting) :
      s.q.queue = [] ∧ s.q.nTodo ≠ 0 := by
    by_cases ht : t = none
    · subst ht
      exact absurd hwait (by simpa using hp)
    · exact hnotified ht (by simpa [Function.update_of_ne (Ne.symm ht)] using hwait)
  by_cases hqueue : s.q.queue = []
  · by_cases hdone : ((t.isNone || s.q.fQuit) && s.q.nTodo == 0) = true
    · rw [System.proceed_returns hqueue hdone]
      exact ⟨hother _ (by simp), hnone _ (by simp)⟩
    · rw [System.proceed_waits hqueue hdone]
      refine ⟨hother _ (by simp), fun hwait => ⟨hqueue, ?_⟩⟩
      by_cases ht : t = none
      · subst ht
        simpa using hdone
      · exact (hnotified ht (by simpa [Function.update_of_ne (Ne.symm ht)] using hwait)).2
  · rw [System.proceed_takes hqueue]
    exact ⟨hother _ (by simp), fun hwait => absurd (hnone _ (by simp) hwait).1 hqueue⟩

/-- The master's place does not change when another thread is at the lock. -/
theorem waiting_of_cleanUp {n : Nat} {fOk : Bool} (ht : t ≠ none)
    (hwait : (s.cleanUp t n fOk).place none = .waiting) : s.place none = .waiting := by
  rcases System.cleanUp_place (s := s) (n := n) (b := fOk) ht.symm with heq | heq
  · rwa [heq] at hwait
  · rw [heq] at hwait
    exact absurd hwait (Place.wake_ne_waiting _)

/-- **Each step keeps it.** -/
theorem step [Fintype ι] (h : Awake s) {a : Act T ι} {s' : System T ι}
    (hstep : CCheckQueue.step check s a = some s') : Awake s' := by
  cases a with
  | enter t =>
      cases hplace : s.place t <;> simp only [CCheckQueue.step, hplace, reduceCtorEq] at hstep
      case outside =>
        obtain rfl := Option.some.inj hstep
        exact h.move (by simp) (by simp)
  | lock t =>
      cases hplace : s.place t <;> simp only [CCheckQueue.step, hplace, reduceCtorEq] at hstep
      case atLock n fOk =>
        obtain rfl := Option.some.inj hstep
        apply proceed
        · intro u hu
          rcases System.cleanUp_place (s := s) (n := n) (b := fOk) hu with heq | heq
          · rw [heq]
            exact h.free u
          · rw [heq]
            exact wake_ne_holding (h.free u)
        · intro ht hwait
          obtain ⟨hqueue, htodo⟩ := h.notified (waiting_of_cleanUp ht hwait)
          refine ⟨by simpa using hqueue, ?_⟩
          rcases System.cleanUp_nTodo ht hwait with heq | hne
          · rwa [heq]
          · exact hne
  | wake t =>
      cases hplace : s.place t <;> simp only [CCheckQueue.step, hplace, reduceCtorEq] at hstep
      case waiting =>
        obtain rfl := Option.some.inj hstep
        exact h.move (by simp) (by simp)
  | relock t =>
      cases hplace : s.place t <;> simp only [CCheckQueue.step, hplace, reduceCtorEq] at hstep
      case woken =>
        obtain rfl := Option.some.inj hstep
        apply proceed
        · intro u hu
          simpa [Function.update_of_ne hu] using h.free u
        · intro ht hwait
          exact h.notified (by simpa [Function.update_of_ne (Ne.symm ht)] using hwait)
  | exec t =>
      cases hplace : s.place t <;> simp only [CCheckQueue.step, hplace, reduceCtorEq] at hstep
      case working n cs fOk =>
        cases cs with
        | nil =>
            obtain rfl := Option.some.inj hstep
            exact h.move (by simp) (by simp)
        | cons c cs =>
            cases fOk with
            | true =>
                obtain rfl := Option.some.inj hstep
                exact h.move (by simp) (by simp)
            | false =>
                obtain rfl := Option.some.inj hstep
                exact h.move (by simp) (by simp)
  | add vChecks woken =>
      cases hplace : s.place none <;> simp only [CCheckQueue.step, hplace, reduceCtorEq] at hstep
      case outside =>
        split at hstep
        · obtain rfl := Option.some.inj hstep
          refine ⟨fun u => ?_, fun hwait => ?_⟩
          · rcases notifyWorkers_place s.place vChecks.length woken u with heq | heq
            · simpa [heq] using h.free u
            · simpa [heq] using wake_ne_holding (h.free u)
          · rcases notifyWorkers_place s.place vChecks.length woken none with heq | heq
            · simp [heq, hplace] at hwait
            · exact absurd (heq.symm.trans hwait) (Place.wake_ne_waiting _)
        · simp at hstep

end Awake

/-! ## The work that is left -/

/-- How many turns a thread can still take with what it has. -/
def Place.turns : Place T → Nat
  | outside | waiting | holding => 0
  | woken => 1
  | atLock _ _ => 2
  | working _ vChecks _ => 3 + vChecks.length

/-- How many turns all threads can take with what there is. -/
def System.work [Fintype ι] (s : System T ι) : Nat :=
  5 * s.q.queue.length + tally Place.turns s.place

/-- The steps that are turns: a thread gets on with its own code. -/
def Act.isTurn : Act T ι → Bool
  | lock _ | relock _ | exec _ => true
  | _ => false

/-- What the other steps add to the work: a start, a wake-up, or new checks. -/
def Act.work [Fintype ι] : Act T ι → Nat
  | enter _ => 2
  | wake _ => 1
  | add vChecks _ => 5 * vChecks.length + Fintype.card (Option ι)
  | _ => 0

section Work

variable [Fintype ι]

theorem turns_wake_le (p : Place T) : p.wake.turns ≤ p.turns + 1 := by
  cases p <;> simp [Place.wake, Place.turns]

/-- Wake-ups add at most one turn for each thread. -/
theorem turns_le_of_wakes {place : Option ι → Place T}
    (hplace : ∀ t, place t = s.place t ∨ place t = (s.place t).wake) :
    tally Place.turns place ≤ tally Place.turns s.place + Fintype.card (Option ι) := by
  have hle : ∀ t ∈ Finset.univ, (place t).turns ≤ (s.place t).turns + 1 := by
    intro t _
    rcases hplace t with heq | heq
    · simp [heq]
    · simpa [heq] using turns_wake_le (s.place t)
  calc tally Place.turns place ≤ ∑ t, ((s.place t).turns + 1) := Finset.sum_le_sum hle
    _ = tally Place.turns s.place + Fintype.card (Option ι) := by
      simp [tally, Finset.sum_add_distrib, Finset.card_univ]

variable [DecidableEq ι] {t : Option ι}

theorem work_cleanUp {n : Nat} {fOk : Bool} (hplace : s.place t = .atLock n fOk) :
    (s.cleanUp t n fOk).work + 1 ≤ s.work := by
  have hmove := tally_update Place.turns s.place t .holding
  simp only [hplace, Place.turns] at hmove
  by_cases hn : n = 0
  · simp only [System.cleanUp, hn, System.work]
    simp only [ne_eq, not_true_eq_false, if_false]
    omega
  · by_cases hwake : (s.q.nTodo - UInt32.ofNat n == 0 && t.isSome) = true
    · have hmaster := tally_update Place.turns (Function.update s.place t .holding) none
        (Function.update s.place t .holding none).wake
      have hle := turns_wake_le (Function.update s.place t .holding none)
      simp only [System.cleanUp, hn, ne_eq, not_false_eq_true, if_true, hwake, System.work]
      omega
    · simp only [System.cleanUp, hn, ne_eq, not_false_eq_true, if_true, hwake, System.work]
      simp only [Bool.false_eq_true, if_false]
      omega

theorem work_proceed (hplace : s.place t = .holding) : (s.proceed t).work ≤ s.work := by
  by_cases hqueue : s.q.queue = []
  · by_cases hdone : ((t.isNone || s.q.fQuit) && s.q.nTodo == 0) = true
    · have hmove := tally_update Place.turns s.place t .outside
      simp only [hplace, Place.turns] at hmove
      rw [System.proceed_returns hqueue hdone]
      simp only [System.work]
      omega
    · have hmove := tally_update Place.turns s.place t .waiting
      simp only [hplace, Place.turns] at hmove
      rw [System.proceed_waits hqueue hdone]
      simp only [System.work]
      omega
  · have hpos := nNow_pos s.q
    have hle := nNow_le s.q hqueue
    have hmove := tally_update Place.turns s.place t
      (.working s.q.nNow (s.q.queue.take s.q.nNow) s.q.fAllOk)
    simp only [hplace, Place.turns, List.length_take, Nat.min_eq_left hle] at hmove
    rw [System.proceed_takes hqueue]
    simp only [System.work, List.length_drop]
    omega

/-- **A turn lowers the work**, and the other steps raise it by what they bring. -/
theorem work_step {a : Act T ι} {s' : System T ι} (hstep : step check s a = some s') :
    s'.work + (if a.isTurn then 1 else 0) ≤ s.work + a.work := by
  cases a with
  | enter t =>
      cases hplace : s.place t <;> simp only [step, hplace, reduceCtorEq] at hstep
      case outside =>
        obtain rfl := Option.some.inj hstep
        have hmove := tally_update Place.turns s.place t (.atLock 0 true)
        simp only [hplace, Place.turns] at hmove
        simp only [System.work, Act.isTurn, Act.work, Bool.false_eq_true, if_false]
        omega
  | lock t =>
      cases hplace : s.place t <;> simp only [step, hplace, reduceCtorEq] at hstep
      case atLock n fOk =>
        obtain rfl := Option.some.inj hstep
        have hclean := work_cleanUp hplace
        have hproceed := work_proceed (s := s.cleanUp t n fOk) (t := t) System.cleanUp_place_self
        simp only [Act.isTurn, Act.work, if_true]
        omega
  | wake t =>
      cases hplace : s.place t <;> simp only [step, hplace, reduceCtorEq] at hstep
      case waiting =>
        obtain rfl := Option.some.inj hstep
        have hmove := tally_update Place.turns s.place t .woken
        simp only [hplace, Place.turns] at hmove
        simp only [System.work, Act.isTurn, Act.work, Bool.false_eq_true, if_false]
        omega
  | relock t =>
      cases hplace : s.place t <;> simp only [step, hplace, reduceCtorEq] at hstep
      case woken =>
        obtain rfl := Option.some.inj hstep
        have hmove := tally_update Place.turns s.place t .holding
        simp only [hplace, Place.turns] at hmove
        have hproceed := work_proceed (t := t) (s := { s with
          q := { s.q with nIdle := s.q.nIdle - 1 }
          place := Function.update s.place t .holding }) (by simp)
        simp only [Act.isTurn, Act.work, if_true]
        simp only [System.work] at hproceed ⊢
        omega
  | exec t =>
      cases hplace : s.place t <;> simp only [step, hplace, reduceCtorEq] at hstep
      case working n cs fOk =>
        cases cs with
        | nil =>
            obtain rfl := Option.some.inj hstep
            have hmove := tally_update Place.turns s.place t (.atLock n fOk)
            simp only [hplace, Place.turns, List.length_nil] at hmove
            simp only [System.work, Act.isTurn, Act.work, if_true]
            omega
        | cons c cs =>
            have hmove b := tally_update Place.turns s.place t (.working n cs b)
            simp only [hplace, Place.turns, List.length_cons] at hmove
            cases fOk with
            | true =>
                obtain rfl := Option.some.inj hstep
                have hrun := hmove (check c)
                simp only [System.work, Act.isTurn, Act.work, if_true]
                omega
            | false =>
                obtain rfl := Option.some.inj hstep
                have hskip := hmove false
                simp only [System.work, Act.isTurn, Act.work, if_true]
                omega
  | add vChecks woken =>
      cases hplace : s.place none <;> simp only [step, hplace, reduceCtorEq] at hstep
      case outside =>
        split at hstep
        · obtain rfl := Option.some.inj hstep
          have hwakes := turns_le_of_wakes (notifyWorkers_place s.place vChecks.length woken)
          simp only [System.work, Act.isTurn, Act.work, List.length_append, List.length_reverse,
            Bool.false_eq_true, if_false]
          omega
        · simp at hstep

end Work

/-! ## Every interleaving -/

section Interleavings

variable [Fintype ι] [DecidableEq ι]

/-- Fewer than `2 ^ 32` checks are added between two waits, all through the run. -/
def BatchesFit (check : T → Bool) (nBatchSize : UInt32) (acts : List (Act T ι)) : Prop :=
  ∀ pre s', pre <+: acts → run (step check) (System.new nBatchSize) pre = some s' →
    s'.hist.added.length < 2 ^ 32

variable (check) {nBatchSize : UInt32} {acts : List (Act T ι)}

theorem inv_of_run (hrun : run (step check) (System.new nBatchSize) acts = some s)
    (hfit : BatchesFit check nBatchSize acts) : Inv check s :=
  run_inv_of_usual (Inv check) (fun s => s.hist.added.length < 2 ^ 32)
    (fun _ _ _ hinv hbound hstep => hinv.step hbound hstep) (inv_new nBatchSize) hrun hfit

theorem awake_of_run (hrun : run (step check) (System.new nBatchSize) acts = some s) : Awake s :=
  run_inv Awake (fun _ _ _ hawake hstep => hawake.step hstep) (Awake.new nBatchSize) hrun

/-- **What `Wait` returns** is whether all the checks that were added since the last time
succeed, whatever the order of the threads' steps; no check has been run twice, and when
it returns true each has been run. -/
theorem answers_right (hrun : run (step check) (System.new nBatchSize) acts = some s)
    (hfit : BatchesFit check nBatchSize acts) :
    ∀ a ∈ s.hist.answers, a.fRet = a.added.all check ∧ a.ran.Subperm a.added ∧
      (a.fRet = true → a.ran.Perm a.added) := by
  intro a ha
  have hright := (inv_of_run check hrun hfit).answers a ha
  exact ⟨hright.fRet_eq, hright.ran_once, hright.ran_all⟩

/-- **Between two uses** the queue is as the constructor of `CCheckQueueControl` asserts:
while nothing has been added, all threads that are counted are idle, nothing is left to do
and the status is that of new work. -/
theorem idle_between (hrun : run (step check) (System.new nBatchSize) acts = some s)
    (hfit : BatchesFit check nBatchSize acts) (hadded : s.hist.added = []) :
    s.q.nTotal = s.q.nIdle ∧ s.q.nTodo = 0 ∧ s.q.fAllOk = true := by
  have hinv := inv_of_run check hrun hfit
  have hfree := (awake_of_run check hrun).free
  have hle := hinv.todo_le
  rw [hadded, List.length_nil] at hle
  have hheld : tally Place.held s.place = 0 := by omega
  have hnTodo : s.q.nTodo = 0 := by
    have hqueue : s.q.queue.length = 0 := by omega
    simp [hinv.nTodo_eq, hqueue, hheld]
  have hsame : ∀ t, (s.place t).counted = (s.place t).idle := by
    intro t
    have hz := Finset.sum_eq_zero_iff.mp hheld t (Finset.mem_univ t)
    have hne := hfree t
    have hfits := hinv.fits t
    cases hp : s.place t <;> simp_all [Place.counted, Place.idle, Place.held, Place.Fits]
  have hnot : ¬ s.hist.Failed check := by
    rintro ⟨c, hc, -⟩
    have hitems := congrArg Multiset.card hinv.items
    have hpos := List.length_pos_of_mem hc
    simp only [hadded, Multiset.card_add, Multiset.coe_card, List.length_nil] at hitems
    omega
  refine ⟨?_, hnTodo, ?_⟩
  · rw [hinv.nTotal_eq, hinv.nIdle_eq]
    exact tally_congr hsame
  · by_contra hall
    exact hnot (hinv.fAllOk_false (by simpa using hall))

/-- How many checks a step adds. -/
def Act.checks : Act T ι → Nat
  | add vChecks _ => vChecks.length
  | _ => 0

theorem added_step {a : Act T ι} {s' : System T ι} (hstep : step check s a = some s') :
    s'.hist.added.length ≤ s.hist.added.length + a.checks := by
  have hproceed (s : System T ι) (t : Option ι) :
      (s.proceed t).hist.added.length ≤ s.hist.added.length := by
    unfold System.proceed
    split_ifs <;> simp [History.close]
  cases a with
  | enter t =>
      cases hplace : s.place t <;> simp only [step, hplace, reduceCtorEq] at hstep
      case outside =>
        obtain rfl := Option.some.inj hstep
        exact Nat.le_add_right _ _
  | lock t =>
      cases hplace : s.place t <;> simp only [step, hplace, reduceCtorEq] at hstep
      case atLock n fOk =>
        obtain rfl := Option.some.inj hstep
        exact (hproceed _ t).trans (by simp)
  | wake t =>
      cases hplace : s.place t <;> simp only [step, hplace, reduceCtorEq] at hstep
      case waiting =>
        obtain rfl := Option.some.inj hstep
        exact Nat.le_add_right _ _
  | relock t =>
      cases hplace : s.place t <;> simp only [step, hplace, reduceCtorEq] at hstep
      case woken =>
        obtain rfl := Option.some.inj hstep
        exact (hproceed _ t).trans (Nat.le_add_right _ _)
  | exec t =>
      cases hplace : s.place t <;> simp only [step, hplace, reduceCtorEq] at hstep
      case working n cs fOk =>
        rcases cs with _ | ⟨c, cs⟩
        · obtain rfl := Option.some.inj hstep
          exact Nat.le_add_right _ _
        · cases fOk <;> obtain rfl := Option.some.inj hstep <;> exact Nat.le_add_right _ _
  | add vChecks woken =>
      cases hplace : s.place none <;> simp only [step, hplace, reduceCtorEq] at hstep
      case outside =>
        split at hstep
        · obtain rfl := Option.some.inj hstep
          simp [Act.checks]
        · simp at hstep

/-- A run that adds fewer checks than that in all fits. -/
theorem batchesFit_of_total (htotal : (acts.map Act.checks).sum < 2 ^ 32) :
    BatchesFit check nBatchSize acts := by
  rintro pre s' ⟨post, rfl⟩ hrun
  have hadded := run_turns (fun s : System T ι => s.hist.added.length) (fun _ => false)
    Act.checks (fun _ _ _ h => by simpa using added_step check h) hrun
  simp only [System.new, List.length_nil] at hadded
  rw [List.map_append, List.sum_append] at htotal
  omega

/-- While the master is in `Wait`, some thread can take a turn. -/
theorem exists_turn (hinv : Inv check s) (hawake : Awake s) (hwait : s.place none ≠ .outside) :
    ∃ a : Act T ι, a.isTurn = true ∧ (step check s a).isSome = true := by
  -- a thread that has something to report is not blocked
  have hheld : ∀ t, (s.place t).held ≠ 0 →
      ∃ a : Act T ι, a.isTurn = true ∧ (step check s a).isSome = true := by
    intro t ht
    cases hp : s.place t with
    | atLock n fOk => exact ⟨.lock t, rfl, by simp [step, hp]⟩
    | working n cs fOk =>
        refine ⟨.exec t, rfl, ?_⟩
        rcases cs with _ | ⟨c, cs⟩
        · simp [step, hp]
        · cases fOk <;> simp [step, hp]
    | outside => simp [hp, Place.held] at ht
    | waiting => simp [hp, Place.held] at ht
    | woken => simp [hp, Place.held] at ht
    | holding => simp [hp, Place.held] at ht
  cases hp : s.place none with
  | outside => exact absurd hp hwait
  | holding => exact absurd hp (hawake.free none)
  | woken => exact ⟨.relock none, rfl, by simp [step, hp]⟩
  | atLock n fOk => exact ⟨.lock none, rfl, by simp [step, hp]⟩
  | working n cs fOk =>
      refine hheld none ?_
      have hfits := hinv.fits none
      rw [hp] at hfits ⊢
      exact hfits.1
  | waiting =>
      obtain ⟨hqueue, htodo⟩ := hawake.notified hp
      have hsome : ∃ t, (s.place t).held ≠ 0 := by
        by_contra hnone
        have hzero : tally Place.held s.place = 0 :=
          Finset.sum_eq_zero fun t _ => not_not.mp (not_exists.mp hnone t)
        exact htodo (by simp [hinv.nTodo_eq, hqueue, hzero])
      obtain ⟨t, ht⟩ := hsome
      exact hheld t ht

/-- **`Wait` ends**: as long as the master is in it some thread can take a turn, and in
every run from here the turns are bounded by the work that is left and what the other
steps bring. -/
theorem wait_ends (hrun : run (step check) (System.new nBatchSize) acts = some s)
    (hfit : BatchesFit check nBatchSize acts) (hwait : s.place none ≠ .outside) :
    (∃ a : Act T ι, a.isTurn = true ∧ (step check s a).isSome = true) ∧
      ∀ (more : List (Act T ι)) (s' : System T ι), run (step check) s more = some s' →
        more.countP Act.isTurn ≤ s.work + (more.map Act.work).sum := by
  refine ⟨exists_turn check (inv_of_run check hrun hfit) (awake_of_run check hrun) hwait, ?_⟩
  intro more s' hmore
  have hturns := run_turns System.work Act.isTurn Act.work (fun _ _ _ h => work_step h) hmore
  omega

end Interleavings

/-! ### Two checks and one worker -/

/-- The worker and the master take one check each; the master's fails. -/
def exampleActs : List (Act Nat (Fin 1)) :=
  [.enter (some 0), .lock (some 0), .add [1, 7] none, .enter none, .lock none,
    .relock (some 0), .exec none, .exec (some 0), .exec none, .exec (some 0), .lock none,
    .lock (some 0), .relock none]

theorem exampleActs_answers :
    ∃ s, run (step fun c => decide (c < 5)) (System.new 128) exampleActs = some s ∧
      s.hist.answers = [⟨false, [1, 7], [1, 7]⟩] ∧
      ∀ a ∈ s.hist.answers, a.fRet = a.added.all (fun c => decide (c < 5)) ∧
        a.ran.Subperm a.added ∧ (a.fRet = true → a.ran.Perm a.added) := by
  obtain ⟨s, hrun, hanswers⟩ :
      ∃ s, run (step fun c => decide (c < 5)) (System.new 128) exampleActs = some s ∧
        s.hist.answers = [⟨false, [1, 7], [1, 7]⟩] := ⟨_, rfl, rfl⟩
  exact ⟨s, hrun, hanswers, answers_right _ hrun (batchesFit_of_total _ (by decide))⟩

theorem exampleActs_idle :
    ∃ s, run (step fun c => decide (c < 5)) (System.new 128) exampleActs = some s ∧
      s.q.nTotal = s.q.nIdle ∧ s.q.nTodo = 0 ∧ s.q.fAllOk = true := by
  obtain ⟨s, hrun, hadded⟩ :
      ∃ s, run (step fun c => decide (c < 5)) (System.new 128) exampleActs = some s ∧
        s.hist.added = [] := ⟨_, rfl, rfl⟩
  exact ⟨s, hrun, idle_between _ hrun (batchesFit_of_total _ (by decide)) hadded⟩

/-- The master has called `Wait` and the worker sleeps. -/
theorem exampleActs_ends :
    ∃ s, run (step fun c => decide (c < 5)) (System.new 128) (exampleActs.take 4) = some s ∧
      (∃ a : Act Nat (Fin 1), a.isTurn = true ∧
        (step (fun c => decide (c < 5)) s a).isSome = true) ∧
      ∀ (more : List (Act Nat (Fin 1))) (s' : System Nat (Fin 1)),
        run (step fun c => decide (c < 5)) s more = some s' →
          more.countP Act.isTurn ≤ s.work + (more.map Act.work).sum := by
  obtain ⟨s, hrun, hplace⟩ :
      ∃ s, run (step fun c => decide (c < 5)) (System.new 128) (exampleActs.take 4) = some s ∧
        s.place none = .atLock 0 true := ⟨_, rfl, rfl⟩
  refine ⟨s, hrun, wait_ends _ hrun (batchesFit_of_total _ (by decide)) ?_⟩
  rw [hplace]
  simp

end CCheckQueue

/-! ## Connecting a block with the queue -/

section Parallel

open Outcomes CCheckQueue Codecs Runs

/-- The script of the check succeeds. -/
def CScriptCheck.succeeds (env : Env) (check : CScriptCheck) : Bool :=
  match check.run env with
  | .ok none => true
  | _ => false

/-- The node with or without script check threads. -/
def Context.withThreads (ctx : Context) (threads : Bool) : Context :=
  { ctx with scriptCheckThreads := threads }

/-- The local variables without the checks that were handed over. -/
def ConnectState.bare (st : ConnectState) : ConnectState := { st with checks := [] }

variable {env : Env} {ctx : Context} {pindex : CBlockIndex} {st st' : ConnectState}
  {tx : CTransaction} {vtx : List CTransaction}

@[simp] theorem scriptPolicy_withThreads (b : Bool) :
    scriptPolicy (ctx.withThreads b) pindex = scriptPolicy ctx pindex := rfl

@[simp] theorem toEnv_withThreads (b : Bool) : (ctx.withThreads b).toEnv = ctx.toEnv := rfl

@[simp] theorem scriptCheckThreads_withThreads (b : Bool) :
    (ctx.withThreads b).scriptCheckThreads = b := rfl

theorem succeeds_iff {check : CScriptCheck} :
    check.succeeds env = true ↔ check.run env = .ok none := by
  unfold CScriptCheck.succeeds
  split
  · simp_all
  · simp_all

theorem succeeds_eq_false {check : CScriptCheck} (h : check.run env ≠ .ok none) :
    check.succeeds env = false := by
  simpa using mt succeeds_iff.mp h

theorem scriptCheckFailed_ne_ok {check : CScriptCheck} {e : ScriptError} {α : Type} {a : α} :
    scriptCheckFailed env check e ≠ .ok a := by
  unfold scriptCheckFailed
  split_ifs
  · rcases hrun : CScriptCheck.run env
      { check with nFlags := check.nFlags &&& ~~~standardNotMandatoryVerifyFlags } with e' | r
    · simp [Except.bind]
    · cases r <;> simp [Except.bind, invalid, dos]
  · simp [dos]

theorem nothing_serial {cs : List CScriptCheck} :
    (Except.ok [] : Except Stop (List CScriptCheck)) = .ok cs ↔
      cs = [] ∧ ∃ cs', (Except.ok [] : Except Stop (List CScriptCheck)) = .ok cs' ∧
        cs'.all (·.succeeds env) = true := by
  constructor
  · rintro ⟨⟩
    exact ⟨rfl, [], rfl, rfl⟩
  · rintro ⟨rfl, -⟩
    rfl

/-- The checks that are run at once are the ones that would be collected. -/
theorem checkScripts_serial {view : CCoinsView} {flags : ScriptFlags} {i : Nat}
    {vin : List CTxIn} {cs : List CScriptCheck} :
    checkScripts env tx view flags false i vin = .ok cs ↔
      cs = [] ∧ ∃ cs', checkScripts env tx view flags true i vin = .ok cs' ∧
        cs'.all (·.succeeds env) = true := by
  induction vin generalizing i cs with
  | nil => exact nothing_serial
  | cons txin vin ih =>
      cases hout : view.getOutputFor txin.prevout with
      | none => simp [checkScripts, hout]
      | some txout =>
          simp only [checkScripts, hout, Bool.false_eq_true, if_false, if_true, map_eq_ok]
          rcases hrun : CScriptCheck.run env ⟨txout.scriptPubKey, tx, i, flags⟩ with e | r
          · have hbad := @succeeds_eq_false env ⟨txout.scriptPubKey, tx, i, flags⟩ (by simp [hrun])
            simp [Except.bind, hbad]
          · cases r with
            | none =>
                have hgood := succeeds_iff.mpr hrun
                simp [Except.bind, ih, hgood]
            | some e =>
                have hbad := @succeeds_eq_false env ⟨txout.scriptPubKey, tx, i, flags⟩
                  (by simp [hrun])
                simp [Except.bind, scriptCheckFailed_ne_ok, hbad]

theorem checkInputs_serial {view : CCoinsView} {nSpendHeight : Int} {fScriptChecks : Bool}
    {flags : ScriptFlags} {cs : List CScriptCheck} :
    checkInputs env tx view nSpendHeight fScriptChecks flags false = .ok cs ↔
      cs = [] ∧ ∃ cs', checkInputs env tx view nSpendHeight fScriptChecks flags true = .ok cs' ∧
        cs'.all (·.succeeds env) = true := by
  unfold checkInputs
  split_ifs
  · exact nothing_serial
  · simp [invalid, dos]
  · simp only [bind_eq_ok, raising_eq_ok, ite_dos_eq_ok, checkScripts_serial]
    constructor
    · rintro ⟨v, hv, w, hw, h1, h2, h3, rfl, cs', hcs, hall⟩
      exact ⟨rfl, cs', ⟨v, hv, w, hw, h1, h2, h3, hcs⟩, hall⟩
    · rintro ⟨rfl, cs', ⟨v, hv, w, hw, h1, h2, h3, hcs⟩, hall⟩
      exact ⟨v, hv, w, hw, h1, h2, h3, rfl, cs', hcs, hall⟩
  · simp only [bind_eq_ok, raising_eq_ok, ite_dos_eq_ok, Except.ok.injEq]
    constructor
    · rintro ⟨v, hv, w, hw, h1, h2, h3, rfl⟩
      exact ⟨rfl, [], ⟨v, hv, w, hw, h1, h2, h3, rfl⟩, rfl⟩
    · rintro ⟨rfl, cs', ⟨v, hv, w, hw, h1, h2, h3, rfl⟩, -⟩
      exact ⟨v, hv, w, hw, h1, h2, h3, rfl⟩

/-- **The part of a transaction that checks**: without threads it goes on when it goes on
with them and the checks that it hands over succeed. -/
theorem connectInputs_serial :
    connectInputs (ctx.withThreads false) pindex st.bare tx = .ok st' ↔
      ∃ st₁ cs, connectInputs (ctx.withThreads true) pindex st tx = .ok st₁ ∧
        st₁.checks = st.checks ++ cs ∧ cs.all (·.succeeds ctx.toEnv) = true ∧ st' = st₁.bare := by
  by_cases hcb : tx.isCoinBase = true
  · simp only [connectInputs, hcb, if_true, Except.ok.injEq]
    constructor
    · rintro rfl
      exact ⟨st, [], rfl, by simp, rfl, rfl⟩
    · rintro ⟨st₁, cs, rfl, -, -, rfl⟩
      rfl
  · by_cases hin : st.view.haveInputs tx = true
    · have hview : st.bare.view = st.view := rfl
      have hops : st.bare.nSigOps = st.nSigOps := rfl
      simp only [connectInputs, hcb, hview, hops, hin, Bool.not_true, Bool.false_eq_true, if_false,
        ite_dos_eq_ok, bind_eq_ok, raising_eq_ok, Except.ok.injEq, scriptPolicy_withThreads,
        toEnv_withThreads, scriptCheckThreads_withThreads, checkInputs_serial]
      constructor
      · rintro ⟨n, hn, hops, v, hv, w, hw, cs, ⟨rfl, cs', hcs, hall⟩, rfl⟩
        exact ⟨_, cs', ⟨n, hn, hops, v, hv, w, hw, cs', hcs, rfl⟩, rfl, hall, rfl⟩
      · rintro ⟨st₁, cs, ⟨n, hn, hops, v, hv, w, hw, cs', hcs, rfl⟩, happ, hall, rfl⟩
        obtain rfl : cs' = cs := List.append_cancel_left happ
        exact ⟨n, hn, hops, v, hv, w, hw, [], ⟨rfl, cs', hcs, hall⟩, rfl⟩
    · have hview : st.bare.view = st.view := rfl
      simp [connectInputs, hcb, hview, hin, dos]

theorem connectTx_serial :
    connectTx (ctx.withThreads false) pindex st.bare tx = .ok st' ↔
      ∃ st₁ cs, connectTx (ctx.withThreads true) pindex st tx = .ok st₁ ∧
        st₁.checks = st.checks ++ cs ∧ cs.all (·.succeeds ctx.toEnv) = true ∧ st' = st₁.bare := by
  have hbare : ({ st.bare with nSigOps := st.bare.nSigOps + getLegacySigOpCount tx } :
      ConnectState) = ConnectState.bare
        { st with nSigOps := st.nSigOps + getLegacySigOpCount tx } := rfl
  simp only [connectTx, hbare, ite_dos_eq_ok, bind_eq_ok, connectInputs_serial, connectOutputs,
    Except.ok.injEq, toEnv_withThreads]
  constructor
  · rintro ⟨hops, _, ⟨st₁, cs, hst, hchecks, hall, rfl⟩, ⟨view, undo⟩, hupd, rfl⟩
    exact ⟨_, cs, ⟨hops, st₁, hst, ⟨view, undo⟩, hupd, rfl⟩, hchecks, hall, rfl⟩
  · rintro ⟨_, cs, ⟨hops, st₁, hst, ⟨view, undo⟩, hupd, rfl⟩, hchecks, hall, rfl⟩
    exact ⟨hops, _, ⟨st₁, cs, hst, hchecks, hall, rfl⟩, ⟨view, undo⟩, hupd, rfl⟩

/-- A transaction only adds to the checks. -/
theorem checks_connectTx {st₁ : ConnectState} (h : connectTx ctx pindex st tx = .ok st₁) :
    ∃ cs, st₁.checks = st.checks ++ cs := by
  simp only [connectTx, ite_dos_eq_ok, bind_eq_ok, connectOutputs, Except.ok.injEq] at h
  obtain ⟨-, st₂, hin, ⟨view, undo⟩, -, rfl⟩ := h
  by_cases hcb : tx.isCoinBase = true
  · simp only [connectInputs, hcb, if_true, Except.ok.injEq] at hin
    exact ⟨[], by rw [← hin]; simp⟩
  · simp only [connectInputs, hcb, Bool.false_eq_true, if_false, ite_dos_eq_ok, bind_eq_ok,
      raising_eq_ok, Except.ok.injEq] at hin
    obtain ⟨-, n, -, -, v, -, w, -, cs, -, rfl⟩ := hin
    exact ⟨cs, rfl⟩

theorem checks_connectTxs {st₁ : ConnectState} (h : connectTxs ctx pindex st vtx = .ok st₁) :
    ∃ cs, st₁.checks = st.checks ++ cs := by
  induction vtx generalizing st with
  | nil =>
      obtain rfl := Except.ok.inj h
      exact ⟨[], (List.append_nil _).symm⟩
  | cons tx vtx ih =>
      simp only [connectTxs, bind_eq_ok] at h
      obtain ⟨st₂, htx, hvtx⟩ := h
      obtain ⟨cs, hcs⟩ := checks_connectTx htx
      obtain ⟨cs', hcs'⟩ := ih hvtx
      exact ⟨cs ++ cs', by rw [hcs', hcs, List.append_assoc]⟩

theorem connectTxs_serial :
    connectTxs (ctx.withThreads false) pindex st.bare vtx = .ok st' ↔
      ∃ st₁ cs, connectTxs (ctx.withThreads true) pindex st vtx = .ok st₁ ∧
        st₁.checks = st.checks ++ cs ∧ cs.all (·.succeeds ctx.toEnv) = true ∧ st' = st₁.bare := by
  induction vtx generalizing st with
  | nil =>
      simp only [connectTxs, Except.ok.injEq]
      constructor
      · rintro rfl
        exact ⟨st, [], rfl, by simp, rfl, rfl⟩
      · rintro ⟨st₁, cs, rfl, -, -, rfl⟩
        rfl
  | cons tx vtx ih =>
      simp only [connectTxs, bind_eq_ok, connectTx_serial]
      constructor
      · rintro ⟨_, ⟨st₁, cs, htx, hchecks, hall, rfl⟩, hrest⟩
        obtain ⟨st₂, cs', hvtx, hchecks', hall', rfl⟩ := ih.mp hrest
        refine ⟨st₂, cs ++ cs', ⟨st₁, htx, hvtx⟩, ?_, ?_, rfl⟩
        · rw [hchecks', hchecks, List.append_assoc]
        · rw [List.all_append, hall, hall', Bool.and_self]
      · rintro ⟨st₂, cs, ⟨st₁, htx, hvtx⟩, hchecks, hall, rfl⟩
        obtain ⟨cs₁, hcs₁⟩ := checks_connectTx htx
        obtain ⟨cs₂, hcs₂⟩ := checks_connectTxs hvtx
        obtain rfl : cs₁ ++ cs₂ = cs := by
          rw [hcs₂, hcs₁, List.append_assoc] at hchecks
          exact List.append_cancel_left hchecks
        rw [List.all_append, Bool.and_eq_true] at hall
        exact ⟨st₁.bare, ⟨st₁, cs₁, htx, hcs₁, hall.1, rfl⟩,
          ih.mpr ⟨st₂, cs₂, hvtx, hcs₂, hall.2, rfl⟩⟩

/-- **Parallel and serial checks agree**: when the queue has been given the checks of a
block, in any interleaving of its threads it returns true exactly when the block's
transactions connect without script check threads. -/
theorem parallel_iff_serial (ctx : Context) {ι : Type} [Fintype ι] [DecidableEq ι]
    {nBatchSize : UInt32} {acts : List (Act CScriptCheck ι)} {s : System CScriptCheck ι} {a : Answer CScriptCheck}
    (hrun : run (step (CScriptCheck.succeeds ctx.toEnv)) (System.new nBatchSize) acts = some s)
    (hfit : BatchesFit (CScriptCheck.succeeds ctx.toEnv) nBatchSize acts)
    (ha : a ∈ s.hist.answers)
    (htxs : connectTxs (ctx.withThreads true) pindex st.bare vtx = .ok st')
    (hadded : a.added = st'.checks) :
    a.fRet = true ↔
      connectTxs (ctx.withThreads false) pindex st.bare vtx = .ok st'.bare := by
  have hret := ((inv_of_run _ hrun hfit).answers a ha).fRet_eq
  obtain ⟨cs, hcs⟩ := checks_connectTxs htxs
  obtain rfl : cs = a.added := by
    rw [hadded, hcs]
    rfl
  have hserial := @connectTxs_serial ctx pindex st.bare st'.bare vtx
  rw [hret]
  constructor
  · intro hall
    exact hserial.mpr ⟨st', a.added, htxs, hcs, hall, rfl⟩
  · intro hok
    obtain ⟨st₁, cs', htxs', hcs', hall, -⟩ := hserial.mp hok
    obtain rfl := Except.ok.inj (htxs.symm.trans htxs')
    rwa [List.append_cancel_left (hcs.symm.trans hcs')]

deriving instance DecidableEq for CScriptCheck

/-- Two coins that anybody can spend, and a transaction that spends both. -/
def coinPairView : CCoinsView :=
  CCoinsView.setCoins (Blob.fill 1) { vout := [⟨1000, [0x51]⟩, ⟨500, [0x51]⟩] } {}

def coinPairTx : CTransaction where
  vin := [{ prevout := ⟨Blob.fill 1, 0⟩ }, { prevout := ⟨Blob.fill 1, 1⟩ }]
  vout := [⟨1400, [0x51]⟩]

/-- The local variables when a block starts to spend the coins. -/
def coinPairStart : ConnectState := { view := coinPairView, nTxOffset := 0 }

/-- What the loop leaves when the two checks are handed over. -/
def coinPairConnected : ConnectState :=
  (connectTxs ((exampleContext exampleEnv).withThreads true) { nHeight := 2 } coinPairStart.bare
    [coinPairTx]).toOption.getD coinPairStart

/-- A worker sleeps when the master gives both checks to the queue; the master takes one of
them, and the worker wakes up and runs the other. -/
def coinPairActs : List (Act CScriptCheck (Fin 1)) :=
  [.enter (some 0), .lock (some 0), .add coinPairConnected.checks none, .enter none, .lock none,
    .relock (some 0), .exec none, .exec (some 0), .exec none, .exec (some 0), .lock none,
    .lock (some 0), .relock none]

theorem parallel_iff_serial_coinPair :
    coinPairConnected.checks.length = 2 ∧
    ∃ (s : System CScriptCheck (Fin 1)) (a : Answer CScriptCheck),
      run (step (CScriptCheck.succeeds exampleEnv)) (System.new 128) coinPairActs = some s ∧
      a ∈ s.hist.answers ∧
      (a.fRet = true ↔
        connectTxs ((exampleContext exampleEnv).withThreads false) { nHeight := 2 }
          coinPairStart.bare [coinPairTx] = .ok coinPairConnected.bare) := by
  have hok : (connectTxs ((exampleContext exampleEnv).withThreads true) { nHeight := 2 }
      coinPairStart.bare [coinPairTx]).toOption.isSome = true := by decide +kernel
  obtain ⟨st', hst'⟩ := Option.isSome_iff_exists.mp hok
  have htxs := toOption_eq_some.mp hst'
  have hconnected : coinPairConnected = st' := by
    rw [coinPairConnected, hst']
    rfl
  have htwo : coinPairConnected.checks.length = 2 := by decide +kernel
  refine ⟨htwo, ?_⟩
  have hrun : (run (step (CScriptCheck.succeeds exampleEnv)) (System.new 128)
      coinPairActs).map (fun s => s.hist.answers.map Answer.added) =
        some [coinPairConnected.checks] := by
    decide +kernel
  obtain ⟨s, hrun, hanswers⟩ := Option.map_eq_some_iff.mp hrun
  obtain ⟨a, rest, ha, hadded, -⟩ := List.map_eq_cons_iff.mp hanswers
  have hmem : a ∈ s.hist.answers := by simp [ha]
  refine ⟨s, a, hrun, hmem, ?_⟩
  rw [hconnected] at hadded ⊢
  exact parallel_iff_serial (exampleContext exampleEnv) hrun
    (batchesFit_of_total _ (by decide +kernel)) hmem htxs hadded

/-! ## The answer of `ConnectBlock` -/

theorem waitChecks_ok {checks : List CScriptCheck} :
    waitChecks env checks = .ok () ↔ checks.all (·.succeeds env) = true := by
  induction checks with
  | nil => simp [waitChecks]
  | cons check checks ih =>
      rcases hrun : check.run env with e | r
      · simp [waitChecks, hrun, CScriptCheck.succeeds, bind, Except.bind]
      · cases r <;> simp [waitChecks, hrun, CScriptCheck.succeeds, bind, Except.bind, ih, dos]

@[simp] theorem checkBlock_withThreads (block : CBlock) (b fCheckPOW fCheckMerkleRoot : Bool) :
    checkBlock (ctx.withThreads b) block fCheckPOW fCheckMerkleRoot =
      checkBlock ctx block fCheckPOW fCheckMerkleRoot := rfl

/-- The local variables before the loop over the transactions. -/
def ConnectState.start (block : CBlock) (view : CCoinsView) : ConnectState :=
  { view, nTxOffset := UInt32.ofNat (Codec.writeSize (UInt64.ofNat block.vtx.length)).length }

theorem connectCheck_ok_iff {block : CBlock} {fJustCheck : Bool} {view : CCoinsView} :
    connectCheck ctx block pindex fJustCheck view = .ok st ↔
      checkBlock ctx block (!fJustCheck) (!fJustCheck) = .ok () ∧
        pindex.pprev.getD Blob.null = view.bestBlock ∧
        (enforceBIP30 pindex && overwrites ctx.toEnv view block) = false ∧
        connectTxs ctx pindex (ConnectState.start block view) block.vtx = .ok st ∧
        waitChecks ctx.toEnv st.checks = .ok () := by
  rw [connectCheck, bind_eq_ok]
  constructor
  · rintro ⟨⟨⟩, hblock, h⟩
    split_ifs at h with hprev hbip
    · cases h
    · simp only [bind_eq_ok, Except.ok.injEq] at h
      obtain ⟨st', htxs, ⟨⟩, hwait, rfl⟩ := h
      exact ⟨hblock, not_not.mp hprev, by simpa using hbip, htxs, hwait⟩
  · rintro ⟨hblock, hprev, hbip, htxs, hwait⟩
    refine ⟨(), hblock, ?_⟩
    rw [if_neg (not_not.mpr hprev), hbip, if_neg Bool.false_ne_true]
    simp only [bind_eq_ok, Except.ok.injEq]
    exact ⟨st, htxs, (), hwait, rfl⟩

theorem connectCheck_serial {block : CBlock} {fJustCheck : Bool} {view : CCoinsView} :
    connectCheck (ctx.withThreads false) block pindex fJustCheck view = .ok st' ↔
      ∃ st₁, connectCheck (ctx.withThreads true) block pindex fJustCheck view = .ok st₁ ∧
        st' = st₁.bare := by
  have htxs := @connectTxs_serial ctx pindex (ConnectState.start block view) st' block.vtx
  simp only [connectCheck_ok_iff, checkBlock_withThreads, toEnv_withThreads, waitChecks_ok]
  constructor
  · rintro ⟨hblock, hprev, hbip, hserial, -⟩
    obtain ⟨st₁, cs, hst, hchecks, hall, rfl⟩ := htxs.mp hserial
    exact ⟨st₁, ⟨hblock, hprev, hbip, hst, by rw [hchecks]; exact hall⟩, rfl⟩
  · rintro ⟨st₁, ⟨hblock, hprev, hbip, hst, hall⟩, rfl⟩
    obtain ⟨cs, hcs⟩ := checks_connectTxs hst
    rw [hcs] at hall
    exact ⟨hblock, hprev, hbip, htxs.mpr ⟨st₁, cs, hst, hcs, hall, rfl⟩, rfl⟩

/-- **`ConnectBlock` does not depend on the script check threads**: what it accepts, the
view it leaves and what it writes are the same. -/
theorem connectBlock_serial (ctx : Context) (block : CBlock) (pindex : CBlockIndex)
    (fJustCheck : Bool) (view : CCoinsView) (disk : Disk) :
    (connectBlock (ctx.withThreads false) block pindex fJustCheck view disk).1.toOption =
        (connectBlock (ctx.withThreads true) block pindex fJustCheck view disk).1.toOption ∧
      (connectBlock (ctx.withThreads false) block pindex fJustCheck view disk).2 =
        (connectBlock (ctx.withThreads true) block pindex fJustCheck view disk).2 := by
  have hserial st' := @connectCheck_serial ctx pindex st' block fJustCheck view
  unfold connectBlock
  rcases htrue : connectCheck (ctx.withThreads true) block pindex fJustCheck view with e | st₁
  · rcases hfalse : connectCheck (ctx.withThreads false) block pindex fJustCheck view with e' | st₂
    · exact ⟨rfl, rfl⟩
    · obtain ⟨st₁, hst, -⟩ := (hserial st₂).mp hfalse
      simp [htrue] at hst
  · have hfalse := (hserial st₁.bare).mpr ⟨st₁, htrue, rfl⟩
    rw [hfalse]
    exact ⟨rfl, rfl⟩

end Parallel
end Hivemind
