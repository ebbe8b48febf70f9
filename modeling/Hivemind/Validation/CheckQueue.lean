import Mathlib.Data.Multiset.AddSub
import Hivemind.Lib.Runs

/-!
# The script check queue (`checkqueue.h`)

A master thread hands checks to a queue; the worker threads, and the master once it waits, take
them from the back in batches and run them.  The mutex makes a critical section one step here,
and so is each check that a thread runs: a run of the system is any interleaving of these steps,
with spurious wake-ups of the condition variables.

A thread is at a place in its code, with the local variables that are in use there.  The counters
of the queue are sums over the places of all threads, and so are the checks that are not
reported; a step moves one thread, or wakes some, and changes such a sum by what the moved thread
adds before and after.  `History` is kept beside the system to say what `Wait` should return.

* `Place`, `System`: where a thread is, and the queue with its threads.
* `step`: one step of one thread.
* `System.proceed_returns`, `System.proceed_waits`, `System.proceed_takes`: the three ends of a
  critical section.
* `Place.held`, `Place.rest` and the other contributions of a thread to what is counted.
-/

namespace Hivemind

/-- `CCheckQueue`; the back of the vector `queue` is the head of the list. -/
structure CCheckQueue (T : Type) where
  queue : List T := []
  nIdle : Int := 0
  nTotal : Int := 0
  fAllOk : Bool := true
  nTodo : UInt32 := 0
  fQuit : Bool := false
  nBatchSize : UInt32

namespace CCheckQueue

variable {T ι : Type}

/-- How many checks a thread takes. -/
def nNow (q : CCheckQueue T) : Nat :=
  max 1 (min q.nBatchSize.toNat (q.queue.length % 2 ^ 32 / (q.nTotal + q.nIdle + 1).toNat))

theorem nNow_pos (q : CCheckQueue T) : q.nNow ≠ 0 := by
  simp only [CCheckQueue.nNow]
  omega

theorem nNow_le (q : CCheckQueue T) (hqueue : q.queue ≠ []) : q.nNow ≤ q.queue.length := by
  have hpos := List.length_pos_iff.mpr hqueue
  have hdiv : q.queue.length % 2 ^ 32 / (q.nTotal + q.nIdle + 1).toNat ≤ q.queue.length :=
    (Nat.div_le_self _ _).trans (Nat.mod_le _ _)
  simp only [CCheckQueue.nNow]
  omega

/-- Where a thread is. -/
inductive Place (T : Type)
  /-- Not in `Loop`. -/
  | outside
  /-- At the top of the loop, about to lock the mutex. -/
  | atLock (nNow : Nat) (fOk : Bool)
  /-- In `cond.wait`. -/
  | waiting
  /-- Notified, about to lock the mutex again. -/
  | woken
  /-- With the rest of its batch still to run. -/
  | working (nNow : Nat) (vChecks : List T) (fOk : Bool)
  /-- In the critical section, past its clean-up. -/
  | holding

/-- A return of `Wait`: its value, what had been added and what had been run. -/
structure Answer (T : Type) where
  fRet : Bool
  added : List T
  ran : List T

/-- What has happened since the master last came back from `Wait`, and its answers
before. -/
structure History (T : Type) where
  added : List T := []
  ran : List T := []
  /-- The checks that were not run, as one had failed. -/
  skipped : List T := []
  answers : List (Answer T) := []

/-- `Wait` returns. -/
def History.close (h : History T) (fRet : Bool) : History T :=
  { answers := ⟨fRet, h.added, h.ran⟩ :: h.answers }

/-- The queue and its threads: the master is `none`, the workers are the others. -/
structure System (T ι : Type) where
  q : CCheckQueue T
  place : Option ι → Place T := fun _ => .outside
  hist : History T := {}

/-- What a notification does to a thread. -/
def Place.wake : Place T → Place T
  | .waiting => .woken
  | p => p

theorem Place.wake_ne_waiting (p : Place T) : p.wake ≠ .waiting := by
  cases p <;> simp [Place.wake]

/-- The thread waits on its condition variable. -/
def Place.isWaiting : Place T → Bool
  | .waiting => true
  | _ => false

section Steps

variable [DecidableEq ι]

/-- The clean-up of the previous turn of the loop. -/
def System.cleanUp (s : System T ι) (t : Option ι) (nNow : Nat) (fOk : Bool) : System T ι :=
  let place := Function.update s.place t .holding
  if nNow ≠ 0 then
    let nTodo := s.q.nTodo - UInt32.ofNat nNow
    { s with
      q := { s.q with fAllOk := s.q.fAllOk && fOk, nTodo }
      -- `condMaster.notify_one()`
      place := if nTodo == 0 && t.isSome then
          Function.update place none (place none).wake
        else place }
  else { s with q := { s.q with nTotal := s.q.nTotal + 1 }, place }

/-- The critical section from `while (queue.empty())` on. -/
def System.proceed (s : System T ι) (t : Option ι) : System T ι :=
  if s.q.queue.isEmpty then
    if (t.isNone || s.q.fQuit) && s.q.nTodo == 0 then
      { q := { s.q with
          nTotal := s.q.nTotal - 1
          fAllOk := if t.isNone then true else s.q.fAllOk }
        place := Function.update s.place t .outside
        hist := if t.isNone then s.hist.close s.q.fAllOk else s.hist }
    else
      { s with
        q := { s.q with nIdle := s.q.nIdle + 1 }
        place := Function.update s.place t .waiting }
  else
    { s with
      q := { s.q with queue := s.q.queue.drop s.q.nNow }
      place := Function.update s.place t
        (.working s.q.nNow (s.q.queue.take s.q.nNow) s.q.fAllOk) }

section Cases

variable {s : System T ι} {t : Option ι}

theorem System.proceed_returns (hqueue : s.q.queue = [])
    (hdone : ((t.isNone || s.q.fQuit) && s.q.nTodo == 0) = true) :
    s.proceed t = ⟨{ s.q with
        nTotal := s.q.nTotal - 1
        fAllOk := if t.isNone then true else s.q.fAllOk },
      Function.update s.place t .outside,
      if t.isNone then s.hist.close s.q.fAllOk else s.hist⟩ := by
  rw [System.proceed, if_pos (by simp [hqueue]), if_pos hdone]

theorem System.proceed_waits (hqueue : s.q.queue = [])
    (hdone : ¬ ((t.isNone || s.q.fQuit) && s.q.nTodo == 0) = true) :
    s.proceed t = { s with
      q := { s.q with nIdle := s.q.nIdle + 1 }
      place := Function.update s.place t .waiting } := by
  rw [System.proceed, if_pos (by simp [hqueue]), if_neg hdone]

theorem System.proceed_takes (hqueue : s.q.queue ≠ []) :
    s.proceed t = { s with
      q := { s.q with queue := s.q.queue.drop s.q.nNow }
      place := Function.update s.place t
        (.working s.q.nNow (s.q.queue.take s.q.nNow) s.q.fAllOk) } := by
  rw [System.proceed, if_neg (by simpa using hqueue)]

/-- A clean-up wakes at most the master. -/
theorem System.cleanUp_place {n : Nat} {b : Bool} {u : Option ι} (hu : u ≠ t) :
    (s.cleanUp t n b).place u = s.place u ∨
      (s.cleanUp t n b).place u = (s.place u).wake := by
  by_cases hnone : u = none
  · subst hnone
    simp only [System.cleanUp]
    split_ifs
    · exact Or.inr (by simp [Function.update_of_ne hu])
    · exact Or.inl (by simp [Function.update_of_ne hu])
    · exact Or.inl (by simp [Function.update_of_ne hu])
  · refine Or.inl ?_
    simp only [System.cleanUp]
    split_ifs <;> simp [Function.update_of_ne hu, Function.update_of_ne hnone]

@[simp] theorem System.cleanUp_place_self {n : Nat} {fOk : Bool} :
    (s.cleanUp t n fOk).place t = .holding := by
  simp only [System.cleanUp]
  split_ifs with hn hwake
  · have ht : t ≠ none := by
      rintro rfl
      simp at hwake
    simp [Function.update_of_ne ht]
  · simp
  · simp

@[simp] theorem System.cleanUp_hist {n : Nat} {fOk : Bool} :
    (s.cleanUp t n fOk).hist = s.hist := by
  simp only [System.cleanUp]
  split_ifs <;> rfl

@[simp] theorem System.cleanUp_queue {n : Nat} {fOk : Bool} :
    (s.cleanUp t n fOk).q.queue = s.q.queue := by
  simp only [System.cleanUp]
  split_ifs <;> rfl

/-- The worker that reports the last check wakes the master. -/
theorem System.cleanUp_nTodo {n : Nat} {fOk : Bool} (ht : t ≠ none)
    (hnone : (s.cleanUp t n fOk).place none = .waiting) :
    (s.cleanUp t n fOk).q.nTodo = s.q.nTodo ∨ (s.cleanUp t n fOk).q.nTodo ≠ 0 := by
  by_cases hn : n = 0
  · exact Or.inl (by simp [System.cleanUp, hn])
  · refine Or.inr ?_
    intro hzero
    have hdone : s.q.nTodo - UInt32.ofNat n = 0 := by
      simpa [System.cleanUp, hn] using hzero
    have hwoken : (s.cleanUp t n fOk).place none = (s.place none).wake := by
      simp [System.cleanUp, hn, hdone, Option.isSome_iff_ne_none.mpr ht,
        Function.update_of_ne ht.symm]
    exact Place.wake_ne_waiting _ (hwoken.symm.trans hnone)

end Cases

/-- The threads that `Add` notifies: for a single check the worker `woken`, which is
`none` when no worker waits, and for more all of them. -/
def notifyWorkers (place : Option ι → Place T) (n : Nat) (woken : Option ι) :
    Option ι → Place T :=
  if n = 1 then
    match woken with
    | some i => Function.update place (some i) (place (some i)).wake
    | none => place
  else if 1 < n then fun t => if t.isSome then (place t).wake else place t
  else place

theorem notifyWorkers_place (place : Option ι → Place T) (n : Nat) (woken u : Option ι) :
    notifyWorkers place n woken u = place u ∨
      notifyWorkers place n woken u = (place u).wake := by
  unfold notifyWorkers
  split
  · cases woken with
    | none => exact Or.inl rfl
    | some i =>
        by_cases hu : u = some i
        · subst hu
          exact Or.inr (by simp)
        · exact Or.inl (by simp [Function.update_of_ne hu])
  · split
    · by_cases hu : u.isSome = true
      · exact Or.inr (by simp [hu])
      · exact Or.inl (by simp [hu])
    · exact Or.inl rfl

/-- One step of one thread. -/
inductive Act (T ι : Type)
  /-- A worker starts, or the master calls `Wait`. -/
  | enter (t : Option ι)
  /-- The critical section at the top of the loop. -/
  | lock (t : Option ι)
  /-- A spurious wake-up. -/
  | wake (t : Option ι)
  /-- The critical section after `cond.wait`. -/
  | relock (t : Option ι)
  /-- The next check of the batch, or the end of the batch. -/
  | exec (t : Option ι)
  /-- The master calls `Add`. -/
  | add (vChecks : List T) (woken : Option ι)

/-- The worker that `notify_one` chooses waits, if any does. -/
def Chosen [Fintype ι] (s : System T ι) : Option ι → Bool
  | some i => (s.place (some i)).isWaiting
  | none => decide (∀ i, (s.place (some i)).isWaiting = false)

/-- The step, when the thread is at a place where it can take it. -/
def step [Fintype ι] (check : T → Bool) (s : System T ι) : Act T ι → Option (System T ι)
  | .enter t => match s.place t with
    | .outside => some { s with place := Function.update s.place t (.atLock 0 true) }
    | _ => none
  | .lock t => match s.place t with
    | .atLock nNow fOk => some ((s.cleanUp t nNow fOk).proceed t)
    | _ => none
  | .wake t => match s.place t with
    | .waiting => some { s with place := Function.update s.place t .woken }
    | _ => none
  | .relock t => match s.place t with
    | .woken =>
      let s' : System T ι := { s with
        q := { s.q with nIdle := s.q.nIdle - 1 }
        place := Function.update s.place t .holding }
      some (s'.proceed t)
    | _ => none
  | .exec t => match s.place t with
    | .working nNow [] fOk =>
      some { s with place := Function.update s.place t (.atLock nNow fOk) }
    | .working nNow (c :: cs) true =>
      some { s with
        place := Function.update s.place t (.working nNow cs (check c))
        hist := { s.hist with ran := c :: s.hist.ran } }
    | .working nNow (c :: cs) false =>
      some { s with
        place := Function.update s.place t (.working nNow cs false)
        hist := { s.hist with skipped := c :: s.hist.skipped } }
    | _ => none
  | .add vChecks woken => match s.place none with
    | .outside =>
      if vChecks.length = 1 → Chosen s woken then
        some { s with
          q := { s.q with
            queue := vChecks.reverse ++ s.q.queue
            nTodo := s.q.nTodo + UInt32.ofNat vChecks.length }
          place := notifyWorkers s.place vChecks.length woken
          hist := { s.hist with added := s.hist.added ++ vChecks } }
      else none
    | _ => none

end Steps

/-! ## What the places add up to -/

namespace Place

/-- The checks of its batch that a thread has not reported yet. -/
def held : Place T → Nat
  | atLock nNow _ | working nNow _ _ => nNow
  | _ => 0

/-- The checks of its batch that a thread has not reached yet. -/
def rest : Place T → Multiset T
  | working _ vChecks _ => vChecks
  | _ => 0

/-- The thread is counted in `nTotal`. -/
def counted : Place T → Int
  | outside => 0
  | atLock nNow _ => if nNow = 0 then 0 else 1
  | _ => 1

/-- The thread is counted in `nIdle`. -/
def idle : Place T → Int
  | waiting | woken => 1
  | _ => 0

/-- The local variable `fOk`. -/
def fOk : Place T → Bool
  | atLock _ fOk | working _ _ fOk => fOk
  | _ => true

/-- The local variables fit together. -/
def Fits : Place T → Prop
  | atLock nNow fOk => nNow = 0 → fOk = true
  | working nNow vChecks _ => nNow ≠ 0 ∧ vChecks.length ≤ nNow
  | _ => True

@[simp] theorem held_wake (p : Place T) : p.wake.held = p.held := by cases p <;> rfl
@[simp] theorem rest_wake (p : Place T) : p.wake.rest = p.rest := by cases p <;> rfl
@[simp] theorem counted_wake (p : Place T) : p.wake.counted = p.counted := by cases p <;> rfl
@[simp] theorem idle_wake (p : Place T) : p.wake.idle = p.idle := by cases p <;> rfl
@[simp] theorem fOk_wake (p : Place T) : p.wake.fOk = p.fOk := by cases p <;> rfl
@[simp] theorem fits_wake (p : Place T) : p.wake.Fits ↔ p.Fits := by cases p <;> rfl

end Place

end CCheckQueue
end Hivemind
