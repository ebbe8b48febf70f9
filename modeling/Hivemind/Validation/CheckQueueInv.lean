import Hivemind.Validation.CheckQueue

/-!
# What the check queue keeps

Every check that was added is in one place: run, passed over after a failure, in the queue, or in
the batch of a thread.  `nTodo` counts what is not reported, and a failure is on its way to
`fAllOk`.

The counters are `unsigned int`, and the count of what is left wraps with `2 ^ 32` checks between
two waits; below that it is zero only when nothing is left.  A check that failed is known to the
thread that ran it until that thread reports its batch, so the invariant says where the failure
is: in `fAllOk`, or in the local variable of a thread that has not reported.  Each part of a
critical section has its own lemma, and the invariant of the whole is put together from these.

* `Inv`: these facts, with what the counters count.
* `Inv.right`: **the answer is right** once nothing is left to report.
* `Inv.held_eq_zero`: the count has not wrapped round.
* `Inv.step`: each step of a thread keeps the invariant.
-/

namespace Hivemind
namespace CCheckQueue

open Runs

variable {T ι : Type}

/-! ## The invariant -/

variable {check : T → Bool}

/-- A check that was run has failed. -/
def History.Failed (check : T → Bool) (h : History T) : Prop := ∃ c ∈ h.ran, check c = false

/-- What `Wait` returned is right for the checks that had been added. -/
structure Answer.Right (check : T → Bool) (a : Answer T) : Prop where
  fRet_eq : a.fRet = a.added.all check
  ran_once : a.ran.Subperm a.added
  ran_all : a.fRet = true → a.ran.Perm a.added

variable {s : System T ι}

/-- A new queue, with all threads outside. -/
def System.new (nBatchSize : UInt32) : System T ι := { q := { nBatchSize } }

section Accounts

variable [Fintype ι]

/-- What holds between any two steps, and inside a critical section. -/
structure Inv (check : T → Bool) (s : System T ι) : Prop where
  fits : ∀ t, (s.place t).Fits
  not_quit : s.q.fQuit = false
  nTodo_eq : s.q.nTodo = UInt32.ofNat (s.q.queue.length + tally Place.held s.place)
  /-- The checks that are not reported yet are among those that were added. -/
  todo_le : s.q.queue.length + tally Place.held s.place ≤ s.hist.added.length
  nTotal_eq : s.q.nTotal = tally Place.counted s.place
  nIdle_eq : s.q.nIdle = tally Place.idle s.place
  /-- Each check that was added is in one place. -/
  items : (s.hist.added : Multiset T) =
    s.hist.ran + s.hist.skipped + s.q.queue + tally Place.rest s.place
  fAllOk_false : s.q.fAllOk = false → s.hist.Failed check
  fOk_false : ∀ t, (s.place t).fOk = false → s.hist.Failed check
  skipped_failed : s.hist.skipped ≠ [] → s.hist.Failed check
  /-- A failure is on its way to `fAllOk`. -/
  failed : s.hist.Failed check → s.q.fAllOk = false ∨ ∃ t, (s.place t).fOk = false
  answers : ∀ a ∈ s.hist.answers, a.Right check

theorem inv_new (nBatchSize : UInt32) : Inv check (System.new nBatchSize : System T ι) := by
  constructor <;> simp [System.new, tally, Place.Fits, Place.held, Place.counted, Place.idle,
    Place.rest, Place.fOk, History.Failed]

namespace Inv

/-- What two places have in common when a thread can go from one to the other without a
trace in what is counted. -/
structure SamePlace (p p' : Place T) : Prop where
  fits : p.Fits → p'.Fits
  held : p'.held = p.held
  rest : p'.rest = p.rest
  counted : p'.counted = p.counted
  idle : p'.idle = p.idle
  fOk : p'.fOk = p.fOk

theorem SamePlace.refl (p : Place T) : SamePlace p p := ⟨id, rfl, rfl, rfl, rfl, rfl⟩

theorem SamePlace.wake (p : Place T) : SamePlace p p.wake := by
  constructor <;> simp

theorem moves (h : Inv check s) {place : Option ι → Place T}
    (hplace : ∀ t, SamePlace (s.place t) (place t)) : Inv check { s with place } := by
  have hfOk := fun t => (hplace t).fOk
  have hheld : tally Place.held place = tally Place.held s.place :=
    tally_congr fun t => (hplace t).held
  have hcounted : tally Place.counted place = tally Place.counted s.place :=
    tally_congr fun t => (hplace t).counted
  have hidle : tally Place.idle place = tally Place.idle s.place :=
    tally_congr fun t => (hplace t).idle
  have hrest : tally Place.rest place = tally Place.rest s.place :=
    tally_congr fun t => (hplace t).rest
  exact {
    fits := fun t => (hplace t).fits (h.fits t)
    not_quit := h.not_quit
    nTodo_eq := by simpa [hheld] using h.nTodo_eq
    todo_le := by simpa [hheld] using h.todo_le
    nTotal_eq := by simpa [hcounted] using h.nTotal_eq
    nIdle_eq := by simpa [hidle] using h.nIdle_eq
    items := by simpa [hrest] using h.items
    fAllOk_false := h.fAllOk_false
    fOk_false := fun t => by simpa [hfOk t] using h.fOk_false t
    skipped_failed := h.skipped_failed
    failed := by simpa [hfOk] using h.failed
    answers := h.answers }

/-- A notification or a spurious wake-up. -/
theorem wakes (h : Inv check s) {place : Option ι → Place T}
    (hplace : ∀ t, place t = s.place t ∨ place t = (s.place t).wake) :
    Inv check { s with place } := by
  apply h.moves
  intro t
  rcases hplace t with heq | heq
  · rw [heq]
    exact SamePlace.refl _
  · rw [heq]
    exact SamePlace.wake _

/-- With nothing left to report, no thread has a check and none has failed. -/
theorem quiet (h : Inv check s) (hheld : tally Place.held s.place = 0) :
    tally Place.rest s.place = 0 ∧ ∀ t, (s.place t).fOk = true := by
  have hzero : ∀ t, (s.place t).held = 0 := fun t =>
    Finset.sum_eq_zero_iff.mp hheld t (Finset.mem_univ t)
  have hplace : ∀ t, (s.place t).rest = 0 ∧ (s.place t).fOk = true := by
    intro t
    have hfits := h.fits t
    have hz := hzero t
    cases hp : s.place t with
    | working n cs b =>
        rw [hp] at hfits hz
        exact absurd hz hfits.1
    | atLock n b =>
        rw [hp] at hfits hz
        exact ⟨rfl, hfits hz⟩
    | outside => exact ⟨rfl, rfl⟩
    | waiting => exact ⟨rfl, rfl⟩
    | woken => exact ⟨rfl, rfl⟩
    | holding => exact ⟨rfl, rfl⟩
  exact ⟨Finset.sum_eq_zero fun t _ => (hplace t).1, fun t => (hplace t).2⟩

/-- **The answer is right** once nothing is left. -/
theorem right (h : Inv check s) (hqueue : s.q.queue = []) (hheld : tally Place.held s.place = 0) :
    Answer.Right check ⟨s.q.fAllOk, s.hist.added, s.hist.ran⟩ := by
  obtain ⟨hrest, hfOk⟩ := h.quiet hheld
  have hitems : (s.hist.added : Multiset T) = s.hist.ran + s.hist.skipped := by
    simpa [hqueue, hrest] using h.items
  have hperm : s.hist.added.Perm (s.hist.ran ++ s.hist.skipped) := by
    simpa using hitems
  have hmem : ∀ c ∈ s.hist.ran, c ∈ s.hist.added := by
    intro c hc
    exact hperm.mem_iff.mpr (List.mem_append_left _ hc)
  have hall : s.q.fAllOk = true → s.hist.skipped = [] ∧ ∀ c ∈ s.hist.ran, check c = true := by
    intro hok
    have hnot : ¬ s.hist.Failed check := by
      intro hf
      rcases h.failed hf with hbad | ⟨u, hu⟩
      · simp [hbad] at hok
      · simp [hfOk u] at hu
    refine ⟨by_contra fun hne => hnot (h.skipped_failed hne), ?_⟩
    intro c hc
    by_contra hbad
    exact hnot ⟨c, hc, by simpa using hbad⟩
  constructor
  case ran_once => exact (List.sublist_append_left _ _).subperm.trans hperm.symm.subperm
  case ran_all =>
    intro hok
    rw [(hall hok).1, List.append_nil] at hperm
    exact hperm.symm
  case fRet_eq =>
    by_cases hok : s.q.fAllOk = true
    · obtain ⟨hskip, hran⟩ := hall hok
      rw [hskip, List.append_nil] at hperm
      have hadded : s.hist.added.all check = true := by
        simpa [hperm.mem_iff] using hran
      simp only [hok, hadded]
    · obtain ⟨c, hc, hbad⟩ := h.fAllOk_false (by simpa using hok)
      have hadded : s.hist.added.all check = false := by
        simpa using ⟨c, hmem c hc, hbad⟩
      simp only [hadded]
      simpa using hok

/-- Nothing is left to do when `nTodo` is 0: the count has not wrapped round. -/
theorem held_eq_zero (h : Inv check s) (hbound : s.hist.added.length < 2 ^ 32)
    (htodo : s.q.nTodo = 0) : s.q.queue.length + tally Place.held s.place = 0 := by
  have hle := h.todo_le
  have hzero := congrArg UInt32.toNat (h.nTodo_eq.symm.trans htodo)
  rw [UInt32.toNat_ofNat', Nat.mod_eq_of_lt (by omega)] at hzero
  simpa using hzero

variable [DecidableEq ι] {t : Option ι}

/-- One thread moves without a trace. -/
theorem move (h : Inv check s) {p : Place T} (hp : SamePlace (s.place t) p) :
    Inv check { s with place := Function.update s.place t p } := by
  apply h.moves
  intro u
  by_cases hu : u = t
  · subst hu
    simpa using hp
  · simpa [Function.update_of_ne hu] using SamePlace.refl _

/-- A thread is done with the next check of its batch, which it has run or passed over. -/
theorem advance (h : Inv check s) {n : Nat} {c : T} {cs : List T} {b b' : Bool}
    {hist : History T} (hplace : s.place t = .working n (c :: cs) b)
    (hadded : hist.added = s.hist.added) (hanswers : hist.answers = s.hist.answers)
    (hitems : (hist.ran : Multiset T) + hist.skipped = c ::ₘ (s.hist.ran + s.hist.skipped))
    (hfailed : s.hist.Failed check → hist.Failed check)
    (hb : b' = false → hist.Failed check) (hskipped : hist.skipped ≠ [] → hist.Failed check)
    (hnew : hist.Failed check →
      b' = false ∨ s.q.fAllOk = false ∨ ∃ u ≠ t, (s.place u).fOk = false) :
    Inv check { s with place := Function.update s.place t (.working n cs b'), hist } := by
  have hheld := tally_update Place.held s.place t (.working n cs b')
  have hcounted := tally_update Place.counted s.place t (.working n cs b')
  have hidle := tally_update Place.idle s.place t (.working n cs b')
  have hrest := tally_update Place.rest s.place t (.working n cs b')
  simp only [hplace, Place.held, Place.counted, Place.idle, Place.rest, add_right_inj,
    ← Multiset.cons_coe, Multiset.cons_add, ← Multiset.add_cons] at hheld hcounted hidle hrest
  have hfits := h.fits t
  rw [hplace] at hfits
  obtain ⟨hn, hlen⟩ := hfits
  rw [List.length_cons] at hlen
  exact {
    fits := (Function.forall_update_iff _ fun _ (p : Place T) => p.Fits).mpr
      ⟨⟨hn, by omega⟩, fun u _ => h.fits u⟩
    not_quit := h.not_quit
    nTodo_eq := by simpa [hheld] using h.nTodo_eq
    todo_le := by simpa [hheld, hadded] using h.todo_le
    nTotal_eq := by simpa [hcounted] using h.nTotal_eq
    nIdle_eq := by simpa [hidle] using h.nIdle_eq
    items := by
      have hold := h.items
      rw [← hrest] at hold
      simpa only [hadded, hitems, Multiset.cons_add, Multiset.add_cons] using hold
    fAllOk_false := fun hall => hfailed (h.fAllOk_false hall)
    fOk_false := (Function.forall_update_iff _ fun _ (p : Place T) => p.fOk = false → _).mpr
      ⟨hb, fun u _ hu => hfailed (h.fOk_false u hu)⟩
    skipped_failed := hskipped
    failed := by
      intro hf
      rcases hnew hf with hb' | hall | ⟨u, hne, hu⟩
      · exact Or.inr ⟨t, by simpa [Place.fOk] using hb'⟩
      · exact Or.inl hall
      · exact Or.inr ⟨u, by simpa [Function.update_of_ne hne] using hu⟩
    answers := by simpa [hanswers] using h.answers }

theorem ran (h : Inv check s) {n : Nat} {c : T} {cs : List T}
    (hplace : s.place t = .working n (c :: cs) true) :
    Inv check { s with
      place := Function.update s.place t (.working n cs (check c))
      hist := { s.hist with ran := c :: s.hist.ran } } := by
  have hfailed : s.hist.Failed check →
      ({ s.hist with ran := c :: s.hist.ran } : History T).Failed check := by
    rintro ⟨c', hc', hfalse⟩
    exact ⟨c', List.mem_cons_of_mem c hc', hfalse⟩
  apply h.advance hplace
  case hadded => rfl
  case hanswers => rfl
  case hitems => simp [← Multiset.cons_coe, Multiset.cons_add]
  case hfailed => exact hfailed
  case hb => exact fun hc => ⟨c, List.mem_cons_self, hc⟩
  case hskipped => exact fun hskip => hfailed (h.skipped_failed hskip)
  case hnew =>
    rintro ⟨c', hc', hfalse⟩
    rcases List.mem_cons.mp hc' with rfl | hmem
    · exact Or.inl hfalse
    · rcases h.failed ⟨c', hmem, hfalse⟩ with hall | ⟨u, hu⟩
      · exact Or.inr (Or.inl hall)
      · refine Or.inr (Or.inr ⟨u, ?_, hu⟩)
        rintro rfl
        simp [hplace, Place.fOk] at hu

theorem skipped (h : Inv check s) {n : Nat} {c : T} {cs : List T}
    (hplace : s.place t = .working n (c :: cs) false) :
    Inv check { s with
      place := Function.update s.place t (.working n cs false)
      hist := { s.hist with skipped := c :: s.hist.skipped } } := by
  have hfailed : s.hist.Failed check := h.fOk_false t (by rw [hplace]; rfl)
  apply h.advance hplace
  case hadded => rfl
  case hanswers => rfl
  case hitems => simp [← Multiset.cons_coe, Multiset.add_cons]
  case hfailed => exact id
  case hb => exact fun _ => hfailed
  case hskipped => exact fun _ => hfailed
  case hnew => exact fun _ => Or.inl rfl

/-! ### The critical sections -/

/-- The batch is reported. -/
theorem reported (h : Inv check s) {n : Nat} {fOk : Bool} (hplace : s.place t = .atLock n fOk)
    (hn : n ≠ 0) :
    Inv check { s with
      q := { s.q with
        fAllOk := s.q.fAllOk && fOk
        nTodo := s.q.nTodo - UInt32.ofNat n }
      place := Function.update s.place t .holding } := by
  have hheld := tally_update Place.held s.place t .holding
  have hcounted := tally_update Place.counted s.place t .holding
  have hidle := tally_update Place.idle s.place t .holding
  have hrest := tally_update Place.rest s.place t .holding
  simp only [hplace, Place.held, Place.counted, Place.idle, Place.rest, add_right_inj, hn,
    if_false, Nat.zero_add] at hheld hcounted hidle hrest
  exact {
    fits := (Function.forall_update_iff _ fun _ (p : Place T) => p.Fits).mpr
      ⟨trivial, fun u _ => h.fits u⟩
    not_quit := h.not_quit
    nTodo_eq := by
      have hsplit : s.q.queue.length + tally Place.held s.place = s.q.queue.length +
          tally Place.held (Function.update s.place t .holding) + n := by omega
      simp only [h.nTodo_eq, hsplit, UInt32.ofNat_add]
      grind
    todo_le := by
      have hle := h.todo_le
      simp only
      omega
    nTotal_eq := by simpa [hcounted] using h.nTotal_eq
    nIdle_eq := by simpa [hidle] using h.nIdle_eq
    items := by simpa [hrest] using h.items
    fAllOk_false := by
      intro hall
      rcases Bool.and_eq_false_iff.mp hall with hold | hnow
      · exact h.fAllOk_false hold
      · exact h.fOk_false t (by rw [hplace]; exact hnow)
    fOk_false := (Function.forall_update_iff _ fun _ (p : Place T) => p.fOk = false → _).mpr
      ⟨fun hc => absurd hc (by simp [Place.fOk]), fun u _ => h.fOk_false u⟩
    skipped_failed := h.skipped_failed
    failed := by
      intro hf
      rcases h.failed hf with hall | ⟨u, hu⟩
      · exact Or.inl (by simp [hall])
      · by_cases hut : u = t
        · subst hut
          rw [hplace] at hu
          exact Or.inl (Bool.and_eq_false_iff.mpr (Or.inr hu))
        · exact Or.inr ⟨u, by simpa [Function.update_of_ne hut] using hu⟩
    answers := h.answers }

/-- A thread moves where only the counters see it. -/
theorem recount (h : Inv check s) {p : Place T} {m k : Int} (hfits : p.Fits)
    (hheld : p.held = (s.place t).held) (hrest : p.rest = (s.place t).rest)
    (hfOk : p.fOk = (s.place t).fOk)
    (hnTotal : m + (s.place t).counted = s.q.nTotal + p.counted)
    (hnIdle : k + (s.place t).idle = s.q.nIdle + p.idle) :
    Inv check { s with
      q := { s.q with nTotal := m, nIdle := k }
      place := Function.update s.place t p } := by
  have hheld' := tally_update Place.held s.place t p
  have hcounted' := tally_update Place.counted s.place t p
  have hidle' := tally_update Place.idle s.place t p
  have hrest' := tally_update Place.rest s.place t p
  rw [hheld, add_right_inj] at hheld'
  rw [hrest, add_right_inj] at hrest'
  have hsame : ∀ u, (Function.update s.place t p u).fOk = (s.place u).fOk :=
    (Function.forall_update_iff _ fun u (p : Place T) => p.fOk = (s.place u).fOk).mpr
      ⟨hfOk, fun _ _ => rfl⟩
  have htotal := h.nTotal_eq
  have hidle := h.nIdle_eq
  exact {
    fits := (Function.forall_update_iff _ fun _ (p : Place T) => p.Fits).mpr
      ⟨hfits, fun u _ => h.fits u⟩
    not_quit := h.not_quit
    nTodo_eq := by simpa [hheld'] using h.nTodo_eq
    todo_le := by simpa [hheld'] using h.todo_le
    nTotal_eq := by simp only; omega
    nIdle_eq := by simp only; omega
    items := by simpa [hrest'] using h.items
    fAllOk_false := h.fAllOk_false
    fOk_false := fun u => by simpa [hsame u] using h.fOk_false u
    skipped_failed := h.skipped_failed
    failed := by simpa [hsame] using h.failed
    answers := h.answers }

/-- The clean-up of a turn. -/
theorem cleanUp (h : Inv check s) {n : Nat} {fOk : Bool} (hplace : s.place t = .atLock n fOk) :
    Inv check (s.cleanUp t n fOk) := by
  by_cases hn : n = 0
  · subst hn
    have hfits := h.fits t
    rw [hplace] at hfits
    obtain rfl : fOk = true := hfits rfl
    have harrived := h.recount (t := t) (p := .holding) (m := s.q.nTotal + 1)
      (k := s.q.nIdle) trivial
    simp only [hplace, Place.held, Place.rest, Place.fOk, Place.counted, Place.idle] at harrived
    simpa [System.cleanUp] using harrived
  · have hreported := h.reported hplace hn
    by_cases hwake : (s.q.nTodo - UInt32.ofNat n == 0 && t.isSome) = true
    · simp only [System.cleanUp, hn, ne_eq, not_false_eq_true, if_true, hwake]
      refine hreported.wakes fun u => ?_
      by_cases hu : u = none
      · subst hu
        exact Or.inr (by simp)
      · exact Or.inl (by simp [Function.update_of_ne hu])
    · simp only [System.cleanUp, hn, ne_eq, not_false_eq_true, if_true, hwake]
      exact hreported

/-- The master comes back from `Wait`. -/
theorem returned (h : Inv check s) (hplace : s.place none = .holding) (hqueue : s.q.queue = [])
    (hheld : tally Place.held s.place = 0) :
    Inv check ⟨{ s.q with nTotal := s.q.nTotal - 1, fAllOk := true },
      Function.update s.place none .outside, s.hist.close s.q.fAllOk⟩ := by
  have hright := h.right hqueue hheld
  have houtside := h.recount (t := none) (p := .outside) (m := s.q.nTotal - 1)
    (k := s.q.nIdle) trivial (by rw [hplace]; rfl) (by rw [hplace]; rfl) (by rw [hplace]; rfl)
    (by simp [hplace, Place.counted]) (by simp [hplace, Place.idle])
  have hsum := tally_update Place.held s.place none .outside
  simp only [hplace, Place.held, hheld] at hsum
  obtain ⟨hrest, hfOk⟩ := houtside.quiet (by simpa using hsum)
  have hnot : ¬ (s.hist.close s.q.fAllOk).Failed check := by
    rintro ⟨c, hc, -⟩
    simp [History.close] at hc
  exact {
    fits := houtside.fits
    not_quit := houtside.not_quit
    nTodo_eq := houtside.nTodo_eq
    todo_le := by simpa [hqueue, History.close] using hsum
    nTotal_eq := houtside.nTotal_eq
    nIdle_eq := houtside.nIdle_eq
    items := by simpa [hqueue, History.close] using hrest.symm
    fAllOk_false := fun hall => absurd hall (by simp)
    fOk_false := fun u hu => absurd hu (by simp [hfOk u])
    skipped_failed := fun hskip => absurd rfl hskip
    failed := fun hf => absurd hf hnot
    answers := by
      intro a ha
      rcases List.mem_cons.mp ha with rfl | hold
      · exact hright
      · exact h.answers a hold }

/-- A thread has taken its batch from the back of the queue. -/
theorem took (h : Inv check s) (hplace : s.place t = .holding) {n : Nat} (hn : n ≠ 0)
    (hle : n ≤ s.q.queue.length) :
    Inv check { s with
      q := { s.q with queue := s.q.queue.drop n }
      place := Function.update s.place t (.working n (s.q.queue.take n) s.q.fAllOk) } := by
  have hheld := tally_update Place.held s.place t (.working n (s.q.queue.take n) s.q.fAllOk)
  have hcounted := tally_update Place.counted s.place t (.working n (s.q.queue.take n) s.q.fAllOk)
  have hidle := tally_update Place.idle s.place t (.working n (s.q.queue.take n) s.q.fAllOk)
  have hrest := tally_update Place.rest s.place t (.working n (s.q.queue.take n) s.q.fAllOk)
  simp only [hplace, Place.held, Place.counted, Place.idle, Place.rest, add_right_inj,
    zero_add] at hheld hcounted hidle hrest
  have hsplit : (s.q.queue : Multiset T) = ↑(s.q.queue.take n) + ↑(s.q.queue.drop n) := by
    rw [Multiset.coe_add, List.take_append_drop]
  exact {
    fits := (Function.forall_update_iff _ fun _ (p : Place T) => p.Fits).mpr
      ⟨⟨hn, by simp⟩, fun u _ => h.fits u⟩
    not_quit := h.not_quit
    nTodo_eq := by
      have hlen : (s.q.queue.drop n).length + (n + tally Place.held s.place) =
          s.q.queue.length + tally Place.held s.place := by
        rw [List.length_drop]
        omega
      simp only [hheld, hlen]
      exact h.nTodo_eq
    todo_le := by
      have hold := h.todo_le
      simp only [List.length_drop, hheld]
      omega
    nTotal_eq := by simpa [hcounted] using h.nTotal_eq
    nIdle_eq := by simpa [hidle] using h.nIdle_eq
    items := by
      have hold := h.items
      simp only [hrest]
      rw [hsplit] at hold
      rw [hold]
      ac_rfl
    fAllOk_false := h.fAllOk_false
    fOk_false := (Function.forall_update_iff _ fun _ (p : Place T) => p.fOk = false → _).mpr
      ⟨h.fAllOk_false, fun u _ hu => h.fOk_false u hu⟩
    skipped_failed := h.skipped_failed
    failed := by
      intro hf
      rcases h.failed hf with hall | ⟨u, hu⟩
      · exact Or.inl hall
      · refine Or.inr ⟨u, ?_⟩
        have hne : u ≠ t := by
          rintro rfl
          simp [hplace, Place.fOk] at hu
        simpa [Function.update_of_ne hne] using hu
    answers := h.answers }

/-- The critical section from `while (queue.empty())` on. -/
theorem proceed (h : Inv check s) (hplace : s.place t = .holding)
    (hbound : s.hist.added.length < 2 ^ 32) : Inv check (s.proceed t) := by
  by_cases hqueue : s.q.queue = []
  · by_cases hdone : ((t.isNone || s.q.fQuit) && s.q.nTodo == 0) = true
    · simp only [h.not_quit, Bool.or_false, Bool.and_eq_true, Option.isNone_iff_eq_none,
        beq_iff_eq] at hdone
      obtain ⟨rfl, htodo⟩ := hdone
      have hheld := h.held_eq_zero hbound htodo
      have hreturned := h.returned hplace hqueue (by omega)
      rw [System.proceed_returns hqueue (by simp [htodo])]
      exact hreturned
    · have hwaits := h.recount (t := t) (p := .waiting) (m := s.q.nTotal)
        (k := s.q.nIdle + 1) trivial (by rw [hplace]; rfl) (by rw [hplace]; rfl)
        (by rw [hplace]; rfl) (by simp [hplace, Place.counted]) (by simp [hplace, Place.idle])
      rw [System.proceed_waits hqueue hdone]
      exact hwaits
  · rw [System.proceed_takes hqueue]
    exact h.took hplace (nNow_pos s.q) (nNow_le s.q hqueue)

/-- The master adds checks. -/
theorem added (h : Inv check s) (vChecks : List T) (woken : Option ι) :
    Inv check { s with
      q := { s.q with
        queue := vChecks.reverse ++ s.q.queue
        nTodo := s.q.nTodo + UInt32.ofNat vChecks.length }
      place := notifyWorkers s.place vChecks.length woken
      hist := { s.hist with added := s.hist.added ++ vChecks } } := by
  have hwakes := h.wakes (notifyWorkers_place s.place vChecks.length woken)
  exact {
    fits := hwakes.fits
    not_quit := hwakes.not_quit
    nTodo_eq := by
      have hold := hwakes.nTodo_eq
      simp only [List.length_append, List.length_reverse, UInt32.ofNat_add] at hold ⊢
      rw [hold]
      ac_rfl
    todo_le := by
      have hold := hwakes.todo_le
      simp only [List.length_append, List.length_reverse] at hold ⊢
      omega
    nTotal_eq := hwakes.nTotal_eq
    nIdle_eq := hwakes.nIdle_eq
    items := by
      have hold := hwakes.items
      have hreverse : (vChecks.reverse : Multiset T) = vChecks := by simp
      simp only [← Multiset.coe_add, hreverse] at hold ⊢
      rw [hold]
      ac_rfl
    fAllOk_false := hwakes.fAllOk_false
    fOk_false := hwakes.fOk_false
    skipped_failed := hwakes.skipped_failed
    failed := hwakes.failed
    answers := hwakes.answers }

/-- **Each step keeps the invariant.** -/
theorem step (h : Inv check s) {a : Act T ι} {s' : System T ι}
    (hbound : s.hist.added.length < 2 ^ 32) (hstep : step check s a = some s') :
    Inv check s' := by
  cases a with
  | enter t =>
      cases hplace : s.place t <;> simp only [CCheckQueue.step, hplace, reduceCtorEq] at hstep
      case outside =>
        obtain rfl := Option.some.inj hstep
        exact h.move ⟨fun _ _ => rfl, by simp [hplace, Place.held], by simp [hplace, Place.rest],
          by simp [hplace, Place.counted], by simp [hplace, Place.idle],
          by simp [hplace, Place.fOk]⟩
  | lock t =>
      cases hplace : s.place t <;> simp only [CCheckQueue.step, hplace, reduceCtorEq] at hstep
      case atLock n fOk =>
        obtain rfl := Option.some.inj hstep
        exact (h.cleanUp hplace).proceed System.cleanUp_place_self (by simpa using hbound)
  | wake t =>
      cases hplace : s.place t <;> simp only [CCheckQueue.step, hplace, reduceCtorEq] at hstep
      case waiting =>
        obtain rfl := Option.some.inj hstep
        exact h.move (by simpa [hplace, Place.wake] using SamePlace.wake (s.place t))
  | relock t =>
      cases hplace : s.place t <;> simp only [CCheckQueue.step, hplace, reduceCtorEq] at hstep
      case woken =>
        obtain rfl := Option.some.inj hstep
        have hback := h.recount (t := t) (p := .holding) (m := s.q.nTotal)
          (k := s.q.nIdle - 1) trivial (by rw [hplace]; rfl) (by rw [hplace]; rfl)
          (by rw [hplace]; rfl) (by simp [hplace, Place.counted]) (by simp [hplace, Place.idle])
        exact hback.proceed (by simp) hbound
  | exec t =>
      cases hplace : s.place t <;> simp only [CCheckQueue.step, hplace, reduceCtorEq] at hstep
      case working n cs fOk =>
        have hfits := h.fits t
        rw [hplace] at hfits
        cases cs with
        | nil =>
            obtain rfl := Option.some.inj hstep
            exact h.move ⟨fun _ hn => absurd hn hfits.1, by simp [hplace, Place.held],
              by simp [hplace, Place.rest], by simp [hplace, Place.counted, hfits.1],
              by simp [hplace, Place.idle], by simp [hplace, Place.fOk]⟩
        | cons c cs =>
            cases fOk with
            | true =>
                obtain rfl := Option.some.inj hstep
                exact h.ran hplace
            | false =>
                obtain rfl := Option.some.inj hstep
                exact h.skipped hplace
  | add vChecks woken =>
      cases hplace : s.place none <;> simp only [CCheckQueue.step, hplace, reduceCtorEq] at hstep
      case outside =>
        split at hstep
        · obtain rfl := Option.some.inj hstep
          exact h.added vChecks woken
        · simp at hstep

end Inv
end Accounts

end CCheckQueue
end Hivemind
