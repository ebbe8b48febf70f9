import Mathlib.Data.List.Count
import Mathlib.Data.Nat.Bitwise
import Hivemind.Lib.OrdMap
import Hivemind.Lib.Runs

/-!
# Locked pages (`allocators.h`)

The pages of memory with keys in it are locked, so that they are not swapped out.  Locks of the
operating system do not stack, and several ranges may be on one page, so that
`LockedPageManagerBase` counts the ranges of each page.  The pages have `2 ^ k` bytes.  It asks
for a lock when the count of a page starts and gives it back when the count ends; whether the
operating system grants the lock is not looked at.

The counts have type `int` in the source, and are natural numbers here.  A count is never more
than the number of ranges in use, so that the two agree with fewer than `2 ^ 31` of them.  An
address is below `2 ^ 64`, and the loops step from page to page modulo that: on the last page of
all they would start again at zero.

* `eachPage_spec`: the rule for the loop over the pages of a range.
* `LockedPages.Inv.step`: the counts are those of the ranges in use.
* `LockedPages.run_locked`: **a page is to be locked as long as a byte of a range in use is on
  it**, and its count is in range.
-/

namespace Hivemind

open Ordered Runs

/-- `LockedPageManagerBase`, with what it has asked of the operating system. -/
structure LockedPages where
  /-- How many ranges are on a page, an `int`. -/
  histogram : OrdMap Nat Nat := .empty
  /-- The pages that the operating system has been asked to lock. -/
  locked : OrdMap Nat Unit := .empty
  /-- The ranges in use. -/
  live : List (Nat × Nat) := []

/-- The calls of the manager. -/
inductive PageAct where
  | lockRange (p size : Nat)
  | unlockRange (p size : Nat)

namespace LockedPages

variable (k : Nat)

/-- `page_mask`: the complement of `page_size - 1` in a `size_t`. -/
def pageMask : Nat := 2 ^ 64 - 1 - (2 ^ k - 1)

/-- `start_page`. -/
def startPage (p : Nat) : Nat := p &&& pageMask k

/-- `end_page`. -/
def endPage (p size : Nat) : Nat := (p + size - 1) % 2 ^ 64 &&& pageMask k

/-- The turn of `LockRange` for a page. -/
def lockPage (s : LockedPages) (page : Nat) : Option LockedPages :=
  match s.histogram.find page with
  | none =>
    -- Newly locked page
    some { s with locked := s.locked.put page (), histogram := s.histogram.put page 1 }
  | some n => some { s with histogram := s.histogram.put page (n + 1) }

/-- The turn of `UnlockRange` for a page; `none` where the assertion fails. -/
def unlockPage (s : LockedPages) (page : Nat) : Option LockedPages :=
  match s.histogram.find page with
  | none => none
  | some n =>
    if n - 1 = 0 then
      some { s with locked := s.locked.erase page, histogram := s.histogram.erase page }
    else some { s with histogram := s.histogram.put page (n - 1) }

/-- The loop over the pages; `none` where it does not end within the given turns. -/
def eachPage (turn : LockedPages → Nat → Option LockedPages) (last : Nat) :
    Nat → Nat → LockedPages → Option LockedPages
  | 0, _, _ => none
  | turns + 1, page, s =>
    if page ≤ last then
      (turn s page).bind (eachPage turn last turns ((page + 2 ^ k) % 2 ^ 64))
    else some s

/-- `LockRange`. -/
def lockRange (s : LockedPages) (p size : Nat) : Option LockedPages :=
  if size = 0 then some s
  else (eachPage k lockPage (endPage k p size) (2 ^ 64) (startPage k p) s).map fun s =>
    { s with live := (p, size) :: s.live }

/-- `UnlockRange`. -/
def unlockRange (s : LockedPages) (p size : Nat) : Option LockedPages :=
  if size = 0 then some s
  else (eachPage k unlockPage (endPage k p size) (2 ^ 64) (startPage k p) s).map fun s =>
    { s with live := s.live.erase (p, size) }

/-- One call. -/
def step (s : LockedPages) : PageAct → Option LockedPages
  | .lockRange p size => s.lockRange k p size
  | .unlockRange p size => s.unlockRange k p size

/-! ## Pages -/

/-- The range has a byte on the page. -/
def Touches (page : Nat) (r : Nat × Nat) : Prop :=
  2 ^ k ∣ page ∧ 0 < r.2 ∧ page < r.1 + r.2 ∧ r.1 < page + 2 ^ k

instance instDecidableTouches (page : Nat) (r : Nat × Nat) : Decidable (Touches k page r) :=
  inferInstanceAs (Decidable (_ ∧ _))

variable {k} {s : LockedPages}

/-- The mask takes an address to the start of its page. -/
theorem and_pageMask (hk : k ≤ 64) {a : Nat} (ha : a < 2 ^ 64) :
    a &&& pageMask k = 2 ^ k * (a / 2 ^ k) := by
  have hpow : 2 ^ k ≤ 2 ^ 64 := Nat.pow_le_pow_right (by omega) hk
  have hmask : pageMask k = 2 ^ 64 - (2 ^ k - 1 + 1) := by
    have hpos := Nat.two_pow_pos k
    rw [pageMask]
    omega
  apply Nat.eq_of_testBit_eq
  intro i
  have hpos := Nat.two_pow_pos k
  rw [hmask, Nat.testBit_and, Nat.testBit_two_pow_sub_succ (by omega), Nat.testBit_two_pow_sub_one,
    Nat.testBit_two_pow_mul, Nat.testBit_div_two_pow]
  by_cases hik : i < k
  · simp [hik, Nat.not_le.mpr hik]
  · have hki : k ≤ i := Nat.le_of_not_lt hik
    by_cases hi : i < 64
    · simp [hik, hki, hi, Nat.sub_add_cancel hki]
    · have hlow : a.testBit i = false :=
        Nat.testBit_lt_two_pow (ha.trans_le (Nat.pow_le_pow_right (by omega) (by omega)))
      simp [hik, hi, hlow, Nat.sub_add_cancel hki]

/-- The range lies in memory, and not on its last page. -/
def InMemory (k : Nat) (r : Nat × Nat) : Prop := 0 < r.2 ∧ r.1 + r.2 + 2 ^ k ≤ 2 ^ 64

/-- **The rule for the loop**: what each turn passes on to the next page holds at the end. -/
theorem eachPage_spec (hk : k ≤ 64) {turn : LockedPages → Nat → Option LockedPages}
    {p size : Nat} (hmem : InMemory k (p, size)) (P : Nat → LockedPages → Prop)
    (hturn : ∀ i s, p / 2 ^ k ≤ i → i ≤ (p + size - 1) / 2 ^ k → P i s →
      ∃ s', turn s (2 ^ k * i) = some s' ∧ P (i + 1) s')
    (hs : P (p / 2 ^ k) s) :
    ∃ s', eachPage k turn (endPage k p size) (2 ^ 64) (startPage k p) s = some s' ∧
      P ((p + size - 1) / 2 ^ k + 1) s' := by
  obtain ⟨hsize, hroom⟩ := hmem
  simp only at hsize hroom
  have hpos := Nat.two_pow_pos k
  have hend : endPage k p size = 2 ^ k * ((p + size - 1) / 2 ^ k) := by
    have hlast : p + size - 1 < 2 ^ 64 := by omega
    rw [endPage, Nat.mod_eq_of_lt hlast, and_pageMask hk hlast]
  have hle : 2 ^ k * ((p + size - 1) / 2 ^ k) ≤ p + size - 1 := Nat.mul_div_le _ _
  have hloop : ∀ turns i s, p / 2 ^ k ≤ i → i ≤ (p + size - 1) / 2 ^ k + 1 →
      (p + size - 1) / 2 ^ k + 2 ≤ i + turns → P i s →
      ∃ s', eachPage k turn (endPage k p size) turns (2 ^ k * i) s = some s' ∧
        P ((p + size - 1) / 2 ^ k + 1) s' := by
    intro turns
    induction turns with
    | zero =>
        intro i s _ hi hturns _
        omega
    | succ turns ih =>
        intro i s hlo hi hturns hP
        rw [eachPage, hend]
        by_cases hcase : i ≤ (p + size - 1) / 2 ^ k
        · rw [if_pos (Nat.mul_le_mul_left _ hcase)]
          obtain ⟨s', hs', hP'⟩ := hturn i s hlo hcase hP
          have hnext : (2 ^ k * i + 2 ^ k) % 2 ^ 64 = 2 ^ k * (i + 1) := by
            have hbound : 2 ^ k * i ≤ 2 ^ k * ((p + size - 1) / 2 ^ k) :=
              Nat.mul_le_mul_left _ hcase
            rw [Nat.mul_add, Nat.mul_one, Nat.mod_eq_of_lt (by omega)]
          rw [hs', Option.bind_some, hnext, ← hend]
          exact ih (i + 1) s' (by omega) (by omega) (by omega) hP'
        · have heq : i = (p + size - 1) / 2 ^ k + 1 := by omega
          have hout : ¬2 ^ k * i ≤ 2 ^ k * ((p + size - 1) / 2 ^ k) := by
            rw [Nat.mul_le_mul_left_iff hpos]
            omega
          rw [if_neg hout]
          exact ⟨s, rfl, heq ▸ hP⟩
  have hstart : startPage k p = 2 ^ k * (p / 2 ^ k) := and_pageMask hk (by omega)
  have hfirst : p / 2 ^ k ≤ (p + size - 1) / 2 ^ k := Nat.div_le_div_right (by omega)
  have hturns : (p + size - 1) / 2 ^ k ≤ p + size - 1 := Nat.div_le_self _ _
  have hfuel : (p + size - 1) / 2 ^ k + 2 ≤ 2 ^ 64 := by omega
  rw [hstart]
  exact hloop _ _ s le_rfl (by omega) (hfuel.trans (Nat.le_add_left _ _)) hs

theorem touches_iff_byte {page : Nat} {r : Nat × Nat} : Touches k page r ↔
    2 ^ k ∣ page ∧ ∃ a, r.1 ≤ a ∧ a < r.1 + r.2 ∧ page ≤ a ∧ a < page + 2 ^ k := by
  have hpos := Nat.two_pow_pos k
  constructor
  · rintro ⟨hdvd, hsize, hbelow, habove⟩
    exact ⟨hdvd, max r.1 page, by omega, by omega, by omega, by omega⟩
  · rintro ⟨hdvd, a, hlo, hhi, hpage, hnext⟩
    exact ⟨hdvd, by omega, by omega, by omega⟩

/-- The pages from index `a` on that the loop has passed before index `i`. -/
def Passed (k a i q : Nat) : Prop := 2 ^ k ∣ q ∧ a ≤ q / 2 ^ k ∧ q / 2 ^ k < i

instance instDecidablePassed (a i q : Nat) : Decidable (Passed k a i q) :=
  inferInstanceAs (Decidable (_ ∧ _))

theorem passed_succ {a i q : Nat} (hai : a ≤ i) :
    Passed k a (i + 1) q ↔ Passed k a i q ∨ q = 2 ^ k * i := by
  have hpos := Nat.two_pow_pos k
  constructor
  · rintro ⟨hdvd, hlo, hhi⟩
    rcases Nat.lt_or_eq_of_le (Nat.le_of_lt_succ hhi) with hlt | heq
    · exact Or.inl ⟨hdvd, hlo, hlt⟩
    · exact Or.inr (heq ▸ (Nat.mul_div_cancel' hdvd).symm)
  · rintro (⟨hdvd, hlo, hhi⟩ | rfl)
    · exact ⟨hdvd, hlo, by omega⟩
    · rw [Passed, Nat.mul_div_cancel_left _ hpos]
      exact ⟨Nat.dvd_mul_right _ _, hai, Nat.lt_succ_self i⟩

theorem not_passed_self {a i : Nat} : ¬Passed k a i (2 ^ k * i) := by
  rintro ⟨-, -, hlt⟩
  rw [Nat.mul_div_cancel_left _ (Nat.two_pow_pos k)] at hlt
  exact lt_irrefl i hlt

/-- The pages of a range are those that the loop passes. -/
theorem passed_end {page p size : Nat} (hsize : 0 < size) :
    Passed k (p / 2 ^ k) ((p + size - 1) / 2 ^ k + 1) page ↔ Touches k page (p, size) := by
  have hpos := Nat.two_pow_pos k
  apply and_congr_right
  rintro ⟨i, rfl⟩
  rw [Nat.mul_div_cancel_left _ hpos, Nat.lt_succ_iff, Nat.le_div_iff_mul_le hpos,
    ← Nat.lt_succ_iff, Nat.div_lt_iff_lt_mul hpos, Nat.succ_mul, Nat.mul_comm i]
  simp only
  omega

/-! ## Counts -/

/-- The histogram has these counts, and the pages that are counted are locked. -/
structure Counted (c : Nat → Nat) (s : LockedPages) : Prop where
  histogram : ∀ q, s.histogram.find q = if c q = 0 then none else some (c q)
  locked : ∀ q, s.locked.find q = if c q = 0 then none else some ()

theorem Counted.congr {c d : Nat → Nat} (h : Counted c s) (hcd : ∀ q, c q = d q) :
    Counted d s := by
  rwa [← funext hcd]

theorem Counted.lockPage {c : Nat → Nat} (h : Counted c s) (page : Nat) :
    ∃ s', s.lockPage page = some s' ∧ s'.live = s.live ∧
      Counted (fun q => if q = page then c q + 1 else c q) s' := by
  rw [LockedPages.lockPage, h.histogram]
  by_cases hc : c page = 0
  · simp only [hc, if_true]
    refine ⟨_, rfl, rfl, ?_, ?_⟩
    · intro q
      rw [OrdMap.find_put]
      by_cases hq : q = page
      · simp [hq, hc]
      · simp only [hq, if_false]
        exact h.histogram q
    · intro q
      rw [OrdMap.find_put]
      by_cases hq : q = page
      · simp [hq]
      · simp only [hq, if_false]
        exact h.locked q
  · simp only [hc, if_false]
    refine ⟨_, rfl, rfl, ?_, ?_⟩
    · intro q
      rw [OrdMap.find_put]
      by_cases hq : q = page
      · simp [hq]
      · simp only [hq, if_false]
        exact h.histogram q
    · intro q
      rw [h.locked]
      by_cases hq : q = page
      · simp [hq, hc]
      · simp [hq]

theorem Counted.unlockPage {c : Nat → Nat} (h : Counted c s) {page : Nat} (hpage : 0 < c page) :
    ∃ s', s.unlockPage page = some s' ∧ s'.live = s.live ∧
      Counted (fun q => if q = page then c q - 1 else c q) s' := by
  have hc : c page ≠ 0 := by omega
  rw [LockedPages.unlockPage, h.histogram]
  simp only [hc, if_false]
  by_cases hone : c page - 1 = 0
  · simp only [hone, if_true]
    refine ⟨_, rfl, rfl, ?_, ?_⟩
    · intro q
      rw [OrdMap.find_erase]
      by_cases hq : q = page
      · simp [hq, hone]
      · simp only [hq, if_false]
        exact h.histogram q
    · intro q
      rw [OrdMap.find_erase]
      by_cases hq : q = page
      · simp [hq, hone]
      · simp only [hq, if_false]
        exact h.locked q
  · simp only [hone, if_false]
    refine ⟨_, rfl, rfl, ?_, ?_⟩
    · intro q
      rw [OrdMap.find_put]
      by_cases hq : q = page
      · simp [hq, hone]
      · simp only [hq, if_false]
        exact h.histogram q
    · intro q
      rw [h.locked]
      by_cases hq : q = page
      · simp [hq, hc, hone]
      · simp [hq]

/-- How many ranges are on a page. -/
def rangesOn (k : Nat) (live : List (Nat × Nat)) (page : Nat) : Nat :=
  live.countP fun r => decide (Touches k page r)

/-- The counts are those of the ranges in use, which lie in memory. -/
structure Inv (k : Nat) (s : LockedPages) : Prop where
  counted : Counted (rangesOn k s.live) s
  memory : ∀ r ∈ s.live, InMemory k r

theorem Inv.start : Inv k {} where
  counted := ⟨by simp [rangesOn], by simp [rangesOn]⟩
  memory := by simp

theorem Inv.lockRange (hk : k ≤ 64) (h : Inv k s) {p size : Nat} (hmem : InMemory k (p, size)) :
    ∃ s', s.lockRange k p size = some s' ∧ s'.live = (p, size) :: s.live ∧ Inv k s' := by
  let c : Nat → Nat → Nat := fun i q =>
    rangesOn k s.live q + if Passed k (p / 2 ^ k) i q then 1 else 0
  have hturn : ∀ i t, p / 2 ^ k ≤ i → i ≤ (p + size - 1) / 2 ^ k →
      t.live = s.live ∧ Counted (c i) t →
      ∃ t', lockPage t (2 ^ k * i) = some t' ∧ t'.live = s.live ∧ Counted (c (i + 1)) t' := by
    rintro i t hlo - ⟨hlive, hcounted⟩
    obtain ⟨t', ht', hlive', hcounted'⟩ := hcounted.lockPage (2 ^ k * i)
    refine ⟨t', ht', hlive'.trans hlive, hcounted'.congr ?_⟩
    intro q
    simp only [c, passed_succ hlo]
    by_cases hq : q = 2 ^ k * i
    · simp [hq, not_passed_self]
    · simp [hq]
  have hfirst : s.live = s.live ∧ Counted (c (p / 2 ^ k)) s := by
    refine ⟨rfl, h.counted.congr ?_⟩
    intro q
    have hnone : ¬Passed k (p / 2 ^ k) (p / 2 ^ k) q := fun ⟨_, hlo, hhi⟩ => by omega
    simp [c, hnone]
  obtain ⟨t, ht, hlive, hcounted⟩ := eachPage_spec hk hmem
    (fun i t => t.live = s.live ∧ Counted (c i) t) hturn hfirst
  have hsize : size ≠ 0 := Nat.pos_iff_ne_zero.mp hmem.1
  refine ⟨{ t with live := (p, size) :: t.live }, ?_, by rw [hlive], ?_, ?_⟩
  · rw [LockedPages.lockRange, if_neg hsize, ht]
    rfl
  · have hcount := hcounted.congr (d := rangesOn k ((p, size) :: t.live)) fun q => by
      simp only [c, passed_end hmem.1, rangesOn, List.countP_cons, hlive, decide_eq_true_eq]
    exact ⟨hcount.histogram, hcount.locked⟩
  · intro r hr
    rcases List.mem_cons.mp hr with rfl | hr
    · exact hmem
    · exact h.memory r (hlive ▸ hr)

theorem Inv.unlockRange (hk : k ≤ 64) (h : Inv k s) {p size : Nat} (hlive : (p, size) ∈ s.live) :
    ∃ s', s.unlockRange k p size = some s' ∧ Inv k s' := by
  have hmem := h.memory _ hlive
  have hon : ∀ q, Touches k q (p, size) → 0 < rangesOn k s.live q := fun q hq =>
    List.countP_pos_iff.mpr ⟨_, hlive, by simpa using hq⟩
  let c : Nat → Nat → Nat := fun i q =>
    rangesOn k s.live q - if Passed k (p / 2 ^ k) i q then 1 else 0
  have hturn : ∀ i t, p / 2 ^ k ≤ i → i ≤ (p + size - 1) / 2 ^ k →
      t.live = s.live ∧ Counted (c i) t →
      ∃ t', unlockPage t (2 ^ k * i) = some t' ∧ t'.live = s.live ∧ Counted (c (i + 1)) t' := by
    rintro i t hlo hhi ⟨hlive', hcounted⟩
    have htouches : Touches k (2 ^ k * i) (p, size) := by
      rw [← passed_end hmem.1, Passed, Nat.mul_div_cancel_left _ (Nat.two_pow_pos k)]
      exact ⟨Nat.dvd_mul_right _ _, hlo, Nat.lt_succ_of_le hhi⟩
    have hpage : 0 < c i (2 ^ k * i) := by
      simp only [c, not_passed_self, if_false]
      exact hon _ htouches
    obtain ⟨t', ht', hlive'', hcounted'⟩ := hcounted.unlockPage hpage
    refine ⟨t', ht', hlive''.trans hlive', hcounted'.congr ?_⟩
    intro q
    simp only [c, passed_succ hlo]
    by_cases hq : q = 2 ^ k * i
    · simp [hq, not_passed_self]
    · simp [hq]
  have hfirst : s.live = s.live ∧ Counted (c (p / 2 ^ k)) s := by
    refine ⟨rfl, h.counted.congr ?_⟩
    intro q
    have hnone : ¬Passed k (p / 2 ^ k) (p / 2 ^ k) q := fun ⟨_, hlo, hhi⟩ => by omega
    simp [c, hnone]
  obtain ⟨t, ht, hlive', hcounted⟩ := eachPage_spec hk hmem
    (fun i t => t.live = s.live ∧ Counted (c i) t) hturn hfirst
  have hsize : size ≠ 0 := Nat.pos_iff_ne_zero.mp hmem.1
  refine ⟨{ t with live := t.live.erase (p, size) }, ?_, ?_, ?_⟩
  · rw [LockedPages.unlockRange, if_neg hsize, ht]
    rfl
  · have hcount := hcounted.congr (d := rangesOn k (t.live.erase (p, size))) fun q => by
      simp only [c, passed_end hmem.1, rangesOn, List.countP_erase, hlive', hlive, true_and,
        decide_eq_true_eq]
    exact ⟨hcount.histogram, hcount.locked⟩
  · intro r hr
    exact h.memory r (hlive' ▸ List.mem_of_mem_erase hr)

/-! ## Runs -/

/-- A range that is locked lies in memory, and one that is unlocked is in use. -/
def Allowed (k : Nat) (s : LockedPages) : PageAct → Prop
  | .lockRange p size => size = 0 ∨ InMemory k (p, size)
  | .unlockRange p size => size = 0 ∨ (p, size) ∈ s.live

/-- **One call** does not fail and keeps the counts. -/
theorem Inv.step (hk : k ≤ 64) (h : Inv k s) {a : PageAct} (ha : s.Allowed k a) :
    ∃ s', s.step k a = some s' ∧ Inv k s' := by
  cases a with
  | lockRange p size =>
      rcases ha with rfl | hmem
      · exact ⟨s, rfl, h⟩
      · obtain ⟨s', hs', -, h'⟩ := h.lockRange hk hmem
        exact ⟨s', hs', h'⟩
  | unlockRange p size =>
      rcases ha with rfl | hlive
      · exact ⟨s, rfl, h⟩
      · exact h.unlockRange hk hlive

/-- **Runs**: while what is unlocked has been locked, no assertion fails and no loop goes on for
ever; a page is to be locked exactly while a range in use has a byte on it, and the pages that
are to be locked are those of the histogram.  No count is more than the ranges in use. -/
theorem run_locked (hk : k ≤ 64) {acts : List PageAct}
    (hallowed : ∀ pre a s, pre ++ [a] <+: acts → run (step k) {} pre = some s → s.Allowed k a) :
    ∃ s, run (step k) {} acts = some s ∧
      (∀ page, s.locked.find page = some () ↔ 2 ^ k ∣ page ∧
        ∃ r ∈ s.live, ∃ a, r.1 ≤ a ∧ a < r.1 + r.2 ∧ page ≤ a ∧ a < page + 2 ^ k) ∧
      (∀ page, s.histogram.find page ≠ none ↔ s.locked.find page = some ()) ∧
      (∀ page n, s.histogram.find page = some n → 0 < n ∧ n ≤ s.live.length) ∧
      (s.live = [] → s.histogram.entries = []) := by
  obtain ⟨s, hrun, h⟩ := run_total (Inv k) (Allowed k) (fun s a hs ha => hs.step hk ha)
    Inv.start hallowed
  have hzero : ∀ page, rangesOn k s.live page = 0 ↔ ∀ r ∈ s.live, ¬Touches k page r := by
    intro page
    simp [rangesOn, List.countP_eq_zero]
  refine ⟨s, hrun, ?_, ?_, ?_, ?_⟩
  · intro page
    rw [h.counted.locked]
    constructor
    · intro hlocked
      have hpos : ¬rangesOn k s.live page = 0 := by
        intro hnone
        rw [if_pos hnone] at hlocked
        cases hlocked
      rw [hzero] at hpos
      push Not at hpos
      obtain ⟨r, hr, htouches⟩ := hpos
      obtain ⟨hdvd, hbyte⟩ := touches_iff_byte.mp htouches
      exact ⟨hdvd, r, hr, hbyte⟩
    · rintro ⟨hdvd, r, hr, hbyte⟩
      rw [if_neg]
      intro hnone
      exact (hzero page).mp hnone r hr (touches_iff_byte.mpr ⟨hdvd, hbyte⟩)
  · intro page
    rw [h.counted.histogram, h.counted.locked]
    split <;> simp
  · intro page n hn
    rw [h.counted.histogram] at hn
    split_ifs at hn with hnone
    cases hn
    exact ⟨Nat.pos_of_ne_zero hnone, List.countP_le_length⟩
  · intro hlive
    apply OrdMap.entries_eq_nil_iff.mpr
    intro page
    rw [h.counted.histogram, hlive]
    rfl

/-- Two ranges share a page, and the longer one is unlocked. -/
def exampleRanges : List PageAct :=
  [.lockRange 4090 12, .lockRange 4096 10, .unlockRange 4090 12]

theorem exampleRanges_locked :
    ∃ s, run (step 12) {} exampleRanges = some s ∧
      (∀ page, s.locked.find page = some () ↔ 2 ^ 12 ∣ page ∧
        ∃ r ∈ s.live, ∃ a, r.1 ≤ a ∧ a < r.1 + r.2 ∧ page ≤ a ∧ a < page + 2 ^ 12) ∧
      (∀ page, s.histogram.find page ≠ none ↔ s.locked.find page = some ()) ∧
      (∀ page n, s.histogram.find page = some n → 0 < n ∧ n ≤ s.live.length) ∧
      (s.live = [] → s.histogram.entries = []) := by
  refine run_locked (by omega) ?_
  intro pre a s hpre hrun
  have hlive : (run (step 12) {} pre).map live = some s.live := by rw [hrun]; rfl
  have hinit := (List.mem_inits _ _).mpr hpre
  simp only [exampleRanges, List.inits, List.map_cons, List.map_nil, List.mem_cons,
    List.append_eq_nil_iff, List.not_mem_nil, or_false] at hinit
  rcases hinit with ⟨-, h⟩ | h | h | h
  · cases h
  · obtain ⟨rfl, ha⟩ := List.append_inj' (show pre ++ [a] = [] ++ [_] from h) rfl
    obtain rfl := List.singleton_inj.mp ha
    exact Or.inr (by simp [InMemory])
  · obtain ⟨rfl, ha⟩ :=
      List.append_inj' (show pre ++ [a] = [.lockRange 4090 12] ++ [_] from h) rfl
    obtain rfl := List.singleton_inj.mp ha
    exact Or.inr (by simp [InMemory])
  · obtain ⟨rfl, ha⟩ :=
      List.append_inj'
        (show pre ++ [a] = [.lockRange 4090 12, .lockRange 4096 10] ++ [_] from h) rfl
    obtain rfl := List.singleton_inj.mp ha
    have hboth : (run (step 12) {} [.lockRange 4090 12, .lockRange 4096 10]).map live =
        some [(4096, 10), (4090, 12)] := by decide +kernel
    obtain hlive := Option.some.inj (hboth.symm.trans hlive)
    exact Or.inr (hlive ▸ by simp)

end LockedPages

end Hivemind
