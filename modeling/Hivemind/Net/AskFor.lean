import Hivemind.Lib.OrdMap
import Hivemind.Lib.Runs
import Mathlib.Data.List.Perm.Basic

/-!
# What to ask for, and when (`limitedmap.h`, `net.cpp`, `main.cpp`)

An announced object is asked for at once from the first node that has it, and from the others two
minutes later each.  `mapAlreadyAskedFor` is a `limitedmap`: it remembers the time of the last
request for each object, and forgets the earliest when it is full.

A `limitedmap` keeps its entries twice, by key and by value, and `erase` and `update` look for the
entry by value with an assertion behind the search.  That the search succeeds, and that a full map
has an earliest entry to forget, is the invariant of the class; that the map has room for one more
entry at the start of each call is the part of it that `insert` needs.

Times are microseconds in an `int64_t`, and integers here.  They agree: a request time is a clock
reading or two minutes behind one that was set before, so the largest time grows by two minutes at
most with each call.  With clock readings of our century, below `2 ^ 51`, some `7 * 10 ^ 10` calls
stay below `2 ^ 63`.

* `LimitedMap.Inv`: `rmap` has the entries of `map` by their value.
* `LimitedMap.insert_spec`: **what is forgotten** is the entry with the least value.
* `AskFor.times_of_run`: **times stay in range** over as many steps as the range has room for.
* `AskFor.run_spaced`: **requests for one object are two minutes apart** as long as it is
  remembered, no map fails, and what `SendMessages` asks for is what is due.
-/

namespace Hivemind

open Ordered Runs

variable {κ : Type} [LinearOrder κ]

/-! ## `limitedmap` -/

/-- `multimap::insert`: behind the entries with the same key. -/
def insertTime (v : Int) (k : κ) : List (Int × κ) → List (Int × κ)
  | [] => [(v, k)]
  | e :: l => if e.1 ≤ v then e :: insertTime v k l else (v, k) :: e :: l

omit [LinearOrder κ] in
theorem insertTime_perm (v : Int) (k : κ) (l : List (Int × κ)) :
    (insertTime v k l).Perm ((v, k) :: l) := by
  induction l with
  | nil => exact .refl _
  | cons e l ih =>
      rw [insertTime]
      split
      · exact (ih.cons e).trans (.swap _ _ _)
      · exact .refl _

omit [LinearOrder κ] in
theorem mem_insertTime {v : Int} {k : κ} {l : List (Int × κ)} {e : Int × κ} :
    e ∈ insertTime v k l ↔ e = (v, k) ∨ e ∈ l := by
  rw [(insertTime_perm v k l).mem_iff, List.mem_cons]

omit [LinearOrder κ] in
theorem insertTime_sorted {v : Int} {k : κ} {l : List (Int × κ)}
    (h : l.Pairwise (·.1 ≤ ·.1)) : (insertTime v k l).Pairwise (·.1 ≤ ·.1) := by
  induction l with
  | nil => exact List.pairwise_singleton _ _
  | cons e l ih =>
      obtain ⟨hfirst, hrest⟩ := List.pairwise_cons.mp h
      rw [insertTime]
      split
      · rename_i hle
        refine List.pairwise_cons.mpr ⟨fun x hx => ?_, ih hrest⟩
        rcases mem_insertTime.mp hx with rfl | hx
        · exact hle
        · exact hfirst x hx
      · rename_i hlt
        refine List.pairwise_cons.mpr ⟨fun x hx => ?_, h⟩
        rcases List.mem_cons.mp hx with rfl | hx
        · exact (Int.not_le.mp hlt).le
        · exact (Int.not_le.mp hlt).le.trans (hfirst x hx)

/-- The fields of a `limitedmap`. -/
structure LimitedMap (κ : Type) [LinearOrder κ] where
  map : OrdMap κ Int
  /-- The entries by their value. -/
  rmap : List (Int × κ)
  nMaxSize : Nat

namespace LimitedMap

/-- `insert`; without an entry to forget it fails. -/
def insert (m : LimitedMap κ) (k : κ) (v : Int) : Option (LimitedMap κ) :=
  match m.map.find k with
  | some _ => some m
  | none =>
    let map := m.map.put k v
    if m.nMaxSize ≠ 0 ∧ map.entries.length = m.nMaxSize then
      match m.rmap with
      | [] => none
      | (_, k₀) :: rmap => some { m with map := map.erase k₀, rmap := insertTime v k rmap }
    else some { m with map := map, rmap := insertTime v k m.rmap }

/-- `erase`; without the entry in `rmap` its assertion fails. -/
def erase (m : LimitedMap κ) (k : κ) : Option (LimitedMap κ) :=
  match m.map.find k with
  | none => some m
  | some v =>
    if (v, k) ∈ m.rmap then some { m with map := m.map.erase k, rmap := m.rmap.erase (v, k) }
    else none

/-- `update`; without the entry in `rmap` its assertion fails. -/
def update (m : LimitedMap κ) (k : κ) (v : Int) : Option (LimitedMap κ) :=
  match m.map.find k with
  | none => some m
  | some v₀ =>
    if (v₀, k) ∈ m.rmap then
      some { m with map := m.map.put k v, rmap := insertTime v k (m.rmap.erase (v₀, k)) }
    else none

/-- The two maps have the same entries, and there is room for one more. -/
structure Inv (N : Nat) (m : LimitedMap κ) : Prop where
  maxSize : m.nMaxSize = N
  mem : ∀ v k, (v, k) ∈ m.rmap ↔ m.map.find k = some v
  nodup : m.rmap.Nodup
  sorted : m.rmap.Pairwise (·.1 ≤ ·.1)
  size : m.rmap.length < N

variable {N : Nat} {m m' : LimitedMap κ}

theorem Inv.empty (hN : 0 < N) : Inv N (⟨.empty, [], N⟩ : LimitedMap κ) where
  maxSize := rfl
  mem _ _ := by simp
  nodup := List.nodup_nil
  sorted := .nil
  size := hN

theorem Inv.length (h : Inv N m) : m.map.entries.length = m.rmap.length := by
  have hentries : m.map.entries.Nodup := m.map.sorted.imp fun hlt heq => (heq ▸ hlt).false
  have hswap : (m.rmap.map Prod.swap).Nodup := h.nodup.map Prod.swap_injective
  have hperm : m.map.entries.Perm (m.rmap.map Prod.swap) := by
    refine (List.perm_ext_iff_of_nodup hentries hswap).mpr fun ⟨k, v⟩ => ?_
    rw [← OrdMap.find_eq_some, ← h.mem, List.mem_map]
    constructor
    · exact fun hmem => ⟨(v, k), hmem, rfl⟩
    · rintro ⟨⟨v', k'⟩, hmem, heq⟩
      obtain ⟨rfl, rfl⟩ := Prod.mk.inj heq
      exact hmem
  rw [hperm.length_eq, List.length_map]

/-- An entry leaves both maps. -/
theorem Inv.erase (h : Inv N m) {k : κ} {v : Int} (hk : m.map.find k = some v) :
    Inv N { m with map := m.map.erase k, rmap := m.rmap.erase (v, k) } where
  maxSize := h.maxSize
  mem v' k' := by
    rw [h.nodup.mem_erase_iff, h.mem, OrdMap.find_erase]
    by_cases hkk : k' = k
    · subst hkk
      simp only [if_true, reduceCtorEq, iff_false, not_and]
      intro hne hfind
      rw [hk] at hfind
      obtain rfl := Option.some.inj hfind
      exact hne rfl
    · simp [hkk]
  nodup := h.nodup.erase _
  sorted := h.sorted.sublist List.erase_sublist
  size := lt_of_le_of_lt List.length_erase_le h.size

/-- An entry enters both maps. -/
theorem Inv.put (h : Inv N m) {k : κ} (hk : m.map.find k = none) (v : Int)
    (hroom : m.rmap.length + 1 < N) :
    Inv N { m with map := m.map.put k v, rmap := insertTime v k m.rmap } where
  maxSize := h.maxSize
  mem v' k' := by
    rw [mem_insertTime, h.mem, OrdMap.find_put, Prod.mk.injEq]
    by_cases hkk : k' = k
    · subst hkk
      simp [hk, eq_comm]
    · simp [hkk]
  nodup := by
    refine (insertTime_perm v k m.rmap).nodup_iff.mpr (List.nodup_cons.mpr ⟨?_, h.nodup⟩)
    rw [h.mem, hk]
    exact fun heq => nomatch heq
  sorted := insertTime_sorted h.sorted
  size := by
    rw [(insertTime_perm v k m.rmap).length_eq]
    exact hroom

/-- **A new entry**: when the map is full, the entry with the least value is forgotten. -/
theorem insert_spec (hN : 2 ≤ N) (h : Inv N m) {k : κ} (hk : m.map.find k = none) (v : Int) :
    ∃ m', m.insert k v = some m' ∧ Inv N m' ∧
      ((∀ k', m'.map.find k' = if k' = k then some v else m.map.find k') ∨
        ∃ k₀ v₀, m.map.find k₀ = some v₀ ∧ m.rmap.length + 1 = N ∧
          (∀ k' v', m.map.find k' = some v' → v₀ ≤ v') ∧
          ∀ k', m'.map.find k' =
            if k' = k then some v else if k' = k₀ then none else m.map.find k') := by
  have hlength := OrdMap.length_put_of_new hk v
  rw [h.length] at hlength
  by_cases hfull : m.rmap.length + 1 = N
  · cases hrmap : m.rmap with
    | nil =>
        rw [hrmap] at hfull
        simp at hfull
        omega
    | cons e rmap =>
        obtain ⟨v₀, k₀⟩ := e
        have hk₀ : m.map.find k₀ = some v₀ := (h.mem v₀ k₀).mp (hrmap ▸ List.mem_cons_self)
        have hne : k ≠ k₀ := by
          rintro rfl
          rw [hk] at hk₀
          cases hk₀
        have herase := h.erase hk₀
        have hrest : m.rmap.erase (v₀, k₀) = rmap := by rw [hrmap, List.erase_cons_head]
        have hswap : (m.map.put k v).erase k₀ = (m.map.erase k₀).put k v := by
          refine OrdMap.ext_find fun k' => ?_
          simp only [OrdMap.find_erase, OrdMap.find_put]
          by_cases hk' : k' = k
          · simp [hk', hne]
          · simp [hk']
        rw [hrest] at herase
        have hput := herase.put (k := k) (by simp [OrdMap.find_erase, hne, hk]) v (by
          have hsize := h.size
          rw [hrmap, List.length_cons] at hsize hfull
          simp only
          omega)
        refine ⟨_, ?_, hput, Or.inr ⟨k₀, v₀, hk₀, hrmap ▸ hfull, ?_, ?_⟩⟩
        · have hcond : m.nMaxSize ≠ 0 ∧ (m.map.put k v).entries.length = m.nMaxSize := by
            rw [h.maxSize, hlength]
            exact ⟨by omega, hfull⟩
          simp only [insert, hk, if_pos hcond, hrmap, hswap]
        · intro k' v' hfind
          have hmem := (h.mem v' k').mpr hfind
          rw [hrmap] at hmem
          rcases List.mem_cons.mp hmem with heq | hmem
          · exact (Prod.mk.inj heq).1.ge
          · have hsorted := h.sorted
            rw [hrmap] at hsorted
            exact (List.pairwise_cons.mp hsorted).1 (v', k') hmem
        · intro k'
          simp only [OrdMap.find_put, OrdMap.find_erase]
  · have hcond : ¬(m.nMaxSize ≠ 0 ∧ (m.map.put k v).entries.length = m.nMaxSize) := by
      rw [h.maxSize, hlength]
      exact fun hboth => hfull hboth.2
    have hroom : m.rmap.length + 1 < N := Nat.lt_of_le_of_ne h.size hfull
    refine ⟨_, ?_, h.put hk v hroom, Or.inl fun k' => OrdMap.find_put _ _ _ _⟩
    simp only [insert, hk, if_neg hcond]

/-- The assertion of `erase` does not fail. -/
theorem erase_spec (h : Inv N m) (k : κ) :
    ∃ m', m.erase k = some m' ∧ Inv N m' ∧
      ∀ k', m'.map.find k' = if k' = k then none else m.map.find k' := by
  cases hk : m.map.find k with
  | none =>
      refine ⟨m, by simp only [LimitedMap.erase, hk], h, fun k' => ?_⟩
      split
      · rename_i heq
        rw [heq, hk]
      · rfl
  | some v =>
      refine ⟨_, ?_, h.erase hk, fun k' => OrdMap.find_erase _ _ _⟩
      simp only [LimitedMap.erase, hk, if_pos ((h.mem v k).mpr hk)]

/-- The assertion of `update` does not fail. -/
theorem update_spec (h : Inv N m) {k : κ} {v₀ : Int} (hk : m.map.find k = some v₀) (v : Int) :
    ∃ m', m.update k v = some m' ∧ Inv N m' ∧
      ∀ k', m'.map.find k' = if k' = k then some v else m.map.find k' := by
  have hmem := (h.mem v₀ k).mpr hk
  have hput : (m.map.erase k).put k v = m.map.put k v := by
    refine OrdMap.ext_find fun k' => ?_
    simp only [OrdMap.find_erase, OrdMap.find_put]
    split <;> rfl
  have hlength := List.length_erase_of_mem hmem
  have hinv := (h.erase hk).put (k := k) (by simp [OrdMap.find_erase]) v (by
    have hsize := h.size
    have hpos := List.length_pos_of_mem hmem
    simp only
    omega)
  rw [hput] at hinv
  refine ⟨_, ?_, hinv, fun k' => OrdMap.find_put _ _ _ _⟩
  simp only [update, hk, if_pos hmem]

theorem eq_of_find {k k' : κ} {v v' : Int}
    (hfind : ∀ k', m'.map.find k' = if k' = k then some v else m.map.find k')
    (hv : m'.map.find k' = some v') :
    if k' = k then v' = v else m.map.find k' = some v' := by
  rw [hfind] at hv
  by_cases heq : k' = k
  · rw [if_pos heq] at hv ⊢
    exact (Option.some.inj hv).symm
  · rwa [if_neg heq] at hv ⊢

/-- **A value is noted** under a key that has one or has none; at most another key loses its
value. -/
theorem note_spec (hN : 2 ≤ N) (h : Inv N m) (k : κ) (v : Int) :
    ∃ m', (if (m.map.find k).isSome then m.update k v else m.insert k v) = some m' ∧
      Inv N m' ∧ ∀ k' v', m'.map.find k' = some v' →
        if k' = k then v' = v else m.map.find k' = some v' := by
  cases hk : m.map.find k with
  | none =>
      obtain ⟨m', hinsert, hinv, hfind⟩ := insert_spec hN h hk v
      refine ⟨m', hinsert, hinv, fun k' v' hv => ?_⟩
      rcases hfind with hfind | ⟨k₀, v₀, -, -, -, hfind⟩
      · exact eq_of_find hfind hv
      · rw [hfind] at hv
        by_cases heq : k' = k
        · rw [if_pos heq] at hv ⊢
          exact (Option.some.inj hv).symm
        · rw [if_neg heq] at hv ⊢
          split at hv
          · cases hv
          · exact hv
  | some v₀ =>
      obtain ⟨m', hupdate, hinv, hfind⟩ := update_spec h hk v
      exact ⟨m', hupdate, hinv, fun k' v' hv => eq_of_find hfind hv⟩

end LimitedMap

/-! ## `AskFor` -/

/-- `MAX_INV_SZ`. -/
def maxInvSz : Nat := 50000

/-- `MAPASKFOR_MAX_SZ`. -/
def mapAskForMaxSz : Nat := maxInvSz

/-- Two minutes, in microseconds. -/
def retryTime : Int := 2 * 60 * 1000000

/-- What is asked for: `mapAlreadyAskedFor`, the last time that was used, and `mapAskFor` of each
node. -/
structure AskFor (κ : Type) [LinearOrder κ] where
  mapAlreadyAskedFor : LimitedMap κ := ⟨.empty, [], maxInvSz⟩
  nLastTime : Int := 0
  mapAskFor : Nat → List (Int × κ) := fun _ => []
  /-- The times for which requests for an object were set since it was remembered last, the latest
  first. -/
  times : κ → List Int := fun _ => []

/-- What is done with it. -/
inductive AskAct (κ : Type) where
  /-- `CNode::AskFor` of a node, with `GetTimeMicros`. -/
  | askFor (node : Nat) (inv : κ) (timeMicros : Int)
  /-- A `tx` message. -/
  | received (inv : κ)
  /-- The last part of `SendMessages`, with `nNow` and `AlreadyHave`. -/
  | send (node : Nat) (nNow : Int) (alreadyHave : κ → Bool)
  /-- `CNode::~CNode`. -/
  | close (node : Nat)

/-- The loop of `SendMessages`: what goes into `getdata` messages, and what stays. -/
def getDue (nNow : Int) (alreadyHave : κ → Bool) : List (Int × κ) → List κ × List (Int × κ)
  | [] => ([], [])
  | (t, inv) :: rest =>
    if t ≤ nNow then
      let (vGetData, rest) := getDue nNow alreadyHave rest
      (if alreadyHave inv then vGetData else inv :: vGetData, rest)
    else ([], (t, inv) :: rest)

omit [LinearOrder κ] in
/-- What is due is asked for, and nothing else. -/
theorem getDue_eq (nNow : Int) (alreadyHave : κ → Bool) {l : List (Int × κ)}
    (h : l.Pairwise (·.1 ≤ ·.1)) :
    getDue nNow alreadyHave l =
      ((l.filter fun e => e.1 ≤ nNow && !alreadyHave e.2).map Prod.snd,
        l.filter fun e => nNow < e.1) := by
  induction l with
  | nil => rfl
  | cons e l ih =>
      obtain ⟨t, inv⟩ := e
      obtain ⟨hfirst, hrest⟩ := List.pairwise_cons.mp h
      rw [getDue]
      by_cases hdue : t ≤ nNow
      · rw [if_pos hdue, ih hrest]
        cases hhave : alreadyHave inv <;> simp [hdue, hhave, Int.not_lt.mpr hdue]
      · -- everything behind it is later
        have hlate : ∀ e ∈ l, nNow < e.1 := fun e he =>
          (Int.not_le.mp hdue).trans_le (hfirst e he)
        have hnone : l.filter (fun e => decide (e.1 ≤ nNow) && !alreadyHave e.2) = [] := by
          refine List.filter_eq_nil_iff.mpr fun e he => ?_
          simp [Int.not_le.mpr (hlate e he)]
        have hall : l.filter (fun e => decide (nNow < e.1)) = l :=
          List.filter_eq_self.mpr fun e he => decide_eq_true (hlate e he)
        rw [if_neg hdue, List.filter_cons_of_neg (by simp [hdue]), hnone,
          List.filter_cons_of_pos (by simpa using hdue), hall]
        rfl

namespace AskFor

/-- `CNode::AskFor`. -/
def askFor (s : AskFor κ) (node : Nat) (inv : κ) (timeMicros : Int) : Option (AskFor κ) :=
  if mapAskForMaxSz < (s.mapAskFor node).length then some s
  else
    let it := s.mapAlreadyAskedFor.map.find inv
    -- times are not used twice, so that what is new stays in order
    let nNow := max (timeMicros - 1000000) (s.nLastTime + 1)
    let nRequestTime := max (it.getD 0 + retryTime) nNow
    let asked := if it.isSome then s.mapAlreadyAskedFor.update inv nRequestTime
      else s.mapAlreadyAskedFor.insert inv nRequestTime
    asked.map fun asked =>
      { mapAlreadyAskedFor := asked
        nLastTime := nNow
        mapAskFor := Function.update s.mapAskFor node
          (insertTime nRequestTime inv (s.mapAskFor node))
        times := Function.update s.times inv
          (nRequestTime :: if it.isSome then s.times inv else []) }

/-- One step. -/
def step (s : AskFor κ) : AskAct κ → Option (AskFor κ)
  | .askFor node inv timeMicros => s.askFor node inv timeMicros
  | .received inv =>
    (s.mapAlreadyAskedFor.erase inv).map fun asked => { s with mapAlreadyAskedFor := asked }
  | .send node nNow alreadyHave =>
    some { s with
      mapAskFor := Function.update s.mapAskFor node
        (getDue nNow alreadyHave (s.mapAskFor node)).2 }
  | .close node => some { s with mapAskFor := Function.update s.mapAskFor node [] }

/-- The requests for an object are two minutes apart, and the last one is remembered. -/
structure Inv (s : AskFor κ) : Prop where
  asked : s.mapAlreadyAskedFor.Inv maxInvSz
  spaced : ∀ inv, (s.times inv).Pairwise fun later earlier => earlier + retryTime ≤ later
  last : ∀ inv v, s.mapAlreadyAskedFor.map.find inv = some v → (s.times inv).head? = some v
  queue : ∀ node, (s.mapAskFor node).Pairwise (·.1 ≤ ·.1)
  size : ∀ node, (s.mapAskFor node).length ≤ mapAskForMaxSz + 1

variable {s : AskFor κ}

theorem Inv.start : Inv ({} : AskFor κ) where
  asked := .empty (by decide)
  spaced _ := .nil
  last _ _ h := nomatch h
  queue _ := .nil
  size _ := Nat.zero_le _

/-- One queue becomes another one. -/
theorem Inv.withQueue (h : Inv s) (node : Nat) {l : List (Int × κ)}
    (hsorted : l.Pairwise (·.1 ≤ ·.1)) (hsize : l.length ≤ mapAskForMaxSz + 1) :
    Inv { s with mapAskFor := Function.update s.mapAskFor node l } where
  asked := h.asked
  spaced := h.spaced
  last := h.last
  queue node' := by
    by_cases hnode : node' = node
    · subst hnode
      simpa using hsorted
    · simpa [hnode] using h.queue node'
  size node' := by
    by_cases hnode : node' = node
    · subst hnode
      simpa using hsize
    · simpa [hnode] using h.size node'

/-- Some objects are forgotten. -/
theorem Inv.forget (h : Inv s) {asked : LimitedMap κ} (hasked : asked.Inv maxInvSz)
    (hfind : ∀ inv v, asked.map.find inv = some v →
      s.mapAlreadyAskedFor.map.find inv = some v) :
    Inv { s with mapAlreadyAskedFor := asked } where
  asked := hasked
  spaced := h.spaced
  last inv v hv := h.last inv v (hfind inv v hv)
  queue := h.queue
  size := h.size

/-- A request is set for a time. -/
theorem Inv.ask (h : Inv s) {asked : LimitedMap κ} (hasked : asked.Inv maxInvSz) (inv : κ)
    (t nLastTime : Int) (earlier : List Int)
    (hlater : ∀ e ∈ earlier, e + retryTime ≤ t)
    (hspaced : earlier.Pairwise fun later earlier => earlier + retryTime ≤ later)
    (hfind : ∀ inv' v, asked.map.find inv' = some v →
      if inv' = inv then v = t else s.mapAlreadyAskedFor.map.find inv' = some v) :
    Inv { s with
      mapAlreadyAskedFor := asked
      nLastTime := nLastTime
      times := Function.update s.times inv (t :: earlier) } where
  asked := hasked
  spaced inv' := by
    by_cases hinv : inv' = inv
    · subst hinv
      simpa using ⟨hlater, hspaced⟩
    · simpa [hinv] using h.spaced inv'
  last inv' v hv := by
    have hcases := hfind inv' v hv
    by_cases hinv : inv' = inv
    · subst hinv
      rw [if_pos rfl] at hcases
      simp [hcases]
    · rw [if_neg hinv] at hcases
      simpa [hinv] using h.last inv' v hcases
  queue := h.queue
  size := h.size

/-- What was set for an object is two minutes before a time that is so much after the one that is
remembered. -/
theorem Inv.later (h : Inv s) {inv : κ} {v t : Int}
    (hv : s.mapAlreadyAskedFor.map.find inv = some v) (ht : v + retryTime ≤ t) :
    ∀ e ∈ s.times inv, e + retryTime ≤ t := by
  have hlast := h.last inv v hv
  have hspaced := h.spaced inv
  cases htimes : s.times inv with
  | nil => exact fun e he => nomatch he
  | cons e₀ rest =>
      rw [htimes] at hlast hspaced
      obtain rfl : e₀ = v := Option.some.inj hlast
      intro e he
      rcases List.mem_cons.mp he with rfl | he
      · exact ht
      · have hfirst := (List.pairwise_cons.mp hspaced).1 e he
        have hpos : (0 : Int) ≤ retryTime := by decide
        omega

theorem Inv.askFor (h : Inv s) (node : Nat) (inv : κ) (timeMicros : Int) :
    ∃ s', s.askFor node inv timeMicros = some s' ∧ Inv s' := by
  by_cases hfull : mapAskForMaxSz < (s.mapAskFor node).length
  · exact ⟨s, by rw [AskFor.askFor, if_pos hfull], h⟩
  · let it := s.mapAlreadyAskedFor.map.find inv
    let nNow := max (timeMicros - 1000000) (s.nLastTime + 1)
    let t := max (it.getD 0 + retryTime) nNow
    let earlier := if it.isSome then s.times inv else []
    have hqueue := insertTime_sorted (v := t) (k := inv) (h.queue node)
    have hsize : (insertTime t inv (s.mapAskFor node)).length ≤ mapAskForMaxSz + 1 := by
      rw [(insertTime_perm t inv _).length_eq, List.length_cons]
      omega
    have hearlier : (∀ e ∈ earlier, e + retryTime ≤ t) ∧
        earlier.Pairwise fun later earlier => earlier + retryTime ≤ later := by
      cases hit : it with
      | none => simp [earlier, hit]
      | some v =>
          have ht : v + retryTime ≤ t := by simp [t, hit]
          simpa [earlier, hit] using ⟨h.later hit ht, h.spaced inv⟩
    obtain ⟨asked, hnote, hasked, hfind⟩ := LimitedMap.note_spec (by decide) h.asked inv t
    refine ⟨_, ?_, (h.ask hasked inv t nNow earlier hearlier.1 hearlier.2 hfind).withQueue
      node hqueue hsize⟩
    rw [AskFor.askFor, if_neg hfull]
    exact congrArg (Option.map _) hnote

/-- **One step** does not fail. -/
theorem Inv.step (h : Inv s) (a : AskAct κ) : ∃ s', s.step a = some s' ∧ Inv s' := by
  cases a with
  | askFor node inv timeMicros => exact h.askFor node inv timeMicros
  | received inv =>
      obtain ⟨asked, herase, hasked, hfind⟩ := LimitedMap.erase_spec h.asked inv
      refine ⟨_, by rw [AskFor.step, herase]; rfl, h.forget hasked fun inv' v hv => ?_⟩
      rw [hfind] at hv
      split at hv
      · cases hv
      · exact hv
  | send node nNow alreadyHave =>
      have hsorted := h.queue node
      have hdue := congrArg Prod.snd (getDue_eq nNow alreadyHave hsorted)
      refine ⟨_, rfl, h.withQueue node ?_ ?_⟩
      · rw [hdue]
        exact hsorted.filter _
      · rw [hdue]
        exact (List.length_filter_le _ _).trans (h.size node)
  | close node => exact ⟨_, rfl, h.withQueue node .nil (Nat.zero_le _)⟩

/-! ### The range of the times -/

/-- All times are between the epoch and `T`. -/
structure Within (T : Int) (s : AskFor κ) : Prop where
  lastTime : 0 ≤ s.nLastTime ∧ s.nLastTime ≤ T
  asked : ∀ inv v, s.mapAlreadyAskedFor.map.find inv = some v → 0 ≤ v ∧ v ≤ T
  queue : ∀ node, ∀ e ∈ s.mapAskFor node, 0 ≤ e.1 ∧ e.1 ≤ T

/-- The clock reading of a step. -/
def clock : AskAct κ → Int
  | .askFor _ _ timeMicros => timeMicros
  | .send _ nNow _ => nNow
  | .received _ | .close _ => 0

variable {T : Int} {s' : AskFor κ}

theorem Within.start (hT : 0 ≤ T) : Within T ({} : AskFor κ) where
  lastTime := ⟨le_refl 0, hT⟩
  asked _ _ h := nomatch h
  queue _ _ he := nomatch he

theorem Within.mono {T' : Int} (h : Within T s) (hT : T ≤ T') : Within T' s where
  lastTime := ⟨h.lastTime.1, h.lastTime.2.trans hT⟩
  asked inv v hv := ⟨(h.asked inv v hv).1, (h.asked inv v hv).2.trans hT⟩
  queue node e he := ⟨(h.queue node e he).1, (h.queue node e he).2.trans hT⟩

/-- A queue loses entries. -/
theorem Within.dequeue (h : Within T s) (node : Nat) {l : List (Int × κ)}
    (hl : ∀ e ∈ l, e ∈ s.mapAskFor node) :
    Within T { s with mapAskFor := Function.update s.mapAskFor node l } where
  lastTime := h.lastTime
  asked := h.asked
  queue node' e he := by
    by_cases hnode : node' = node
    · subst hnode
      exact h.queue node' e (hl e (by simpa using he))
    · exact h.queue node' e (by simpa [hnode] using he)

/-- A request: two minutes later at most than any time there is. -/
theorem Within.askFor (h : Within T s) (hinv : Inv s) {node : Nat} {inv : κ} {timeMicros : Int}
    (hclock : timeMicros ≤ T) (hask : s.askFor node inv timeMicros = some s') :
    Within (T + retryTime) s' := by
  have hgrow : T ≤ T + retryTime := by
    rw [retryTime]
    omega
  rw [AskFor.askFor] at hask
  split at hask
  · obtain rfl := Option.some.inj hask
    exact h.mono hgrow
  · obtain ⟨asked, hasked, rfl⟩ := Option.map_eq_some_iff.mp hask
    set nNow := max (timeMicros - 1000000) (s.nLastTime + 1) with hnNow
    set t := max ((s.mapAlreadyAskedFor.map.find inv).getD 0 + retryTime) nNow with ht
    have hlast := h.lastTime
    have hNow : 0 ≤ nNow ∧ nNow ≤ T + retryTime := by
      rw [hnNow, retryTime]
      omega
    have hknown : (s.mapAlreadyAskedFor.map.find inv).getD 0 ≤ T := by
      cases hit : s.mapAlreadyAskedFor.map.find inv with
      | none => exact hlast.1.trans hlast.2
      | some v => exact (h.asked inv v hit).2
    have htime : 0 ≤ t ∧ t ≤ T + retryTime := by
      rw [ht]
      omega
    obtain ⟨asked', hnote, -, hfind⟩ := LimitedMap.note_spec (by decide) hinv.asked inv t
    obtain rfl := Option.some.inj (hnote.symm.trans hasked)
    refine ⟨hNow, fun inv' v hv => ?_, fun node' e he => ?_⟩
    · have hcases := hfind inv' v hv
      split at hcases
      · rw [hcases]
        exact htime
      · exact (h.mono hgrow).asked inv' v hcases
    · by_cases hnode : node' = node
      · subst hnode
        rcases mem_insertTime.mp (by simpa using he) with rfl | hold
        · exact htime
        · exact (h.mono hgrow).queue node' e hold
      · exact (h.mono hgrow).queue node' e (by simpa [hnode] using he)

/-- **One step** adds two minutes at most. -/
theorem Within.step (h : Within T s) (hinv : Inv s) {a : AskAct κ} (hclock : clock a ≤ T)
    (hstep : s.step a = some s') : Within (T + retryTime) s' := by
  have hgrow : T ≤ T + retryTime := by
    rw [retryTime]
    omega
  cases a with
  | askFor node inv timeMicros => exact h.askFor hinv hclock hstep
  | received inv =>
      obtain ⟨m', hm', -, hfind⟩ := LimitedMap.erase_spec hinv.asked inv
      obtain ⟨asked, hasked, rfl⟩ := Option.map_eq_some_iff.mp hstep
      obtain rfl := Option.some.inj (hm'.symm.trans hasked)
      refine ⟨(h.mono hgrow).lastTime, fun inv' v hv => ?_, (h.mono hgrow).queue⟩
      rw [hfind] at hv
      split at hv
      · cases hv
      · exact (h.mono hgrow).asked inv' v hv
  | send node nNow alreadyHave =>
      obtain rfl := Option.some.inj hstep
      refine (h.mono hgrow).dequeue node fun e he => ?_
      rw [getDue_eq nNow alreadyHave (hinv.queue node)] at he
      exact List.mem_of_mem_filter he
  | close node =>
      obtain rfl := Option.some.inj hstep
      exact (h.mono hgrow).dequeue node fun e he => nomatch he

theorem Within.run (h : Within T s) (hinv : Inv s) (acts : List (AskAct κ))
    (hclock : ∀ a ∈ acts, clock a ≤ T) (hrun : run AskFor.step s acts = some s') :
    Within (T + acts.length * retryTime) s' := by
  induction acts generalizing s T with
  | nil =>
      obtain rfl := Option.some.inj hrun
      simpa using h
  | cons a acts ih =>
      obtain ⟨s₁, ha, hrun⟩ := run_cons_eq_some.mp hrun
      have h₁ := h.step hinv (hclock a List.mem_cons_self) ha
      obtain ⟨s₂, ha', hinv₁⟩ := hinv.step a
      obtain rfl := Option.some.inj (ha.symm.trans ha')
      have hrest : ∀ b ∈ acts, clock b ≤ T + retryTime := by
        intro b hb
        have hb' := hclock b (List.mem_cons_of_mem a hb)
        rw [retryTime]
        omega
      have hend := ih h₁ hinv₁ hrest hrun
      have hsum : T + retryTime + acts.length * retryTime =
          T + (a :: acts).length * retryTime := by
        rw [List.length_cons, Int.natCast_succ, Int.add_mul, one_mul, add_assoc, add_comm retryTime]
      rwa [hsum] at hend

/-- **Times stay in range**: with clock readings up to `T`, none is later than `T` and two minutes
for each step. -/
theorem times_of_run (hT : 0 ≤ T) (acts : List (AskAct κ)) (hclock : ∀ a ∈ acts, clock a ≤ T)
    (hrun : run AskFor.step ({} : AskFor κ) acts = some s') :
    Within (T + acts.length * retryTime) s' :=
  (Within.start hT).run .start acts hclock hrun

/-- **Runs**: no map fails and what is remembered stays bounded; the requests for one object are
two minutes apart as long as it is remembered; and `SendMessages` asks for what is due. -/
theorem run_spaced (acts : List (AskAct κ)) :
    ∃ s, run step ({} : AskFor κ) acts = some s ∧
      s.mapAlreadyAskedFor.map.entries.length < maxInvSz ∧
      (∀ node, (s.mapAskFor node).length ≤ mapAskForMaxSz + 1) ∧
      (∀ inv, (s.times inv).Pairwise fun later earlier => earlier + retryTime ≤ later) ∧
      (∀ inv v, s.mapAlreadyAskedFor.map.find inv = some v → (s.times inv).head? = some v) ∧
      ∀ node nNow alreadyHave, getDue nNow alreadyHave (s.mapAskFor node) =
        (((s.mapAskFor node).filter fun e => e.1 ≤ nNow && !alreadyHave e.2).map Prod.snd,
          (s.mapAskFor node).filter fun e => nNow < e.1) := by
  have hallowed : ∀ pre a s₁, pre ++ [a] <+: acts →
      run step ({} : AskFor κ) pre = some s₁ → True := fun _ _ _ _ _ => trivial
  obtain ⟨s, hrun, h⟩ := run_total Inv (fun _ _ => True) (fun s a hs _ => hs.step a) Inv.start
    hallowed
  refine ⟨s, hrun, ?_, h.size, h.spaced, h.last, fun node nNow alreadyHave => ?_⟩
  · rw [h.asked.length]
    exact h.asked.size
  · exact getDue_eq nNow alreadyHave (h.queue node)

end AskFor

end Hivemind
