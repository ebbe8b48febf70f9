import Mathlib.Data.List.Dedup
import Mathlib.Data.List.Sort
import Hivemind.Lib.Components
import Hivemind.Lib.OrdMap
import Hivemind.Wallet.Amounts

/-!
# Address groupings (`wallet.cpp`)

`GetAddressGroupings` puts the addresses together whose common owner can be seen in the
transactions of the wallet: those that were spent from in one transaction, with its change.  It
works on groups behind pointers, which it merges and deletes; `alloc` is `new`.

A new group is merged with all live groups that it hits, one address at a time; the groups that
were hit are deleted, and the addresses in them are pointed to the new one.  A pointer to a group
that was deleted would be read or deleted again where an address still points to it, so the heap
of groups is modelled, and such a read is `none`.  Where `new` puts a group must not matter, and
does not: the result is a set of sets, and the sets are the components of the groups that were
read.

The groups of a transaction are read by `IsMine` and `ExtractDestination`, which may raise an
exception; the statement is about the wallets on which the function returns.

* `GroupState.Inv`: each address points to the one live group that it is in.
* `mergeGroupings_spec`: no deleted group is read, and **the groups are the components.**
* `mergeGroupings_alloc`: they do not depend on the order of the pointers.
* `txGroupings_spec`: what a transaction puts together.
* `getAddressGroupings_linked`: two addresses are in one group when transactions link them.
-/

namespace Hivemind

open Codecs Ordered Outcomes Components

/-! ## Sets of addresses -/

section Sets

variable {α : Type} [LinearOrder α]

/-- `set<CTxDestination>`. -/
abbrev AddressSet (α : Type) [LinearOrder α] := OrdMap α Unit

namespace AddressSet

/-- The set of the addresses of a list. -/
def ofList (as : List α) : AddressSet α := as.foldl (fun s a => s.put a ()) .empty

/-- `s->insert(t->begin(), t->end())`. -/
def insertAll (s t : AddressSet α) : AddressSet α := t.entries.foldl (fun s e => s.put e.1 ()) s

/-- The addresses in order. -/
def elements (s : AddressSet α) : List α := s.entries.map Prod.fst

theorem find_ofList (as : List α) (a : α) :
    (ofList as).find a = some () ↔ a ∈ as := by
  have hloop : ∀ (as : List α) (s : AddressSet α),
      (as.foldl (fun s a => s.put a ()) s).find a = some () ↔ a ∈ as ∨ s.find a = some () := by
    intro as
    induction as with
    | nil => simp
    | cons b as ih =>
        intro s
        rw [List.foldl_cons, ih, OrdMap.find_put, List.mem_cons]
        by_cases hab : a = b <;> simp [hab]
  simp [ofList, hloop]

theorem find_insertAll (s t : AddressSet α) (a : α) :
    (insertAll s t).find a = some () ↔ s.find a = some () ∨ t.find a = some () := by
  rw [insertAll, OrdMap.foldl_entries (g := fun _ _ _ => some ())]
  · cases t.find a <;> simp
  · intro m e k
    exact OrdMap.find_put m e.1 k ()

theorem mem_elements {s : AddressSet α} {a : α} : a ∈ elements s ↔ s.find a = some () := by
  rw [OrdMap.find_eq_some, elements, List.mem_map]
  constructor
  · rintro ⟨⟨b, u⟩, hmem, rfl⟩
    exact hmem
  · intro hmem
    exact ⟨_, hmem, rfl⟩

/-- The addresses of a list, as a set. -/
def carrier (as : List α) : Set α := {a | a ∈ as}

theorem elements_eq_of_carrier {s t : AddressSet α}
    (h : carrier (elements s) = carrier (elements t)) : elements s = elements t := by
  have heq : s = t := by
    apply OrdMap.ext_find
    intro a
    have hmem : a ∈ elements s ↔ a ∈ elements t := iff_of_eq (congrFun h a)
    rw [mem_elements, mem_elements] at hmem
    apply Option.ext
    rintro ⟨⟩
    exact hmem
  rw [heq]

end AddressSet

open AddressSet

/-- `set< set<CTxDestination> >`, each set with its addresses in order. -/
def setOfSets (sets : List (AddressSet α)) : List (List α) :=
  ((sets.map elements).dedup).mergeSort fun as bs => decide (as ≤ bs)

theorem mem_setOfSets {sets : List (AddressSet α)} {as : List α} :
    as ∈ setOfSets sets ↔ ∃ s ∈ sets, elements s = as := by
  simp [setOfSets]

/-- A set of sets is determined by the sets in it. -/
theorem setOfSets_ext {sets sets' : List (AddressSet α)}
    (h : {x | ∃ g ∈ setOfSets sets, x = carrier g} = {x | ∃ g ∈ setOfSets sets', x = carrier g}) :
    setOfSets sets = setOfSets sets' := by
  have hsub : ∀ {sets sets' : List (AddressSet α)},
      {x | ∃ g ∈ setOfSets sets, x = carrier g} ⊆ {x | ∃ g ∈ setOfSets sets', x = carrier g} →
      ∀ as ∈ setOfSets sets, as ∈ setOfSets sets' := by
    intro sets sets' hsub as has
    obtain ⟨as', has', heq⟩ := hsub ⟨as, has, rfl⟩
    obtain ⟨s, -, rfl⟩ := mem_setOfSets.mp has
    obtain ⟨s', -, rfl⟩ := mem_setOfSets.mp has'
    exact elements_eq_of_carrier heq ▸ has'
  have hnodup : ∀ sets : List (AddressSet α), (setOfSets sets).Nodup := fun sets =>
    (List.mergeSort_perm _ _).nodup_iff.mpr (List.nodup_dedup _)
  have hperm : (setOfSets sets).Perm (setOfSets sets') :=
    (List.perm_ext_iff_of_nodup (hnodup sets) (hnodup sets')).mpr fun as =>
      ⟨hsub h.subset as, hsub h.symm.subset as⟩
  exact hperm.eq_of_pairwise' (List.pairwise_mergeSort' (· ≤ ·) _)
    (List.pairwise_mergeSort' (· ≤ ·) _)

/-! ## Merging -/

/-- The local variables of `GetAddressGroupings`, with the groups that are not deleted. -/
structure GroupState (α : Type) [LinearOrder α] where
  heap : OrdMap Nat (AddressSet α) := .empty
  uniqueGroupings : OrdMap Nat Unit := .empty
  setmap : OrdMap α Nat := .empty

namespace GroupState

/-- All the groups hit by a new group. -/
def hits (s : GroupState α) (grouping : List α) : OrdMap Nat Unit :=
  grouping.foldl (fun hits a => (s.setmap.find a).elim hits fun p => hits.put p ()) .empty

/-- A group that is hit goes into the new group and is deleted; `none` where it does not
exist any more. -/
def mergeHit (r : GroupState α × AddressSet α) (hit : Nat) :
    Option (GroupState α × AddressSet α) :=
  (r.1.heap.find hit).map fun set =>
    ({ r.1 with
        heap := r.1.heap.erase hit
        uniqueGroupings := r.1.uniqueGroupings.erase hit },
      insertAll r.2 set)

/-- The turn of the second loop for a group. -/
def mergeGrouping (alloc : OrdMap Nat (AddressSet α) → Nat) (s : GroupState α)
    (grouping : List α) : Option (GroupState α) :=
  let merged := alloc s.heap
  (((s.hits grouping).entries.map Prod.fst).foldlM mergeHit (s, ofList grouping)).map
    fun (t, set) =>
      { heap := t.heap.put merged set
        uniqueGroupings := t.uniqueGroupings.put merged ()
        -- update setmap
        setmap := set.entries.foldl (fun m e => m.put e.1 merged) t.setmap }

/-- The groups that are left. -/
def ret (s : GroupState α) : Option (List (AddressSet α)) :=
  (s.uniqueGroupings.entries.map Prod.fst).mapM fun p => s.heap.find p

end GroupState

/-- The second part of `GetAddressGroupings`; `none` where a deleted group is read. -/
def mergeGroupings (alloc : OrdMap Nat (AddressSet α) → Nat) (groupings : List (List α)) :
    Option (List (List α)) :=
  (groupings.foldlM (GroupState.mergeGrouping alloc) {}).bind fun s => s.ret.map setOfSets

namespace GroupState

variable {s : GroupState α} {grouping : List α}

/-- The groups, as sets. -/
def family (s : GroupState α) : Set (Set α) :=
  {x | ∃ p g, s.heap.find p = some g ∧ x = carrier (elements g)}

/-- The pointers are those of the live groups, and each address points to its group. -/
structure Inv (gs : Set (Set α)) (s : GroupState α) : Prop where
  owned : ∀ p, s.uniqueGroupings.find p = some () ↔ ∃ g, s.heap.find p = some g
  points : ∀ a p, s.setmap.find a = some p ↔ ∃ g, s.heap.find p = some g ∧ a ∈ elements g
  components : IsComponents gs s.family

theorem Inv.start : Inv ∅ ({} : GroupState α) where
  owned := by simp
  points := by simp
  components := by
    have hnone : ({} : GroupState α).family = ∅ := by simp [family]
    rw [hnone]
    exact IsComponents.empty

theorem find_hits (p : Nat) :
    (s.hits grouping).find p = some () ↔ ∃ a ∈ grouping, s.setmap.find a = some p := by
  have hloop : ∀ (as : List α) (m : OrdMap Nat Unit),
      (as.foldl (fun hits a => (s.setmap.find a).elim hits fun p => hits.put p ()) m).find p =
        some () ↔ (∃ a ∈ as, s.setmap.find a = some p) ∨ m.find p = some () := by
    intro as
    induction as with
    | nil => simp
    | cons b as ih =>
        intro m
        rw [List.foldl_cons, ih]
        cases hb : s.setmap.find b with
        | none => simp [hb]
        | some q =>
            simp only [Option.elim_some, OrdMap.find_put, List.mem_cons, exists_eq_or_imp, hb,
              Option.some.injEq]
            by_cases hpq : p = q
            · simp [hpq]
            · simp [hpq, Ne.symm hpq]
  simp [hits, hloop]

/-- All hits are merged, each once. -/
theorem foldlM_mergeHit (ps : List Nat) (hnodup : ps.Nodup) (set : AddressSet α)
    (hlive : ∀ p ∈ ps, ∃ g, s.heap.find p = some g) :
    ∃ t set', ps.foldlM mergeHit (s, set) = some (t, set') ∧
      (∀ q, t.heap.find q = if q ∈ ps then none else s.heap.find q) ∧
      (∀ q, t.uniqueGroupings.find q = if q ∈ ps then none else s.uniqueGroupings.find q) ∧
      t.setmap = s.setmap ∧
      ∀ a, a ∈ elements set' ↔ a ∈ elements set ∨
        ∃ p ∈ ps, ∃ g, s.heap.find p = some g ∧ a ∈ elements g := by
  induction ps generalizing s set with
  | nil => exact ⟨s, set, rfl, by simp, by simp, rfl, by simp⟩
  | cons p ps ih =>
      obtain ⟨hp, hnodup⟩ := List.nodup_cons.mp hnodup
      obtain ⟨g, hg⟩ := hlive p List.mem_cons_self
      let s₁ : GroupState α := { s with
        heap := s.heap.erase p, uniqueGroupings := s.uniqueGroupings.erase p }
      have hrest : ∀ q ∈ ps, s₁.heap.find q = s.heap.find q := by
        intro q hq
        have hne : q ≠ p := fun heq => hp (heq ▸ hq)
        rw [OrdMap.find_erase, if_neg hne]
      obtain ⟨t, set', hrun, hheap, hunique, hmap, hset⟩ := ih (s := s₁) hnodup (insertAll set g)
        fun q hq => by
          rw [hrest q hq]
          exact hlive q (List.mem_cons_of_mem p hq)
      refine ⟨t, set', ?_, ?_, ?_, hmap, ?_⟩
      · rw [List.foldlM_cons]
        simp only [mergeHit, hg, Option.map_some, Option.bind_eq_bind, Option.bind_some]
        exact hrun
      · intro q
        rw [hheap, OrdMap.find_erase]
        by_cases hq : q = p <;> simp [hq]
      · intro q
        rw [hunique, OrdMap.find_erase]
        by_cases hq : q = p <;> simp [hq]
      · intro a
        rw [hset, mem_elements, find_insertAll, ← mem_elements, ← mem_elements]
        have hsame : (∃ q ∈ ps, ∃ g, s₁.heap.find q = some g ∧ a ∈ elements g) ↔
            ∃ q ∈ ps, ∃ g, s.heap.find q = some g ∧ a ∈ elements g := by
          apply exists_congr
          intro q
          apply and_congr_right
          intro hq
          rw [hrest q hq]
        rw [hsame]
        simp only [List.mem_cons, exists_eq_or_imp, hg, Option.some.injEq, exists_eq_left']
        exact or_assoc

/-- **One group**: no deleted group is read, and the components are those with the new group. -/
theorem Inv.mergeGrouping {gs : Set (Set α)} {alloc : OrdMap Nat (AddressSet α) → Nat}
    (halloc : ∀ m : OrdMap Nat (AddressSet α), m.find (alloc m) = none) (h : Inv gs s)
    (hne : grouping ≠ []) :
    ∃ s', s.mergeGrouping alloc grouping = some s' ∧ Inv (insert (carrier grouping) gs) s' := by
  have hhits : ∀ p, p ∈ (s.hits grouping).entries.map Prod.fst ↔
      ∃ g, s.heap.find p = some g ∧ (carrier (elements g) ∩ carrier grouping).Nonempty := by
    intro p
    rw [← elements, mem_elements, find_hits]
    constructor
    · rintro ⟨a, ha, hp⟩
      obtain ⟨g, hg, hag⟩ := (h.points a p).mp hp
      exact ⟨g, hg, a, hag, ha⟩
    · rintro ⟨g, hg, a, hag, ha⟩
      exact ⟨a, ha, (h.points a p).mpr ⟨g, hg, hag⟩⟩
  have hnodup : ((s.hits grouping).entries.map Prod.fst).Nodup := by
    have hsorted := (s.hits grouping).sorted
    exact (List.pairwise_map.mpr (hsorted.imp fun hlt => ne_of_lt hlt))
  obtain ⟨t, set, hrun, hheap, hunique, hmap, hset⟩ := foldlM_mergeHit (s := s) _ hnodup
    (ofList grouping) fun p hp => ((hhits p).mp hp).imp fun g hg => hg.1
  -- what the new group has
  have hswallowed : carrier (elements set) = swallowed s.family (carrier grouping) := by
    ext a
    show a ∈ elements set ↔ _
    rw [hset, mem_elements, find_ofList]
    apply or_congr_right
    constructor
    · rintro ⟨p, hp, g, hg, ha⟩
      obtain ⟨g', hg', hmeet⟩ := (hhits p).mp hp
      rw [hg] at hg'
      obtain rfl := Option.some.inj hg'
      exact ⟨_, ⟨p, g, hg, rfl⟩, ha, hmeet⟩
    · rintro ⟨x, ⟨p, g, hg, rfl⟩, ha, hmeet⟩
      exact ⟨p, (hhits p).mpr ⟨g, hg, hmeet⟩, g, hg, ha⟩
  let merged := alloc s.heap
  have hfresh : s.heap.find merged = none := halloc s.heap
  let s' : GroupState α :=
    { heap := t.heap.put merged set
      uniqueGroupings := t.uniqueGroupings.put merged ()
      setmap := set.entries.foldl (fun m e => m.put e.1 merged) t.setmap }
  have hs' : s.mergeGrouping alloc grouping = some s' := by
    rw [GroupState.mergeGrouping, hrun]
    rfl
  -- a group that is left is one that was not hit
  have hleft : ∀ p g, s'.heap.find p = some g ↔ (p = merged ∧ g = set) ∨
      (p ∉ (s.hits grouping).entries.map Prod.fst ∧ s.heap.find p = some g) := by
    intro p g
    show (t.heap.put merged set).find p = some g ↔ _
    rw [OrdMap.find_put, hheap]
    by_cases hp : p = merged
    · subst hp
      simp [hfresh, eq_comm]
    · simp only [hp, if_false, false_and, false_or]
      split <;> simp_all
  refine ⟨s', hs', ?_, ?_, ?_⟩
  · intro p
    show (t.uniqueGroupings.put merged ()).find p = some () ↔ _
    rw [OrdMap.find_put, hunique]
    simp only [hleft]
    by_cases hp : p = merged
    · simp [hp]
    · simp only [hp, if_false, false_and, false_or]
      split
      · simp_all
      · rw [h.owned p]
        simp_all
  · intro a p
    have hsetmap : s'.setmap.find a =
        if a ∈ elements set then some merged else s.setmap.find a := by
      have hfold := OrdMap.foldl_entries (g := fun _ _ _ => some merged)
        (fun m e k => OrdMap.find_put m e.1 k merged) set t.setmap a
      refine hfold.trans ?_
      rw [hmap]
      by_cases ha : a ∈ elements set
      · rw [if_pos ha, mem_elements.mp ha]
        rfl
      · rw [if_neg ha]
        cases hfind : set.find a with
        | none => rfl
        | some u => exact absurd (mem_elements.mpr hfind) ha
    rw [hsetmap]
    simp only [hleft]
    constructor
    · intro hp
      split at hp
      · rename_i ha
        exact ⟨set, Or.inl ⟨(Option.some.inj hp).symm, rfl⟩, ha⟩
      · rename_i ha
        obtain ⟨g, hg, hag⟩ := (h.points a p).mp hp
        refine ⟨g, Or.inr ⟨?_, hg⟩, hag⟩
        intro hhit
        exact ha ((hset a).mpr (Or.inr ⟨p, hhit, g, hg, hag⟩))
    · rintro ⟨g, ⟨rfl, rfl⟩ | ⟨hhit, hg⟩, hag⟩
      · rw [if_pos hag]
      · have hp := (h.points a p).mpr ⟨g, hg, hag⟩
        rw [if_neg, hp]
        intro ha
        apply hhit
        rcases (hset a).mp ha with ha | ⟨q, hq, g', hg', hag'⟩
        · rw [mem_elements, find_ofList] at ha
          exact (hhits p).mpr ⟨g, hg, a, hag, ha⟩
        · have hq' := (h.points a q).mpr ⟨g', hg', hag'⟩
          rw [hp] at hq'
          exact Option.some.inj hq' ▸ hq
  · have hfamily : s'.family = mergeInto s.family (carrier grouping) := by
      ext x
      constructor
      · rintro ⟨p, g, hg, rfl⟩
        rcases (hleft p g).mp hg with ⟨-, rfl⟩ | ⟨hhit, hg⟩
        · exact Or.inl hswallowed
        · refine Or.inr ⟨⟨p, g, hg, rfl⟩, ?_⟩
          intro hmeet
          exact hhit ((hhits p).mpr ⟨g, hg, hmeet⟩)
      · rintro (rfl | ⟨⟨p, g, hg, rfl⟩, hmiss⟩)
        · exact ⟨merged, set, (hleft _ _).mpr (Or.inl ⟨rfl, rfl⟩), hswallowed.symm⟩
        · refine ⟨p, g, (hleft p g).mpr (Or.inr ⟨?_, hg⟩), rfl⟩
          intro hhit
          obtain ⟨g', hg', hmeet⟩ := (hhits p).mp hhit
          rw [hg] at hg'
          exact hmiss (Option.some.inj hg' ▸ hmeet)
    rw [hfamily]
    obtain ⟨a, ha⟩ := List.exists_mem_of_ne_nil grouping hne
    exact h.components.merge ⟨a, ha⟩

/-- The groups that are left exist. -/
theorem Inv.ret {gs : Set (Set α)} (h : Inv gs s) :
    ∃ sets, s.ret = some sets ∧ ∀ g, g ∈ sets ↔ ∃ p, s.heap.find p = some g := by
  have hall : ∀ ps : List Nat, (∀ p ∈ ps, ∃ g, s.heap.find p = some g) →
      ∃ sets, ps.mapM (fun p => s.heap.find p) = some sets ∧
        ∀ g, g ∈ sets ↔ ∃ p ∈ ps, s.heap.find p = some g := by
    intro ps
    induction ps with
    | nil => exact fun _ => ⟨[], rfl, by simp⟩
    | cons p ps ih =>
        intro hlive
        obtain ⟨g, hg⟩ := hlive p List.mem_cons_self
        obtain ⟨sets, hsets, hmem⟩ := ih fun q hq => hlive q (List.mem_cons_of_mem p hq)
        refine ⟨g :: sets, by simp [List.mapM_cons, hg, hsets], ?_⟩
        intro g'
        simp only [List.mem_cons, hmem, exists_eq_or_imp, hg, Option.some.injEq]
        exact or_congr_left eq_comm
  have hptr : ∀ p, p ∈ s.uniqueGroupings.entries.map Prod.fst ↔ ∃ g, s.heap.find p = some g := by
    intro p
    rw [← elements, mem_elements, h.owned]
  obtain ⟨sets, hsets, hmem⟩ := hall _ fun p hp => (hptr p).mp hp
  refine ⟨sets, hsets, ?_⟩
  intro g
  rw [hmem]
  constructor
  · rintro ⟨p, -, hp⟩
    exact ⟨p, hp⟩
  · rintro ⟨p, hp⟩
    exact ⟨p, (hptr p).mpr ⟨g, hp⟩, hp⟩

end GroupState

/-- **All groups**: no deleted group is read, and what is left are the components. -/
theorem mergeGroupings_spec {alloc : OrdMap Nat (AddressSet α) → Nat}
    (halloc : ∀ m : OrdMap Nat (AddressSet α), m.find (alloc m) = none)
    {groupings : List (List α)} (hne : ∀ g ∈ groupings, g ≠ []) :
    ∃ sets, mergeGroupings alloc groupings = some (setOfSets sets) ∧
      IsComponents {x | ∃ g ∈ groupings, x = carrier g}
        {x | ∃ g ∈ setOfSets sets, x = carrier g} := by
  have hloop : ∀ (groupings : List (List α)) (gs : Set (Set α)) (s : GroupState α),
      s.Inv gs → (∀ g ∈ groupings, g ≠ []) →
      ∃ s', groupings.foldlM (GroupState.mergeGrouping alloc) s = some s' ∧
        s'.Inv (gs ∪ {x | ∃ g ∈ groupings, x = carrier g}) := by
    intro groupings
    induction groupings with
    | nil => exact fun gs s h _ => ⟨s, rfl, by simpa using h⟩
    | cons g groupings ih =>
        intro gs s h hne
        obtain ⟨s₁, hs₁, h₁⟩ := h.mergeGrouping halloc (hne g List.mem_cons_self)
        obtain ⟨s', hs', h'⟩ := ih _ s₁ h₁ fun g' hg' => hne g' (List.mem_cons_of_mem g hg')
        refine ⟨s', by simp [List.foldlM_cons, hs₁, hs'], ?_⟩
        have heq : insert (carrier g) gs ∪ {x | ∃ g ∈ groupings, x = carrier g} =
            gs ∪ {x | ∃ g' ∈ g :: groupings, x = carrier g'} := by
          ext x
          simp only [Set.mem_union, Set.mem_insert_iff, Set.mem_ofPred_eq, List.mem_cons,
            exists_eq_or_imp]
          tauto
        exact heq ▸ h'
  obtain ⟨s, hs, hinv⟩ := hloop groupings ∅ {} GroupState.Inv.start hne
  obtain ⟨sets, hsets, hmem⟩ := hinv.ret
  refine ⟨sets, by simp [mergeGroupings, hs, hsets], ?_⟩
  have hfamily : s.family = {x | ∃ g ∈ setOfSets sets, x = carrier g} := by
    ext x
    constructor
    · rintro ⟨p, g, hg, rfl⟩
      exact ⟨_, mem_setOfSets.mpr ⟨g, (hmem g).mpr ⟨p, hg⟩, rfl⟩, rfl⟩
    · rintro ⟨as, has, rfl⟩
      obtain ⟨g, hg, rfl⟩ := mem_setOfSets.mp has
      obtain ⟨p, hp⟩ := (hmem g).mp hg
      exact ⟨p, g, hp, rfl⟩
  have hcomponents := hinv.components
  rw [hfamily, Set.empty_union] at hcomponents
  exact hcomponents

/-- It does not matter where `new` puts the groups. -/
theorem mergeGroupings_alloc {alloc alloc' : OrdMap Nat (AddressSet α) → Nat}
    (halloc : ∀ m : OrdMap Nat (AddressSet α), m.find (alloc m) = none)
    (halloc' : ∀ m : OrdMap Nat (AddressSet α), m.find (alloc' m) = none)
    {groupings : List (List α)} (hne : ∀ g ∈ groupings, g ≠ []) :
    mergeGroupings alloc groupings = mergeGroupings alloc' groupings := by
  obtain ⟨sets, hsets, hcomponents⟩ := mergeGroupings_spec halloc hne
  obtain ⟨sets', hsets', hcomponents'⟩ := mergeGroupings_spec halloc' hne
  rw [hsets, hsets', setOfSets_ext (hcomponents.unique hcomponents')]

end Sets

/-! ## The wallet's groups -/

/-- The alternative of the `boost::variant` and the bytes in it. -/
def CTxDestination.key : CTxDestination → Bytes
  | .noDestination => [0]
  | .keyID id => 1 :: id.val
  | .scriptID id => 2 :: id.val

theorem CTxDestination.key_injective : Function.Injective CTxDestination.key := by
  intro a b h
  cases a <;> cases b <;> simp_all [CTxDestination.key, Subtype.ext_iff]

/-- The order of `boost::variant`: by the alternative, then by the value. -/
instance instLinearOrderCTxDestination : LinearOrder CTxDestination :=
  LinearOrder.lift' CTxDestination.key CTxDestination.key_injective

/-- The addresses that are found in a list, in order. -/
def collectAddresses {β : Type} (f : β → Except Raised (Option CTxDestination)) :
    List β → Except Raised (List CTxDestination)
  | [] => .ok []
  | x :: xs => do
    let address ← f x
    let addresses ← collectAddresses f xs
    .ok (address.toList ++ addresses)

namespace CWallet

variable (w : CWallet)

/-- The address of an output that is mine. -/
def mineAddress (txout : CTxOut) : Except Raised (Option CTxDestination) := do
  let mine ← w.isMine txout.scriptPubKey
  if mine = .no then .ok none else w.destination txout.scriptPubKey

/-- The address that an input of mine spends from. -/
def inputAddress (txin : CTxIn) : Except Raised (Option CTxDestination) :=
  match (w.mapWallet.find txin.prevout.hash).bind fun prev => prev.vout[txin.prevout.n.toNat]? with
  | none => .ok none
  | some txout => w.mineAddress txout

/-- The address of an output that is change. -/
def changeAddress (txout : CTxOut) : Except Raised (Option CTxDestination) := do
  let change ← w.isChange txout
  if change then w.destination txout.scriptPubKey else .ok none

/-- The input addresses, and the change with them. -/
def spentGrouping (tx : CTransaction) : Except Raised (List CTxDestination) := do
  let inputs ← collectAddresses w.inputAddress tx.vin
  if inputs = [] then .ok []
  else do
    let change ← collectAddresses w.changeAddress tx.vout
    .ok (inputs ++ change)

/-- The groups of a transaction; lone addresses are by themselves. -/
def txGroupings (tx : CTransaction) : Except Raised (List (List CTxDestination)) := do
  let grouping ← w.spentGrouping tx
  let lone ← collectAddresses w.mineAddress tx.vout
  .ok ((if grouping = [] then [] else [grouping]) ++ lone.map fun a => [a])

/-- The first loop of `GetAddressGroupings`. -/
def groupings : List CTransaction → Except Raised (List (List CTxDestination))
  | [] => .ok []
  | tx :: txs => do
    let first ← w.txGroupings tx
    let rest ← groupings txs
    .ok (first ++ rest)

/-- `GetAddressGroupings`, with `alloc` for `new`. -/
def getAddressGroupings (alloc : OrdMap Nat (AddressSet CTxDestination) → Nat) :
    Except Raised (Option (List (List CTxDestination))) := do
  let gs ← w.groupings (w.mapWallet.entries.map Prod.snd)
  .ok (mergeGroupings alloc (setOfSets (gs.map AddressSet.ofList)))

/-! ## What links addresses -/

/-- The transaction spends from the address. -/
def Spends (tx : CTransaction) (a : CTxDestination) : Prop :=
  ∃ txin ∈ tx.vin, w.inputAddress txin = .ok (some a)

/-- The transaction has change for the address. -/
def ChangesTo (tx : CTransaction) (a : CTxDestination) : Prop :=
  ∃ txout ∈ tx.vout, w.changeAddress txout = .ok (some a)

/-- A transaction shows that two addresses have one owner. -/
def Shown (a b : CTxDestination) : Prop :=
  ∃ id tx, w.mapWallet.find id = some tx ∧
    ((∃ c, w.Spends tx c) ∧
        (w.Spends tx a ∨ w.ChangesTo tx a) ∧
        (w.Spends tx b ∨ w.ChangesTo tx b) ∨
      a = b ∧ ∃ txout ∈ tx.vout, w.mineAddress txout = .ok (some a))

variable {w}

theorem mem_collectAddresses {β : Type} {f : β → Except Raised (Option CTxDestination)}
    {xs : List β} {addresses : List CTxDestination} (h : collectAddresses f xs = .ok addresses)
    (a : CTxDestination) : a ∈ addresses ↔ ∃ x ∈ xs, f x = .ok (some a) := by
  induction xs generalizing addresses with
  | nil =>
      obtain rfl := Except.ok.inj h
      simp
  | cons x xs ih =>
      obtain ⟨address, hx, h⟩ := bind_eq_ok.mp h
      obtain ⟨rest, hrest, h⟩ := bind_eq_ok.mp h
      obtain rfl := Except.ok.inj h
      rw [List.mem_append, ih hrest, Option.mem_toList]
      simp [hx]

theorem spentGrouping_spec {tx : CTransaction} {grouping : List CTxDestination}
    (h : w.spentGrouping tx = .ok grouping) (a : CTxDestination) :
    a ∈ grouping ↔ (∃ c, w.Spends tx c) ∧
      (w.Spends tx a ∨ w.ChangesTo tx a) := by
  obtain ⟨inputs, hinputs, h⟩ := bind_eq_ok.mp h
  have hspends := mem_collectAddresses hinputs
  split at h
  · rename_i hnil
    obtain rfl := Except.ok.inj h
    subst hnil
    have hnone : ¬∃ c, w.Spends tx c := by
      rintro ⟨c, hc⟩
      exact List.not_mem_nil ((hspends c).mpr hc)
    simp [hnone]
  · rename_i hcons
    obtain ⟨change, hchange, h⟩ := bind_eq_ok.mp h
    obtain rfl := Except.ok.inj h
    obtain ⟨c, hc⟩ := List.exists_mem_of_ne_nil inputs hcons
    rw [List.mem_append, hspends, mem_collectAddresses hchange]
    exact ⟨fun ha => ⟨⟨c, (hspends c).mp hc⟩, ha⟩, fun ha => ha.2⟩

/-- Two addresses are in a group of a transaction when it shows that they have one owner. -/
theorem txGroupings_spec {tx : CTransaction} {gs : List (List CTxDestination)}
    (h : w.txGroupings tx = .ok gs) :
    (∀ g ∈ gs, g ≠ []) ∧ ∀ a b, (∃ g ∈ gs, a ∈ g ∧ b ∈ g) ↔
      (∃ c, w.Spends tx c) ∧
          (w.Spends tx a ∨ w.ChangesTo tx a) ∧
          (w.Spends tx b ∨ w.ChangesTo tx b) ∨
        a = b ∧ ∃ txout ∈ tx.vout, w.mineAddress txout = .ok (some a) := by
  obtain ⟨grouping, hgrouping, h⟩ := bind_eq_ok.mp h
  obtain ⟨lone, hlone, h⟩ := bind_eq_ok.mp h
  obtain rfl := Except.ok.inj h
  have hspent := spentGrouping_spec hgrouping
  have hmine := mem_collectAddresses hlone
  constructor
  · intro g hg
    rcases List.mem_append.mp hg with hg | hg
    · split at hg
      · cases hg
      · rename_i hne
        exact List.mem_singleton.mp hg ▸ hne
    · obtain ⟨a, -, rfl⟩ := List.mem_map.mp hg
      exact List.cons_ne_nil a []
  · intro a b
    constructor
    · rintro ⟨g, hg, ha, hb⟩
      rcases List.mem_append.mp hg with hg | hg
      · split at hg
        · cases hg
        · obtain rfl := List.mem_singleton.mp hg
          obtain ⟨hany, ha⟩ := (hspent a).mp ha
          exact Or.inl ⟨hany, ha, ((hspent b).mp hb).2⟩
      · obtain ⟨c, hc, rfl⟩ := List.mem_map.mp hg
        obtain rfl := List.mem_singleton.mp ha
        obtain rfl := List.mem_singleton.mp hb
        exact Or.inr ⟨rfl, (hmine _).mp hc⟩
    · rintro (⟨hany, ha, hb⟩ | ⟨rfl, ha⟩)
      · have hag := (hspent a).mpr ⟨hany, ha⟩
        refine ⟨grouping, ?_, hag, (hspent b).mpr ⟨hany, hb⟩⟩
        rw [List.mem_append, if_neg (List.ne_nil_of_mem hag)]
        exact Or.inl (List.mem_singleton.mpr rfl)
      · refine ⟨[a], List.mem_append.mpr (Or.inr ?_), by simp, by simp⟩
        exact List.mem_map.mpr ⟨a, (hmine a).mpr ha, rfl⟩

theorem mem_groupings {txs : List CTransaction} {gs : List (List CTxDestination)}
    (h : w.groupings txs = .ok gs) (g : List CTxDestination) :
    g ∈ gs ↔ ∃ tx ∈ txs, ∃ gs', w.txGroupings tx = .ok gs' ∧ g ∈ gs' := by
  induction txs generalizing gs with
  | nil =>
      obtain rfl := Except.ok.inj h
      simp
  | cons tx txs ih =>
      obtain ⟨first, hfirst, h⟩ := bind_eq_ok.mp h
      obtain ⟨rest, hrest, h⟩ := bind_eq_ok.mp h
      obtain rfl := Except.ok.inj h
      rw [List.mem_append, ih hrest]
      simp [hfirst]

/-- The loop succeeds for every transaction. -/
theorem txGroupings_isOk {txs : List CTransaction} {gs : List (List CTxDestination)}
    (h : w.groupings txs = .ok gs) {tx : CTransaction} (htx : tx ∈ txs) :
    ∃ gs', w.txGroupings tx = .ok gs' := by
  induction txs generalizing gs with
  | nil => cases htx
  | cons tx' txs ih =>
      obtain ⟨first, hfirst, h⟩ := bind_eq_ok.mp h
      obtain ⟨rest, hrest, -⟩ := bind_eq_ok.mp h
      rcases List.mem_cons.mp htx with rfl | htx
      · exact ⟨first, hfirst⟩
      · exact ih hrest htx

/-- **Address groupings**: no deleted group is read; two addresses are in one group exactly when
transactions link them, and no address is in two groups. -/
theorem getAddressGroupings_linked {alloc : OrdMap Nat (AddressSet CTxDestination) → Nat}
    (halloc : ∀ m : OrdMap Nat (AddressSet CTxDestination), m.find (alloc m) = none)
    {r : Option (List (List CTxDestination))}
    (h : w.getAddressGroupings alloc = .ok r) :
    ∃ ret, r = some ret ∧
      (∀ a b, (∃ g ∈ ret, a ∈ g ∧ b ∈ g) ↔ Relation.TransGen w.Shown a b) ∧
      ∀ g ∈ ret, g ≠ [] ∧ ∀ g' ∈ ret, ∀ a, a ∈ g → a ∈ g' → ∀ b, b ∈ g ↔ b ∈ g' := by
  obtain ⟨gs, hgs, h⟩ := bind_eq_ok.mp h
  obtain rfl := Except.ok.inj h
  have htxs : ∀ tx, tx ∈ w.mapWallet.entries.map Prod.snd ↔
      ∃ id, w.mapWallet.find id = some tx := by
    intro tx
    simp [OrdMap.find_eq_some]
  have hgroup : ∀ g, g ∈ gs → g ≠ [] := by
    intro g hg
    obtain ⟨tx, -, gs', hgs', hg⟩ := (mem_groupings hgs g).mp hg
    exact (txGroupings_spec hgs').1 g hg
  have hof : ∀ as, (∃ g ∈ setOfSets (gs.map AddressSet.ofList), as = AddressSet.carrier g) ↔
      ∃ g ∈ gs, as = AddressSet.carrier g := by
    intro as
    have hcarrier : ∀ g : List CTxDestination,
        AddressSet.carrier (AddressSet.elements (AddressSet.ofList g)) = AddressSet.carrier g := by
      intro g
      ext a
      exact AddressSet.mem_elements.trans (AddressSet.find_ofList g a)
    constructor
    · rintro ⟨l, hl, rfl⟩
      obtain ⟨s, hs, rfl⟩ := mem_setOfSets.mp hl
      obtain ⟨g, hg, rfl⟩ := List.mem_map.mp hs
      exact ⟨g, hg, hcarrier g⟩
    · rintro ⟨g, hg, rfl⟩
      exact ⟨_, mem_setOfSets.mpr ⟨_, List.mem_map.mpr ⟨g, hg, rfl⟩, rfl⟩, (hcarrier g).symm⟩
  have hne : ∀ g ∈ setOfSets (gs.map AddressSet.ofList), g ≠ [] := by
    rintro g hg rfl
    obtain ⟨g', hg', heq⟩ := (hof _).mp ⟨[], hg, rfl⟩
    obtain ⟨a, ha⟩ := List.exists_mem_of_ne_nil g' (hgroup g' hg')
    have hmem : a ∈ AddressSet.carrier g' := ha
    rw [← heq] at hmem
    exact List.not_mem_nil hmem
  obtain ⟨sets, hsets, hcomponents⟩ := mergeGroupings_spec halloc hne
  refine ⟨setOfSets sets, hsets, ?_, ?_⟩
  · -- two addresses are together in a group that was read exactly when a transaction shows it
    have hshown : Together {x | ∃ g ∈ setOfSets (gs.map AddressSet.ofList),
        x = AddressSet.carrier g} = w.Shown := by
      funext a b
      apply propext
      constructor
      · rintro ⟨x, hx, ha, hb⟩
        obtain ⟨g, hg, rfl⟩ := (hof x).mp hx
        obtain ⟨tx, htx, gs', hgs', hg⟩ := (mem_groupings hgs g).mp hg
        obtain ⟨id, hid⟩ := (htxs tx).mp htx
        exact ⟨id, tx, hid, ((txGroupings_spec hgs').2 a b).mp ⟨g, hg, ha, hb⟩⟩
      · rintro ⟨id, tx, hid, hlink⟩
        have htx := (htxs tx).mpr ⟨id, hid⟩
        obtain ⟨gs', hgs'⟩ := txGroupings_isOk hgs htx
        obtain ⟨g, hg, ha, hb⟩ := ((txGroupings_spec hgs').2 a b).mpr hlink
        exact ⟨_, (hof _).mpr ⟨g, (mem_groupings hgs g).mpr ⟨tx, htx, gs', hgs', hg⟩, rfl⟩, ha, hb⟩
    intro a b
    rw [← hshown]
    refine Iff.trans ?_ (hcomponents.together a b)
    constructor
    · rintro ⟨g, hg, ha, hb⟩
      exact ⟨_, ⟨g, hg, rfl⟩, ha, hb⟩
    · rintro ⟨x, ⟨g, hg, rfl⟩, ha, hb⟩
      exact ⟨g, hg, ha, hb⟩
  · intro g hg
    refine ⟨?_, ?_⟩
    · obtain ⟨a, ha⟩ := hcomponents.nonempty _ ⟨g, hg, rfl⟩
      exact List.ne_nil_of_mem ha
    · intro g' hg' a ha ha' b
      have heq := hcomponents.apart _ ⟨g, hg, rfl⟩ _ ⟨g', hg', rfl⟩ a ha ha'
      exact iff_of_eq (congrFun heq b)

/-- The place behind the last one in use. -/
def exampleAlloc (m : OrdMap Nat (AddressSet CTxDestination)) : Nat :=
  (m.entries.getLast?.map fun e => e.1 + 1).getD 0

theorem find_exampleAlloc (m : OrdMap Nat (AddressSet CTxDestination)) :
    m.find (exampleAlloc m) = none := by
  rw [OrdMap.find_eq_none]
  intro set hmem
  cases hlast : m.entries.getLast? with
  | none =>
      rw [List.getLast?_eq_none_iff.mp hlast] at hmem
      cases hmem
  | some e =>
      have hle := OrdMap.le_of_getLast hlast hmem
      simp [exampleAlloc, hlast] at hle

/-- A wallet that owns everything: two coins of different addresses are spent together, with
change. -/
def exampleSpends : CWallet where
  mapWallet := (OrdMap.empty.put (Blob.fill 1)
    { vout := [⟨1000, examplePayTo 7⟩, ⟨500, examplePayTo 8⟩, ⟨20, examplePayTo 10⟩] }).put
      (Blob.fill 2)
      { vin := [{ prevout := ⟨Blob.fill 1, 0⟩ }, { prevout := ⟨Blob.fill 1, 1⟩ }]
        vout := [⟨1400, examplePayTo 9⟩] }
  mapAddressBook := fun _ => false
  isMine := fun _ => .ok .spendable
  hash160 := fun _ => Blob.null

theorem exampleSpends_linked :
    ∃ ret, exampleSpends.getAddressGroupings exampleAlloc = .ok (some ret) ∧
      (∀ a b, (∃ g ∈ ret, a ∈ g ∧ b ∈ g) ↔
        Relation.TransGen exampleSpends.Shown a b) ∧
      ∀ g ∈ ret, g ≠ [] ∧ ∀ g' ∈ ret, ∀ a, a ∈ g → a ∈ g' → ∀ b, b ∈ g ↔ b ∈ g' := by
  have hok : (exampleSpends.getAddressGroupings exampleAlloc).isOk = true := by
    decide +kernel
  cases hr : exampleSpends.getAddressGroupings exampleAlloc with
  | error e =>
      rw [hr] at hok
      cases hok
  | ok r =>
      obtain ⟨ret, rfl, hret⟩ := getAddressGroupings_linked find_exampleAlloc hr
      exact ⟨ret, rfl, hret⟩

end CWallet

end Hivemind
