import Mathlib.Algebra.Ring.Nat
import Mathlib.Data.List.Nodup
import Mathlib.Data.Nat.Log
import Mathlib.Data.Set.Function

/-!
# Trees of pairs over a list

The levels of a merkle tree: neighbours are paired, and an odd last value with itself, until one
value is left.  Nothing is assumed of the pairing but, where it matters, that it tells apart the
pairs that are formed in the trees in question.

A pairing that is a hash is injective on no type, so an assumption that it is would make every
lemma about it empty.  `Formed` names the pairs that a tree forms, and the lemmas that go down
the tree ask that the pairing be injective on those only.  An odd last value is paired with
itself, which is the same as a list whose last two values agree: such `Twins` are what two lists
with one root can differ in.

* `getElem?_levelAt_succ`, `length_levelAt`: the nodes of a level, and how many there are.
* `level_induction`: the rule for what goes up level by level.
* `getElem?_flatLevels`: all levels in one list, from the bottom up.
* `nodup_levelAt`: no duplicates come up.
* `eq_of_levelAt_eq`: levels determine what is below them, twins at the end apart.
* `eq_of_root_eq`: **the root determines the list**, when no value of it is a node above the
  bottom.
-/

namespace MerkleTrees

variable {α : Type}

/-- The neighbours; an odd last value is its own. -/
def pairUp : List α → List (α × α)
  | [] => []
  | [a] => [(a, a)]
  | a :: b :: xs => (a, b) :: pairUp xs

section Levels

variable (pair : α → α → α)

/-- The level over a list. -/
def level (xs : List α) : List α := (pairUp xs).map fun p => pair p.1 p.2

/-- The level at a height over a list. -/
def levelAt : Nat → List α → List α
  | 0, xs => xs
  | h + 1, xs => level pair (levelAt h xs)

/-- The height of the tree over `n` values. -/
def height (n : Nat) : Nat := Nat.clog 2 n

/-- At most one value is none or one. -/
theorem eq_nil_or_singleton {xs : List α} (h : xs.length ≤ 1) : xs = [] ∨ ∃ a, xs = [a] := by
  cases xs with
  | nil => exact Or.inl rfl
  | cons a xs =>
    rw [List.length_cons] at h
    exact Or.inr ⟨a, by rw [List.length_eq_zero_iff.mp (Nat.le_zero.mp (Nat.le_of_succ_le_succ h))]⟩

theorem length_pairUp (xs : List α) : (pairUp xs).length = (xs.length + 1) / 2 := by
  induction xs using pairUp.induct with
  | case1 => simp [pairUp]
  | case2 a => simp [pairUp]
  | case3 a b xs ih =>
    rw [pairUp, List.length_cons, ih, List.length_cons, List.length_cons]
    omega

theorem getElem?_pairUp (xs : List α) (i : Nat) :
    (pairUp xs)[i]? = xs[2 * i]?.map fun a => (a, xs[2 * i + 1]?.getD a) := by
  induction xs using pairUp.induct generalizing i with
  | case1 => rfl
  | case2 a => cases i <;> simp [pairUp]
  | case3 a b xs ih =>
    cases i with
    | zero => rfl
    | succ i =>
      have h0 : 2 * (i + 1) = 2 * i + 1 + 1 := by omega
      rw [pairUp, List.getElem?_cons_succ, ih, h0]
      simp only [List.getElem?_cons_succ]

@[simp] theorem length_level (xs : List α) : (level pair xs).length = (xs.length + 1) / 2 := by
  rw [level, List.length_map, length_pairUp]

theorem getElem?_level (xs : List α) (i : Nat) :
    (level pair xs)[i]? = xs[2 * i]?.map fun a => pair a (xs[2 * i + 1]?.getD a) := by
  rw [level, List.getElem?_map, getElem?_pairUp, Option.map_map]
  rfl

theorem levelAt_succ' (h : Nat) (xs : List α) :
    levelAt pair (h + 1) xs = levelAt pair h (level pair xs) := by
  induction h with
  | zero => rfl
  | succ h ih => rw [levelAt, ih, levelAt]

theorem length_levelAt (h : Nat) (xs : List α) :
    (levelAt pair h xs).length = (xs.length + 2 ^ h - 1) / 2 ^ h := by
  induction h with
  | zero => simp [levelAt]
  | succ h ih =>
    have hpos : 0 < 2 ^ h := Nat.two_pow_pos h
    rw [levelAt, length_level, ih, Nat.pow_succ, ← Nat.div_div_eq_div_mul,
      ← Nat.add_mul_div_left _ _ hpos]
    congr 2
    omega

/-- A node, from the two below it. -/
theorem getElem?_levelAt_succ (h : Nat) (xs : List α) (i : Nat) :
    (levelAt pair (h + 1) xs)[i]? = (levelAt pair h xs)[2 * i]?.map fun a =>
      pair a ((levelAt pair h xs)[2 * i + 1]?.getD a) := getElem?_level pair _ i

theorem length_levelAt_le_one {h : Nat} {xs : List α} :
    (levelAt pair h xs).length ≤ 1 ↔ xs.length ≤ 2 ^ h := by
  have hpos : 0 < 2 ^ h := Nat.two_pow_pos h
  rw [length_levelAt, Nat.div_le_iff_le_mul_add_pred hpos]
  omega

theorem lt_height_iff {h n : Nat} : h < height n ↔ 2 ^ h < n :=
  Nat.lt_clog_iff_pow_lt Nat.one_lt_two

theorem height_of_le_one {n : Nat} (hn : n ≤ 1) : height n = 0 := Nat.clog_of_right_le_one hn 2

theorem height_level {xs : List α} (h : 1 < xs.length) :
    height xs.length = height (level pair xs).length + 1 := by
  rw [length_level]
  exact Nat.clog_of_two_le Nat.one_lt_two h

/-- **Level by level**: what passes from the level over a list to the list, and holds of at
most one value, holds of every list. -/
theorem level_induction {P : List α → Prop} (hone : ∀ xs, xs.length ≤ 1 → P xs)
    (hlevel : ∀ xs, 1 < xs.length → P (level pair xs) → P xs) (xs : List α) : P xs := by
  have hall : ∀ n (xs : List α), xs.length ≤ n → P xs := by
    intro n
    induction n with
    | zero => exact fun xs h => hone xs (by omega)
    | succ n ih =>
      intro xs h
      rcases Nat.lt_or_ge 1 xs.length with hlt | hle
      · exact hlevel xs hlt (ih _ (by rw [length_level]; omega))
      · exact hone xs hle
  exact hall _ xs (Nat.le_refl _)

/-- All levels one after the other, from the list up. -/
def flatLevels (xs : List α) : List α :=
  if 1 < xs.length then xs ++ flatLevels (level pair xs) else xs
termination_by xs.length
decreasing_by
  rw [length_level]
  omega

theorem flatLevels_of_lt {xs : List α} (h : 1 < xs.length) :
    flatLevels pair xs = xs ++ flatLevels pair (level pair xs) := by
  rw [flatLevels, if_pos h]

/-- The first level of the flat tree is the list. -/
theorem getElem?_flatLevels {xs : List α} {i : Nat} (hi : i < xs.length) :
    (flatLevels pair xs)[i]? = xs[i]? := by
  rw [flatLevels]
  split_ifs
  · exact List.getElem?_append_left hi
  · rfl

/-! ## What a tree determines -/

/-- The last two values, paired, are the same. -/
def Twins (xs : List α) : Prop := ∃ pre a, pre.length % 2 = 0 ∧ xs = pre ++ [a, a]

/-- A pair that is formed in the tree. -/
def Formed (xs : List α) (p : α × α) : Prop :=
  ∃ h < height xs.length, p ∈ pairUp (levelAt pair h xs)

/-- A node that is not at the bottom. -/
def Inner (xs : List α) (a : α) : Prop := ∃ p, Formed pair xs p ∧ pair p.1 p.2 = a

variable {pair}

/-- The pairs determine the list, but for an odd last value. -/
theorem eq_of_pairUp_eq {xs ys : List α} (h : pairUp xs = pairUp ys) :
    xs = ys ∨ (Twins ys ∧ ys.length = xs.length + 1) ∨
      (Twins xs ∧ xs.length = ys.length + 1) := by
  induction xs using pairUp.induct generalizing ys with
  | case1 =>
    have hlen := congrArg List.length h
    rw [length_pairUp, length_pairUp, List.length_nil] at hlen
    exact Or.inl (List.length_eq_zero_iff.mp (by omega)).symm
  | case2 a =>
    match ys, h with
    | [b], h => exact Or.inl (by simpa [pairUp] using h)
    | [b, c], h =>
      obtain ⟨rfl, rfl⟩ : a = b ∧ a = c := by simpa [pairUp] using h
      exact Or.inr (Or.inl ⟨⟨[], a, rfl, rfl⟩, rfl⟩)
    | b :: c :: d :: ys, h =>
      have hlen := congrArg List.length h
      simp only [length_pairUp, List.length_cons, List.length_nil] at hlen
      omega
  | case3 a b xs ih =>
    match ys, h with
    | [c], h =>
      have hlen := congrArg List.length h
      simp only [length_pairUp, List.length_cons, List.length_nil] at hlen
      obtain rfl : xs = [] := List.length_eq_zero_iff.mp (by omega)
      obtain ⟨rfl, rfl⟩ : a = c ∧ b = c := by simpa [pairUp] using h
      exact Or.inr (Or.inr ⟨⟨[], _, rfl, rfl⟩, rfl⟩)
    | c :: d :: ys, h =>
      simp only [pairUp, List.cons.injEq, Prod.mk.injEq] at h
      obtain ⟨⟨rfl, rfl⟩, hrest⟩ := h
      rcases ih hrest with rfl | ⟨⟨pre, e, hpre, rfl⟩, hlen⟩ | ⟨⟨pre, e, hpre, rfl⟩, hlen⟩
      · exact Or.inl rfl
      · refine Or.inr (Or.inl ⟨⟨a :: b :: pre, e, ?_, rfl⟩, ?_⟩)
        · rw [List.length_cons, List.length_cons]
          omega
        · simpa using hlen
      · refine Or.inr (Or.inr ⟨⟨a :: b :: pre, e, ?_, rfl⟩, ?_⟩)
        · rw [List.length_cons, List.length_cons]
          omega
        · simpa using hlen

theorem eq_of_map_eq {β γ : Type} {f : β → γ} {S : Set β} (hinj : S.InjOn f) {l l' : List β}
    (hl : ∀ x ∈ l, x ∈ S) (hl' : ∀ x ∈ l', x ∈ S) (h : l.map f = l'.map f) : l = l' := by
  induction l generalizing l' with
  | nil => exact (List.map_eq_nil_iff.mp h.symm).symm
  | cons x l ih =>
    cases l' with
    | nil => cases h
    | cons y l' =>
      rw [List.map_cons, List.map_cons, List.cons.injEq] at h
      rw [hinj (hl x List.mem_cons_self) (hl' y List.mem_cons_self) h.1,
        ih (fun x hx => hl x (List.mem_cons_of_mem _ hx))
          (fun x hx => hl' x (List.mem_cons_of_mem _ hx)) h.2]

variable {S : Set (α × α)} {xs ys : List α}

/-- **Going down**: a level determines the list, when no level below ends in twins. -/
theorem eq_of_levelAt_eq (hinj : S.InjOn fun p => pair p.1 p.2) (h : Nat)
    (hx : ∀ k < h, ∀ p ∈ pairUp (levelAt pair k xs), p ∈ S)
    (hy : ∀ k < h, ∀ p ∈ pairUp (levelAt pair k ys), p ∈ S)
    (hxt : ∀ k < h, ¬ Twins (levelAt pair k xs)) (hyt : ∀ k < h, ¬ Twins (levelAt pair k ys))
    (heq : levelAt pair h xs = levelAt pair h ys) : xs = ys := by
  induction h with
  | zero => exact heq
  | succ h ih =>
    have hbelow : ∀ k, k < h → k < h + 1 := fun k hk => Nat.lt_succ_of_lt hk
    have hpairs := eq_of_map_eq hinj (hx h (Nat.lt_succ_self h)) (hy h (Nat.lt_succ_self h)) heq
    rcases eq_of_pairUp_eq hpairs with hlevel | ⟨htwins, -⟩ | ⟨htwins, -⟩
    · exact ih (fun k hk => hx k (hbelow k hk)) (fun k hk => hy k (hbelow k hk))
        (fun k hk => hxt k (hbelow k hk)) (fun k hk => hyt k (hbelow k hk)) hlevel
    · exact absurd htwins (hyt h (Nat.lt_succ_self h))
    · exact absurd htwins (hxt h (Nat.lt_succ_self h))

/-- The first nodes of two trees, compared from some heights down to the first list. -/
theorem head_eq_of_levelAt (hinj : S.InjOn fun p => pair p.1 p.2) (d k : Nat)
    (hx : ∀ i < k, ∀ p ∈ pairUp (levelAt pair i xs), p ∈ S)
    (hy : ∀ i < k + d, ∀ p ∈ pairUp (levelAt pair i ys), p ∈ S) {a : α}
    (hax : (levelAt pair k xs)[0]? = some a) (hay : (levelAt pair (k + d) ys)[0]? = some a) :
    ∃ b, xs[0]? = some b ∧ (levelAt pair d ys)[0]? = some b := by
  induction k generalizing a with
  | zero => exact ⟨a, hax, by rwa [Nat.zero_add] at hay⟩
  | succ k ih =>
    rw [Nat.add_right_comm] at hay hy
    rw [levelAt, level, List.getElem?_map, Option.map_eq_some_iff] at hax hay
    obtain ⟨p, hp, hpa⟩ := hax
    obtain ⟨q, hq, hqa⟩ := hay
    obtain rfl : p = q := hinj (hx k (Nat.lt_succ_self k) p (List.mem_of_getElem? hp))
      (hy (k + d) (Nat.lt_succ_self _) q (List.mem_of_getElem? hq)) (hpa.trans hqa.symm)
    rw [getElem?_pairUp, Option.map_eq_some_iff] at hp hq
    obtain ⟨b, hb, rfl⟩ := hp
    obtain ⟨c, hc, hbc⟩ := hq
    obtain rfl : c = b := congrArg Prod.fst hbc
    exact ih (fun i hi => hx i (Nat.lt_succ_of_lt hi)) (fun i hi => hy i (Nat.lt_succ_of_lt hi))
      hb hc

theorem map_fst_pairUp (xs : List α) : ((pairUp xs).map Prod.fst).Sublist xs := by
  induction xs using pairUp.induct with
  | case1 => exact List.Sublist.slnil
  | case2 a => exact List.Sublist.refl _
  | case3 a b xs ih => exact (ih.cons b).cons_cons a

/-- **No duplicates** at the bottom are none in any level. -/
theorem nodup_levelAt (hinj : Set.InjOn (fun p => pair p.1 p.2) {p | Formed pair xs p})
    (hnodup : xs.Nodup) {h : Nat} (hle : h ≤ height xs.length) : (levelAt pair h xs).Nodup := by
  induction h with
  | zero => exact hnodup
  | succ h ih =>
    have hpairs : (pairUp (levelAt pair h xs)).Nodup :=
      List.Nodup.of_map Prod.fst ((ih (Nat.le_of_succ_le hle)).sublist (map_fst_pairUp _))
    exact hpairs.map_on fun p hp q hq hpq => hinj ⟨h, hle, hp⟩ ⟨h, hle, hq⟩ hpq

/-- A node over the bottom is an inner one. -/
theorem inner_of_levelAt {h : Nat} (hpos : 0 < h) (hle : h ≤ height ys.length) {i : Nat} {a : α}
    (ha : (levelAt pair h ys)[i]? = some a) : Inner pair ys a := by
  obtain ⟨k, rfl⟩ : ∃ k, h = k + 1 := ⟨h - 1, by omega⟩
  rw [levelAt, level, List.getElem?_map, Option.map_eq_some_iff] at ha
  obtain ⟨p, hp, hpa⟩ := ha
  exact ⟨p, ⟨k, hle, List.mem_of_getElem? hp⟩, hpa⟩

/-- Trees with one root are of one height, when no value of a list is an inner node. -/
theorem height_le_of_root_eq (hinj : S.InjOn fun p => pair p.1 p.2)
    (hx : ∀ p, Formed pair xs p → p ∈ S) (hy : ∀ p, Formed pair ys p → p ∈ S)
    (hleaf : ∀ a ∈ xs, ¬ Inner pair ys a) {root : α}
    (hrx : levelAt pair (height xs.length) xs = [root])
    (hry : levelAt pair (height ys.length) ys = [root]) :
    height ys.length ≤ height xs.length := by
  by_contra hlt
  obtain ⟨d, hd⟩ := Nat.exists_eq_add_of_lt (not_le.mp hlt)
  have hsum : height ys.length = height xs.length + (d + 1) := by omega
  rw [hsum] at hry
  obtain ⟨b, hbx, hby⟩ := head_eq_of_levelAt hinj (d + 1) (height xs.length)
    (fun i hi p hp => hx p ⟨i, hi, hp⟩) (fun i hi p hp => hy p ⟨i, by omega, hp⟩)
    (by rw [hrx]; rfl) (by rw [hry]; rfl)
  exact hleaf b (List.mem_of_getElem? hbx)
    (inner_of_levelAt (Nat.succ_pos d) (by omega) hby)

/-- **The root determines the list**, when no level ends in twins and no value is an inner
node. -/
theorem eq_of_root_eq (hinj : S.InjOn fun p => pair p.1 p.2)
    (hx : ∀ p, Formed pair xs p → p ∈ S) (hy : ∀ p, Formed pair ys p → p ∈ S)
    (hxl : ∀ a ∈ xs, ¬ Inner pair ys a) (hyl : ∀ a ∈ ys, ¬ Inner pair xs a)
    (hxt : ∀ k < height xs.length, ¬ Twins (levelAt pair k xs))
    (hyt : ∀ k < height ys.length, ¬ Twins (levelAt pair k ys)) {root : α}
    (hrx : levelAt pair (height xs.length) xs = [root])
    (hry : levelAt pair (height ys.length) ys = [root]) : xs = ys := by
  have hheight : height ys.length = height xs.length := le_antisymm
    (height_le_of_root_eq hinj hx hy hxl hrx hry) (height_le_of_root_eq hinj hy hx hyl hry hrx)
  rw [hheight] at hyt hry
  refine eq_of_levelAt_eq hinj (height xs.length) (fun k hk p hp => hx p ⟨k, hk, hp⟩)
    (fun k hk p hp => hy p ⟨k, hheight ▸ hk, hp⟩) hxt hyt (hrx.trans hry.symm)

end Levels

end MerkleTrees
