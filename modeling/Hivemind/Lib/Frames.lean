import Mathlib.Data.List.Infix

/-!
# Streams cut into frames

A stream is a list of frames one after another.  When no frame begins with another, the frames
can be read off the stream, whatever follows them.

A receiver sees a prefix of what was sent, cut where the transport cuts it.  It has read some
frames, and what is left at the end is no whole frame.  The stream that was sent has more frames
behind it, so the two lists of frames can only be compared up to their common length; what is
left over is then a prefix of the frames that follow.

* `PrefixFree`, `Incomplete`: frames that do not begin with each other, and a stream that begins
  with none of them.
* `append_cancel`: two frames at the start of one stream are the same.
* `flatten_append_eq`: **the frames that were read are the first that were written.**
* `eq_of_flatten_append_eq`: a stream has one reading.
-/

namespace Frames

variable {β : Type}

/-- No frame is empty and none begins with another. -/
structure PrefixFree (IsFrame : List β → Prop) : Prop where
  ne_nil : ∀ a, IsFrame a → a ≠ []
  eq_of_prefix : ∀ a b, IsFrame a → IsFrame b → a <+: b → a = b

/-- No frame is complete at the start of the stream. -/
def Incomplete (IsFrame : List β → Prop) (x : List β) : Prop := ∀ a, IsFrame a → ¬ a <+: x

variable {IsFrame : List β → Prop}

/-- Two frames at the start of one stream are the same. -/
theorem append_cancel (hF : PrefixFree IsFrame) {a b x y : List β} (ha : IsFrame a)
    (hb : IsFrame b) (h : a ++ x = b ++ y) : a = b ∧ x = y := by
  have hab : a = b := by
    rcases List.prefix_or_prefix_of_prefix (h ▸ List.prefix_append a x)
      (List.prefix_append b y) with hpre | hpre
    · exact hF.eq_of_prefix a b ha hb hpre
    · exact (hF.eq_of_prefix b a hb ha hpre).symm
  subst hab
  exact ⟨rfl, List.append_cancel_left h⟩

theorem incomplete_nil (hF : PrefixFree IsFrame) : Incomplete IsFrame [] := by
  intro a ha hpre
  exact hF.ne_nil a ha (List.prefix_nil.mp hpre)

/-- A stream that begins with no frame is no sequence of frames, unless it is empty. -/
theorem eq_nil_of_incomplete {bs : List (List β)} (hbs : ∀ b ∈ bs, IsFrame b)
    (h : Incomplete IsFrame bs.flatten) : bs = [] := by
  cases bs with
  | nil => rfl
  | cons b bs =>
      exact absurd (List.prefix_append b bs.flatten) (h b (hbs b List.mem_cons_self))

/-- **The frames that were read are the first that were written**, and what is left
over is in the frames that follow. -/
theorem flatten_append_eq (hF : PrefixFree IsFrame) {as bs : List (List β)} {x : List β}
    (has : ∀ a ∈ as, IsFrame a) (hbs : ∀ b ∈ bs, IsFrame b) (h : as.flatten ++ x = bs.flatten) :
    ∃ cs, bs = as ++ cs ∧ x = cs.flatten := by
  induction as generalizing bs with
  | nil => exact ⟨bs, rfl, by simpa using h⟩
  | cons a as ih =>
      have ha := has a List.mem_cons_self
      cases bs with
      | nil =>
          have hnil : a = [] := by
            simp only [List.flatten_cons, List.flatten_nil, List.append_assoc,
              List.append_eq_nil_iff] at h
            exact h.1
          exact absurd hnil (hF.ne_nil a ha)
      | cons b bs =>
          rw [List.flatten_cons, List.flatten_cons, List.append_assoc] at h
          obtain ⟨rfl, hrest⟩ := append_cancel hF ha (hbs b List.mem_cons_self) h
          obtain ⟨cs, rfl, hx⟩ := ih (fun c hc => has c (List.mem_cons_of_mem a hc))
            (fun c hc => hbs c (List.mem_cons_of_mem a hc)) hrest
          exact ⟨cs, rfl, hx⟩

/-- **A stream has one reading**: its frames, and what follows them when no frame is
complete there. -/
theorem eq_of_flatten_append_eq (hF : PrefixFree IsFrame) {as bs : List (List β)} {x y : List β}
    (has : ∀ a ∈ as, IsFrame a) (hbs : ∀ b ∈ bs, IsFrame b) (hx : Incomplete IsFrame x)
    (hy : Incomplete IsFrame y) (h : as.flatten ++ x = bs.flatten ++ y) : as = bs ∧ x = y := by
  induction as generalizing bs with
  | nil =>
      cases bs with
      | nil => exact ⟨rfl, by simpa using h⟩
      | cons b bs =>
          have hb := hbs b List.mem_cons_self
          have hpre : b <+: x := ⟨bs.flatten ++ y, by simpa using h.symm⟩
          exact absurd hpre (hx b hb)
  | cons a as ih =>
      have ha := has a List.mem_cons_self
      cases bs with
      | nil =>
          have hpre : a <+: y := ⟨as.flatten ++ x, by simpa using h⟩
          exact absurd hpre (hy a ha)
      | cons b bs =>
          rw [List.flatten_cons, List.flatten_cons, List.append_assoc, List.append_assoc] at h
          obtain ⟨rfl, hrest⟩ := append_cancel hF ha (hbs b List.mem_cons_self) h
          obtain ⟨rfl, hxy⟩ := ih (fun c hc => has c (List.mem_cons_of_mem a hc))
            (fun c hc => hbs c (List.mem_cons_of_mem a hc)) hrest
          exact ⟨rfl, hxy⟩

end Frames
