import Hivemind.Script.Numbers
import Mathlib.Tactic.IntervalCases

/-!
# Building scripts

What the `operator<<` of `CScript` appends for an opcode, a number and a vector of bytes, and
what `GetOp` reads from it.

A push is read by its size field, and `GetOp` compares the size with what is left of the script
as an `unsigned int`.  So a long push is read back or not depending on how many bytes come after
it, and a script of several pushes is read as a whole only if each of them is; nothing of this
shows below `2 ^ 32` bytes, and the condition is stated for scripts of any length.

* `ScriptItem.bytes`, `ScriptItem.meaning`: what is appended, and what it stands for.
* `getOp_bytes`: one item, at the front of a script.
* `RoomForPushes`: each push is read with enough bytes left in 32 bits.
* `readScript_buildScript`: **when the items of a script come back.**
* `readScript_pushTwice`: two long pushes that are together more than 32 bits can count.
-/

namespace Hivemind

open Codecs

/-- `push_int64`. -/
def pushInt64 (n : Int64) : CScript :=
  if n = -1 ∨ (1 ≤ n ∧ n ≤ 16) then [(n + 0x50).toUInt64.toUInt8]
  else if n = 0 then [0]
  else pushData (serializeNum n.toInt)

/-- What can be appended to a script. -/
inductive ScriptItem where
  | opcode (op : UInt8) (h : opPushData4 < op)
  | number (n : Int64)
  | data (b : Bytes) (h : b.length < 2 ^ 32)

namespace ScriptItem

/-- The bytes that `operator<<` appends. -/
def bytes : ScriptItem → CScript
  | opcode op _ => [op]
  | number n => pushInt64 n
  | data b _ => pushData b

/-- What the item stands for in the script: its opcode, and the bytes that it pushes. -/
def meaning : ScriptItem → UInt8 × Bytes
  | opcode op _ => (op, [])
  | number n =>
    if n = -1 ∨ (1 ≤ n ∧ n ≤ 16) then ((n + 0x50).toUInt64.toUInt8, [])
    else if n = 0 then (0, [])
    else (pushOpcode (serializeNum n.toInt).length, serializeNum n.toInt)
  | data b _ => (pushOpcode b.length, b)

end ScriptItem

/-- `CScript() << item << item ..`. -/
def buildScript (items : List ScriptItem) : CScript :=
  items.foldl (fun script item => script ++ item.bytes) []

theorem buildScript_cons (item : ScriptItem) (items : List ScriptItem) :
    buildScript (item :: items) = item.bytes ++ buildScript items := by
  have hfold : ∀ (items : List ScriptItem) (script : CScript),
      items.foldl (fun script item => script ++ item.bytes) script =
        script ++ items.flatMap ScriptItem.bytes := by
    intro items
    induction items with
    | nil => simp
    | cons item items ih =>
      intro script
      rw [List.foldl_cons, ih, List.flatMap_cons, List.append_assoc]
  rw [buildScript, buildScript, hfold, hfold, List.flatMap_cons]
  simp

theorem length_serializeNum_int64 (n : Int64) : (serializeNum n.toInt).length ≤ 9 := by
  have hle := n.le_toInt
  have hlt := n.toInt_lt
  exact length_serializeNum_le (by omega) (by omega)

/-- The one-byte items. -/
theorem getOp_small {op : UInt8} (h : op = 0 ∨ opPushData4 < op) (s : Bytes) :
    getOp ([op] ++ s) = some ⟨op, [], s⟩ := by
  rcases h with rfl | h
  · rw [List.singleton_append, getOp, if_pos (by decide)]
    simp [getPushSize, getData, opPushData1]
  · exact getOp_of_gt h s

theorem small_opcode {n : Int64} (h : n = -1 ∨ (1 ≤ n ∧ n ≤ 16)) :
    opPushData4 < (n + 0x50).toUInt64.toUInt8 := by
  rw [← Int64.toInt_inj, Int64.le_iff_toInt_le, Int64.le_iff_toInt_le] at h
  change n.toInt = -1 ∨ 1 ≤ n.toInt ∧ n.toInt ≤ 16 at h
  rw [← Int64.ofInt_toInt n]
  generalize n.toInt = k at h
  have hlow : -1 ≤ k := by omega
  have hhigh : k ≤ 16 := by omega
  have hzero : k ≠ 0 := by omega
  interval_cases k <;> first | exact absurd rfl hzero | decide

/-- **One item** is read back when the bytes from its data on, counted in 32 bits, are not fewer
than its data. -/
theorem getOp_bytes (item : ScriptItem) (s : Bytes) :
    getOp (item.bytes ++ s) =
      if (item.meaning.2.length + s.length) % 2 ^ 32 < item.meaning.2.length then none
      else some ⟨item.meaning.1, item.meaning.2, s⟩ := by
  have hpush : ∀ b : Bytes, b.length < 2 ^ 32 → getOp (pushData b ++ s) =
      if (b.length + s.length) % 2 ^ 32 < b.length then none
      else some ⟨pushOpcode b.length, b, s⟩ := by
    intro b hb
    rw [getOp_pushData_append hb, getData, List.length_append, List.take_left, List.drop_left]
  cases item with
  | opcode op h => exact getOp_small (Or.inr h) s
  | data b h => exact hpush b h
  | number n =>
    rw [ScriptItem.bytes, ScriptItem.meaning, pushInt64]
    by_cases hsmall : n = -1 ∨ (1 ≤ n ∧ n ≤ 16)
    · rw [if_pos hsmall, if_pos hsmall]
      exact getOp_small (Or.inr (small_opcode hsmall)) s
    · rw [if_neg hsmall, if_neg hsmall]
      by_cases hzero : n = 0
      · rw [if_pos hzero, if_pos hzero]
        exact getOp_small (Or.inl rfl) s
      · have hlen := length_serializeNum_int64 n
        rw [if_neg hzero, if_neg hzero]
        exact hpush _ (by omega)

/-! ## Whole scripts -/

theorem bytes_ne_nil (item : ScriptItem) : item.bytes ≠ [] := by
  have hpush : ∀ b, pushData b ≠ [] := by
    intro b
    rw [pushData]
    split_ifs <;> simp
  cases item with
  | opcode op h => exact List.cons_ne_nil _ _
  | data b h => exact hpush b
  | number n =>
    rw [ScriptItem.bytes, pushInt64]
    split_ifs
    · exact List.cons_ne_nil _ _
    · exact List.cons_ne_nil _ _
    · exact hpush _

/-- The script, item by item: each push can be read while the script is as long as it is. -/
theorem readScript_buildScript_cons (item : ScriptItem) (items : List ScriptItem) :
    readScript (buildScript (item :: items)) =
      if (item.meaning.2.length + (buildScript items).length) % 2 ^ 32 < item.meaning.2.length then
        none
      else (readScript (buildScript items)).map
        (⟨item.meaning.1, item.meaning.2, buildScript items⟩ :: ·) := by
  have hop := getOp_bytes item (buildScript items)
  have hne : item.bytes ++ buildScript items ≠ [] := fun hnil =>
    bytes_ne_nil item (List.append_eq_nil_iff.mp hnil).1
  rw [buildScript_cons, readScript_eq hne, hop]
  split_ifs
  · rfl
  · rfl

/-- The items come back when every push is read with enough bytes left in 32 bits. -/
def RoomForPushes (items : List ScriptItem) : Prop :=
  ∀ before item after, items = before ++ item :: after →
    item.meaning.2.length ≤ (item.meaning.2.length + (buildScript after).length) % 2 ^ 32

theorem roomForPushes_cons {item : ScriptItem} {items : List ScriptItem} :
    RoomForPushes (item :: items) ↔
      item.meaning.2.length ≤ (item.meaning.2.length + (buildScript items).length) % 2 ^ 32 ∧
        RoomForPushes items := by
  constructor
  · intro h
    refine ⟨h [] item items rfl, fun before item' after heq => ?_⟩
    exact h (item :: before) item' after (by rw [heq, List.cons_append])
  · rintro ⟨hitem, hitems⟩ before item' after heq
    cases before with
    | nil =>
      obtain ⟨rfl, rfl⟩ := List.cons.inj heq
      exact hitem
    | cons first before => exact hitems before item' after (List.cons.inj heq).2

/-- **Builder and parser**: the items that are appended to a script are read back in their order,
up to the end of the script, exactly when every push finds as many bytes as it has data between
the beginning of the data and the end of the script, counted modulo `2 ^ 32`. -/
theorem readScript_buildScript (items : List ScriptItem) :
    (readScript (buildScript items)).map (List.map fun i => (i.opcode, i.data)) =
      some (items.map ScriptItem.meaning) ↔ RoomForPushes items := by
  induction items with
  | nil => exact ⟨fun _ before item after heq => by simp at heq, fun _ => rfl⟩
  | cons item items ih =>
    rw [readScript_buildScript_cons, roomForPushes_cons, ← ih]
    split_ifs with hshort
    · refine ⟨fun h => by simp at h, fun h => absurd hshort (not_lt.mpr h.1)⟩
    · rw [Option.map_map, List.map_cons]
      cases readScript (buildScript items) with
      | none => simp
      | some is =>
        have hroom : (item.meaning.2.length ≤
            (item.meaning.2.length + (buildScript items).length) % 2 ^ 32) = True :=
          eq_true (not_lt.mp hshort)
        rw [hroom, true_and]
        simp

/-- Two pushes of the same data. -/
def pushTwice (b : Bytes) (hb : b.length = 2 ^ 31) : List ScriptItem :=
  [.data b (hb ▸ by norm_num), .data b (hb ▸ by norm_num)]

/-- Two long pushes are together more than 32 bits can count. -/
theorem readScript_pushTwice (b : Bytes) (hb : b.length = 2 ^ 31) :
    readScript (buildScript (pushTwice b hb)) = none := by
  have hlen : (pushData b).length = 5 + 2 ^ 31 := by
    rw [pushData, hb, if_neg (by norm_num), if_neg (by norm_num), if_neg (by norm_num),
      List.cons_append, List.length_cons, List.length_append, length_leBytes, hb]
    norm_num
  have hrest : (buildScript [.data b (hb ▸ by norm_num)]).length = 5 + 2 ^ 31 := by
    rw [buildScript_cons, List.length_append, ScriptItem.bytes, hlen]
    rfl
  rw [pushTwice, readScript_buildScript_cons, hrest, ScriptItem.meaning, hb, if_pos (by norm_num)]

/-- Half of what a size field can count. -/
def longData : Bytes := List.replicate (2 ^ 31) 0

theorem length_longData : longData.length = 2 ^ 31 := List.length_replicate ..

theorem readScript_longData :
    (readScript (buildScript (pushTwice longData length_longData))).map
        (List.map fun i => (i.opcode, i.data)) ≠
      some ((pushTwice longData length_longData).map ScriptItem.meaning) := by
  rw [readScript_pushTwice, Option.map_none]
  exact (Option.some_ne_none _).symm

end Hivemind
