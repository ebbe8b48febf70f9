import Hivemind.Script.InterpreterRun
import Hivemind.Primitives.Market

/-!
# Spending market outputs

`IsMarketScript` looks at the first push and at the last byte of a script, while `EvalScript`
reads it instruction by instruction.  When the last byte is reached as an opcode it is
`OP_MARKET`, which no script survives.  When it lies inside the data of a last push, the script
is an ordinary one whose last act is to put a true value on the stack.

A market output is therefore unspendable for every `scriptSig`, set of flags and checker when its
script cannot be read to its end, or ends in the opcode; and otherwise it depends on what the
instructions before the last push do.  `SpendsMarketScript` is that dependence, in terms of
running a list of instructions.

* `castToBool_of_last`: a byte string that ends in `OP_MARKET` is true.
* `evalStep_market`: the opcode is passed over only in an untaken branch, which it leaves open.
* `market_script_unspendable_iff`: **the exact condition** under which `VerifyScript` returns
  `false` on a market script.
* `verifyScript_of_not_endsInPush`: reading to `OP_MARKET` is enough.
* `market_script_spendable`: a market script that anybody can spend.
-/

namespace Hivemind

open Codecs

/-! ## The last byte -/

theorem isMarketScript_last {spk : CScript} (h : isMarketScript spk = .ok true) :
    spk.getLast? = some opMarket := by
  unfold isMarketScript at h
  by_contra hlast
  rw [if_pos hlast] at h
  split_ifs at h <;> cases h

theorem ne_nil_of_last {spk : CScript} (h : spk.getLast? = some opMarket) : spk ≠ [] := by
  rintro rfl
  simp at h

/-- The last instruction of a script that reads to its end. -/
theorem readScript_last {s : CScript} {is : List Instr} {i : Instr}
    (h : readScript s = some (is ++ [i])) : ∃ front t, s = front ++ t ∧ getOp t = some i ∧ i.rest = [] := by
  induction is generalizing s with
  | nil =>
      have hs : s ≠ [] := by
        rintro rfl
        simp at h
      rw [readScript_eq hs] at h
      obtain ⟨j, hop, hj⟩ := Option.bind_eq_some_iff.mp h
      obtain ⟨js, hjs, heq⟩ := Option.map_eq_some_iff.mp hj
      obtain ⟨rfl, rfl⟩ := List.cons.inj heq
      refine ⟨[], s, rfl, hop, ?_⟩
      by_contra hrest
      rw [readScript_eq hrest] at hjs
      obtain ⟨k, -, hk⟩ := Option.bind_eq_some_iff.mp hjs
      simp at hk
  | cons j is ih =>
      have hs : s ≠ [] := by
        rintro rfl
        simp at h
      rw [readScript_eq hs] at h
      obtain ⟨j', hop, hj⟩ := Option.bind_eq_some_iff.mp h
      obtain ⟨js, hjs, heq⟩ := Option.map_eq_some_iff.mp hj
      obtain ⟨rfl, rfl⟩ := List.cons.inj heq
      obtain ⟨front, t, hrest, ht, hnil⟩ := ih hjs
      obtain ⟨front', hfront⟩ : ∃ front', s = front' ++ j'.rest := by
        rcases getOp_some hop with ⟨-, -, hs'⟩ | ⟨-, p, hs'⟩
        · exact ⟨[j'.opcode], hs'⟩
        · exact ⟨_, hs'⟩
      exact ⟨front' ++ front, t, by rw [hfront, hrest, List.append_assoc], ht, hnil⟩

/-- The last byte is the opcode of the last instruction or the end of its data. -/
theorem last_instr_of_market {s : CScript} {is : List Instr} {i : Instr}
    (hlast : s.getLast? = some opMarket) (h : readScript s = some (is ++ [i])) :
    (opPushData4 < i.opcode ∧ i.opcode = opMarket) ∨
    (i.opcode ≤ opPushData4 ∧ i.data.getLast? = some opMarket) := by
  obtain ⟨front, t, rfl, hop, hrest⟩ := readScript_last h
  have ht : t.getLast? = some opMarket := by
    have hne : t ≠ [] := by
      rintro rfl
      simp [getOp] at hop
    rwa [List.getLast?_append_of_ne_nil _ hne] at hlast
  rcases getOp_some hop with ⟨hgt, -, rfl⟩ | ⟨hle, p, hs⟩
  · left
    rw [hrest] at ht
    exact ⟨hgt, by simpa using ht⟩
  · right
    refine ⟨hle, ?_⟩
    by_cases hdata : i.data = []
    · rcases getOp_push_nil hop hle hdata hrest with hl | hl
      · rw [hl] at ht
        rw [Option.some.inj ht] at hle
        exact absurd hle (by decide)
      · rw [hl] at ht
        exact absurd ht (by decide)
    · rw [hs, hrest, List.append_nil, List.getLast?_append_of_ne_nil _ hdata] at ht
      exact ht

/-- A byte string that ends in `OP_MARKET` is true. -/
theorem castToBool_of_last {d : Bytes} (h : d.getLast? = some opMarket) : castToBool d = true := by
  induction d with
  | nil => simp at h
  | cons b d ih =>
      cases d with
      | nil =>
          obtain rfl : b = opMarket := by simpa using h
          decide
      | cons c d =>
          rw [castToBool]
          · rw [ih (by simpa [List.getLast?_cons_cons] using h), Bool.or_true]
          · simp

theorem not_isPayToScriptHash {spk : CScript} (h : spk.getLast? = some opMarket) :
    isPayToScriptHash spk = false := by
  by_contra hc
  simp only [isPayToScriptHash, Bool.not_eq_false, Bool.and_eq_true, beq_iff_eq] at hc
  obtain ⟨⟨⟨hlen, -⟩, -⟩, h22⟩ := hc
  rw [List.getLast?_eq_getElem?, hlen, h22] at h
  exact absurd h (by decide)

/-! ## The last instruction -/

section Steps

variable {cr : Crypto} {flags : ScriptFlags} {checker : SignatureChecker}

/-- `OP_MARKET` is passed over only in an untaken branch, which it leaves open. -/
theorem evalStep_market {st st' : EvalState} {i : Instr} (hi : i.opcode = opMarket)
    (h : evalStep cr flags checker st i = .ok st') : st'.vfExec ≠ [] := by
  obtain ⟨-, -, -, hinstr, -⟩ := evalStep_ok_iff.mp h
  have hbad : operation i.opcode = .bad := by
    rw [hi]
    rfl
  have hpush : ¬ i.opcode ≤ opPushData4 := by
    rw [hi]
    decide
  have hcond : (opIf ≤ i.opcode && i.opcode ≤ opEndIf) = false := by
    rw [hi]
    decide
  unfold evalInstr at hinstr
  rw [hbad, hcond, Bool.or_false, if_neg (by simp [hpush])] at hinstr
  split_ifs at hinstr with hexec
  · cases hinstr
  · obtain rfl := Except.ok.inj hinstr
    intro hnil
    exact hexec (by simp [EvalState.executing, hnil])

/-- A push, taken where every conditional is closed. -/
theorem evalStep_push_iff {st st' : EvalState} {i : Instr} (hi : i.opcode ≤ opPushData4)
    (hst : st.vfExec = []) :
    evalStep cr flags checker st i = .ok st' ↔
      i.data.length ≤ maxScriptElementSize ∧
      (hasFlag flags scriptVerifyMinimalData = true → checkMinimalPush i.data i.opcode = true) ∧
      st.stack.length + st.altstack.length < 1000 ∧
      st' = { st with stack := i.data :: st.stack } := by
  have hle : ¬ op16 < i.opcode := not_lt.mpr (le_trans hi (by decide))
  have hcount : st.countOp i.opcode = st := by
    rw [EvalState.countOp, if_neg hle]
  have hexec : st.executing = true := by
    rw [EvalState.executing, hst]
    rfl
  have hdis : isDisabled i.opcode = false := by
    by_contra hc
    have hge : ∀ b ∈ disabledOpcodes, opPushData4 < b := by decide +kernel
    have hmem : i.opcode ∈ disabledOpcodes :=
      List.contains_iff_mem.mp (Bool.eq_true_of_not_eq_false hc)
    exact absurd hi (not_le.mpr (hge _ hmem))
  rw [evalStep_ok_iff, hcount, evalInstr, hexec, if_pos (by simp [hi])]
  constructor
  · rintro ⟨hsize, -, -, hinstr, hroom⟩
    split_ifs at hinstr with hmin
    obtain rfl := Except.ok.inj hinstr
    refine ⟨hsize, ?_, by simp only [List.length_cons] at hroom; omega, rfl⟩
    intro hflag
    by_contra hc
    exact hmin (by simp [hflag, hc])
  · rintro ⟨hsize, hmin, hroom, rfl⟩
    refine ⟨hsize, fun h => absurd h hle, hdis, ?_, by simp only [List.length_cons]; omega⟩
    rw [if_neg]
    intro hc
    simp only [Bool.and_eq_true, Bool.not_eq_true'] at hc
    rw [hmin hc.1] at hc
    exact absurd hc.2 (by decide)

/-- A push changes no conditional. -/
theorem evalStep_push_vfExec {st st' : EvalState} {i : Instr} (hi : i.opcode ≤ opPushData4)
    (h : evalStep cr flags checker st i = .ok st') : st'.vfExec = st.vfExec := by
  obtain ⟨-, -, -, hinstr, -⟩ := evalStep_ok_iff.mp h
  have hcond : (opIf ≤ i.opcode && i.opcode ≤ opEndIf) = false := by
    have : ¬ opIf ≤ i.opcode := not_le.mpr (lt_of_le_of_lt hi (by decide))
    simp [this]
  unfold evalInstr at hinstr
  rw [hcond, Bool.or_false] at hinstr
  simp only [hi, decide_true, Bool.and_true] at hinstr
  split_ifs at hinstr
  · obtain rfl := Except.ok.inj hinstr
    rfl
  · obtain rfl := Except.ok.inj hinstr
    rfl

/-! ## When a market script is spent -/

/-- The spend goes through: the script reads to its end and its last instruction
is a push; `scriptSig` succeeds on its own; the instructions before the push run
on its stack and close every conditional; the push is within the limits; and no
element is left over where that is forbidden. -/
def SpendsMarketScript (cr : Crypto) (scriptSig spk : CScript) (flags : ScriptFlags)
    (checker : SignatureChecker) : Prop :=
  ∃ is i stack st,
    readScript spk = some (is ++ [i]) ∧ i.opcode ≤ opPushData4 ∧
    (hasFlag flags scriptVerifySigPushOnly = true → isPushOnly scriptSig = true) ∧
    evalScript cr flags checker [] scriptSig = .ok stack ∧
    spk.length ≤ 10000 ∧
    runInstrs cr flags checker is { stack, codeHash := spk } = .ok st ∧ st.vfExec = [] ∧
    i.data.length ≤ maxScriptElementSize ∧
    (hasFlag flags scriptVerifyMinimalData = true → checkMinimalPush i.data i.opcode = true) ∧
    st.stack.length + st.altstack.length < 1000 ∧
    (hasFlag flags scriptVerifyCleanStack = true → hasFlag flags scriptVerifyP2SH = true →
      st.stack = [])

/-- A market script succeeds exactly by its last push, on the stack below it. -/
theorem evalScript_market_iff {stack stack' : List Bytes} {spk : CScript}
    (hlast : spk.getLast? = some opMarket) :
    evalScript cr flags checker stack spk = .ok stack' ↔
      spk.length ≤ 10000 ∧ ∃ is i st, readScript spk = some (is ++ [i]) ∧
        i.opcode ≤ opPushData4 ∧
        runInstrs cr flags checker is { stack, codeHash := spk } = .ok st ∧ st.vfExec = [] ∧
        i.data.length ≤ maxScriptElementSize ∧
        (hasFlag flags scriptVerifyMinimalData = true → checkMinimalPush i.data i.opcode = true) ∧
        st.stack.length + st.altstack.length < 1000 ∧ stack' = i.data :: st.stack := by
  rw [evalScript_ok_iff]
  refine and_congr_right fun _ => ?_
  constructor
  · rintro ⟨js, st', hread, hrun, hnil, rfl⟩
    obtain ⟨is, i, rfl⟩ : ∃ is i, js = is ++ [i] := by
      rcases List.eq_nil_or_concat js with rfl | ⟨is, i, rfl⟩
      · have hne := ne_nil_of_last hlast
        rw [readScript_eq hne] at hread
        obtain ⟨j, -, hj⟩ := Option.bind_eq_some_iff.mp hread
        simp at hj
      · exact ⟨is, i, by simp⟩
    obtain ⟨st, hfront, hstep⟩ := runInstrs_concat_ok.mp hrun
    rcases last_instr_of_market hlast hread with ⟨-, hmarket⟩ | ⟨hpush, -⟩
    · exact absurd hnil (evalStep_market hmarket hstep)
    · have hst : st.vfExec = [] := by
        rw [← evalStep_push_vfExec hpush hstep, hnil]
      obtain ⟨hsize, hmin, hroom, rfl⟩ := (evalStep_push_iff hpush hst).mp hstep
      exact ⟨is, i, st, hread, hpush, hfront, hst, hsize, hmin, hroom, rfl⟩
  · rintro ⟨is, i, st, hread, hpush, hfront, hst, hsize, hmin, hroom, rfl⟩
    have hstep : evalStep cr flags checker st i = .ok { st with stack := i.data :: st.stack } :=
      (evalStep_push_iff hpush hst).mpr ⟨hsize, hmin, hroom, rfl⟩
    exact ⟨is ++ [i], _, hread, runInstrs_concat_ok.mpr ⟨st, hfront, hstep⟩, hst, rfl⟩

/-- **When `VerifyScript` does not return `false` on a market script.** -/
theorem verifyScript_market_iff {scriptSig spk : CScript} (hlast : spk.getLast? = some opMarket) :
    (∀ e, verifyScript cr scriptSig spk flags checker ≠ .error (.fail e)) ↔
      SpendsMarketScript cr scriptSig spk flags checker := by
  unfold verifyScript
  rw [not_isPayToScriptHash hlast, Bool.and_false]
  simp only [Bool.false_eq_true, if_false]
  by_cases hpo : (hasFlag flags scriptVerifySigPushOnly && !isPushOnly scriptSig) = true
  · rw [if_pos hpo]
    refine ⟨fun h => absurd rfl (h _), ?_⟩
    rintro ⟨is, i, stack, st, -, -, hsig, -⟩
    simp only [Bool.and_eq_true, Bool.not_eq_true'] at hpo
    rw [hsig hpo.1] at hpo
    exact absurd hpo.2 (by decide)
  rw [if_neg hpo]
  have hsig : hasFlag flags scriptVerifySigPushOnly = true → isPushOnly scriptSig = true := by
    intro hflag
    by_contra hc
    exact hpo (by simp [hflag, hc])
  cases hs : evalScript cr flags checker [] scriptSig with
  | error h =>
      obtain ⟨e, rfl⟩ := evalScript_fails cr flags checker hs
      refine ⟨fun h => absurd rfl (h e), ?_⟩
      rintro ⟨is, i, stack, st, -, -, -, hok, -⟩
      rw [hs] at hok
      cases hok
  | ok stack =>
      simp only
      cases hp : evalScript cr flags checker stack spk with
      | error h =>
          obtain ⟨e, rfl⟩ := evalScript_fails cr flags checker hp
          refine ⟨fun h => absurd rfl (h e), ?_⟩
          rintro ⟨is, i, stack₁, st, hread, hpush, -, hok, hlen, hrun, hst, hsize, hmin, hroom, -⟩
          rw [hs] at hok
          obtain rfl := Except.ok.inj hok
          rw [(evalScript_market_iff hlast).mpr
            ⟨hlen, is, i, st, hread, hpush, hrun, hst, hsize, hmin, hroom, rfl⟩] at hp
          cases hp
      | ok stack' =>
          obtain ⟨hlen, is, i, st, hread, hpush, hrun, hst, hsize, hmin, hroom, rfl⟩ :=
            (evalScript_market_iff hlast).mp hp
          have htop : castToBool i.data = true := by
            rcases last_instr_of_market hlast hread with ⟨hgt, -⟩ | ⟨-, hd⟩
            · exact absurd hpush (not_le.mpr hgt)
            · exact castToBool_of_last hd
          simp only [checkTop, htop, if_true]
          constructor
          · intro hclean
            refine ⟨is, i, stack, st, hread, hpush, hsig, hs, hlen, hrun, hst, hsize, hmin, hroom, ?_⟩
            intro hc hp2sh
            by_contra hne
            refine hclean .cleanStack ?_
            rw [verifyCleanStack, if_pos hc, hp2sh, Bool.not_true, if_neg Bool.false_ne_true, if_pos]
            simpa using hne
          · rintro ⟨is₁, i₁, stack₁, st₁, hread₁, -, -, hok₁, -, hrun₁, -, -, -, -, hclean⟩ e
            rw [hs] at hok₁
            obtain rfl := Except.ok.inj hok₁
            obtain ⟨rfl, hi⟩ := List.append_inj' (Option.some.inj (hread.symm.trans hread₁)) rfl
            obtain rfl : st = st₁ := by simpa [hrun] using hrun₁
            unfold verifyCleanStack
            split_ifs with hc hp2sh hlen1
            · simp
            · rw [hclean hc (by simpa using hp2sh)] at hlen1
              exact absurd rfl hlen1
            · simp
            · simp

end Steps

/-- **Market outputs are unspendable exactly when nothing spends them**: on a
market script `VerifyScript` returns `false` unless the script reads to its end
with a push as its last instruction, whose data then ends in the `OP_MARKET` byte,
and everything before that push runs through. -/
theorem market_script_unspendable_iff (cr : Crypto) (scriptSig spk : CScript)
    (flags : ScriptFlags) (checker : SignatureChecker) (h : isMarketScript spk = .ok true) :
    (∃ e, verifyScript cr scriptSig spk flags checker = .error (.fail e)) ↔
      ¬ SpendsMarketScript cr scriptSig spk flags checker := by
  rw [← verifyScript_market_iff (isMarketScript_last h), not_forall]
  simp only [not_not]

/-- A market script whose last byte is reached as an opcode, or that cannot be
read to its end, is unspendable. -/
theorem verifyScript_of_not_endsInPush (cr : Crypto) (scriptSig : CScript) {spk : CScript}
    (flags : ScriptFlags) (checker : SignatureChecker) (h : isMarketScript spk = .ok true)
    (hend : ¬ EndsInPush spk) :
    ∃ e, verifyScript cr scriptSig spk flags checker = .error (.fail e) := by
  rw [← not_forall_not, verifyScript_market_iff (isMarketScript_last h)]
  rintro ⟨is, i, -, -, hread, hpush, -⟩
  exact hend ⟨is, i, hread, hpush⟩

/-- A sealed vote whose `voteid` ends in the byte of `OP_MARKET`. -/
def exampleSealedVote : MarketObj .sealedVote where
  data := { branchid := Blob.null, height := 1, voteid := Blob.fill 0xc0 }

/-- The push of the vote, without the `OP_MARKET` after it. -/
def exampleBarePush : CScript := pushData exampleSealedVote.ser

/-- **A market script that anybody can spend**: the bare push of a vote whose last
byte is that of `OP_MARKET`, spent by an empty `scriptSig`. -/
theorem market_script_spendable :
    isMarketScript exampleBarePush = .ok true ∧
      ∀ cr checker, verifyScript cr [] exampleBarePush 0 checker = .ok () := by
  refine ⟨by decide, ?_⟩
  intro cr checker
  rfl

/-- The script of the vote itself ends in the opcode and is unspendable. -/
theorem market_script_unspendable_sealedVote :
    isMarketScript exampleSealedVote.getScript = .ok true ∧
      ∀ cr scriptSig flags checker, ∃ e,
        verifyScript cr scriptSig exampleSealedVote.getScript flags checker = .error (.fail e) := by
  have h : isMarketScript exampleSealedVote.getScript = .ok true := by decide
  have hlast : (readScript exampleSealedVote.getScript).bind List.getLast? =
      some { opcode := opMarket, data := [], rest := [] } := by decide
  refine ⟨h, fun cr scriptSig flags checker => ?_⟩
  refine (market_script_unspendable_iff cr scriptSig _ flags checker h).mpr ?_
  rintro ⟨is, i, stack, st, hread, hpush, -⟩
  rw [hread, Option.bind_some, List.getLast?_concat] at hlast
  obtain rfl := Option.some.inj hlast
  exact absurd hpush (by decide)

end Hivemind
