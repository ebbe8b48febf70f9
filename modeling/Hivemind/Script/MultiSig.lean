import Hivemind.Lib.Matching
import Hivemind.Script.MachineSpec

/-!
# What `OP_CHECKMULTISIG` decides

The matching loop takes the first key that fits.  With the encodings of signatures and keys left
unchecked it finds a matching of the signatures to the keys, in the order of the stack, when
there is one.

The operation finds its arguments by numbers that lie between them, so the stack is first cut
into the number of keys, the keys, the number of signatures, the signatures and the one element
more that is taken off and not looked at.  `MultiSigArgs` is that cut; with it the operation is
the loop over two lists, and the loop is the greedy search of the library.

* `MultiSigArgs`: the arguments of the operation on the stack, and one element more.
* `multiSigLoop_eq`: the loop is the greedy search.
* `execCheckMultiSig_eq`: the operation, on a stack that holds its arguments.
* `checkMultiSig_iff`: **when it succeeds**, and what is left of the stack.
-/

namespace Hivemind

open Codecs Machine Matchings

/-- None of the flags that make the encodings of signatures and keys count is set. -/
structure NoEncodingFlags (flags : ScriptFlags) : Prop where
  derSig : hasFlag flags scriptVerifyDerSig = false
  lowS : hasFlag flags scriptVerifyLowS = false
  strictEnc : hasFlag flags scriptVerifyStrictEnc = false

section Loop

variable (cr : Crypto) {flags : ScriptFlags} (checker : SignatureChecker)

theorem hasFlag_or (flags a b : ScriptFlags) :
    hasFlag flags (a ||| b) = (hasFlag flags a || hasFlag flags b) := by
  have hdistrib : flags &&& (a ||| b) = flags &&& a ||| flags &&& b := by
    apply UInt32.toBitVec_inj.mp
    simp [BitVec.and_or_distrib_left]
  have hsplit : flags &&& (a ||| b) = 0 ↔ flags &&& a = 0 ∧ flags &&& b = 0 := by
    rw [hdistrib, UInt32.or_eq_zero_iff]
  rw [Bool.eq_iff_iff]
  simp only [hasFlag, bne_iff_ne, ne_eq, Bool.or_eq_true, hsplit, not_and_or]

theorem checkSignatureEncoding_ok (h : NoEncodingFlags flags) (vchSig : Bytes) :
    checkSignatureEncoding cr flags vchSig = .ok () := by
  rw [checkSignatureEncoding, hasFlag_or, hasFlag_or, h.derSig, h.lowS, h.strictEnc]
  rfl

theorem checkPubKeyEncoding_ok (h : NoEncodingFlags flags) (vchPubKey : Bytes) :
    checkPubKeyEncoding flags vchPubKey = .ok () := by
  rw [checkPubKeyEncoding, h.strictEnc]
  rfl

/-- **The matching loop is the greedy search.** -/
theorem multiSigLoop_eq (h : NoEncodingFlags flags) (scriptCode : CScript)
    (sigs keys : List Bytes) : ∃ n, multiSigLoop cr flags checker scriptCode sigs keys =
      .ok (matchInOrder (fun sig key => checker sig key scriptCode) sigs keys, n) := by
  induction keys generalizing sigs with
  | nil =>
    cases sigs with
    | nil => exact ⟨0, rfl⟩
    | cons sig sigs => exact ⟨0, rfl⟩
  | cons key keys ih =>
    cases sigs with
    | nil => exact ⟨0, rfl⟩
    | cons sig sigs =>
      rw [multiSigLoop_cons cr flags checker scriptCode (checkSignatureEncoding_ok cr h sig)
        (checkPubKeyEncoding_ok h key), matchInOrder]
      generalize (if checker sig key scriptCode = true then sigs else sig :: sigs) = left
      obtain ⟨n, hn⟩ := ih left
      split_ifs with hshort
      · exact ⟨1, rfl⟩
      · exact ⟨n + 1, by rw [hn]; rfl⟩

end Loop

/-! ## The operation -/

section Operation

variable {bound : Nat} {m : Machine Unit} {st st' : EvalState}

theorem Performs.run_ok (h : Performs bound m st (.ok st')) : m.run st = (.ok (), st') := by
  unfold Performs at h
  cases hrun : m.run st with
  | mk r after =>
    rw [hrun] at h
    rcases r with (e | _) | _
    · cases h.1
    · exact h.elim
    · cases h.1
      rfl

theorem Performs.run_error {e : Halt} (h : Performs bound m st (.error e)) :
    (m.run st).1 = .error (.halt e) := by
  unfold Performs at h
  cases hrun : m.run st with
  | mk r after =>
    rw [hrun] at h
    rcases r with (e | _) | _
    · cases h.1
      rfl
    · exact h.elim
    · cases h.1

variable (cr : Crypto) {flags : ScriptFlags} (checker : SignatureChecker)

/-- The script that the signatures of the operation are for: without the signatures. -/
def multiSigCode (st : EvalState) (sigs : List Bytes) : CScript :=
  sigs.foldl (fun code sig => findAndDelete (pushData sig) code) st.codeHash

/-- The arguments of `OP_CHECKMULTISIG` on the stack, and one element more. -/
structure MultiSigArgs (flags : ScriptFlags) (st : EvalState) (keys sigs : List Bytes)
    (dummy : Bytes) (bottom : List Bytes) : Prop where
  onStack : ∃ top count v w, st.stack = top :: (keys ++ count :: (sigs ++ dummy :: bottom)) ∧
    scriptNum (hasFlag flags scriptVerifyMinimalData) top = .ok v ∧ getInt v = keys.length ∧
    scriptNum (hasFlag flags scriptVerifyMinimalData) count = .ok w ∧ getInt w = sigs.length
  keys_le : keys.length ≤ 20
  sigs_le : sigs.length ≤ keys.length

variable {keys sigs bottom : List Bytes} {dummy : Bytes}

theorem MultiSigArgs.bottom_eq (h : MultiSigArgs flags st keys sigs dummy bottom) :
    st.stack.drop (keys.length + sigs.length + 3) = bottom := by
  obtain ⟨top, count, v, w, hstack, -⟩ := h.onStack
  rw [hstack, show keys.length + sigs.length + 3 = (keys.length + (1 + (sigs.length + 1))) + 1 by
    omega, List.drop_succ_cons, ← List.drop_drop, List.drop_left, ← List.drop_drop,
    List.drop_one, List.tail_cons, ← List.drop_drop, List.drop_left, List.drop_one, List.tail_cons]

/-- The operation of the interpreter, on a stack with its arguments. -/
theorem execCheckMultiSig_eq (hflags : NoEncodingFlags flags) (verify : Bool)
    (h : MultiSigArgs flags st keys sigs dummy bottom) :
    ∃ n, execCheckMultiSig cr flags checker verify st =
      if 201 < st.nOpCount + keys.length then .error (.fail .opCount)
      else if hasFlag flags scriptVerifyNullDummy && !dummy.isEmpty then
        .error (.fail .sigNullDummy)
      else (pushOrVerify verify .checkMultiSigVerify
        (matchInOrder (fun sig key => checker sig key (multiSigCode st sigs)) sigs keys)
        bottom).map fun stack =>
          { st with stack
                    nOpCount := st.nOpCount + keys.length
                    nCheckSig := st.nCheckSig + n } := by
  obtain ⟨top, count, v, w, hstack, htop, hv, hcount, hw⟩ := h.onStack
  have h20 := h.keys_le
  have hle := h.sigs_le
  obtain ⟨n, hloop⟩ := multiSigLoop_eq cr checker hflags (multiSigCode st sigs) sigs keys
  refine ⟨n, ?_⟩
  rw [execCheckMultiSig, hstack]
  simp only [htop, Bind.bind, Except.bind, hv, Int.toNat_natCast]
  rw [if_neg (by omega)]
  split_ifs with hops hdummy
  · rfl
  · simp only [List.drop_left, hcount, hw, Int.toNat_natCast]
    rw [if_neg (by omega)]
    simp only [List.take_left]
    rw [multiSigCode] at hloop
    simp only [hloop, hdummy, if_true]
  · simp only [List.drop_left, hcount, hw, Int.toNat_natCast]
    rw [if_neg (by omega)]
    simp only [List.take_left]
    rw [multiSigCode] at hloop
    simp only [hloop, hdummy]
    rfl

/-- Where the loop of the operation finds its arguments. -/
theorem MultiSigArgs.layout (h : MultiSigArgs flags st keys sigs dummy bottom) :
    st.stack.drop (keys.length + 2) = sigs ++ dummy :: bottom ∧
      ∃ count, st.stack.drop 1 = keys ++ count :: (sigs ++ dummy :: bottom) := by
  obtain ⟨top, count, v, w, hstack, -⟩ := h.onStack
  rw [hstack]
  refine ⟨?_, count, rfl⟩
  rw [show keys.length + 2 = (keys.length + 1) + 1 by omega, List.drop_succ_cons,
    ← List.drop_drop, List.drop_left, List.drop_one, List.tail_cons]

/-- **`OP_CHECKMULTISIG` means an ordered matching.**  The loop succeeds when there is an
ascending assignment of the signatures to keys that `CheckSig` accepts.  The operation, when
neither the count of operations nor the flag for the extra element stops it, takes the keys,
the signatures and three elements more off the stack. -/
theorem checkMultiSig_iff (verify : Bool) (st : EvalState) (keys sigs bottom : List Bytes)
    (dummy : Bytes) (hflags : NoEncodingFlags flags)
    (h : MultiSigArgs flags st keys sigs dummy bottom) :
    ∃ fSuccess : Bool,
      (fSuccess = true ↔ ∃ f : Fin sigs.length → Fin keys.length, StrictMono f ∧
        ∀ i, checker (sigs.get i) (keys.get (f i)) (multiSigCode st sigs) = true) ∧
      (∃ after, (matchSigs cr flags checker (multiSigCode st sigs) (keys.length + 3) 2 sigs.length
        keys.length).run st = (.ok fSuccess, after)) ∧
      if 201 < st.nOpCount + keys.length then
        ((caseCheckMultiSig cr flags checker verify).run st).1 = .error (.halt (.fail .opCount))
      else if hasFlag flags scriptVerifyNullDummy && !dummy.isEmpty then
        ((caseCheckMultiSig cr flags checker verify).run st).1 =
          .error (.halt (.fail .sigNullDummy))
      else if verify && !fSuccess then
        ((caseCheckMultiSig cr flags checker verify).run st).1 =
          .error (.halt (.fail .checkMultiSigVerify))
      else ∃ after, (caseCheckMultiSig cr flags checker verify).run st = (.ok (), after) ∧
        after.stack = if verify then st.stack.drop (keys.length + sigs.length + 3)
          else boolBytes fSuccess :: st.stack.drop (keys.length + sigs.length + 3) := by
  refine ⟨matchInOrder (fun sig key => checker sig key (multiSigCode st sigs)) sigs keys,
    matchInOrder_iff, ?_, ?_⟩
  · obtain ⟨hsigs, count, hkeys⟩ := h.layout
    obtain ⟨n, -, hrun, -⟩ := run_matchSigs cr flags checker (multiSigCode st sigs) hsigs hkeys
      h.sigs_le
    obtain ⟨m, hloop⟩ := multiSigLoop_eq cr checker hflags (multiSigCode st sigs) sigs keys
    rw [hloop] at hrun
    exact ⟨_, hrun⟩
  · have hperf := performs_caseCheckMultiSig cr flags checker verify
      (Nat.le_refl (st.nCheckSig + keysOnTop flags st))
    obtain ⟨n, hexec⟩ := execCheckMultiSig_eq cr checker hflags verify h
    rw [hexec] at hperf
    rw [h.bottom_eq]
    generalize matchInOrder (fun sig key => checker sig key (multiSigCode st sigs)) sigs keys =
      fSuccess at hperf ⊢
    split_ifs at hperf ⊢ with hops hdummy hfails hverify
    · exact hperf.run_error
    · exact hperf.run_error
    · obtain ⟨rfl, rfl⟩ : verify = true ∧ fSuccess = false := by simpa using hfails
      exact hperf.run_error
    · subst hverify
      obtain rfl : fSuccess = true := by simpa using hfails
      exact ⟨_, hperf.run_ok, rfl⟩
    · obtain rfl : verify = false := by simpa using hverify
      exact ⟨_, hperf.run_ok, rfl⟩

/-- Keys, signatures and a checker that accepts a signature for the key that is its copy. -/
def exampleMultiSig : EvalState where
  stack := [[2], [7], [9], [1], [9], []]
  codeHash := []

/-- Functions that are not called here. -/
def idleCrypto : Crypto where
  ripemd160 := id
  sha1 := id
  sha256 := id
  hash160 := id
  hash256 := id
  checkSignatureElement _ := true

theorem checkMultiSig_example :
    ((caseCheckMultiSig idleCrypto 0 (fun sig key _ => sig == key) false).run
      exampleMultiSig).2.stack = [boolBytes true] := by
  have hargs : MultiSigArgs 0 exampleMultiSig [[7], [9]] [[9]] [] [] :=
    ⟨⟨[2], [1], _, _, rfl, rfl, rfl, rfl, rfl⟩, by decide, by decide⟩
  obtain ⟨fSuccess, hiff, -, hrun⟩ := checkMultiSig_iff idleCrypto (fun sig key _ => sig == key)
    false exampleMultiSig [[7], [9]] [[9]] [] [] ⟨by decide, by decide, by decide⟩ hargs
  have hfits : ∃ f : Fin 1 → Fin 2, StrictMono f ∧
      ∀ i, (List.get [([9] : Bytes)] i == List.get [([7] : Bytes), [9]] (f i)) = true :=
    ⟨fun _ => 1, Subsingleton.strictMono _, by decide⟩
  have hsuccess : fSuccess = true := hiff.mpr hfits
  obtain ⟨after, hafter, hstack⟩ := hrun
  rw [hafter, hstack, hsuccess]
  rfl

end Operation

end Hivemind
