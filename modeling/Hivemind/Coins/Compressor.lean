import Hivemind.Lib.VarInt
import Hivemind.Primitives.Transaction
import Hivemind.Script.Standard

/-!
# Compact outputs

`compressor.cpp`: amounts without their trailing zeros, and scripts of the usual kinds by the
hash or the key they carry.  What `secp256k1` says about a public key is a parameter.

An amount is taken apart into its trailing zeros, at most nine of them, its last digit and the
rest, and put together again in 64 bits.  The products wrap for amounts that are not money, so an
amount comes back when no product of its compressed form is too large, and a compressed form
comes back when what it stands for is a 64-bit number.

A script is compressed by its shape: to a key id, to a script id, or to a public key of one of
the two lengths.  A full key is written by its first coordinate and the parity of the second,
which the curve determines; that decompressing such a key inverts compressing it is what is asked
of `secp256k1`.

* `compressAmount_inverse`: **amounts and their compressed forms**, in both directions.
* `deScript_serScript`: a script comes back, if decompressing a key inverts compressing it.
* `length_serScript_le`: a script takes at most five bytes more than it has.
* `deTxOut_serTxOut`: so does an output in money range.
-/

namespace Hivemind

open Codecs

/-- What is asked of `secp256k1`. -/
structure Secp256k1 where
  /-- `CPubKey::IsFullyValid`. -/
  isFullyValid : Bytes → Bool
  /-- `CPubKey::Decompress`. -/
  decompress : Bytes → Option Bytes

/-! ## Amounts -/

/-- The first loop of `CompressAmount`: at most `k` trailing zeros are taken off. -/
def stripZeros : Nat → Nat → Nat × Nat
  | 0, n => (n, 0)
  | k + 1, n =>
    if n % 10 = 0 then ((stripZeros k (n / 10)).1, (stripZeros k (n / 10)).2 + 1) else (n, 0)

/-- `CompressAmount`, in 64 bits. -/
def compressAmount (n : Nat) : Nat :=
  if n = 0 then 0
  else
    let (n, e) := stripZeros 9 n
    if e < 9 then (1 + (n / 10 * 9 + n % 10 - 1) * 10 + e) % 2 ^ 64
    else (1 + (n - 1) * 10 + 9) % 2 ^ 64

/-- The last loop of `DecompressAmount`. -/
def timesTen : Nat → Nat → Nat
  | 0, n => n
  | e + 1, n => timesTen e (n * 10 % 2 ^ 64)

/-- `DecompressAmount`. -/
def decompressAmount (x : Nat) : Nat :=
  if x = 0 then 0
  else
    let e := (x - 1) % 10
    let x := (x - 1) / 10
    timesTen e (if e < 9 then x / 9 * 10 + (x % 9 + 1) else x + 1)

theorem stripZeros_spec (k n : Nat) :
    n = (stripZeros k n).1 * 10 ^ (stripZeros k n).2 ∧ (stripZeros k n).2 ≤ k ∧
      ((stripZeros k n).2 < k → (stripZeros k n).1 % 10 ≠ 0) := by
  induction k generalizing n with
  | zero => simp [stripZeros]
  | succ k ih =>
    rw [stripZeros]
    by_cases h : n % 10 = 0
    · rw [if_pos h]
      obtain ⟨hn, hle, hlast⟩ := ih (n / 10)
      refine ⟨?_, by omega, fun hlt => hlast (by omega)⟩
      rw [pow_succ, ← mul_assoc, ← hn]
      omega
    · rw [if_neg h]
      exact ⟨by simp, by omega, fun _ => h⟩

theorem timesTen_eq {e n : Nat} (h : n * 10 ^ e < 2 ^ 64) : timesTen e n = n * 10 ^ e := by
  induction e generalizing n with
  | zero => simp [timesTen]
  | succ e ih =>
    have hpow : n * 10 ^ (e + 1) = n * 10 * 10 ^ e := by ring
    rw [hpow] at h ⊢
    have hle : n * 10 ≤ n * 10 * 10 ^ e := Nat.le_mul_of_pos_right _ (by positivity)
    rw [timesTen, Nat.mod_eq_of_lt (by omega), ih h]

/-- The form with a last digit that is not zero. -/
theorem decompressAmount_digit {m e : Nat} (hm : m % 10 ≠ 0) (he : e < 9)
    (hlt : m * 10 ^ e < 2 ^ 64) :
    decompressAmount (1 + (m / 10 * 9 + m % 10 - 1) * 10 + e) = m * 10 ^ e := by
  have hexp : (1 + (m / 10 * 9 + m % 10 - 1) * 10 + e - 1) % 10 = e := by omega
  have hrest : (1 + (m / 10 * 9 + m % 10 - 1) * 10 + e - 1) / 10 = m / 10 * 9 + m % 10 - 1 := by
    omega
  have hnum : (m / 10 * 9 + m % 10 - 1) / 9 * 10 + ((m / 10 * 9 + m % 10 - 1) % 9 + 1) = m := by
    omega
  rw [decompressAmount, if_neg (by omega)]
  simp only [hexp, hrest, if_pos he, hnum]
  exact timesTen_eq hlt

/-- The form of a multiple of `10 ^ 9`. -/
theorem decompressAmount_round {m : Nat} (hm : m ≠ 0) (hlt : m * 10 ^ 9 < 2 ^ 64) :
    decompressAmount (1 + (m - 1) * 10 + 9) = m * 10 ^ 9 := by
  have hexp : (1 + (m - 1) * 10 + 9 - 1) % 10 = 9 := by omega
  have hrest : (1 + (m - 1) * 10 + 9 - 1) / 10 + 1 = m := by omega
  rw [decompressAmount, if_neg (by omega)]
  simp only [hexp, hrest, if_neg (lt_irrefl 9)]
  exact timesTen_eq hlt

/-- The last and largest product that `CompressAmount` forms. -/
def compressProduct (n : Nat) : Nat :=
  let (n, e) := stripZeros 9 n
  if e < 9 then (n / 10 * 9 + n % 10 - 1) * 10 else (n - 1) * 10

/-- What `DecompressAmount` stands for, in numbers without a bound. -/
def decompressExact (x : Nat) : Nat :=
  if x = 0 then 0
  else
    let e := (x - 1) % 10
    let x := (x - 1) / 10
    (if e < 9 then x / 9 * 10 + (x % 9 + 1) else x + 1) * 10 ^ e

/-- **An amount comes back**, when no product of its compressed form is too large. -/
theorem decompressAmount_of_compressProduct {n : Nat} (h : n < 2 ^ 64)
    (hproduct : compressProduct n ≤ 2 ^ 64) : decompressAmount (compressAmount n) = n := by
  by_cases hn : n = 0
  · rw [hn]
    rfl
  · obtain ⟨hsplit, hle, hlast⟩ := stripZeros_spec 9 n
    rw [compressProduct] at hproduct
    rw [compressAmount, if_neg hn]
    cases hstrip : stripZeros 9 n with
    | mk m e =>
      rw [hstrip] at hsplit hle hlast hproduct
      simp only at hsplit hle hlast hproduct ⊢
      -- five zeros and more leave room for the exponent
      have hroom : 5 ≤ e → m * 10 ^ 5 ≤ n := fun he => by
        rw [hsplit]
        exact Nat.mul_le_mul_left m (Nat.pow_le_pow_right (by norm_num) he)
      by_cases he : e < 9
      · have hlast := hlast he
        rw [if_pos he] at hproduct
        rw [if_pos he, Nat.mod_eq_of_lt (by omega), decompressAmount_digit hlast he (by omega),
          ← hsplit]
      · obtain rfl : e = 9 := by omega
        have hm : m ≠ 0 := by
          rintro rfl
          exact hn (by simpa using hsplit)
        rw [if_neg he, Nat.mod_eq_of_lt (by omega), decompressAmount_round hm (by omega), ← hsplit]

theorem compressProduct_le (n : Nat) : compressProduct n ≤ n * 10 := by
  obtain ⟨hsplit, -, -⟩ := stripZeros_spec 9 n
  have hmn : (stripZeros 9 n).1 ≤ n := by
    conv_rhs => rw [hsplit]
    exact Nat.le_mul_of_pos_right _ (by positivity)
  rw [compressProduct]
  dsimp only
  split <;> omega

theorem decompressAmount_compressAmount {n : Nat} (h : n < 2 ^ 60) :
    decompressAmount (compressAmount n) = n := by
  have hproduct := compressProduct_le n
  exact decompressAmount_of_compressProduct (by omega) (by omega)

theorem stripZeros_mul {k m e : Nat} (hle : e ≤ k) (hlast : e < k → m % 10 ≠ 0) :
    stripZeros k (m * 10 ^ e) = (m, e) := by
  induction e generalizing k with
  | zero =>
    cases k with
    | zero => simp [stripZeros]
    | succ k => rw [pow_zero, mul_one, stripZeros, if_neg (hlast (Nat.succ_pos k))]
  | succ e ih =>
    obtain ⟨k, rfl⟩ : ∃ k', k = k' + 1 := ⟨k - 1, by omega⟩
    have hten : m * 10 ^ (e + 1) = m * 10 ^ e * 10 := by ring
    have hrec := ih (k := k) (by omega) fun hlt => hlast (by omega)
    rw [stripZeros, hten, if_pos (Nat.mul_mod_left _ _), Nat.mul_div_cancel _ (by norm_num), hrec]

/-- **A compressed form comes back**, when what it stands for is a 64-bit number. -/
theorem compressAmount_decompressAmount {x : Nat} (hx : x < 2 ^ 64)
    (h : decompressExact x < 2 ^ 64) : compressAmount (decompressAmount x) = x := by
  by_cases hzero : x = 0
  · rw [hzero]
    rfl
  · rw [decompressExact, if_neg hzero] at h
    rw [decompressAmount, if_neg hzero]
    dsimp only at h ⊢
    by_cases he : (x - 1) % 10 < 9
    · rw [if_pos he] at h ⊢
      have hdigit : ((x - 1) / 10 / 9 * 10 + ((x - 1) / 10 % 9 + 1)) % 10 ≠ 0 := by omega
      have hne : ((x - 1) / 10 / 9 * 10 + ((x - 1) / 10 % 9 + 1)) * 10 ^ ((x - 1) % 10) ≠ 0 :=
        Nat.mul_ne_zero (by omega) (by positivity)
      rw [timesTen_eq h, compressAmount, if_neg hne, stripZeros_mul he.le fun _ => hdigit]
      dsimp only
      rw [if_pos he, Nat.mod_eq_of_lt (by omega)]
      omega
    · obtain hnine : (x - 1) % 10 = 9 := by omega
      rw [if_neg he, hnine] at h
      rw [if_neg he, hnine]
      have hne : ((x - 1) / 10 + 1) * 10 ^ 9 ≠ 0 := Nat.mul_ne_zero (by omega) (by positivity)
      rw [timesTen_eq h, compressAmount, if_neg hne, stripZeros_mul le_rfl fun hlt =>
        absurd hlt (lt_irrefl 9)]
      dsimp only
      rw [if_neg (lt_irrefl 9), Nat.mod_eq_of_lt (by omega)]
      omega

/-- **Amounts and their compressed forms**: every amount of money, and every amount with no
product over 64 bits, comes back; so does every compressed form of a 64-bit number. -/
theorem compressAmount_inverse (n x : UInt64) :
    ((n.toNat ≤ maxMoney.toInt.toNat ∨ compressProduct n.toNat ≤ 2 ^ 64) →
      decompressAmount (compressAmount n.toNat) = n.toNat) ∧
    (decompressExact x.toNat < 2 ^ 64 → compressAmount (decompressAmount x.toNat) = x.toNat) := by
  refine ⟨?_, compressAmount_decompressAmount x.toNat_lt⟩
  rintro (hmoney | hproduct)
  · have hmax : maxMoney.toInt.toNat = 2100000000000000 := by decide
    exact decompressAmount_compressAmount (by omega)
  · exact decompressAmount_of_compressProduct n.toNat_lt hproduct

/-! ## Scripts -/

/-- `IsToKeyID`. -/
def isToKeyID (script : CScript) : Option Bytes :=
  if script.length = 25 ∧ script.take 3 = [opDup, opHash160, 20] ∧
      script.drop 23 = [opEqualVerify, opCheckSig] then some ((script.drop 3).take 20)
  else none

/-- `IsToScriptID`. -/
def isToScriptID (script : CScript) : Option Bytes :=
  if script.length = 23 ∧ script.take 2 = [opHash160, 20] ∧ script.drop 22 = [opEqual] then
    some ((script.drop 2).take 20)
  else none

/-- `IsToPubKey`. -/
def isToPubKey (secp : Secp256k1) (script : CScript) : Option Bytes :=
  if script.length = 35 ∧ script.take 1 = [33] ∧ script.drop 34 = [opCheckSig] ∧
      (script[1]? = some 2 ∨ script[1]? = some 3) then some ((script.drop 1).take 33)
  else if script.length = 67 ∧ script.take 1 = [65] ∧ script.drop 66 = [opCheckSig] ∧
      script[1]? = some 4 then
    if secp.isFullyValid ((script.drop 1).take 65) then some ((script.drop 1).take 65) else none
  else none

/-- The last bit of an uncompressed key, which is that of its second coordinate. -/
def keyParity (pubkey : Bytes) : UInt8 := pubkey[64]?.getD 0 &&& 1

/-- `Compress`. -/
def compressScript (secp : Secp256k1) (script : CScript) : Option Bytes :=
  match isToKeyID script with
  | some keyID => some (0 :: keyID)
  | none => match isToScriptID script with
    | some scriptID => some (1 :: scriptID)
    | none => match isToPubKey secp script with
      | some (h :: key) =>
        if h = 2 ∨ h = 3 then some (h :: key.take 32)
        else if h = 4 then some ((4 ||| keyParity (h :: key)) :: key.take 32)
        else none
      | some [] => none
      | none => none

/-- `GetSpecialSize`. -/
def getSpecialSize (nSize : Nat) : Nat :=
  if nSize = 0 ∨ nSize = 1 then 20
  else if nSize = 2 ∨ nSize = 3 ∨ nSize = 4 ∨ nSize = 5 then 32
  else 0

/-- `Decompress`; `none` when it returns false and leaves the script alone. -/
def decompressScript (secp : Secp256k1) (nSize : Nat) (vch : Bytes) : Option CScript :=
  if nSize = 0 then some ([opDup, opHash160, 20] ++ vch ++ [opEqualVerify, opCheckSig])
  else if nSize = 1 then some ([opHash160, 20] ++ vch ++ [opEqual])
  else if nSize = 2 ∨ nSize = 3 then some ([33, UInt8.ofNat nSize] ++ vch ++ [opCheckSig])
  else if nSize = 4 ∨ nSize = 5 then
    (secp.decompress (UInt8.ofNat (nSize - 2) :: vch)).map fun pubkey =>
      [65] ++ pubkey ++ [opCheckSig]
  else none

/-- `CScriptCompressor::Serialize`; there are six special scripts. -/
def serScript (secp : Secp256k1) (script : CScript) : Bytes :=
  match compressScript secp script with
  | some compr => compr
  | none => writeVarInt 32 ((script.length + 6) % 2 ^ 32) ++ script

/-- `CScriptCompressor::Unserialize`, into an empty script. -/
def deScript (secp : Secp256k1) : Reader CScript := fun s =>
  match readVarInt 32 s with
  | .error e => .error e
  | .ok (nSize, s) =>
    if nSize < 6 then
      match Codec.readBytes (getSpecialSize nSize) s with
      | .error e => .error e
      | .ok (vch, s) => .ok ((decompressScript secp nSize vch).getD [], s)
    else Codec.readBytes (nSize - 6) s

/-- Decompressing a key inverts compressing it. -/
def Secp256k1.Inverts (secp : Secp256k1) : Prop :=
  ∀ key : Bytes, key.length = 64 → secp.isFullyValid (4 :: key) = true →
    secp.decompress ((2 ||| keyParity (4 :: key)) :: key.take 32) = some (4 :: key)

theorem take_drop_split {α : Type} (l : List α) (a b : Nat) :
    l = l.take a ++ (l.drop a).take b ++ l.drop (a + b) := by
  rw [List.append_assoc, ← List.drop_drop, List.take_append_drop, List.take_append_drop]

theorem isToKeyID_some {script : CScript} {keyID : Bytes} (h : isToKeyID script = some keyID) :
    keyID.length = 20 ∧
      script = [opDup, opHash160, 20] ++ keyID ++ [opEqualVerify, opCheckSig] := by
  rw [isToKeyID] at h
  split_ifs at h with hs
  obtain ⟨hlen, hfront, hback⟩ := hs
  obtain rfl := Option.some.inj h
  refine ⟨by simp [hlen], ?_⟩
  have hsplit := take_drop_split script 3 20
  rw [hfront, hback] at hsplit
  exact hsplit

theorem isToScriptID_some {script : CScript} {scriptID : Bytes}
    (h : isToScriptID script = some scriptID) :
    scriptID.length = 20 ∧ script = [opHash160, 20] ++ scriptID ++ [opEqual] := by
  rw [isToScriptID] at h
  split_ifs at h with hs
  obtain ⟨hlen, hfront, hback⟩ := hs
  obtain rfl := Option.some.inj h
  refine ⟨by simp [hlen], ?_⟩
  have hsplit := take_drop_split script 2 20
  rw [hfront, hback] at hsplit
  exact hsplit

/-- The key of a script that starts with a push of `n + 1` bytes and ends in a check of
the signature. -/
theorem pushed_key {script : CScript} {n : Nat} {push h : UInt8} (hlen : script.length = n + 3)
    (hfront : script.take 1 = [push]) (hback : script.drop (n + 2) = [opCheckSig])
    (hhead : script[1]? = some h) :
    ∃ key : Bytes, (script.drop 1).take (n + 1) = h :: key ∧ key.length = n ∧
      script = [push] ++ (h :: key) ++ [opCheckSig] := by
  have hsplit := take_drop_split script 1 (n + 1)
  have hpos : 1 + (n + 1) = n + 2 := by omega
  rw [hfront, hpos, hback] at hsplit
  cases hkey : (script.drop 1).take (n + 1) with
  | nil =>
    have hlen' := congrArg List.length hkey
    simp [hlen] at hlen'
  | cons b key =>
    have hlen' := congrArg List.length hkey
    rw [List.length_take, List.length_drop, hlen, List.length_cons] at hlen'
    have hb : b = h := by
      have hget := congrArg (fun l => l[0]?) hkey
      rw [List.getElem?_take_of_lt (by omega), List.getElem?_drop, hhead] at hget
      exact (Option.some.inj hget).symm
    subst hb
    refine ⟨key, rfl, by omega, ?_⟩
    rw [hkey] at hsplit
    exact hsplit

/-- What a script that pays to a public key looks like. -/
theorem isToPubKey_some {secp : Secp256k1} {script : CScript} {pubkey : Bytes}
    (h : isToPubKey secp script = some pubkey) :
    ∃ b key, pubkey = b :: key ∧
      ((key.length = 32 ∧ (b = 2 ∨ b = 3) ∧ script = [33] ++ pubkey ++ [opCheckSig]) ∨
        (key.length = 64 ∧ b = 4 ∧ secp.isFullyValid pubkey = true ∧
          script = [65] ++ pubkey ++ [opCheckSig])) := by
  rw [isToPubKey] at h
  split_ifs at h with hcomp hfull hvalid
  · obtain ⟨hlen, hfront, hback, hhead⟩ := hcomp
    obtain rfl := Option.some.inj h
    rcases hhead with hhead | hhead
    · obtain ⟨key, hkey, hn, hscript⟩ := pushed_key (n := 32) hlen hfront hback hhead
      exact ⟨2, key, hkey, Or.inl ⟨hn, Or.inl rfl, by rw [hkey]; exact hscript⟩⟩
    · obtain ⟨key, hkey, hn, hscript⟩ := pushed_key (n := 32) hlen hfront hback hhead
      exact ⟨3, key, hkey, Or.inl ⟨hn, Or.inr rfl, by rw [hkey]; exact hscript⟩⟩
  · obtain ⟨hlen, hfront, hback, hhead⟩ := hfull
    obtain rfl := Option.some.inj h
    obtain ⟨key, hkey, hn, hscript⟩ := pushed_key (n := 64) hlen hfront hback hhead
    exact ⟨4, key, hkey, Or.inr ⟨hn, rfl, hvalid, by rw [hkey]; exact hscript⟩⟩

/-- The two bytes that mark a full key, and the keys they stand for. -/
theorem keyParity_mark (key : Bytes) :
    ((4 ||| keyParity key).toNat = 4 ∨ (4 ||| keyParity key).toNat = 5) ∧
      UInt8.ofNat ((4 ||| keyParity key).toNat - 2) = 2 ||| keyParity key := by
  have hbit : keyParity key = 0 ∨ keyParity key = 1 := by
    rw [keyParity]
    have hlt : (key[64]?.getD 0 &&& 1).toNat < 2 := by
      rw [UInt8.toNat_and]
      exact lt_of_le_of_lt Nat.and_le_right (by decide)
    have hcases : (key[64]?.getD 0 &&& 1).toNat = 0 ∨ (key[64]?.getD 0 &&& 1).toNat = 1 := by
      omega
    rcases hcases with h | h
    · exact Or.inl (UInt8.toNat_inj.mp h)
    · exact Or.inr (UInt8.toNat_inj.mp h)
  rcases hbit with h | h
  · rw [h]
    decide
  · rw [h]
    decide

theorem decompressScript_full {secp : Secp256k1} {nSize : Nat} {vch pubkey : Bytes}
    (h : nSize = 4 ∨ nSize = 5)
    (hdec : secp.decompress (UInt8.ofNat (nSize - 2) :: vch) = some pubkey) :
    decompressScript secp nSize vch = some ([65] ++ pubkey ++ [opCheckSig]) := by
  rw [decompressScript, if_neg (by omega), if_neg (by omega), if_neg (by omega), if_pos h, hdec]
  rfl

/-- A compressed script: a byte that says what it is, and what it is decompressed from. -/
theorem compressScript_some {secp : Secp256k1} (hsecp : secp.Inverts) {script : CScript}
    {compr : Bytes} (h : compressScript secp script = some compr) :
    ∃ b vch, compr = b :: vch ∧ b.toNat < 6 ∧ vch.length = getSpecialSize b.toNat ∧
      decompressScript secp b.toNat vch = some script := by
  rw [compressScript] at h
  cases hkey : isToKeyID script with
  | some keyID =>
    rw [hkey] at h
    obtain ⟨hlen, hscript⟩ := isToKeyID_some hkey
    exact ⟨0, keyID, (Option.some.inj h).symm, by decide, hlen, by rw [hscript]; rfl⟩
  | none =>
    rw [hkey] at h
    cases hid : isToScriptID script with
    | some scriptID =>
      rw [hid] at h
      obtain ⟨hlen, hscript⟩ := isToScriptID_some hid
      exact ⟨1, scriptID, (Option.some.inj h).symm, by decide, hlen, by rw [hscript]; rfl⟩
    | none =>
      rw [hid] at h
      cases hpub : isToPubKey secp script with
      | none =>
        rw [hpub] at h
        cases h
      | some pubkey =>
        rw [hpub] at h
        obtain ⟨b, key, rfl, ⟨hlen, hb, hscript⟩ | ⟨hlen, rfl, hvalid, hscript⟩⟩ :=
          isToPubKey_some hpub
        · simp only [if_pos hb, List.take_of_length_le (le_of_eq hlen)] at h
          refine ⟨b, key, (Option.some.inj h).symm, ?_⟩
          rw [hscript]
          rcases hb with rfl | rfl
          · exact ⟨by decide, hlen, rfl⟩
          · exact ⟨by decide, hlen, rfl⟩
        · simp only [if_neg (by decide : ¬ ((4 : UInt8) = 2 ∨ (4 : UInt8) = 3)), if_true] at h
          refine ⟨4 ||| keyParity (4 :: key), key.take 32, (Option.some.inj h).symm, ?_⟩
          obtain ⟨hmark, hback⟩ := keyParity_mark (4 :: key)
          have hdec := hsecp key hlen hvalid
          rw [← hback] at hdec
          have hfull := decompressScript_full hmark hdec
          rw [← hscript] at hfull
          refine ⟨by omega, ?_, hfull⟩
          rcases hmark with hmark | hmark
          · simp [hmark, hlen, getSpecialSize]
          · simp [hmark, hlen, getSpecialSize]

theorem readBytes_append (b s : Bytes) : Codec.readBytes b.length (b ++ s) = .ok (b, s) :=
  Codec.readBytes_ok.mpr ⟨rfl, rfl⟩

/-- **A script comes back**, when it is not too long. -/
theorem deScript_serScript {secp : Secp256k1} (hsecp : secp.Inverts) {script : CScript}
    (hlen : script.length + 6 < 2 ^ 32) (s : Bytes) :
    deScript secp (serScript secp script ++ s) = .ok (script, s) := by
  rw [serScript, deScript]
  cases hc : compressScript secp script with
  | some compr =>
    obtain ⟨b, vch, rfl, hb, hvch, hdec⟩ := compressScript_some hsecp hc
    -- a mark below six is its own size
    have hsize : readVarInt 32 (b :: (vch ++ s)) = .ok (b.toNat, vch ++ s) := by
      have h := readVarIntFrom_cons_last (w := 32) (n := 0) (d := b.toNat) (by omega) (by omega)
        (vch ++ s)
      rw [UInt8.ofNat_toNat, Nat.zero_mul, Nat.zero_add] at h
      exact h
    simp only [List.cons_append, hsize, if_pos hb]
    rw [← hvch, readBytes_append]
    simp only [hdec, Option.getD_some]
  | none =>
    simp only [List.append_assoc]
    rw [readVarInt_writeVarInt (Nat.mod_lt _ (by decide)) (by decide),
      Nat.mod_eq_of_lt (by omega)]
    simp only [if_neg (by omega : ¬ script.length + 6 < 6), Nat.add_sub_cancel]
    exact readBytes_append script s

theorem length_compressScript_le {secp : Secp256k1} {script : CScript} {compr : Bytes}
    (h : compressScript secp script = some compr) : compr.length ≤ script.length := by
  rw [compressScript] at h
  cases hkey : isToKeyID script with
  | some keyID =>
    rw [hkey] at h
    obtain ⟨-, hscript⟩ := isToKeyID_some hkey
    rw [← Option.some.inj h, hscript]
    simp
  | none =>
    rw [hkey] at h
    cases hid : isToScriptID script with
    | some scriptID =>
      rw [hid] at h
      obtain ⟨-, hscript⟩ := isToScriptID_some hid
      rw [← Option.some.inj h, hscript]
      simp
    | none =>
      rw [hid] at h
      cases hpub : isToPubKey secp script with
      | none =>
        rw [hpub] at h
        cases h
      | some pubkey =>
        rw [hpub] at h
        obtain ⟨b, key, rfl, hcases⟩ := isToPubKey_some hpub
        have hlen : (b :: key).length ≤ script.length := by
          rcases hcases with ⟨-, -, hscript⟩ | ⟨-, -, -, hscript⟩
          · simp [hscript]
          · simp [hscript]
        -- either way a byte and the first coordinate
        have hle : compr.length ≤ key.length + 1 := by
          dsimp only at h
          split_ifs at h
          · rw [← Option.some.inj h]
            simp
          · rw [← Option.some.inj h]
            simp
        exact le_trans hle hlen

/-- A script takes at most five bytes more than it has. -/
theorem length_serScript_le (secp : Secp256k1) (script : CScript) :
    (serScript secp script).length ≤ script.length + 5 := by
  rw [serScript]
  cases hc : compressScript secp script with
  | some compr => exact le_trans (length_compressScript_le hc) (Nat.le_add_right ..)
  | none =>
    have hle := length_writeVarInt_le 32 ((script.length + 6) % 2 ^ 32)
    simp only [List.length_append]
    omega

/-! ## Outputs -/

/-- `CTxOutCompressor`, writing. -/
def serTxOut (secp : Secp256k1) (txout : CTxOut) : Bytes :=
  writeVarInt 64 (compressAmount txout.nValue.toUInt64.toNat) ++ serScript secp txout.scriptPubKey

/-- `CTxOutCompressor`, reading. -/
def deTxOut (secp : Secp256k1) : Reader CTxOut := fun s =>
  match readVarInt 64 s with
  | .error e => .error e
  | .ok (nVal, s) => match deScript secp s with
    | .error e => .error e
    | .ok (script, s) => .ok (⟨(UInt64.ofNat (decompressAmount nVal)).toInt64, script⟩, s)

theorem compressAmount_lt (n : Nat) : compressAmount n < 2 ^ 64 := by
  rw [compressAmount]
  by_cases hn : n = 0
  · rw [if_pos hn]
    decide
  · rw [if_neg hn]
    dsimp only
    split
    · exact Nat.mod_lt _ (by positivity)
    · exact Nat.mod_lt _ (by positivity)

theorem length_serTxOut_le (secp : Secp256k1) (txout : CTxOut) :
    (serTxOut secp txout).length ≤ txout.scriptPubKey.length + 15 := by
  have hamount := length_writeVarInt_le 64 (compressAmount txout.nValue.toUInt64.toNat)
  have hscript := length_serScript_le secp txout.scriptPubKey
  rw [serTxOut, List.length_append]
  omega

/-- **An output in money range comes back.** -/
theorem deTxOut_serTxOut {secp : Secp256k1} (hsecp : secp.Inverts) {txout : CTxOut}
    (hvalue : moneyRange txout.nValue = true) (hlen : txout.scriptPubKey.length + 6 < 2 ^ 32)
    (s : Bytes) : deTxOut secp (serTxOut secp txout ++ s) = .ok (txout, s) := by
  have hsmall : txout.nValue.toUInt64.toNat < 2 ^ 60 := by
    obtain ⟨h0, h1⟩ := moneyRange_iff.mp hvalue
    have hnat : txout.nValue.toUInt64.toNat = txout.nValue.toInt.toNat :=
      Int64.toNat_toUInt64_of_le (Int64.le_iff_toInt_le.mpr h0)
    omega
  rw [serTxOut, deTxOut, List.append_assoc,
    readVarInt_writeVarInt (compressAmount_lt _) (by decide)]
  simp only [deScript_serScript hsecp hlen, decompressAmount_compressAmount hsmall,
    UInt64.ofNat_toNat]
  rfl

end Hivemind
