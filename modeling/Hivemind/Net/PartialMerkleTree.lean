import Hivemind.Lib.BitMask
import Hivemind.Primitives.MerkleTree
import Hivemind.Validation.Transactions

/-!
# Partial merkle trees

`CPartialMerkleTree` of `merkleblock.cpp`: the part of the merkle tree of a block that proves
some of its transactions.  A traversal writes a bit for every node that it visits and the hash of
every node that it does not open; the other direction reads both streams back.

For an honest tree the two traversals are inverse to each other, subtree by subtree, with what
follows in the streams left alone; over the network the bits are rounded up to bytes, which the
reader allows for.  A tree from a peer may be anything: what is proved of it is that a subtree
whose hash is that of a node shows only what is below that node, unless the hash has two
preimages among the pairs that are formed.  The null hash stands for a failure and is excluded as
a root.

* `exists_streams`: the traversals are inverse to each other.
* `extractMatches_unserialize`: **completeness**: what an honest tree shows after the network.
* `traverseAndExtract_sound`: what any tree with the right root can show.
* `extractMatches_sublist`: **soundness**: no tree proves a transaction that is not in the block.
-/

namespace Hivemind

open Codecs MerkleTrees

/-! ## The operations -/

/-- `CPartialMerkleTree`. -/
structure CPartialMerkleTree where
  nTransactions : UInt32 := 0
  /-- Whether the nodes have a matched id below. -/
  vBits : List Bool := []
  vHash : List Uint256 := []
  fBad : Bool := true

/-- `CalcTreeWidth`, over `n` transactions. -/
def calcTreeWidth (n height : Nat) : Nat := (n + 2 ^ height - 1) / 2 ^ height

/-- `while (CalcTreeWidth(nHeight) > 1) nHeight++`; a tree is not higher than the number of its
transactions. -/
def treeHeight (n : Nat) : Nat → Nat → Nat
  | 0, nHeight => nHeight
  | fuel + 1, nHeight =>
    if 1 < calcTreeWidth n nHeight then treeHeight n fuel (nHeight + 1) else nHeight

section Build

variable (hash : Bytes → Uint256) (vTxid : List Uint256) (vMatch : List Bool)

/-- `CalcHash`; `none` is an access outside of the ids. -/
def calcHash : Nat → Nat → Option Uint256
  | 0, pos => vTxid[pos]?
  | height + 1, pos => (calcHash height (pos * 2)).bind fun left =>
    if pos * 2 + 1 < calcTreeWidth vTxid.length height then
      (calcHash height (pos * 2 + 1)).map fun right => hashPair hash left right
    else some (hashPair hash left left)

/-- The loop over the transactions below a node, from `p` to before `last`. -/
def parentOfMatch (last : Nat) : Nat → Nat → Bool → Option Bool
  | 0, _, fParentOfMatch => some fParentOfMatch
  | n + 1, p, fParentOfMatch =>
    if p < last ∧ p < vTxid.length then
      vMatch[p]?.bind fun m => parentOfMatch last n (p + 1) (fParentOfMatch || m)
    else some fParentOfMatch

/-- `TraverseAndBuild`, with the two streams. -/
def traverseAndBuild : Nat → Nat → List Bool × List Uint256 → Option (List Bool × List Uint256)
  | 0, pos, s => (parentOfMatch vTxid vMatch (pos + 1) 1 pos false).bind fun fParentOfMatch =>
    (calcHash hash vTxid 0 pos).map fun x => (s.1 ++ [fParentOfMatch], s.2 ++ [x])
  | height + 1, pos, s =>
    (parentOfMatch vTxid vMatch ((pos + 1) * 2 ^ (height + 1)) (2 ^ (height + 1))
        (pos * 2 ^ (height + 1)) false).bind fun fParentOfMatch =>
      if fParentOfMatch then
        (traverseAndBuild height (pos * 2) (s.1 ++ [true], s.2)).bind fun s =>
          if pos * 2 + 1 < calcTreeWidth vTxid.length height then
            traverseAndBuild height (pos * 2 + 1) s
          else some s
      else (calcHash hash vTxid (height + 1) pos).map fun x => (s.1 ++ [false], s.2 ++ [x])

/-- `CPartialMerkleTree(vTxid, vMatch)`. -/
def CPartialMerkleTree.ofTxids : Option CPartialMerkleTree :=
  (traverseAndBuild hash vTxid vMatch (treeHeight vTxid.length vTxid.length 0) 0 ([], [])).map
    fun s => { nTransactions := UInt32.ofNat vTxid.length, vBits := s.1, vHash := s.2, fBad := false }

end Build

/-- The bits, eight to the byte. -/
def packBytes (vBits : List Bool) : Bytes :=
  (List.range ((vBits.length + 7) / 8)).map fun b => packBits fun i => vBits.getD (b * 8 + i) false

/-- What goes over the network. -/
def CPartialMerkleTree.codec : Codec (UInt32 × List Uint256 × Bytes) :=
  Codec.u32.prod ((vectorCodec Blob.codec).prod stringCodec)

def CPartialMerkleTree.serialize (tree : CPartialMerkleTree) : Bytes :=
  codec.ser (tree.nTransactions, tree.vHash, packBytes tree.vBits)

def CPartialMerkleTree.unserialize : Reader CPartialMerkleTree := fun s =>
  (codec.de s).map fun p =>
    ({ nTransactions := p.1.1, vHash := p.1.2.1, vBits := p.1.2.2.flatMap unpackBits, fBad := false },
      p.2)

/-- What `TraverseAndExtract` changes. -/
structure ExtractState where
  nBitsUsed : Nat := 0
  nHashUsed : Nat := 0
  vMatch : List Uint256 := []
  fBad : Bool := false
  /-- The pairs of hashes that have been hashed. -/
  hashed : List (Uint256 × Uint256) := []

section Extract

variable (hash : Bytes → Uint256) (tree : CPartialMerkleTree)

/-- A failure of the traversal. -/
def ExtractState.failed (st : ExtractState) : Uint256 × ExtractState :=
  (Blob.null, { st with fBad := true })

/-- Use a stored hash and do not descend. -/
def takeHash (fMatched : Bool) (st : ExtractState) : Uint256 × ExtractState :=
  match tree.vHash[st.nHashUsed]? with
  | none => st.failed
  | some x =>
    (x, { st with
          nHashUsed := st.nHashUsed + 1
          vMatch := if fMatched then st.vMatch ++ [x] else st.vMatch })

/-- Combine two hashes. -/
def combine (left right : Uint256) (st : ExtractState) : Uint256 × ExtractState :=
  (hashPair hash left right, { st with hashed := st.hashed ++ [(left, right)] })

/-- `TraverseAndExtract`. -/
def traverseAndExtract : Nat → Nat → ExtractState → Uint256 × ExtractState
  | 0, _, st => match tree.vBits[st.nBitsUsed]? with
    | none => st.failed
    | some fParentOfMatch => takeHash tree fParentOfMatch { st with nBitsUsed := st.nBitsUsed + 1 }
  | height + 1, pos, st => match tree.vBits[st.nBitsUsed]? with
    | none => st.failed
    | some false => takeHash tree false { st with nBitsUsed := st.nBitsUsed + 1 }
    | some true =>
      let (left, st) :=
        traverseAndExtract height (pos * 2) { st with nBitsUsed := st.nBitsUsed + 1 }
      if pos * 2 + 1 < calcTreeWidth tree.nTransactions.toNat height then
        let (right, st) := traverseAndExtract height (pos * 2 + 1) st
        combine hash left right { st with fBad := st.fBad || right == left }
      else combine hash left left st

/-- The traversal that `ExtractMatches` starts. -/
def extractRun : Uint256 × ExtractState :=
  traverseAndExtract hash tree
    (treeHeight tree.nTransactions.toNat tree.nTransactions.toNat 0) 0 { fBad := tree.fBad }

/-- `ExtractMatches`: what is returned, and what is left in `vMatch`. -/
def extractMatches : Uint256 × List Uint256 :=
  let n := tree.nTransactions.toNat
  if n = 0 ∨ maxBlockSize / 60 < n ∨ n < tree.vHash.length ∨
      tree.vBits.length < tree.vHash.length then (Blob.null, [])
  else
    let (hashMerkleRoot, st) := extractRun hash tree
    if st.fBad ∨ (st.nBitsUsed + 7) / 8 ≠ (tree.vBits.length + 7) / 8 ∨
        st.nHashUsed ≠ tree.vHash.length then (Blob.null, st.vMatch)
    else (hashMerkleRoot, st.vMatch)

end Extract

/-! ## Nodes and the ids below them -/

section Nodes

variable {hash : Bytes → Uint256} {xs : List Uint256} {h pos : Nat}

theorem calcTreeWidth_eq (pair : Uint256 → Uint256 → Uint256) (xs : List Uint256) (h : Nat) :
    calcTreeWidth xs.length h = (levelAt pair h xs).length := (length_levelAt pair h xs).symm

theorem one_lt_calcTreeWidth {n : Nat} : 1 < calcTreeWidth n h ↔ h < height n := by
  have hlen : (levelAt (fun _ _ => ()) h (List.replicate n ())).length ≤ 1 ↔
      (List.replicate n ()).length ≤ 2 ^ h := length_levelAt_le_one _
  rw [length_levelAt, List.length_replicate] at hlen
  rw [lt_height_iff, calcTreeWidth]
  omega

theorem treeHeight_eq (n : Nat) : treeHeight n n 0 = height n := by
  have hloop : ∀ fuel k, k ≤ height n → height n ≤ k + fuel → treeHeight n fuel k = height n := by
    intro fuel
    induction fuel with
    | zero =>
      intro k hk hle
      rw [treeHeight]
      omega
    | succ fuel ih =>
      intro k hk hle
      rw [treeHeight]
      split_ifs with hwidth
      · exact ih (k + 1) (one_lt_calcTreeWidth.mp hwidth) (by omega)
      · have := one_lt_calcTreeWidth.not.mp hwidth
        omega
  refine hloop n 0 (Nat.zero_le _) ?_
  have hpow : n ≤ 2 ^ n := Nat.lt_two_pow_self.le
  rw [Nat.zero_add, ← not_lt, lt_height_iff]
  omega

theorem calcHash_eq (h pos : Nat) :
    calcHash hash xs h pos = (levelAt (hashPair hash) h xs)[pos]? := by
  induction h generalizing pos with
  | zero => rfl
  | succ h ih =>
    rw [calcHash, ih, ih, getElem?_levelAt_succ, calcTreeWidth_eq (hashPair hash),
      Nat.mul_comm pos 2]
    cases hleft : (levelAt (hashPair hash) h xs)[2 * pos]? with
    | none => rfl
    | some left =>
      rw [Option.bind_some, Option.map_some]
      split_ifs with hlt
      · rw [List.getElem?_eq_getElem hlt]
        rfl
      · rw [List.getElem?_eq_none (not_lt.mp hlt)]
        rfl

/-- The part of a list below a node. -/
def below {α : Type} (h pos : Nat) (l : List α) : List α := (l.drop (pos * 2 ^ h)).take (2 ^ h)

theorem below_succ {α : Type} (h pos : Nat) (l : List α) :
    below (h + 1) pos l = below h (pos * 2) l ++ below h (pos * 2 + 1) l := by
  have hstart : pos * 2 ^ (h + 1) = pos * 2 * 2 ^ h := by rw [Nat.pow_succ]; ring
  have hsecond : (pos * 2 + 1) * 2 ^ h = pos * 2 * 2 ^ h + 2 ^ h := by ring
  rw [below, below, below, hstart, hsecond, Nat.pow_succ, Nat.mul_two, List.take_add,
    List.drop_drop]

theorem below_eq_nil {α : Type} {l : List α} (hpos : calcTreeWidth l.length h ≤ pos) :
    below h pos l = [] := by
  have hpow : 0 < 2 ^ h := Nat.two_pow_pos h
  have hle : l.length ≤ pos * 2 ^ h := by
    rw [calcTreeWidth, Nat.div_le_iff_le_mul_add_pred hpow, Nat.mul_comm] at hpos
    omega
  rw [below, List.drop_eq_nil_of_le hle, List.take_nil]

theorem below_ne_nil {α : Type} {l : List α} (hpos : pos < calcTreeWidth l.length h) :
    below h pos l ≠ [] := by
  have hpow : 0 < 2 ^ h := Nat.two_pow_pos h
  have hlt : pos * 2 ^ h < l.length := by
    rw [calcTreeWidth, Nat.lt_div_iff_mul_lt hpow] at hpos
    omega
  intro hnil
  have hlen := congrArg List.length hnil
  rw [below, List.length_take, List.length_drop, List.length_nil] at hlen
  omega

/-- At the height of the tree there is everything below. -/
theorem below_root {α : Type} (l : List α) : below (height l.length) 0 l = l := by
  have hle : l.length ≤ 2 ^ height l.length := by
    rw [← not_lt, ← lt_height_iff]
    exact lt_irrefl _
  rw [below, Nat.zero_mul, List.drop_zero, List.take_of_length_le hle]

theorem pos_of_succ {n : Nat} (hpos : pos < calcTreeWidth n (h + 1)) :
    pos * 2 < calcTreeWidth n h := by
  have hlen := length_levelAt (fun _ _ => ()) (h + 1) (List.replicate n ())
  have hlen' := length_levelAt (fun _ _ => ()) h (List.replicate n ())
  rw [levelAt, length_level, List.length_replicate] at hlen
  rw [List.length_replicate] at hlen'
  rw [calcTreeWidth, ← hlen, hlen'] at hpos
  rw [calcTreeWidth]
  omega

end Nodes

/-! ## Building and extracting -/

section Honest

variable {hash : Bytes → Uint256} {l : List (Uint256 × Bool)}

/-- The ids that are matched. -/
def matchedOf (l : List (Uint256 × Bool)) : List Uint256 := (l.filter Prod.snd).map Prod.fst

theorem matchedOf_append (l l' : List (Uint256 × Bool)) :
    matchedOf (l ++ l') = matchedOf l ++ matchedOf l' := by
  rw [matchedOf, List.filter_append, List.map_append]
  rfl

theorem parentOfMatch_eq (xs : List Uint256) (ms : List Bool) (hlen : ms.length = xs.length)
    (n p : Nat) (f : Bool) :
    parentOfMatch xs ms (p + n) n p f = some (f || ((ms.drop p).take n).any id) := by
  induction n generalizing p f with
  | zero => simp [parentOfMatch]
  | succ n ih =>
    rw [parentOfMatch]
    split_ifs with hp
    · have hlt : p < ms.length := by omega
      have hlast : p + (n + 1) = p + 1 + n := by omega
      have hdrop : ms.drop p = ms[p] :: ms.drop (p + 1) := List.drop_eq_getElem_cons hlt
      rw [List.getElem?_eq_getElem hlt, Option.bind_some, hlast, ih (p + 1), hdrop,
        List.take_succ_cons, List.any_cons, Bool.or_assoc]
      rfl
    · have hle : ms.length ≤ p := by omega
      rw [List.drop_eq_nil_of_le hle, List.take_nil, List.any_nil, Bool.or_false]

/-- A node is a parent of a match when something is matched below it. -/
theorem parentOfMatch_below (h pos : Nat) :
    parentOfMatch (l.map Prod.fst) (l.map Prod.snd) ((pos + 1) * 2 ^ h) (2 ^ h) (pos * 2 ^ h) false =
      some ((below h pos l).any Prod.snd) := by
  rw [Nat.succ_mul, parentOfMatch_eq _ _ (by simp), Bool.false_or, ← List.map_drop,
    ← List.map_take, List.any_map, below]
  rfl

theorem matchedOf_eq_nil {l : List (Uint256 × Bool)} (h : l.any Prod.snd = false) :
    matchedOf l = [] := by
  rw [List.any_eq_false] at h
  rw [matchedOf, List.filter_eq_nil_iff.mpr h, List.map_nil]

/-- The streams of a subtree, and what is extracted from them. -/
structure Streams (hash : Bytes → Uint256) (l : List (Uint256 × Bool)) (h pos : Nat)
    (bits : List Bool) (hashes : List Uint256) : Prop where
  build : ∀ s, traverseAndBuild hash (l.map Prod.fst) (l.map Prod.snd) h pos s =
    some (s.1 ++ bits, s.2 ++ hashes)
  bits_lt : bits.length < 2 ^ (h + 1)
  hashes_le_bits : hashes.length ≤ bits.length
  hashes_le : hashes.length ≤ (below h pos l).length
  extract : ∀ (tree : CPartialMerkleTree) st, tree.nTransactions.toNat = l.length →
    bits <+: tree.vBits.drop st.nBitsUsed → hashes <+: tree.vHash.drop st.nHashUsed →
    ∃ x hashed, (levelAt (hashPair hash) h (l.map Prod.fst))[pos]? = some x ∧
      traverseAndExtract hash tree h pos st =
        (x, { nBitsUsed := st.nBitsUsed + bits.length
              nHashUsed := st.nHashUsed + hashes.length
              vMatch := st.vMatch ++ matchedOf (below h pos l)
              fBad := st.fBad
              hashed := hashed })

theorem below_zero {pos : Nat} {pair : Uint256 → Uint256 → Uint256}
    (hpos : pos < (levelAt pair 0 (l.map Prod.fst)).length) :
    ∃ hlt : pos < l.length, below 0 pos l = [l[pos]] := by
  have hlt : pos < l.length := by rwa [levelAt, List.length_map] at hpos
  refine ⟨hlt, ?_⟩
  rw [below, pow_zero, Nat.mul_one, List.drop_eq_getElem_cons hlt]
  rfl

/-- A node whose hash is stored. -/
theorem streams_stored {h pos : Nat} {b : Bool} (hpos : pos < calcTreeWidth l.length h)
    (hb : (below h pos l).any Prod.snd = b) (hstored : h = 0 ∨ b = false) :
    ∃ bits hashes, Streams hash l h pos bits hashes := by
  have hwidth : pos < (levelAt (hashPair hash) h (l.map Prod.fst)).length := by
    rwa [← calcTreeWidth_eq, List.length_map]
  have hcalc : calcHash hash (l.map Prod.fst) h pos =
      (levelAt (hashPair hash) h (l.map Prod.fst))[pos]? := calcHash_eq h pos
  rw [List.getElem?_eq_getElem hwidth] at hcalc
  refine ⟨[b], [(levelAt (hashPair hash) h (l.map Prod.fst))[pos]], ?_, ?_, le_rfl, ?_, ?_⟩
  · intro s
    cases h with
    | zero =>
      have hp := parentOfMatch_below (l := l) 0 pos
      rw [pow_zero, Nat.mul_one, Nat.mul_one, hb] at hp
      rw [traverseAndBuild, hp, Option.bind_some, hcalc, Option.map_some]
    | succ h =>
      obtain rfl : b = false := hstored.resolve_left (Nat.succ_ne_zero h)
      rw [traverseAndBuild, parentOfMatch_below, hb, Option.bind_some, if_neg Bool.false_ne_true,
        hcalc, Option.map_some]
  · exact Nat.one_lt_two_pow (Nat.succ_ne_zero h)
  · exact List.length_pos_of_ne_nil (below_ne_nil hpos)
  · intro tree st hn hbits hhashes
    have hbit : tree.vBits[st.nBitsUsed]? = some b := by
      obtain ⟨rest, hrest⟩ := hbits
      rw [← List.head?_drop, ← hrest, List.singleton_append, List.head?_cons]
    have hget : tree.vHash[st.nHashUsed]? =
        some (levelAt (hashPair hash) h (l.map Prod.fst))[pos] := by
      obtain ⟨rest, hrest⟩ := hhashes
      rw [← List.head?_drop, ← hrest, List.singleton_append, List.head?_cons]
    refine ⟨_, st.hashed, List.getElem?_eq_getElem hwidth, ?_⟩
    cases h with
    | zero =>
      obtain ⟨hlt, hsingle⟩ := below_zero hwidth
      rw [hsingle, List.any_cons, List.any_nil, Bool.or_false] at hb
      rw [traverseAndExtract, hbit]
      simp only [takeHash, hget, List.length_singleton, hsingle, matchedOf, List.filter_cons, hb]
      cases b with
      | true => simp [levelAt]
      | false => simp
    | succ h =>
      obtain rfl : b = false := hstored.resolve_left (Nat.succ_ne_zero h)
      rw [traverseAndExtract, hbit]
      simp only [takeHash, hget, List.length_singleton, matchedOf_eq_nil hb, List.append_nil,
        Bool.false_eq_true, if_false]

/-- Two nodes next to each other differ, when the level has no duplicates. -/
theorem levelAt_ne {pair : Uint256 → Uint256 → Uint256} {xs : List Uint256} {h pos : Nat}
    {left right : Uint256} (hnodup : (levelAt pair h xs).Nodup)
    (hleft : (levelAt pair h xs)[pos * 2]? = some left)
    (hright : (levelAt pair h xs)[pos * 2 + 1]? = some right) : right ≠ left := by
  rintro rfl
  obtain ⟨hlt, -⟩ := List.getElem?_eq_some_iff.mp hleft
  have := (List.getElem?_inj hlt hnodup).mp (hleft.trans hright.symm)
  omega

/-- A node that is opened, with one subtree. -/
theorem streams_single {h pos : Nat} {bits : List Bool} {hashes : List Uint256}
    (hb : (below (h + 1) pos l).any Prod.snd = true)
    (hone : ¬ pos * 2 + 1 < calcTreeWidth l.length h)
    (hleft : Streams hash l h (pos * 2) bits hashes) :
    Streams hash l (h + 1) pos (true :: bits) hashes := by
  have hbelow : below (h + 1) pos l = below h (pos * 2) l := by
    rw [below_succ, below_eq_nil (not_lt.mp hone), List.append_nil]
  refine ⟨?_, ?_, ?_, ?_, ?_⟩
  · intro s
    rw [traverseAndBuild, parentOfMatch_below, hb, Option.bind_some, if_pos rfl, hleft.build,
      Option.bind_some, List.length_map, if_neg hone, List.append_assoc, List.singleton_append]
  · have := hleft.bits_lt
    rw [List.length_cons, Nat.pow_succ]
    omega
  · exact hleft.hashes_le_bits.trans (Nat.le_succ _)
  · rw [hbelow]
    exact hleft.hashes_le
  · intro tree st hn hbits hhashes
    obtain ⟨rest, hrest⟩ := hbits
    have hbit : tree.vBits[st.nBitsUsed]? = some true := by
      rw [← List.head?_drop, ← hrest, List.cons_append, List.head?_cons]
    have hdrop : tree.vBits.drop (st.nBitsUsed + 1) = bits ++ rest := by
      rw [← List.drop_drop, ← hrest, List.cons_append, List.drop_succ_cons, List.drop_zero]
    obtain ⟨x, hashed, hx, hrun⟩ := hleft.extract tree { st with nBitsUsed := st.nBitsUsed + 1 } hn
      ⟨rest, hdrop.symm⟩ hhashes
    have hnone : (levelAt (hashPair hash) h (l.map Prod.fst))[2 * pos + 1]? = none := by
      rw [List.getElem?_eq_none_iff, ← calcTreeWidth_eq, List.length_map, Nat.mul_comm 2 pos]
      exact not_lt.mp hone
    refine ⟨hashPair hash x x, hashed ++ [(x, x)], ?_, ?_⟩
    · rw [getElem?_levelAt_succ, hnone, Nat.mul_comm 2 pos, hx]
      rfl
    · rw [traverseAndExtract, hbit]
      simp only [hrun, hn, if_neg hone, combine, hbelow, List.length_cons]
      congr 2
      omega

/-- A node that is opened, with both subtrees. -/
theorem streams_both {h pos : Nat} {bits bits' : List Bool} {hashes hashes' : List Uint256}
    (hnodup : (levelAt (hashPair hash) h (l.map Prod.fst)).Nodup)
    (hb : (below (h + 1) pos l).any Prod.snd = true)
    (htwo : pos * 2 + 1 < calcTreeWidth l.length h)
    (hleft : Streams hash l h (pos * 2) bits hashes)
    (hright : Streams hash l h (pos * 2 + 1) bits' hashes') :
    Streams hash l (h + 1) pos (true :: bits ++ bits') (hashes ++ hashes') := by
  have hbelow : below (h + 1) pos l = below h (pos * 2) l ++ below h (pos * 2 + 1) l :=
    below_succ h pos l
  refine ⟨?_, ?_, ?_, ?_, ?_⟩
  · intro s
    rw [traverseAndBuild, parentOfMatch_below, hb, Option.bind_some, if_pos rfl, hleft.build,
      Option.bind_some, List.length_map, if_pos htwo, hright.build]
    simp
  · have hl := hleft.bits_lt
    have hr := hright.bits_lt
    rw [List.cons_append, List.length_cons, List.length_append, Nat.pow_succ]
    omega
  · have hl := hleft.hashes_le_bits
    have hr := hright.hashes_le_bits
    rw [List.cons_append, List.length_cons, List.length_append, List.length_append]
    omega
  · have hl := hleft.hashes_le
    have hr := hright.hashes_le
    rw [hbelow, List.length_append, List.length_append]
    omega
  · intro tree st hn hbits hhashes
    obtain ⟨rest, hrest⟩ := hbits
    obtain ⟨others, hothers⟩ := hhashes
    have hbit : tree.vBits[st.nBitsUsed]? = some true := by
      rw [← List.head?_drop, ← hrest]
      rfl
    have hdrop : tree.vBits.drop (st.nBitsUsed + 1) = bits ++ (bits' ++ rest) := by
      rw [← List.drop_drop, ← hrest, List.cons_append, List.cons_append, List.drop_succ_cons,
        List.drop_zero, List.append_assoc]
    have hdrop' : tree.vBits.drop (st.nBitsUsed + 1 + bits.length) = bits' ++ rest := by
      rw [← List.drop_drop, hdrop, List.drop_left]
    rw [List.append_assoc] at hothers
    have hhash' : tree.vHash.drop (st.nHashUsed + hashes.length) = hashes' ++ others := by
      rw [← List.drop_drop, ← hothers, List.drop_left]
    obtain ⟨x, hashed, hx, hrun⟩ := hleft.extract tree { st with nBitsUsed := st.nBitsUsed + 1 } hn
      ⟨_, hdrop.symm⟩ ⟨_, hothers⟩
    obtain ⟨y, hashed', hy, hrun'⟩ := hright.extract tree
      { nBitsUsed := st.nBitsUsed + 1 + bits.length
        nHashUsed := st.nHashUsed + hashes.length
        vMatch := st.vMatch ++ matchedOf (below h (pos * 2) l)
        fBad := st.fBad
        hashed := hashed } hn ⟨_, hdrop'.symm⟩ ⟨_, hhash'.symm⟩
    have hne : (y == x) = false := beq_eq_false_iff_ne.mpr (levelAt_ne hnodup hx hy)
    refine ⟨hashPair hash x y, hashed' ++ [(x, y)], ?_, ?_⟩
    · rw [getElem?_levelAt_succ, Nat.mul_comm 2 pos, hx, hy]
      rfl
    · rw [traverseAndExtract, hbit]
      simp only [hrun, hn, if_pos htwo, hrun', combine, hne, Bool.or_false, hbelow,
        matchedOf_append, List.append_assoc, List.length_append, List.length_cons,
        List.cons_append]
      congr 2 <;> omega

/-- **Both directions**: a tree builds its streams, and they are read back. -/
theorem exists_streams {h pos : Nat}
    (hnodup : ∀ k < h, (levelAt (hashPair hash) k (l.map Prod.fst)).Nodup)
    (hpos : pos < calcTreeWidth l.length h) :
    ∃ bits hashes, Streams hash l h pos bits hashes := by
  induction h generalizing pos with
  | zero => exact streams_stored hpos rfl (Or.inl rfl)
  | succ h ih =>
    have hbelow : ∀ k < h, (levelAt (hashPair hash) k (l.map Prod.fst)).Nodup :=
      fun k hk => hnodup k (Nat.lt_succ_of_lt hk)
    cases hb : (below (h + 1) pos l).any Prod.snd with
    | false => exact streams_stored hpos hb (Or.inr rfl)
    | true =>
      obtain ⟨bits, hashes, hleft⟩ := ih hbelow (pos_of_succ hpos)
      rcases Nat.lt_or_ge (pos * 2 + 1) (calcTreeWidth l.length h) with htwo | hone
      · obtain ⟨bits', hashes', hright⟩ := ih hbelow htwo
        exact ⟨_, _, streams_both (hnodup h (Nat.lt_succ_self h)) hb htwo hleft hright⟩
      · exact ⟨_, _, streams_single hb (not_lt.mpr hone) hleft⟩

theorem map_getD_range (bits : List Bool) {n : Nat} (hn : bits.length ≤ n) :
    (List.range n).map (fun i => bits.getD i false) =
      bits ++ List.replicate (n - bits.length) false := by
  apply List.ext_getElem?
  intro i
  rw [List.getElem?_map, List.getElem?_append, List.getElem?_replicate]
  rcases Nat.lt_or_ge i n with hi | hi
  · rw [List.getElem?_range hi, Option.map_some, List.getD_eq_getElem?_getD]
    split_ifs with hlt
    · rw [List.getElem?_eq_getElem hlt, Option.getD_some]
    · rw [List.getElem?_eq_none (not_lt.mp hlt), Option.getD_none]
    · omega
  · rw [List.getElem?_eq_none (by rwa [List.length_range]), Option.map_none, if_neg (by omega),
      if_neg (by omega)]

/-- The bytes give back the bits, and some at the end that are not set. -/
theorem flatMap_packBytes (bits : List Bool) :
    (packBytes bits).flatMap unpackBits =
      bits ++ List.replicate ((bits.length + 7) / 8 * 8 - bits.length) false := by
  rw [packBytes, List.flatMap_map]
  simp only [unpackBits_packBits]
  rw [flatMap_range_blocks fun i => bits.getD i false, map_getD_range bits (by omega)]

/-- **Completeness**: a tree that is built from distinct ids comes over the network and shows the
root over the ids and the ids that are matched. -/
theorem extractMatches_unserialize (vTxid : List Uint256) (vMatch : List Bool)
    (hne : vTxid ≠ []) (hmax : vTxid.length ≤ maxBlockSize / 60)
    (hlen : vMatch.length = vTxid.length) (hnodup : vTxid.Nodup)
    (hinj : Set.InjOn (fun p => hashPair hash p.1 p.2) {p | Formed (hashPair hash) vTxid p}) :
    ∃ tree, CPartialMerkleTree.ofTxids hash vTxid vMatch = some tree ∧
      ∀ rest, ∃ tree',
        CPartialMerkleTree.unserialize (tree.serialize ++ rest) = .ok (tree', rest) ∧
        extractMatches hash tree' =
          ((merkleLevels hash vTxid.length vTxid).1, matchedOf (vTxid.zip vMatch)) := by
  have hfst : (vTxid.zip vMatch).map Prod.fst = vTxid := List.map_fst_zip hlen.ge
  have hsnd : (vTxid.zip vMatch).map Prod.snd = vMatch := List.map_snd_zip hlen.le
  have hlenzip : (vTxid.zip vMatch).length = vTxid.length := by
    rw [List.length_zip, hlen, Nat.min_self]
  have hbound : maxBlockSize / 60 = 16666 := by decide
  have hlenpos : 0 < vTxid.length := List.length_pos_of_ne_nil hne
  have hroot := (merkleLevels_spec hash vTxid hne).1
  have hnodups : ∀ k < height vTxid.length,
      (levelAt (hashPair hash) k ((vTxid.zip vMatch).map Prod.fst)).Nodup := by
    intro k hk
    rw [hfst]
    exact nodup_levelAt hinj hnodup hk.le
  have hpos : 0 < calcTreeWidth (vTxid.zip vMatch).length (height vTxid.length) := by
    rw [hlenzip, calcTreeWidth_eq (hashPair hash), hroot, List.length_singleton]
    exact Nat.one_pos
  obtain ⟨bits, hashes, hstreams⟩ := exists_streams hnodups hpos
  have hbuild := hstreams.build ([], [])
  rw [hfst, hsnd, List.nil_append, List.nil_append] at hbuild
  have hhashes : hashes.length ≤ vTxid.length := by
    have hle := hstreams.hashes_le
    rwa [← hlenzip, below_root, hlenzip] at hle
  have hbits : bits.length < 2 ^ 16 := by
    have hheight : ¬ 15 < height vTxid.length := by
      rw [lt_height_iff]
      omega
    exact hstreams.bits_lt.trans_le (Nat.pow_le_pow_right Nat.two_pos (by omega))
  refine ⟨{ nTransactions := UInt32.ofNat vTxid.length, vBits := bits, vHash := hashes,
            fBad := false }, ?_, ?_⟩
  · rw [CPartialMerkleTree.ofTxids, treeHeight_eq, hbuild, Option.map_some]
  intro rest
  -- what the other side has
  have hn : (UInt32.ofNat vTxid.length).toNat = vTxid.length := by
    rw [UInt32.toNat_ofNat']
    exact Nat.mod_eq_of_lt (by omega)
  have hpacked : (packBytes bits).length = (bits.length + 7) / 8 := by
    rw [packBytes, List.length_map, List.length_range]
  have hfits : CPartialMerkleTree.codec.Fits
      (UInt32.ofNat vTxid.length, hashes, packBytes bits) := by
    have hsize : maxSize = 33554432 := by decide
    simp only [CPartialMerkleTree.codec, Codec.fits_prod, Codec.fits_u32, fits_vectorCodec,
      fits_stringCodec, true_and, hpacked]
    exact ⟨⟨by omega, fun x _ => Blob.fits_codec x⟩, by omega⟩
  refine ⟨{ nTransactions := UInt32.ofNat vTxid.length
            vBits := (packBytes bits).flatMap unpackBits
            vHash := hashes
            fBad := false }, ?_, ?_⟩
  · rw [CPartialMerkleTree.unserialize, CPartialMerkleTree.serialize, Codec.de_ser hfits]
    rfl
  have hread := flatMap_packBytes bits
  have hpadded : ((packBytes bits).flatMap unpackBits).length = (bits.length + 7) / 8 * 8 := by
    rw [hread, List.length_append, List.length_replicate]
    omega
  obtain ⟨x, hashed, hx, hrun⟩ := hstreams.extract
    { nTransactions := UInt32.ofNat vTxid.length
      vBits := (packBytes bits).flatMap unpackBits
      vHash := hashes
      fBad := false } {} (by rw [hlenzip]; exact hn) ⟨_, hread.symm⟩ (List.prefix_refl _)
  rw [hfst, hroot] at hx
  obtain rfl : (merkleLevels hash vTxid.length vTxid).1 = x := Option.some.inj hx
  have hbelow : below (height vTxid.length) 0 (vTxid.zip vMatch) = vTxid.zip vMatch := by
    rw [← hlenzip, below_root]
  have hle := hstreams.hashes_le_bits
  rw [extractMatches, extractRun]
  simp only [hn, treeHeight_eq, hpadded, hrun, hbelow, List.nil_append, Nat.zero_add]
  rw [if_neg (by omega), if_neg]
  rintro (hbad | hbad | hbad)
  · cases hbad
  · omega
  · exact hbad rfl

/-- A hash that keeps a half of each of two hashes. -/
def halvesHash (bs : Bytes) : Uint256 := Blob.ofBytes (bs.take 16 ++ (bs.drop 32).take 16)

def exampleTxids : List Uint256 := [1, 2, 3].map fun n => Blob.ofBytes (leBytes 32 n)

/-- The pairs of that tree. -/
def exampleFormed : List (Uint256 × Uint256) :=
  pairUp exampleTxids ++ pairUp (level (hashPair halvesHash) exampleTxids)

theorem mem_exampleFormed {p : Uint256 × Uint256}
    (hp : Formed (hashPair halvesHash) exampleTxids p) : p ∈ exampleFormed := by
  obtain ⟨h, hlt, hp⟩ := hp
  rw [lt_height_iff] at hlt
  have hsmall : h < 2 := by
    by_contra hle
    have := Nat.pow_le_pow_right Nat.two_pos (not_lt.mp hle)
    exact absurd (hlt.trans_le' this) (by decide)
  obtain rfl | rfl : h = 0 ∨ h = 1 := by omega
  · exact List.mem_append_left _ hp
  · exact List.mem_append_right _ hp

theorem extractMatches_exampleTxids :
    ∃ tree, CPartialMerkleTree.ofTxids halvesHash exampleTxids [false, false, true] = some tree ∧
      ∀ rest, ∃ tree',
        CPartialMerkleTree.unserialize (tree.serialize ++ rest) = .ok (tree', rest) ∧
        extractMatches halvesHash tree' = ((merkleLevels halvesHash 3 exampleTxids).1,
          matchedOf (exampleTxids.zip [false, false, true])) := by
  refine extractMatches_unserialize exampleTxids [false, false, true] (by decide) (by decide) rfl
    (by decide) ?_
  have hall : ∀ p ∈ exampleFormed, ∀ q ∈ exampleFormed,
      hashPair halvesHash p.1 p.2 = hashPair halvesHash q.1 q.2 → p = q := by decide +kernel
  exact fun p hp q hq => hall p (mem_exampleFormed hp) q (mem_exampleFormed hq)

end Honest

/-! ## What any tree can show -/

section Forged

variable {hash : Bytes → Uint256} {tree : CPartialMerkleTree}

/-- What a traversal never takes back. -/
structure Keeps (st st' : ExtractState) : Prop where
  hashed : st.hashed ⊆ st'.hashed
  fBad : st'.fBad = false → st.fBad = false

theorem Keeps.trans {st₁ st₂ st₃ : ExtractState} (h : Keeps st₁ st₂) (h' : Keeps st₂ st₃) :
    Keeps st₁ st₃ := ⟨fun _ hp => h'.hashed (h.hashed hp), fun hb => h.fBad (h'.fBad hb)⟩

theorem takeHash_keeps (fMatched : Bool) (st : ExtractState) :
    Keeps st (takeHash tree fMatched st).2 := by
  rw [takeHash]
  split
  · exact ⟨List.Subset.refl _, fun hb => absurd hb.symm Bool.false_ne_true⟩
  · exact ⟨List.Subset.refl _, id⟩

theorem traverseAndExtract_keeps (h pos : Nat) (st : ExtractState) :
    Keeps st (traverseAndExtract hash tree h pos st).2 := by
  have hfailed : Keeps st st.failed.2 :=
    ⟨List.Subset.refl _, fun hb => absurd hb.symm Bool.false_ne_true⟩
  have hused : Keeps st { st with nBitsUsed := st.nBitsUsed + 1 } := ⟨List.Subset.refl _, id⟩
  induction h generalizing pos st with
  | zero =>
    rw [traverseAndExtract]
    split
    · exact hfailed
    · exact hused.trans (takeHash_keeps _ _)
  | succ h ih =>
    have hchild : ∀ pos st, Keeps st (traverseAndExtract hash tree h pos st).2 := fun pos st =>
      ih pos st ⟨List.Subset.refl _, fun hb => absurd hb.symm Bool.false_ne_true⟩
        ⟨List.Subset.refl _, id⟩
    rw [traverseAndExtract]
    split
    · exact hfailed
    · exact hused.trans (takeHash_keeps _ _)
    · have hleft := hused.trans (hchild (pos * 2) _)
      dsimp only
      split_ifs
      · have hright := hleft.trans (hchild (pos * 2 + 1) _)
        refine hright.trans ⟨List.subset_append_left _ _, fun hb => ?_⟩
        exact (Bool.or_eq_false_iff.mp hb).1
      · exact hleft.trans ⟨List.subset_append_left _ _, id⟩

theorem takeHash_vMatch {fMatched : Bool} {st : ExtractState}
    (hbad : (takeHash tree fMatched st).2.fBad = false) :
    (takeHash tree fMatched st).2.vMatch =
      st.vMatch ++ if fMatched then [(takeHash tree fMatched st).1] else [] := by
  rw [takeHash] at hbad ⊢
  split at hbad
  · exact absurd hbad.symm Bool.false_ne_true
  · cases fMatched with
    | false => exact (List.append_nil _).symm
    | true => rfl

/-- The two hashes under a node, from the hash of the node. -/
theorem node_of_combined {S : Set (Uint256 × Uint256)}
    (hinj : S.InjOn fun p => hashPair hash p.1 p.2) {xs : List Uint256} {h pos : Nat}
    {left right : Uint256} (hS : ∀ p ∈ pairUp (levelAt (hashPair hash) h xs), p ∈ S)
    (hpair : (left, right) ∈ S)
    (hx : (levelAt (hashPair hash) (h + 1) xs)[pos]? = some (hashPair hash left right)) :
    (levelAt (hashPair hash) h xs)[pos * 2]? = some left ∧
      (levelAt (hashPair hash) h xs)[pos * 2 + 1]?.getD left = right := by
  rw [levelAt, level, List.getElem?_map, Option.map_eq_some_iff] at hx
  obtain ⟨p, hp, heq⟩ := hx
  obtain rfl : p = (left, right) := hinj (hS p (List.mem_of_getElem? hp)) hpair heq
  rw [getElem?_pairUp, Option.map_eq_some_iff, Nat.mul_comm 2 pos] at hp
  obtain ⟨a, ha, hap⟩ := hp
  obtain ⟨rfl, hright⟩ := Prod.mk.inj hap
  exact ⟨ha, hright⟩

/-- **A subtree with the right hash** shows only what is below its node. -/
theorem traverseAndExtract_sound {S : Set (Uint256 × Uint256)}
    (hinj : S.InjOn fun p => hashPair hash p.1 p.2) {xs : List Uint256}
    (hn : tree.nTransactions.toNat = xs.length) {h : Nat}
    (hS : ∀ k < h, ∀ p ∈ pairUp (levelAt (hashPair hash) k xs), p ∈ S) {pos : Nat}
    {st : ExtractState} (hbad : (traverseAndExtract hash tree h pos st).2.fBad = false)
    (hhashed : ∀ p ∈ (traverseAndExtract hash tree h pos st).2.hashed, p ∈ S)
    (hx : (levelAt (hashPair hash) h xs)[pos]? = some (traverseAndExtract hash tree h pos st).1) :
    ∃ shown, shown.Sublist (below h pos xs) ∧
      (traverseAndExtract hash tree h pos st).2.vMatch = st.vMatch ++ shown := by
  induction h generalizing pos st with
  | zero =>
    cases hbit : tree.vBits[st.nBitsUsed]? with
    | none =>
      rw [traverseAndExtract, hbit] at hbad
      exact absurd hbad.symm Bool.false_ne_true
    | some fParentOfMatch =>
      rw [traverseAndExtract, hbit] at hbad hx ⊢
      refine ⟨_, ?_, takeHash_vMatch hbad⟩
      have hbelow : below 0 pos xs = [(takeHash tree fParentOfMatch
          { st with nBitsUsed := st.nBitsUsed + 1 }).1] := by
        obtain ⟨hlt, hget⟩ := List.getElem?_eq_some_iff.mp hx
        rw [← hget, below, pow_zero, Nat.mul_one]
        rw [levelAt] at hlt
        rw [List.drop_eq_getElem_cons hlt]
        rfl
      rw [hbelow]
      cases fParentOfMatch with
      | false => exact List.nil_sublist _
      | true => exact List.Sublist.refl _
  | succ h ih =>
    have hSbelow : ∀ k < h, ∀ p ∈ pairUp (levelAt (hashPair hash) k xs), p ∈ S :=
      fun k hk => hS k (Nat.lt_succ_of_lt hk)
    cases hbit : tree.vBits[st.nBitsUsed]? with
    | none =>
      rw [traverseAndExtract, hbit] at hbad
      exact absurd hbad.symm Bool.false_ne_true
    | some fParentOfMatch =>
      rw [traverseAndExtract, hbit] at hbad hhashed hx ⊢
      cases fParentOfMatch with
      | false => exact ⟨[], List.nil_sublist _, takeHash_vMatch hbad⟩
      | true =>
        rw [hn] at hbad hhashed hx ⊢
        dsimp only at hbad hhashed hx ⊢
        split_ifs at hbad hhashed hx ⊢ with htwo
        · -- both hashes are those of the tree
          have hkeeps : Keeps
              (traverseAndExtract hash tree h (pos * 2) { st with nBitsUsed := st.nBitsUsed + 1 }).2
              (traverseAndExtract hash tree h (pos * 2 + 1)
                (traverseAndExtract hash tree h (pos * 2)
                  { st with nBitsUsed := st.nBitsUsed + 1 }).2).2 :=
            traverseAndExtract_keeps h (pos * 2 + 1) _
          obtain ⟨hbadr, -⟩ := Bool.or_eq_false_iff.mp hbad
          obtain ⟨hleft, hright⟩ := node_of_combined hinj (hS h (Nat.lt_succ_self h))
            (hhashed _ (List.mem_append_right _ List.mem_cons_self)) hx
          have hlt : pos * 2 + 1 < (levelAt (hashPair hash) h xs).length := by
            rwa [← calcTreeWidth_eq]
          rw [List.getElem?_eq_getElem hlt, Option.getD_some] at hright
          obtain ⟨shown, hsub, hvl⟩ := ih hSbelow (hkeeps.fBad hbadr)
            (fun p hp => hhashed p (List.mem_append_left _ (hkeeps.hashed hp))) hleft
          obtain ⟨shown', hsub', hvr⟩ := ih hSbelow hbadr
            (fun p hp => hhashed p (List.mem_append_left _ hp))
            (by rw [List.getElem?_eq_getElem hlt, hright])
          refine ⟨shown ++ shown', ?_, ?_⟩
          · rw [below_succ]
            exact hsub.append hsub'
          · rw [combine]
            dsimp only
            rw [hvr, hvl, List.append_assoc]
        · obtain ⟨hleft, -⟩ := node_of_combined hinj (hS h (Nat.lt_succ_self h))
            (hhashed _ (List.mem_append_right _ List.mem_cons_self)) hx
          obtain ⟨shown, hsub, hvl⟩ := ih hSbelow hbad
            (fun p hp => hhashed p (List.mem_append_left _ hp)) hleft
          refine ⟨shown, ?_, hvl⟩
          rw [below_succ]
          exact hsub.trans (List.sublist_append_left _ _)

/-- **Soundness**: a tree that leads to the root of a block, and not to the hash that stands for
a failure, shows transactions of the block, in their order. -/
theorem extractMatches_sublist (hash : Bytes → Uint256) (block : CBlock) (tree : CPartialMerkleTree)
    (hn : tree.nTransactions.toNat = block.vtx.length)
    (hinj : Set.InjOn (fun p => hashPair hash p.1 p.2)
      ({p | Formed (hashPair hash) (block.vtx.map (CTransaction.getHash hash)) p} ∪
        {p | p ∈ (extractRun hash tree).2.hashed}))
    (hroot : (extractMatches hash tree).1 = (block.buildMerkleTree hash).1)
    (hnull : (block.buildMerkleTree hash).1 ≠ Blob.null) :
    (extractMatches hash tree).2.Sublist (block.vtx.map (CTransaction.getHash hash)) := by
  rw [← hroot] at hnull
  rw [extractMatches] at hroot hnull ⊢
  dsimp only at hroot hnull ⊢
  split_ifs at hroot hnull ⊢ with hsize hbad
  · exact absurd rfl hnull
  · exact absurd rfl hnull
  · have hne : block.vtx.map (CTransaction.getHash hash) ≠ [] := by
      intro hnil
      have hlen := congrArg List.length hnil
      rw [List.length_map, List.length_nil, ← hn] at hlen
      exact hsize (Or.inl hlen)
    have hnids : tree.nTransactions.toNat =
        (block.vtx.map (CTransaction.getHash hash)).length := by rw [hn, List.length_map]
    have htop := (merkleLevels_spec hash _ hne).1
    have hbadRun : (extractRun hash tree).2.fBad = false :=
      Bool.eq_false_iff.mpr fun hb => hbad (Or.inl hb)
    rw [extractRun, treeHeight_eq, hnids] at hinj hbadRun hroot ⊢
    obtain ⟨shown, hsub, hv⟩ := traverseAndExtract_sound hinj hnids
      (fun k hk p hp => Or.inl ⟨k, hk, hp⟩) hbadRun (fun p hp => Or.inr hp) (by
        rw [htop, hroot, CBlock.buildMerkleTree, List.length_map]
        rfl)
    rw [hv, List.nil_append]
    rwa [below_root] at hsub

/-- A block with two transactions, and a tree that shows the second. -/
def shownBlock : CBlock where
  vtx := [1, 2].map fun n =>
    { nVersion := n, vout := [⟨0, List.replicate 40 0x51⟩], nLockTime := 0 }

def shownTree : CPartialMerkleTree where
  nTransactions := 2
  vBits := [true, false, true]
  vHash := shownBlock.vtx.map (CTransaction.getHash halvesHash)
  fBad := false

theorem extractMatches_shownTree :
    (extractMatches halvesHash shownTree).2.Sublist
      (shownBlock.vtx.map (CTransaction.getHash halvesHash)) := by
  refine extractMatches_sublist halvesHash shownBlock shownTree rfl ?_ (by decide +kernel)
    (by decide +kernel)
  have hall : ∀ p ∈ pairUp (shownBlock.vtx.map (CTransaction.getHash halvesHash)) ++
      (extractRun halvesHash shownTree).2.hashed,
      ∀ q ∈ pairUp (shownBlock.vtx.map (CTransaction.getHash halvesHash)) ++
        (extractRun halvesHash shownTree).2.hashed,
      hashPair halvesHash p.1 p.2 = hashPair halvesHash q.1 q.2 → p = q := by decide +kernel
  have hmem : ∀ p, p ∈ ({p | Formed (hashPair halvesHash)
        (shownBlock.vtx.map (CTransaction.getHash halvesHash)) p} ∪
          {p | p ∈ (extractRun halvesHash shownTree).2.hashed} : Set (Uint256 × Uint256)) →
      p ∈ pairUp (shownBlock.vtx.map (CTransaction.getHash halvesHash)) ++
        (extractRun halvesHash shownTree).2.hashed := by
    rintro p (⟨h, hlt, hp⟩ | hp)
    · rw [lt_height_iff] at hlt
      obtain rfl : h = 0 := by
        by_contra hne
        have := Nat.pow_le_pow_right Nat.two_pos (Nat.pos_of_ne_zero hne)
        exact absurd (hlt.trans_le' this) (by decide)
      exact List.mem_append_left _ hp
    · exact List.mem_append_right _ hp
  exact fun p hp q hq => hall p (hmem p hp) q (hmem q hq)

/-- A block whose root is the hash that stands for a failure, and a tree that fails after it has
shown something else. -/
def nullBlock : CBlock where
  vtx := [{ vin := [], vout := [], nLockTime := 0 }]

def forgedTree : CPartialMerkleTree where
  nTransactions := 1
  vBits := List.replicate 9 true
  vHash := [Blob.ofBytes (leBytes 32 1)]
  fBad := false

theorem extractMatches_forgedTree :
    Set.InjOn (fun p => hashPair halvesHash p.1 p.2)
      ({p | Formed (hashPair halvesHash) (nullBlock.vtx.map (CTransaction.getHash halvesHash)) p} ∪
        {p | p ∈ (extractRun halvesHash forgedTree).2.hashed}) ∧
    forgedTree.nTransactions.toNat = nullBlock.vtx.length ∧
    (extractMatches halvesHash forgedTree).1 = (nullBlock.buildMerkleTree halvesHash).1 ∧
    ¬ (extractMatches halvesHash forgedTree).2.Sublist
      (nullBlock.vtx.map (CTransaction.getHash halvesHash)) := by
  refine ⟨?_, rfl, by decide +kernel, by decide +kernel⟩
  -- nothing is hashed
  rintro p (⟨h, hlt, -⟩ | hp)
  · rw [lt_height_iff] at hlt
    simp [nullBlock] at hlt
  · have hnil : (extractRun halvesHash forgedTree).2.hashed = [] := by decide +kernel
    exact absurd (hnil ▸ hp) List.not_mem_nil

end Forged

end Hivemind
