import Hivemind.Primitives.MerkleTree
import Hivemind.Validation.Accept
import Hivemind.Validation.BlocksSpec

/-!
# The merkle root commits to the transactions

An odd level repeats its last hash, so that lists of different lengths can have one root. Such a
list ends a level in two equal hashes, which `BuildMerkleTree` reports and `CheckBlock` does not
accept.

The hash is assumed to tell apart the pairs that are formed in the two trees that are compared,
and no others, and no id is to be the hash of a pair in them; both are what a collision would be
needed for.  With that, two lists with one root and no report are the same, by going down the
levels of the library's tree; and blocks that pass `CheckBlock` under one header have the same
transactions.

* `NoCollision`, `LeavesApart`: what is assumed of the hash.
* `eq_of_merkleRoot`: without the report the root determines the list.
* `checkBlock_merkle`: what `CheckBlock` makes of root and report.
* `merkleRoot_determines`: **both together.**
-/

namespace Hivemind

open Codecs MerkleTrees Outcomes

variable {hash : Bytes → Uint256} {xs ys : List Uint256}

/-- The pairs that are hashed for either list have different hashes. -/
def NoCollision (hash : Bytes → Uint256) (xs ys : List Uint256) : Prop :=
  Set.InjOn (fun p : Uint256 × Uint256 => hashPair hash p.1 p.2)
    {p | Formed (hashPair hash) xs p ∨ Formed (hashPair hash) ys p}

/-- No id of either list is the hash of an inner node. -/
def LeavesApart (hash : Bytes → Uint256) (xs ys : List Uint256) : Prop :=
  (∀ a ∈ xs, ¬ Inner (hashPair hash) ys a) ∧ ∀ a ∈ ys, ¬ Inner (hashPair hash) xs a

/-- **Without the report the root determines the list.** -/
theorem eq_of_merkleRoot (hxs : xs ≠ []) (hys : ys ≠ []) (hinj : NoCollision hash xs ys)
    (hleaf : LeavesApart hash xs ys)
    (hroot : (merkleLevels hash xs.length xs).1 = (merkleLevels hash ys.length ys).1)
    (hx : (merkleLevels hash xs.length xs).2 = false)
    (hy : (merkleLevels hash ys.length ys).2 = false) : xs = ys := by
  obtain ⟨hrx, htx⟩ := merkleLevels_spec hash xs hxs
  obtain ⟨hry, hty⟩ := merkleLevels_spec hash ys hys
  rw [hx, Bool.false_eq_true, false_iff] at htx
  rw [hy, Bool.false_eq_true, false_iff] at hty
  rw [← hroot] at hry
  exact eq_of_root_eq hinj (fun p hp => Or.inl hp) (fun p hp => Or.inr hp) hleaf.1 hleaf.2
    (fun k hk htwins => htx ⟨k, hk, htwins⟩) (fun k hk htwins => hty ⟨k, hk, htwins⟩) hrx hry

/-- A block that passes `CheckBlock` has the root of its transactions in the header, and no
level of the tree ends in two equal hashes. -/
theorem checkBlock_merkle {ctx : Context} {block : CBlock} {fCheckPOW : Bool}
    (h : checkBlock ctx block fCheckPOW true = .ok ()) :
    block.hashMerkleRoot = (block.buildMerkleTree ctx.hash).1 ∧
      (block.buildMerkleTree ctx.hash).2 = false := by
  simp only [checkBlock, bind_eq_ok] at h
  obtain ⟨⟨⟩, -, h⟩ := h
  split_ifs at h with hroot hmutated
  exact ⟨by simpa using hroot, by simpa using hmutated⟩

/-- **The merkle root commits to the transactions.**  Two lists for which `BuildMerkleTree`
returns one root and reports nothing are the same; so blocks with one merkle root that pass
`CheckBlock` have the same ids, and, ids being different for different transactions, the same
transactions. -/
theorem merkleRoot_determines (ctx : Context) (xs ys : List Uint256) (hxs : xs ≠ [])
    (hys : ys ≠ []) (hinj : NoCollision ctx.hash xs ys) (hleaf : LeavesApart ctx.hash xs ys) :
    (∀ tree tree', buildLoop ctx.hash 0 xs.length xs false = some (tree, false) →
      buildLoop ctx.hash 0 ys.length ys false = some (tree', false) →
      merkleRootOf tree = merkleRootOf tree' → xs = ys) ∧
    ∀ block block' : CBlock, block.vtx.map (CTransaction.getHash ctx.hash) = xs →
      block'.vtx.map (CTransaction.getHash ctx.hash) = ys →
      ∀ fCheckPOW fCheckPOW', checkBlock ctx block fCheckPOW true = .ok () →
      checkBlock ctx block' fCheckPOW' true = .ok () →
      block.hashMerkleRoot = block'.hashMerkleRoot → xs = ys ∧
        ((∀ tx ∈ block.vtx, ∀ tx' ∈ block'.vtx,
          tx.getHash ctx.hash = tx'.getHash ctx.hash → tx = tx') → block.vtx = block'.vtx) := by
  constructor
  · intro tree tree' hx hy hroot
    have hbx := buildLoop_eq ctx.hash xs [] false
    have hby := buildLoop_eq ctx.hash ys [] false
    simp only [List.length_nil, List.nil_append, Bool.false_or] at hbx hby
    obtain ⟨rfl, hfx⟩ := Prod.mk.inj (Option.some.inj (hx.symm.trans hbx))
    obtain ⟨rfl, hfy⟩ := Prod.mk.inj (Option.some.inj (hy.symm.trans hby))
    rw [merkleRootOf_flatLevels, merkleRootOf_flatLevels] at hroot
    exact eq_of_merkleRoot hxs hys hinj hleaf hroot hfx.symm hfy.symm
  · rintro block block' rfl rfl fCheckPOW fCheckPOW' hcheck hcheck' hheader
    obtain ⟨hroot, hflag⟩ := checkBlock_merkle hcheck
    obtain ⟨hroot', hflag'⟩ := checkBlock_merkle hcheck'
    have hsame := hroot.symm.trans (hheader.trans hroot')
    rw [CBlock.buildMerkleTree] at hsame hflag
    rw [CBlock.buildMerkleTree] at hsame hflag'
    have hids := eq_of_merkleRoot hxs hys hinj hleaf (by simpa using hsame) (by simpa using hflag)
      (by simpa using hflag')
    refine ⟨hids, fun hinjTx => ?_⟩
    -- equal ids, position by position
    refine List.ext_getElem (by simpa using congrArg List.length hids) fun i h₁ h₂ => ?_
    refine hinjTx _ (List.getElem_mem h₁) _ (List.getElem_mem h₂) ?_
    have hget := congrArg (fun l => l[i]?) hids
    simpa [h₁, h₂] using hget

/-! ## Two orders of two ids -/

theorem formed_pair {α : Type} {pair : α → α → α} {a b : α} {p : α × α}
    (h : Formed pair [a, b] p) : p = (a, b) := by
  obtain ⟨k, hk, hp⟩ := h
  have hone : height [a, b].length = 1 := by
    rw [height_level pair (by simp), height_of_le_one (by simp)]
  obtain rfl : k = 0 := by omega
  simpa [levelAt, pairUp] using hp

def exampleIds : List Uint256 := [exampleHash [1], exampleHash [2]]

/-- The root shows the order of the ids. -/
theorem merkleRoot_determines_example :
    merkleRootOf (flatLevels (hashPair exampleHash) exampleIds) ≠
      merkleRootOf (flatLevels (hashPair exampleHash) exampleIds.reverse) := by
  intro hroot
  have hbuild := buildLoop_eq exampleHash exampleIds [] false
  have hbuild' := buildLoop_eq exampleHash exampleIds.reverse [] false
  have hinj : NoCollision exampleHash exampleIds exampleIds.reverse := by
    rintro p (hp | hp) q (hq | hq) heq
    · rw [formed_pair hp, formed_pair hq]
    · rw [formed_pair hp, formed_pair hq] at heq
      exact absurd heq (by decide +kernel)
    · rw [formed_pair hp, formed_pair hq] at heq
      exact absurd heq (by decide +kernel)
    · rw [formed_pair hp, formed_pair hq]
  have hleaf : LeavesApart exampleHash exampleIds exampleIds.reverse := by
    constructor
    · rintro a ha ⟨p, hp, heq⟩
      rw [formed_pair hp] at heq
      subst heq
      exact absurd ha (by decide +kernel)
    · rintro a ha ⟨p, hp, heq⟩
      rw [formed_pair hp] at heq
      subst heq
      exact absurd ha (by decide +kernel)
  exact absurd ((merkleRoot_determines (exampleContext exampleEnv) exampleIds exampleIds.reverse
    (by decide +kernel) (by decide +kernel) hinj hleaf).1 _ _ hbuild hbuild' hroot) (by decide +kernel)

end Hivemind
