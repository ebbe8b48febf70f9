import Hivemind.Script.Script

/-!
# Transactions

The data model of `primitives/transaction.h`: outpoints, inputs, outputs and transactions with
their wire format.  The double-SHA256 is a parameter `hash`, wherever an id is formed, so that
nothing here depends on which hash it is.

An outpoint names an output by the hash of its transaction and its index; the null outpoint, with
the null hash and the last index, is what the input of a coinbase spends.  An output that has
been spent is kept as the one that `SetNull` leaves.  The wire formats are codecs of the library,
in the order in which the macros of the source list the members.

* `COutPoint`, `CTxIn`, `CTxOut`, `CTransaction`: the records, with the defaults of their
  constructors.
* `CTransaction.codec`: the wire format; lists are counted by a size prefix.
* `CTransaction.getHash`: the id of a transaction, the hash of its wire format.
* `CTransaction.isCoinBase`: its only input spends nothing.
-/

namespace Hivemind

open Codecs

/-- An outpoint: a transaction hash and an index into its outputs. -/
structure COutPoint where
  hash : Uint256
  n : UInt32
  deriving DecidableEq

/-- An input: the output it spends and the script that unlocks it. -/
structure CTxIn where
  prevout : COutPoint
  scriptSig : CScript := []
  nSequence : UInt32 := 0xffffffff
  deriving DecidableEq

/-- An output: a value and the script that must be satisfied to spend it. -/
structure CTxOut where
  nValue : CAmount
  scriptPubKey : CScript
  deriving DecidableEq

/-- A transaction.  The defaults are those of `CTransaction()`. -/
structure CTransaction where
  nVersion : Int32 := 1
  vin : List CTxIn := []
  vout : List CTxOut := []
  nLockTime : UInt32 := 0
  deriving DecidableEq

/-! ## Outpoints and outputs -/

namespace COutPoint

/-- `SetNull`. -/
def null : COutPoint := ⟨Blob.null, 0xffffffff⟩

def isNull (o : COutPoint) : Bool := o.hash == Blob.null && o.n == 0xffffffff

def codec : Codec COutPoint :=
  Codec.iso (Blob.codec.prod Codec.u32) (fun p => ⟨p.1, p.2⟩) (fun o => (o.hash, o.n))
    (fun _ => rfl) (fun _ => rfl)

@[simp] theorem fits_codec (o : COutPoint) : codec.Fits o := by simp [codec]

end COutPoint

namespace CTxOut

/-- `SetNull`: a spent output has value `-1` and no script. -/
def null : CTxOut := ⟨-1, []⟩

def isNull (o : CTxOut) : Bool := o.nValue == -1

def codec : Codec CTxOut :=
  Codec.iso (Codec.i64.prod stringCodec) (fun p => ⟨p.1, p.2⟩) (fun o => (o.nValue, o.scriptPubKey))
    (fun _ => rfl) (fun _ => rfl)

@[simp] theorem isNull_null : null.isNull = true := rfl

end CTxOut

def CTxIn.codec : Codec CTxIn :=
  Codec.iso (COutPoint.codec.prod (stringCodec.prod Codec.u32)) (fun p => ⟨p.1, p.2.1, p.2.2⟩)
    (fun i => (i.prevout, i.scriptSig, i.nSequence)) (fun _ => rfl) (fun _ => rfl)

/-! ## Transactions -/

namespace CTransaction

/-- The wire format of a transaction. -/
def codec : Codec CTransaction :=
  Codec.iso
    (Codec.i32.prod ((vectorCodec CTxIn.codec).prod ((vectorCodec CTxOut.codec).prod Codec.u32)))
    (fun p => ⟨p.1, p.2.1, p.2.2.1, p.2.2.2⟩) (fun t => (t.nVersion, t.vin, t.vout, t.nLockTime))
    (fun _ => rfl) (fun _ => rfl)

/-- `CTransaction::GetHash`. -/
def getHash (hash : Bytes → Uint256) (tx : CTransaction) : Uint256 := hash (codec.ser tx)

def isNull (tx : CTransaction) : Bool := tx.vin.isEmpty && tx.vout.isEmpty

/-- `CTransaction::IsCoinBase`: the only input spends nothing. -/
def isCoinBase (tx : CTransaction) : Bool :=
  match tx.vin with
  | [i] => i.prevout.isNull
  | _ => false

end CTransaction
end Hivemind
