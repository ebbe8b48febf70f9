import Hivemind.Script.Standard

/-!
# Destinations

`CTxDestination`, and `ExtractDestination` of `script/standard.cpp`: the key or the script that
an output script pays to.  `hash160` is a parameter.

`ExtractDestination` asks `Solver` for the type of the script and its solutions, and makes a
destination of the first of them: of a public key by hashing it, if it is valid, of a key hash, a
script hash or the key of a market object as it is.  Scripts with several keys and scripts of no
known type have no destination.  It reads the first solution without a check, and
`Solution.first` is where that is made explicit.

* `CTxDestination`: nothing, a key or a script.
* `pubKeyIsValid`: whether a public key has the length that its first byte says.
* `extractDestination`: the destination, or `none` where the source returns `false`.
-/

namespace Hivemind

open Codecs

/-- The hash of a script. -/
abbrev CScriptID := Blob 20

/-- `CTxDestination`. -/
inductive CTxDestination where
  | noDestination
  | keyID (id : CKeyID)
  | scriptID (id : CScriptID)
  deriving DecidableEq

/-- The length of a public key with the given first byte. -/
def pubKeyLen (header : UInt8) : Nat :=
  if header = 2 ∨ header = 3 then 33
  else if header = 4 ∨ header = 6 ∨ header = 7 then 65
  else 0

/-- `CPubKey::IsValid` on a byte vector. -/
def pubKeyIsValid (vch : Bytes) : Bool :=
  match vch with
  | [] => false
  | header :: _ => pubKeyLen header != 0 && pubKeyLen header == vch.length

/-- The first solution, of which there is always one where it is read. -/
def Solution.first (s : Solution) : Bytes := s.vSolutions.head?.getD []

/-- `ExtractDestination`: the destination, or `none` where it returns `false`. -/
def extractDestination (hash160 : Bytes → Blob 20) (carrier : DataCarrier) (script : CScript) :
    Except ReadError (Option CTxDestination) :=
  (solver carrier script).map fun s =>
    if s.found = false then none
    else if s.typeRet = .pubkey then
      if pubKeyIsValid s.first then some (.keyID (hash160 s.first)) else none
    else if s.typeRet = .pubkeyhash then some (.keyID (Blob.ofBytes s.first))
    else if s.typeRet = .scripthash then some (.scriptID (Blob.ofBytes s.first))
    else none

end Hivemind
