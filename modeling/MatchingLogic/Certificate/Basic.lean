import MatchingLogic.Certificate.Writer
import MatchingLogic.Digest.Basic

namespace MatchingLogic

-- The theory stream publishes the axioms in order, the claims stream the claims in reverse order, so that the
-- machine finds the first claim on top of its stack, and the proofs stream the proofs in order.
structure Certificate where
  theory : Bytes
  claims : Bytes
  proofs : Bytes
  deriving DecidableEq

namespace Certificate

def size (c : Certificate) : Nat :=
  c.theory.length + c.claims.length + c.proofs.length

def isEmpty (c : Certificate) : Bool :=
  c.size == 0

def contents (c : Certificate) : Bytes :=
  [c.theory, c.claims, c.proofs].flatMap fun stream =>
    Bytes.ofUInt64 (UInt64.ofNat stream.length) ++ stream

def digest (c : Certificate) : Digest :=
  .inDomain (Bytes.ofString "PROOF_ARTIFACT_V0") c.contents

-- Each proof, from `index` on, has to conclude the claim at its place.
def checkPairs (index : Nat) : List Pattern → List Proof → Except PackagingError Unit
  | [], [] => .ok ()
  | [], _ :: _ => .error (.unclaimedProof index)
  | claims, [] => .error (.missingProofs (index + claims.length) index)
  | claim :: claims, p :: proofs =>
    if p.conclusion = claim then checkPairs (index + 1) claims proofs
    else .error (.conclusionMismatch index claim.text p.conclusion.text)

def publish {α : Type} (write : α → Writer Code) (term : α) : Writer Code := do
  return (← write term) ++ [.publish]

def publishAll {α : Type} (write : α → Writer Code) (terms : List α) : Except Error Code := do
  return (← (terms.mapM (publish write)).run' ∅).flatten

-- Publishes `order`, a rearrangement of `ps`.
def patternCode (ns : Notations) (ps order : List Pattern) : Except Error Code := do
  let uses ← (ns.countUses ps ∅).mapError .conversion
  publishAll (fun p => (ns.unfolding p).write uses) order

def proofCode (t : Theory) (proofs : List Proof) : Except Error Code := do
  let derivations := proofs.map (·.derivation)
  let uses ← (t.notations.countProofUses derivations ∅).mapError .conversion
  publishAll (·.write t uses) derivations

def write (t : Theory) (claims : List Pattern) (proofs : List Proof) : Except Error Certificate := do
  (checkPairs 0 claims proofs).mapError .packaging
  let theory ← patternCode t.notations t.axioms t.axioms
  let claims ← patternCode t.notations claims claims.reverse
  let proofs ← proofCode t proofs
  return ⟨theory.encode, claims.encode, proofs.encode⟩

end Certificate
end MatchingLogic
