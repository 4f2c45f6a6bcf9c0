import MatchingLogic.Proof.Basic

namespace MatchingLogic.Proof

def reflexivity : Except ProofError Proof := do
  let φ : Pattern := .metavar 0
  let distributed := prop2.instantiate (.ofList [(1, .imp φ φ), (2, φ)])
  let step ← modusPonens (prop1.instantiate (.ofList [(1, .imp φ φ)])) distributed
  modusPonens (prop1.instantiate (.ofList [(1, φ)])) step

def sides (p : Proof) : Except ProofError (Pattern × Pattern) :=
  match p.conclusion.implication? with
  | some sides => .ok sides
  | none => .error (.notAnImplication p.conclusion.text)

-- From proofs of `a → b` and `b → c` a proof of `a → c`.
def transitivity (ab bc : Proof) : Except ProofError Proof := do
  let (a, b) ← ab.sides
  let (b', c) ← bc.sides
  if b ≠ b' then throw (.modusPonensMismatch b.text b'.text)
  let weakened := prop1.instantiate (.ofList [(0, .imp b c), (1, a)])
  let distributed := prop2.instantiate (.ofList [(0, a), (1, b), (2, c)])
  modusPonens ab (← modusPonens (← modusPonens bc weakened) distributed)

end MatchingLogic.Proof
