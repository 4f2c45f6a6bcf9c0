import MatchingLogic.FirstOccurrence
import MatchingLogic.Notation.Builtin
import MatchingLogic.Pattern.Text

namespace MatchingLogic

inductive Derivation where
  -- Concludes `φ0 → (φ1 → φ0)`.
  | prop1
  -- Concludes `(φ0 → (φ1 → φ2)) → ((φ0 → φ1) → (φ0 → φ2))`.
  | prop2
  -- Concludes `¬¬φ0 → φ0`.
  | prop3
  | assumed (p : Pattern)
  -- From `a` on the left and `a → b` on the right to `b`.
  | modusPonens (left right : Derivation)
  | instantiate (inner : Derivation) (plugs : Substitution)
  deriving DecidableEq

namespace Derivation

def conclusion : Derivation → Pattern
  | prop1 => .imp (.metavar 0) (.imp (.metavar 1) (.metavar 0))
  | prop2 =>
    .imp (.imp (.metavar 0) (.imp (.metavar 1) (.metavar 2)))
      (.imp (.imp (.metavar 0) (.metavar 1)) (.imp (.metavar 0) (.metavar 2)))
  | prop3 => .imp (.neg (.neg (.metavar 0))) (.metavar 0)
  | assumed p => p
  | modusPonens _ right =>
    match right.conclusion with
    | .imp _ c => c
    | p => p
  | instantiate inner plugs => inner.conclusion.instantiate plugs

def Valid : Derivation → Prop
  | modusPonens left right =>
    left.Valid ∧ right.Valid ∧ ∃ c, right.conclusion = .imp left.conclusion c
  | instantiate inner _ => inner.Valid
  | _ => True

def premises : Derivation → List Derivation
  | modusPonens left right => [left, right]
  | instantiate inner _ => [inner]
  | _ => []

-- The assumed patterns, each once per use, from left to right.
def leaves : Derivation → List Pattern
  | assumed p => [p]
  | modusPonens left right => left.leaves ++ right.leaves
  | instantiate inner _ => inner.leaves
  | _ => []

def assumptions (d : Derivation) : List Pattern :=
  d.leaves.foldl addNew []

end Derivation

structure Proof where
  derivation : Derivation
  valid : derivation.Valid
  deriving DecidableEq

namespace Proof

def conclusion (p : Proof) : Pattern :=
  p.derivation.conclusion

def assumptions (p : Proof) : List Pattern :=
  p.derivation.assumptions

def prop1 : Proof :=
  ⟨.prop1, trivial⟩

def prop2 : Proof :=
  ⟨.prop2, trivial⟩

def prop3 : Proof :=
  ⟨.prop3, trivial⟩

def assumed (p : Pattern) : Proof :=
  ⟨.assumed p, trivial⟩

def modusPonens (left right : Proof) : Except ProofError Proof :=
  match h : right.conclusion with
  | .imp a c =>
    if h' : a = left.conclusion then
      .ok ⟨.modusPonens left.derivation right.derivation,
        left.valid, right.valid, c, h.trans (congrArg (Pattern.imp · c) h')⟩
    else .error (.modusPonensMismatch a.text left.conclusion.text)
  | p => .error (.notAnImplication p.text)

-- Plugs the metavariables of the conclusion. Bindings of other metavariables are dropped, and if none is left
-- the proof stays as it is.
def instantiate (p : Proof) (s : Substitution) : Proof :=
  let plugs := s.restrict p.conclusion.metavars
  if plugs.isEmpty then p else ⟨.instantiate p.derivation plugs, p.valid⟩

end Proof
end MatchingLogic
