import MatchingLogic.Proof.Basic
import MatchingLogic.Proofs.FirstOccurrence
import MatchingLogic.Proofs.Pattern.Substitution

namespace MatchingLogic

namespace Derivation

variable {q : Pattern}

-- The plugs of all instantiations in a derivation.
def plugs : Derivation → List Pattern
  | modusPonens left right => left.plugs ++ right.plugs
  | instantiate inner s => s.plugs ++ inner.plugs
  | _ => []

theorem mem_assumptions {d : Derivation} : q ∈ d.assumptions ↔ q ∈ d.leaves := by
  simp [assumptions, mem_foldl_addNew]

end Derivation

namespace Proof

theorem derivation_instantiate (p : Proof) (s : Substitution) :
    (p.instantiate s).derivation = p.derivation ∧ (s.restrict p.conclusion.metavars).isEmpty ∨
    (p.instantiate s).derivation = .instantiate p.derivation (s.restrict p.conclusion.metavars) := by
  simp only [instantiate]
  split
  case isTrue h => exact .inl ⟨rfl, h⟩
  case isFalse => exact .inr rfl

-- The bindings that are dropped would not have changed anything.
theorem conclusion_instantiate (p : Proof) (s : Substitution) :
    (p.instantiate s).conclusion = p.conclusion.instantiate s := by
  rw [← Pattern.instantiate_restrict, conclusion]
  obtain ⟨h, he⟩ | h := p.derivation_instantiate s
  · rw [h, Substitution.isEmpty_iff.mp he, Pattern.instantiate_empty]
    rfl
  · rw [h]
    rfl

@[simp] theorem assumptions_instantiate (p : Proof) (s : Substitution) :
    (p.instantiate s).assumptions = p.assumptions := by
  obtain ⟨h, -⟩ | h := p.derivation_instantiate s
  all_goals
    rw [assumptions, h]
    rfl

end Proof
end MatchingLogic
