import MatchingLogic.Semantics.Basic

namespace MatchingLogic

-- The axioms in order, the patterns that count as redexes, and those that may not be substituted because they
-- are not known to denote one element.
structure Table where
  axioms : List Axiom
  redexes : List Pattern := []
  nonFunctional : List Pattern := []

namespace Table

def rule (t : Table) (ordinal : UInt64) : Except Error Axiom :=
  match t.axioms[ordinal.toNat]? with
  | some a => .ok a
  | none => .error (.conversion (.ordinalOutOfRange ordinal t.axioms.length))

def functionalAxiom (t : Table) (p : Pattern) : Except Error Axiom :=
  if p ∈ t.nonFunctional then
    .error (.replay (.nonFunctionalSubstitution p.head.text p.text))
  else .ok ⟨.functional, p.functional, ∅⟩

def sideAxioms (t : Table) (s : Substitution) (events : List Event) :
    Except Error AxiomGroups := do
  return .organize ((← s.plugs.mapM t.functionalAxiom) ++ events.map (·.toAxiom))

instance : Semantics Table where
  rule ordinal t := (t.rule ordinal, t)
  sideAxioms s events t := (t.sideAxioms s events, t)
  redexes t p := p.nodes.countP (· ∈ t.redexes)
  notations _ := .builtin

end Table
end MatchingLogic
