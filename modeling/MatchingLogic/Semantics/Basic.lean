import MatchingLogic.FirstOccurrence
import MatchingLogic.Notation.Builtin
import MatchingLogic.Pattern.Location
import MatchingLogic.Pattern.Text

namespace MatchingLogic

inductive AxiomKind where
  | unclassified
  | transition
  | equation
  | functional
  | functionEvent
  | hookEvent
  deriving DecidableEq

namespace AxiomKind

def text : AxiomKind → String
  | unclassified => "unclassified"
  | transition => "rewrite rule"
  | equation => "equational rule"
  | functional => "functional symbol"
  | functionEvent => "function event"
  | hookEvent => "hook event"

-- Groups of axioms stand in this order.
def rank : AxiomKind → Nat
  | unclassified => 0
  | transition => 1
  | equation => 2
  | functional => 3
  | functionEvent => 4
  | hookEvent => 5

end AxiomKind

structure Axiom where
  kind : AxiomKind
  pattern : Pattern
  -- For an equation, what its side condition binds variables to.
  requires : Substitution := ∅
  deriving DecidableEq

namespace Pattern

-- The two sides stand behind a sort.
def transition? : Pattern → Option (Pattern × Pattern)
  | sugar name [_, left, right] => if name = "kore-rewrites" then some (left, right) else none
  | _ => none

def equation? : Pattern → Option (Pattern × Pattern)
  | sugar name [_, left, right] => if name = "kore-equals" then some (left, right) else none
  | _ => none

def sides? (p : Pattern) : Option (Pattern × Pattern) :=
  p.transition?.or p.equation?

-- `∃x0. (x0 → p) ∧ (p → x0)`: the pattern denotes exactly one element.
def functional (p : Pattern) : Pattern :=
  ex 0 (and (imp (elementVar 0) p) (imp p (elementVar 0)))

-- What is asserted for a function or hook event: the trivially valid `x0 → x0`.
def eventAxiom : Pattern :=
  imp (elementVar 0) (elementVar 0)

end Pattern

def Axiom.sides? (a : Axiom) : Option (Pattern × Pattern) :=
  a.pattern.sides?

-- Axioms by kind, in the order of the kinds; a group is not empty and repeats nothing.
abbrev AxiomGroups := List (AxiomKind × List Axiom)

namespace AxiomGroups

def add (groups : AxiomGroups) (a : Axiom) : AxiomGroups :=
  match groups with
  | [] => [(a.kind, [a])]
  | (kind, group) :: rest =>
    if a.kind = kind then (kind, addNew group a) :: rest
    else if a.kind.rank < kind.rank then (a.kind, [a]) :: (kind, group) :: rest
    else (kind, group) :: add rest a

def organize (axioms : List Axiom) : AxiomGroups :=
  axioms.foldl add []

def patterns (groups : AxiomGroups) : List Pattern :=
  groups.flatMap fun (_, group) => group.map (·.pattern)

end AxiomGroups

inductive Event where
  | function (name : String) (position : Location)
  | hook (name : String) (args : List Pattern) (result : Pattern)
  deriving DecidableEq

def Event.toAxiom : Event → Axiom
  | function .. => ⟨.functionEvent, .eventAxiom, ∅⟩
  | hook .. => ⟨.hookEvent, .eventAxiom, ∅⟩

-- What a call answers, and the state that it leaves behind also when it fails.
abbrev Outcome (σ α : Type) := Except Error α × σ

-- A language, in a state of type `σ` that may record what was asked before.
class Semantics (σ : Type) where
  rule : UInt64 → σ → Outcome σ Axiom
  -- The axioms that justify one step: that each substituted pattern denotes one element, and those of the
  -- events.
  sideAxioms : Substitution → List Event → σ → Outcome σ AxiomGroups
  -- The number of places in a pattern where an equation remains to be applied.
  redexes : σ → Pattern → Nat
  notations : σ → Notations

end MatchingLogic
