import MatchingLogic.Pattern.Canonical
import MatchingLogic.Semantics.Basic

namespace MatchingLogic

structure Step where
  ordinal : UInt64
  configuration : Pattern
  substitution : Substitution := ∅
  location : Option Location := none
  events : List Event := []
  deriving DecidableEq

structure Trace where
  steps : List Step := []
  deriving DecidableEq

namespace Trace

instance : EmptyCollection Trace := ⟨{}⟩

def size (t : Trace) : Nat :=
  t.steps.length

def isEmpty (t : Trace) : Bool :=
  t.steps.isEmpty

def record (t : Trace) (s : Step) : Trace :=
  ⟨t.steps ++ [s]⟩

def get? (t : Trace) (i : Nat) : Option Step :=
  t.steps[i]?

def initial? (t : Trace) : Option Pattern :=
  t.steps.head?.map (·.configuration)

def fingerprint? (t : Trace) : Option Digest :=
  t.initial?.map (·.fingerprint)

end Trace
end MatchingLogic
