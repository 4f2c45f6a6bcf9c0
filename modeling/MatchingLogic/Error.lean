namespace MatchingLogic

inductive ConversionError where
  | unsupported (context construct : String)
  | arity (name : String) (expected found : Nat)
  | unknownVariable (name : String)
  | unknownSymbol (name : String)
  | notACell (symbol : String)
  | ordinalOutOfRange (ordinal : UInt64) (count : Nat)
  | invalidCellPattern (reason : String)
  -- Notations that refer to each other in a circle have no full unfolding.
  | endless (name : String)
  deriving DecidableEq

inductive ReplayError where
  | nonFunctionalSubstitution (head pattern : String)
  | configurationMismatch (lhs configuration : String)
  | notEquational (ordinal : UInt64) (kind : String)
  | notTransition (kind pattern : String)
  | unexpectedKind (ordinal : UInt64) (kind : String)
  | unresolvedLocation (location pattern : String)
  | malformedRule (reason : String)
  | missingLocation (ordinal : UInt64)
  | underflow (location : String)
  deriving DecidableEq

inductive ScopeError where
  | notInScope
  | alreadyInScope
  | pending (count : Nat)
  | finalized
  deriving DecidableEq

inductive PackagingError where
  | missingProofs (claims proofs : Nat)
  | unclaimedProof (index : Nat)
  | conclusionMismatch (index : Nat) (expected found : String)
  | unknownAxiom (pattern : String)
  deriving DecidableEq

inductive ProofError where
  | notAnImplication (conclusion : String)
  | modusPonensMismatch (expected found : String)
  deriving DecidableEq

inductive Error where
  | conversion (e : ConversionError)
  | replay (e : ReplayError)
  | scope (e : ScopeError)
  | packaging (e : PackagingError)
  | proof (e : ProofError)
  deriving DecidableEq

def ConversionError.message : ConversionError → String
  | unsupported context construct => "unsupported construct in " ++ context ++ ": " ++ construct
  | arity name expected found =>
    "notation `" ++ name ++ "` expects " ++ toString expected ++ " arguments, got " ++ toString found
  | unknownVariable name => "unknown variable `" ++ name ++ "`"
  | unknownSymbol name => "unknown symbol `" ++ name ++ "`"
  | notACell symbol => "`" ++ symbol ++ "` is not a cell symbol"
  | ordinalOutOfRange ordinal count =>
    "axiom ordinal " ++ toString ordinal ++ " out of range (definition has " ++ toString count
      ++ " axioms)"
  | invalidCellPattern reason => "invalid cell naming pattern: " ++ reason
  | endless name => "notation `" ++ name ++ "` unfolds without end"

def ReplayError.message : ReplayError → String
  | nonFunctionalSubstitution head pattern =>
    "substitution head `" ++ head ++ "` is not a functional symbol (pattern " ++ pattern ++ ")"
  | configurationMismatch lhs configuration =>
    "rule left side " ++ lhs ++ " does not match configuration " ++ configuration
  | notEquational ordinal kind =>
    "axiom " ++ toString ordinal ++ " is " ++ kind ++ ", expected an equational rule"
  | notTransition kind pattern => "rule " ++ pattern ++ " is " ++ kind ++ ", expected a rewrite rule"
  | unexpectedKind ordinal kind =>
    "axiom " ++ toString ordinal ++ " has no handler for kind " ++ kind
  | unresolvedLocation location pattern =>
    "location " ++ location ++ " does not resolve in " ++ pattern
  | malformedRule reason => "malformed rule: " ++ reason
  | missingLocation ordinal =>
    "simplification step for axiom " ++ toString ordinal ++ " carries no location"
  | underflow location => "simplification frame at " ++ location ++ " drained below zero"

def ScopeError.message : ScopeError → String
  | notInScope => "simplification call outside an open scope"
  | alreadyInScope => "a simplification scope is already open"
  | pending count => toString count ++ " simplification frames still pending"
  | finalized => "execution proof already finalized"

def PackagingError.message : PackagingError → String
  | missingProofs claims proofs =>
    toString claims ++ " claims but only " ++ toString proofs ++ " proofs"
  | unclaimedProof index => "proof " ++ toString index ++ " has no claim left to discharge"
  | conclusionMismatch index expected found =>
    "proof " ++ toString index ++ " concludes " ++ found ++ ", claim is " ++ expected
  | unknownAxiom pattern => "proof uses axiom " ++ pattern ++ " which is not part of the theory"

def ProofError.message : ProofError → String
  | notAnImplication conclusion =>
    "modus ponens major premise does not conclude an implication: " ++ conclusion
  | modusPonensMismatch expected found =>
    "modus ponens minor premise proves " ++ found ++ ", expected " ++ expected

namespace Error

def bareMessage : Error → String
  | conversion e => e.message
  | replay e => e.message
  | scope e => e.message
  | packaging e => e.message
  | proof e => e.message

def layer : Error → String
  | conversion _ => "translation error"
  | replay _ => "invariant violation"
  | scope _ => "scope error"
  | packaging _ => "packaging error"
  | proof _ => "proof error"

def message (e : Error) : String :=
  e.layer ++ ": " ++ e.bareMessage

end Error
end MatchingLogic
