import MatchingLogic.Bundle
import MatchingLogic.Execution.Simplification
import MatchingLogic.Semantics.Trace

namespace MatchingLogic

structure Execution (σ : Type) where
  language : σ
  initial : Pattern
  simplification : Simplification
  bundle : Bundle := ∅
  steps : Nat := 0
  finalized : Bool := false

namespace Execution

variable {σ : Type}

def start (language : σ) (initial : Pattern) : Execution σ :=
  { language, initial, simplification := { configuration := initial } }

def configuration (x : Execution σ) : Pattern :=
  x.simplification.configuration

variable [Semantics σ]

def successor (x : Execution σ) (rule : Axiom) (claim : Pattern) : Except ReplayError Pattern :=
  match claim.transition? with
  | some (left, right) =>
    if left = x.configuration then .ok right
    else .error (.configurationMismatch left.text x.configuration.text)
  | none =>
    .error (.malformedRule ("rewrite rule " ++ rule.pattern.text ++ " is not a kore-rewrites relation"))

def checkTransition (x : Execution σ) (rule : Axiom) (claim : Pattern) : Except Error Pattern :=
  if x.finalized then .error (.scope .finalized)
  else if x.simplification.inScope then .error (.scope .alreadyInScope)
  else if x.simplification.frames ≠ [] then .error (.scope (.pending x.simplification.pending))
  else if rule.kind ≠ .transition then
    .error (.replay (.notTransition rule.kind.text rule.pattern.text))
  else (x.successor rule claim).mapError .replay

def transition (x : Execution σ) (rule : Axiom) (s : Substitution) (events : List Event) :
    Outcome (Execution σ) Proof :=
  let claim := rule.pattern.instantiate s
  match x.checkTransition rule claim with
  | .error e => (.error e, x)
  | .ok next =>
    let (groups, language) := Semantics.sideAxioms s events x.language
    match groups with
    | .error e => (.error e, { x with language })
    | .ok groups =>
      let proof := (Proof.assumed rule.pattern).instantiate s
      let bundle := (x.bundle.assertAll groups.patterns).assert rule.pattern
      (.ok proof, { x with
        language
        simplification := { x.simplification with configuration := next }
        bundle := (bundle.claim claim).prove proof
        steps := x.steps + 1 })

-- Simplifies the term at a location in a scope of its own. The scope is closed also when the call fails.
def simplify (x : Execution σ) (ordinal : UInt64) (s : Substitution) (l : Location) :
    Outcome (Execution σ) Unit :=
  if x.finalized then (.error (.scope .finalized), x)
  else
    match x.simplification.enter with
    | .error e => (.error (.scope e), x)
    | .ok opened =>
      let (called, opened, language) := opened.call x.language ordinal s l
      let (drained, simplification) := opened.exit
      let x := { x with language, simplification }
      match called, drained with
      | .error e, _ => (.error e, x)
      | .ok _, .error e => (.error (.replay e), x)
      | .ok _, .ok _ => (.ok (), { x with steps := x.steps + 1 })

def apply (x : Execution σ) (step : Step) : Outcome (Execution σ) Unit :=
  if x.finalized then (.error (.scope .finalized), x)
  else
    let (rule, language) := Semantics.rule step.ordinal x.language
    let x := { x with language }
    match rule with
    | .error e => (.error e, x)
    | .ok rule =>
      match rule.kind, step.location with
      | .transition, _ =>
        let (proof, x) := x.transition rule step.substitution step.events
        (proof.map fun _ => (), x)
      | .equation, some l => x.simplify step.ordinal step.substitution l
      | .equation, none => (.error (.replay (.missingLocation step.ordinal)), x)
      | kind, _ => (.error (.replay (.unexpectedKind step.ordinal kind.text)), x)

def applyAll (x : Execution σ) : List Step → Outcome (Execution σ) Unit
  | [] => (.ok (), x)
  | step :: steps =>
    match x.apply step with
    | (.ok _, x) => x.applyAll steps
    | failed => failed

def finalize (x : Execution σ) : Outcome (Execution σ) Unit :=
  if x.finalized then (.error (.scope .finalized), x)
  else if x.simplification.frames ≠ [] then
    (.error (.scope (.pending x.simplification.pending)), x)
  else (.ok (), { x with finalized := true })

def prove (language : σ) (steps : List Step) : Outcome σ Bundle :=
  match steps with
  | [] => (.ok ∅, language)
  | first :: _ =>
    match (start language first.configuration).applyAll steps with
    | (.error e, x) => (.error e, x.language)
    | (.ok _, x) =>
      let (answer, x) := x.finalize
      (answer.map fun _ => x.bundle, x.language)

end Execution
end MatchingLogic
