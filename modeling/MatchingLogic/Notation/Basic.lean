import MatchingLogic.Error
import MatchingLogic.Pattern.Substitution

namespace MatchingLogic

-- The metavariables `0`, …, `arity - 1` of a template stand for the arguments.
structure Notation where
  name : String
  arity : Nat
  template : Pattern
  placeholders : ∀ id ∈ template.metavars, id.toNat < arity
  irreflexive : template.mentions name = false

namespace Notation

def ofTemplate (name : String) (arity : Nat) (template : Pattern)
    (placeholders : template.metavars.all (·.toNat < arity) = true)
    (irreflexive : template.mentions name = false) : Notation where
  name := name
  arity := arity
  template := template
  placeholders := by simpa using placeholders
  irreflexive := irreflexive

-- The notation with these parts, if its placeholders are below the arity (the smallest that is not is
-- reported) and its template does not mention it.
def define (name : String) (arity : Nat) (template : Pattern) : Except ConversionError Notation :=
  let refuse construct := .error (.unsupported ("notation `" ++ name ++ "`") construct)
  match h : template.metavars.find? (arity ≤ ·.toNat) with
  | some id => refuse ("placeholder φ" ++ toString id ++ " beyond arity " ++ toString arity)
  | none =>
    if h' : template.mentions name then refuse "self-referential template"
    else .ok {
      name, arity, template
      placeholders := fun id hid => by simpa using List.find?_eq_none.mp h id hid
      irreflexive := by simpa using h' }

def checkArity (n : Notation) (args : List Pattern) : Except ConversionError Unit :=
  if args.length = n.arity then .ok () else .error (.arity n.name n.arity args.length)

def instantiate (n : Notation) (args : List Pattern) : Except ConversionError Pattern := do
  n.checkArity args
  return n.template.instantiate (.positional args)

end Notation
end MatchingLogic
