import MatchingLogic.Bundle
import MatchingLogic.Metamath.Scope
import MatchingLogic.Metamath.Syntax
import MatchingLogic.Notation.Builtin
import MatchingLogic.Text.Blank

namespace MatchingLogic.Metamath

inductive Connective where
  | imp
  | app
  | ex
  | mu
  deriving DecidableEq

namespace Connective

def name : Connective → String
  | imp => "\\imp"
  | app => "\\app"
  | ex => "\\exists"
  | mu => "\\mu"

def ofName? : String → Option Connective
  | "\\imp" => some imp
  | "\\app" => some app
  | "\\exists" => some ex
  | "\\mu" => some mu
  | _ => none

-- Builds a pattern. The first part of a binder has to be a variable of its kind.
def join : Connective → Pattern → Pattern → Except ConversionError Pattern
  | imp, l, r => .ok (.imp l r)
  | app, l, r => .ok (.app l r)
  | ex, .elementVar id, body => .ok (.ex id body)
  | mu, .setVar id, body => .ok (.mu id body)
  | c, var, _ => .error (.unsupported c.name ("binder " ++ var.text))

end Connective

namespace Term

variable (ns : Notations) (scope : Scope)

mutual

-- The pattern of a term. A symbol is a connective, or else the name of a notation, or else a symbol of the
-- scope without arguments.
def convert : Term → Except ConversionError Pattern
  | var name => scope.resolve name
  | app symbol args =>
    match Connective.ofName? symbol, args with
    | some c, [l, r] => do c.join (← convert l) (← convert r)
    | some _, args => .error (.arity symbol 2 args.length)
    | none, args =>
      if ns.contains symbol then do
        ns.resolve symbol (← convertAll args)
      else if scope.isSymbol symbol then
        if args.isEmpty then .ok (.symbol symbol) else .error (.arity symbol 0 args.length)
      else .error (.unknownSymbol symbol)

def convertAll : List Term → Except ConversionError (List Pattern)
  | [] => .ok []
  | t :: ts => do return (← convert t) :: (← convertAll ts)

end

def formal (symbol : String) : Term → Except ConversionError String
  | var name => .ok name
  | t => .error (.unsupported ("notation " ++ symbol) t.text)

end Term

structure Theory where
  scope : Scope := {}
  constants : List String := []
  vars : List String := []
  notations : Notations := .builtin
  axioms : List (String × Pattern) := []

namespace Theory

-- A name in double quotes with something, but no blank, between them.
def isQuoted (name : String) : Bool :=
  3 ≤ name.utf8ByteSize && name.toList.head? == some '"' && name.toList.getLast? == some '"'
    && !name.toList.any Text.isBlank

def addFloating (t : Theory) (typecode name : String) : Theory :=
  if name ∈ t.vars then
    match typecode with
    | "#Pattern" | "#Variable" | "#Symbol" => { t with scope := t.scope.addMetavar name }
    | "#ElementVariable" => { t with scope := t.scope.addElementVar name }
    | "#SetVariable" => { t with scope := t.scope.addSetVar name }
    | _ => t
  else t

def addNotation (t : Theory) (symbol : String) (args : List Term) (body : Term) :
    Except ConversionError Theory := do
  let formals ← args.mapM (Term.formal symbol)
  let template ← body.convert t.notations (← t.scope.withFormals formals)
  let n ← Notation.define symbol formals.length template
  return { t with notations := t.notations.register n }

def addAxiom (t : Theory) (label : String) (statement : Term) : Except ConversionError Theory := do
  let p ← statement.convert t.notations t.scope
  return { t with axioms := t.axioms ++ [(label, p)] }

-- The type code, which is the symbol of the first term, says whether a domain value, a symbol or a notation
-- is declared or an axiom stated. Statements of any other form add nothing.
def addAxiomatic (t : Theory) (label : String) : List Term → Except ConversionError Theory
  | .app "#Pattern" _ :: [.app name []] =>
    .ok (if name ∈ t.constants && isQuoted name then { t with scope := t.scope.addDomainValue name }
      else t)
  | .app "#Symbol" _ :: [.app name []] => .ok { t with scope := t.scope.addSymbol name }
  | .app "#Notation" _ :: [.app symbol args, body] => t.addNotation symbol args body
  | .app "|-" _ :: [statement] => t.addAxiom label statement
  | _ => .ok t

mutual

def add (t : Theory) : Statement → Except ConversionError Theory
  | .declareConstants names => .ok { t with constants := t.constants ++ names }
  | .declareVariables names => .ok { t with vars := t.vars ++ names }
  | .floating _ typecode name => .ok (t.addFloating typecode name)
  | .axiomatic label terms => t.addAxiomatic label terms
  | .essential .. | .provable .. => .ok t
  | .block statements => do
    let inner ← addAll t statements
    return { inner with scope := inner.scope.truncate t.scope.mark }

def addAll (t : Theory) : List Statement → Except ConversionError Theory
  | [] => .ok t
  | s :: ss => do addAll (← add t s) ss

end

def ofDatabase (d : Database) : Except ConversionError Theory :=
  addAll {} d.statements

def isConstant (t : Theory) (name : String) : Bool :=
  name ∈ t.constants

def labelled? (t : Theory) (label : String) : Option Pattern :=
  t.axioms.lookup label

def convert (t : Theory) (term : Term) : Except ConversionError Pattern :=
  term.convert t.notations t.scope

def assert (t : Theory) (b : Bundle) : Bundle :=
  b.assertAll (t.axioms.map (·.2))

end Theory
end MatchingLogic.Metamath
