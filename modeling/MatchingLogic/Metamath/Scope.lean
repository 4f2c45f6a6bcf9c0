import MatchingLogic.Names

namespace MatchingLogic.Metamath

structure Mark where
  metavars : Nat
  elementVars : Nat
  setVars : Nat
  deriving DecidableEq

-- The variables of each kind are numbered on their own, in the order of declaration. Symbols and domain
-- values are global and have no numbers.
structure Scope where
  metavars : NameTable := ∅
  elementVars : NameTable := ∅
  setVars : NameTable := ∅
  symbols : List String := []
  domainValues : List String := []
  deriving DecidableEq

namespace Scope

def addMetavar (s : Scope) (name : String) : Scope :=
  { s with metavars := s.metavars.declare name }

def addElementVar (s : Scope) (name : String) : Scope :=
  { s with elementVars := s.elementVars.declare name }

def addSetVar (s : Scope) (name : String) : Scope :=
  { s with setVars := s.setVars.declare name }

def addSymbol (s : Scope) (name : String) : Scope :=
  { s with symbols := s.symbols.insert name }

def addDomainValue (s : Scope) (name : String) : Scope :=
  { s with domainValues := s.domainValues.insert name }

def isDomainValue (s : Scope) (name : String) : Bool :=
  name ∈ s.domainValues

def isSymbol (s : Scope) (name : String) : Bool :=
  name ∈ s.symbols || s.isDomainValue name

-- The variable with this name. A metavariable comes before an element variable, and that before a set
-- variable.
def varNamed? (s : Scope) (name : String) : Option Pattern :=
  (s.metavars.id? name).map .metavar
    <|> (s.elementVars.id? name).map .elementVar
    <|> (s.setVars.id? name).map .setVar

def resolve (s : Scope) (name : String) : Except ConversionError Pattern :=
  match s.varNamed? name with
  | some p => .ok p
  | none => if s.isSymbol name then .ok (.symbol name) else .error (.unknownVariable name)

def mark (s : Scope) : Mark :=
  ⟨s.metavars.size, s.elementVars.size, s.setVars.size⟩

def truncate (s : Scope) (m : Mark) : Scope :=
  { s with
    metavars := s.metavars.truncate m.metavars
    elementVars := s.elementVars.truncate m.elementVars
    setVars := s.setVars.truncate m.setVars }

-- The scope of a notation's body. The formal arguments, which have to be variables, are its only
-- metavariables, and all else stays visible.
def withFormals (s : Scope) (formals : List String) : Except ConversionError Scope :=
  match formals.find? fun name => (s.varNamed? name).isNone with
  | some name => .error (.unknownVariable name)
  | none => .ok { s with metavars := ⟨formals⟩ }

end Scope
end MatchingLogic.Metamath
