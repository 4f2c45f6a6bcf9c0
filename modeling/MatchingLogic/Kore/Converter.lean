import MatchingLogic.Kore.Syntax
import MatchingLogic.Names
import MatchingLogic.Regex
import MatchingLogic.Semantics.Trace

namespace MatchingLogic.Kore

-- A converter remembers what it has met: variables get ids in the order of their first use, symbols are known
-- to be functional or simplifiable once they occur, cells keep the head that they got first, and each axiom
-- is converted once.
structure Converter where
  config : Config
  cellName : Matcher
  axioms : List Axiom
  functionalNames : List String
  simplifiableNames : List String
  vocabulary : Vocabulary
  -- The symbols and the cells that have occurred.
  functional : List Pattern := []
  simplifiable : List Pattern := []
  cells : List (String × Pattern) := []
  converted : List (Axiom × MatchingLogic.Axiom) := []

namespace Converter

def ofDefinition (d : Definition) (config : Config) (engine : Engine := Regex.engine) :
    Except ConversionError Converter :=
  match engine.compile config.cellPattern with
  | none => .error (.invalidCellPattern config.cellPattern)
  | some cellName =>
    let declared (p : SymbolDecl → Bool) := (d.symbols.filter p).map (·.name)
    .ok {
      config, cellName
      axioms := d.axioms
      functionalNames := declared fun s => hasAttribute s.attributes config.functionalAttribute
      simplifiableNames := declared fun s =>
        hasAttribute s.attributes config.functionAttribute
          && !hasAttribute s.attributes config.hookAttribute
      vocabulary := { symbolMark := config.symbolMark, sortMark := config.sortMark } }

def isCell (c : Converter) (symbol : String) : Bool :=
  symbol == c.config.topCell || (c.cells.lookup symbol).isSome

def isFunctional (c : Converter) (symbol : Pattern) : Bool :=
  symbol ∈ c.functional

def addSymbol (c : Converter) (name : String) : Converter :=
  let symbol := c.vocabulary.symbol name
  { c with
    vocabulary := c.vocabulary.addSymbol name
    functional := if name ∈ c.functionalNames then c.functional.insert symbol else c.functional
    simplifiable := if name ∈ c.simplifiableNames then c.simplifiable.insert symbol else c.simplifiable }

def addMetavar (c : Converter) (name : String) : Converter :=
  { c with vocabulary := c.vocabulary.addMetavar name }

def addCell (c : Converter) (symbol name : String) : Converter :=
  let head := c.vocabulary.symbol name
  { c with
    vocabulary := c.vocabulary.addSymbol name
    functional := if symbol ∈ c.functionalNames then c.functional.insert head else c.functional
    cells := (symbol, head) :: c.cells }

end Converter

-- A conversion, which updates the converter also when it fails.
abbrev Conversion := ExceptT ConversionError (StateM Converter)

namespace Conversion

def run {α : Type} (act : Conversion α) (c : Converter) : Outcome Converter α :=
  let (answer, c) := StateT.run (ExceptT.run act) c
  (answer.mapError .conversion, c)

def sort (name : SortName) : Conversion Pattern :=
  return (← get).vocabulary.sort name

-- The notation node `name(args)`.
def node (name : String) (args : List Pattern) : Conversion Pattern :=
  liftM (Notations.builtin.resolve name args)

def symbol (name : String) : Conversion Pattern :=
  modifyGet fun c => (c.vocabulary.symbol name, c.addSymbol name)

def metavarId (name : String) : Conversion UInt32 :=
  modifyGet fun c => (c.vocabulary.metavars.id name, c.addMetavar name)

def cellHead (symbol : String) : Conversion Pattern := do
  let c ← get
  match c.cells.lookup symbol with
  | some head => return head
  | none =>
    match c.cellName.capture? symbol with
    | none => throw (.notACell symbol)
    | some name =>
      set (c.addCell symbol name)
      return c.vocabulary.symbol name

end Conversion

namespace Term

open Conversion

def holdsCells (cellName : Matcher) (args : List Term) : Bool :=
  args.any (·.symbol?.any cellName.accepts)

mutual

-- `inCell` says that the term stands directly inside of a cell. There all that follow the naming convention
-- are cells, and at the root only those that are known already.
def convertIn (inCell : Bool) : Term → Conversion Pattern
  | elementVar name _ => return .metavar (← metavarId name)
  | app symbol sorts args => do
    let c ← get
    if c.isCell symbol || inCell && c.cellName.accepts symbol then
      let head ← cellHead symbol
      if args.isEmpty then return head
      let content := Pattern.chain head (← convertAll true args)
      node (if holdsCells c.cellName args then "nested-cells" else "cell") [content]
    else
      let head ← Conversion.symbol symbol
      let applied := Pattern.chain head (← convertAll false args)
      let sorts ← sorts.mapM Conversion.sort
      node "kore-app" [(Pattern.chain? sorts).getD .top, applied]
  | top s => do node "kore-top" [← sort s]
  | value s text => do node "kore-dv" [← sort s, ← Conversion.symbol text]
  | and s l r => do node "kore-and" [← sort s, ← convertIn false l, ← convertIn false r]
  | or s l r => do node "kore-or" [← sort s, ← convertIn false l, ← convertIn false r]
  | transition s l r => do node "kore-rewrites" [← sort s, ← convertIn false l, ← convertIn false r]
  | t => throw (.unsupported "pattern" t.kind)

def convertAll (inCell : Bool) : List Term → Conversion (List Pattern)
  | [] => return []
  | t :: ts => return (← convertIn inCell t) :: (← convertAll inCell ts)

end

def convert (t : Term) : Conversion Pattern :=
  t.convertIn false

-- The variable and the term of a conjunct `x ∈ t` or `x = t`.
def binding? : Term → Option (String × Term)
  | mem _ _ (elementVar name _) t => some (name, t)
  | equals _ _ (elementVar name _) t => some (name, t)
  | _ => none

-- The bindings that a side condition prescribes; of several for one variable the last wins.
def requirements (condition : Term) : Conversion Substitution :=
  (condition.conjuncts.filterMap binding?).foldlM (fun s (name, t) => do
    let id ← metavarId name
    return s.insert id (← t.convert)) ∅

-- Converts an axiom by its form. In a transition between two conjunctions the right members are side
-- conditions and are dropped; an implication of an equation, which may stand in a conjunction or have one on
-- its right, is an equation under requirements.
def classify : Term → Conversion MatchingLogic.Axiom
  | transition s (and _ l _) (and _ r _) =>
    return ⟨.transition, ← node "kore-rewrites" [← sort s, ← l.convert, ← r.convert], ∅⟩
  | t@(implies _ condition conclusion) => do
    match conclusion.stripped with
    | equals s _ l r =>
      let p ← node "kore-equals" [← sort s, ← l.convert, ← r.stripped.convert]
      return ⟨.equation, p, ← condition.requirements⟩
    | _ => return ⟨.unclassified, ← t.convert, ∅⟩
  | t => return ⟨.unclassified, ← t.convert, ∅⟩

end Term

def Axiom.convert (a : Axiom) : Conversion MatchingLogic.Axiom := do
  match (← get).converted.lookup a with
  | some converted => return converted
  | none =>
    let converted ← a.term.classify
    modify fun c => { c with converted := (a, converted) :: c.converted }
    return converted

namespace Conversion

def rule (ordinal : UInt64) : Conversion MatchingLogic.Axiom := do
  let c ← get
  match c.axioms[ordinal.toNat]? with
  | some a => a.convert
  | none => throw (.ordinalOutOfRange ordinal c.axioms.length)

-- Converts bindings of variables that are declared already.
def bindings (bs : List (String × Term)) : Conversion Substitution :=
  bs.foldlM (fun s (name, t) => do
    let id ← ((← get).vocabulary.metavarId name : Except ConversionError UInt32)
    return s.insert id (← t.convert)) ∅

end Conversion

def Event.convert : Event → Conversion MatchingLogic.Event
  | function name position => return .function name position
  | hook name args result => return .hook name (← args.mapM Term.convert) (← result.convert)

-- Converts a hint. Its axiom comes first, since it declares the variables that are bound.
def Hint.convert (h : Hint) : Conversion Step := do
  let _ ← Conversion.rule h.ordinal
  return {
    ordinal := h.ordinal
    configuration := ← h.configuration.convert
    substitution := ← Conversion.bindings h.bindings
    location := h.location
    events := ← h.events.mapM Event.convert }

def Hint.convertAll (hints : List Hint) : Conversion Trace :=
  return ⟨← hints.mapM Hint.convert⟩

namespace Converter

-- The symbol that decides whether a pattern denotes one element; a domain value needs none.
def decidingHead? : Pattern → Option Pattern
  | .sugar "kore-dv" _ => none
  | .sugar "kore-app" [_, applied] => some applied.head
  | .sugar "cell" [content] => some content.head
  | .sugar "nested-cells" [content] => some content.head
  | p => some p.head

def functionalAxiom (c : Converter) (p : Pattern) : Except Error MatchingLogic.Axiom :=
  let granted := .ok ⟨.functional, p.functional, ∅⟩
  match decidingHead? p with
  | none => granted
  | some head =>
    if c.isFunctional head then granted
    else .error (.replay (.nonFunctionalSubstitution head.text p.text))

def sideAxioms (c : Converter) (s : Substitution) (events : List MatchingLogic.Event) :
    Except Error AxiomGroups := do
  return .organize ((← s.plugs.mapM c.functionalAxiom) ++ events.map (·.toAxiom))

def isRedex (c : Converter) : Pattern → Bool
  | .sugar "kore-app" [_, applied] => applied.head ∈ c.simplifiable
  | _ => false

def redexes (c : Converter) (p : Pattern) : Nat :=
  p.nodes.countP c.isRedex

instance : Semantics Converter where
  rule ordinal c := (Conversion.rule ordinal).run c
  sideAxioms s events c := (c.sideAxioms s events, c)
  redexes c p := c.redexes p
  notations _ := .builtin

end Converter
end MatchingLogic.Kore
