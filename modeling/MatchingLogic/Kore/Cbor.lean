import MatchingLogic.Cbor.Record
import MatchingLogic.Kore.Syntax

namespace MatchingLogic.Kore

open Cbor
open Cbor.Record (field)

namespace Term

mutual

def toItem : Term → Item
  | elementVar n s => .variant "EVar" (.record [("name", .text n), ("sort", .text s)])
  | setVar n s => .variant "SVar" (.record [("name", .text n), ("sort", .text s)])
  | app f ss ts =>
    .variant "App"
      (.record [("symbol", .text f), ("sorts", .texts ss), ("args", .list (toItems ts))])
  | top s => .variant "Top" (.text s)
  | bottom s => .variant "Bottom" (.text s)
  | not s t => .variant "Not" (.record [("sort", .text s), ("pattern", toItem t)])
  | and s l r =>
    .variant "And" (.record [("sort", .text s), ("left", toItem l), ("right", toItem r)])
  | or s l r =>
    .variant "Or" (.record [("sort", .text s), ("left", toItem l), ("right", toItem r)])
  | implies s l r =>
    .variant "Implies" (.record [("sort", .text s), ("left", toItem l), ("right", toItem r)])
  | equals o s l r =>
    .variant "Equals" (.record [
      ("operand_sort", .text o), ("result_sort", .text s), ("left", toItem l), ("right", toItem r)])
  | mem o s l r =>
    .variant "In" (.record [
      ("operand_sort", .text o), ("result_sort", .text s), ("left", toItem l), ("right", toItem r)])
  | transition s l r =>
    .variant "Rewrites" (.record [("sort", .text s), ("left", toItem l), ("right", toItem r)])
  | ex s v vs b =>
    .variant "Exists" (.record [
      ("sort", .text s), ("var", .text v), ("var_sort", .text vs), ("body", toItem b)])
  | value s v => .variant "DV" (.record [("sort", .text s), ("value", .text v)])

def toItems : List Term → List Item
  | [] => []
  | t :: ts => toItem t :: toItems ts

end

def variants : List String := [
  "EVar", "SVar", "App", "Top", "Bottom", "Not", "And", "Or", "Implies", "Equals", "In", "Rewrites",
  "Exists", "DV"]

-- Decodes a term that is nested less than `fuel` deep.
def decode : (fuel : Nat) → Item → Except Cbor.Error Term
  | 0, _ => .error .syntactic
  | fuel + 1, i => do
    let sort := field "sort" Item.toText
    let part (name : String) : Record Term := field name (decode fuel)
    let binary (make : String → Term → Term → Term) : Record Term :=
      make <$> sort <*> part "left" <*> part "right"
    let relation (make : String → String → Term → Term → Term) : Record Term :=
      make <$> field "operand_sort" Item.toText <*> field "result_sort" Item.toText
        <*> part "left" <*> part "right"
    let (name, content) ← Content.ofItem variants i
    match name with
    | "EVar" => content.fields (elementVar <$> field "name" Item.toText <*> sort)
    | "SVar" => content.fields (setVar <$> field "name" Item.toText <*> sort)
    | "App" =>
      content.fields (app <$> field "symbol" Item.toText <*> field "sorts" Item.toTexts
        <*> field "args" (Item.toList (decode fuel)))
    | "Top" => top <$> content.single Item.toText
    | "Bottom" => bottom <$> content.single Item.toText
    | "Not" => content.fields (not <$> sort <*> part "pattern")
    | "And" => content.fields (binary and)
    | "Or" => content.fields (binary or)
    | "Implies" => content.fields (binary implies)
    | "Equals" => content.fields (relation equals)
    | "In" => content.fields (relation mem)
    | "Rewrites" => content.fields (binary transition)
    | "Exists" =>
      content.fields (ex <$> sort <*> field "var" Item.toText <*> field "var_sort" Item.toText
        <*> part "body")
    | _ => content.fields (value <$> sort <*> field "value" Item.toText)

def ofItem (i : Item) : Except Cbor.Error Term :=
  decode (i.depth + 1) i

end Term

namespace Attribute

def toItem (a : Attribute) : Item :=
  .record [("name", .text a.name), ("args", .texts a.args)]

def ofItem : Item → Except Cbor.Error Attribute :=
  Record.decode (Attribute.mk <$> field "name" Item.toText <*> field "args" Item.toTexts)

end Attribute

def attributesItem (l : List Attribute) : Item :=
  .list (l.map (·.toItem))

def attributesField : Record (List Attribute) :=
  field "attrs" (Item.toList Attribute.ofItem)

namespace SortDecl

def toItem (d : SortDecl) : Item :=
  .record [("name", .text d.name), ("attrs", attributesItem d.attributes)]

def ofItem : Item → Except Cbor.Error SortDecl :=
  Record.decode (SortDecl.mk <$> field "name" Item.toText <*> attributesField)

end SortDecl

namespace SymbolDecl

def toItem (d : SymbolDecl) : Item :=
  .record [("name", .text d.name), ("param_sorts", .texts d.paramSorts),
    ("result_sort", .text d.resultSort), ("attrs", attributesItem d.attributes)]

def ofItem : Item → Except Cbor.Error SymbolDecl :=
  Record.decode (SymbolDecl.mk <$> field "name" Item.toText <*> field "param_sorts" Item.toTexts
    <*> field "result_sort" Item.toText <*> attributesField)

end SymbolDecl

namespace Axiom

def toItem (a : Axiom) : Item :=
  .record [("pattern", a.term.toItem), ("attrs", attributesItem a.attributes)]

def ofItem : Item → Except Cbor.Error Axiom :=
  Record.decode (Axiom.mk <$> field "pattern" Term.ofItem <*> attributesField)

end Axiom

namespace Module

def toItem (m : Module) : Item :=
  .record [("name", .text m.name), ("sorts", .list (m.sorts.map (·.toItem))),
    ("symbols", .list (m.symbols.map (·.toItem))), ("axioms", .list (m.axioms.map (·.toItem)))]

def ofItem : Item → Except Cbor.Error Module :=
  Record.decode (Module.mk <$> field "name" Item.toText
    <*> field "sorts" (Item.toList SortDecl.ofItem)
    <*> field "symbols" (Item.toList SymbolDecl.ofItem)
    <*> field "axioms" (Item.toList Axiom.ofItem))

end Module

namespace Definition

def toItem (d : Definition) : Item :=
  .record [("modules", .list (d.modules.map (·.toItem)))]

def ofItem : Item → Except Cbor.Error Definition :=
  Record.decode (Definition.mk <$> field "modules" (Item.toList Module.ofItem))

end Definition

def locationItem (l : Location) : Item :=
  .list (l.map .uint)

def locationOfItem : Item → Except Cbor.Error Location :=
  Item.toList Item.toUInt64

namespace Event

def toItem : Event → Item
  | function name position =>
    .variant "Function"
      (.record [("name", .text name), ("relative_position", locationItem position)])
  | hook name args result =>
    .variant "Hook" (.record [("name", .text name), ("args", .list (args.map (·.toItem))),
      ("result", result.toItem)])

def ofItem (i : Item) : Except Cbor.Error Event := do
  let (name, content) ← Content.ofItem ["Function", "Hook"] i
  let label := field "name" Item.toText
  match name with
  | "Function" => content.fields (function <$> label <*> field "relative_position" locationOfItem)
  | _ =>
    content.fields (hook <$> label <*> field "args" (Item.toList Term.ofItem)
      <*> field "result" Term.ofItem)

end Event

namespace Hint

def toItem (h : Hint) : Item :=
  .record [
    ("ordinal", .uint h.ordinal), ("configuration_before", h.configuration.toItem),
    ("substitutions", .list (h.bindings.map fun (name, t) => .list [.text name, t.toItem])),
    ("location", h.location.elim .null locationItem),
    ("events", .list (h.events.map (·.toItem)))]

def ofItem : Item → Except Cbor.Error Hint :=
  Record.decode (Hint.mk <$> field "ordinal" Item.toUInt64
    <*> field "configuration_before" Term.ofItem
    <*> field "substitutions" (Item.toList (Item.toPair Item.toText Term.ofItem))
    <*> Record.optional "location" locationOfItem
    <*> field "events" (Item.toList Event.ofItem))

end Hint

namespace Config

def toItem (c : Config) : Item :=
  .record [
    ("symbol_prefix", .text c.symbolMark), ("sort_prefix", .text c.sortMark),
    ("generated_top_symbol", .text c.topCell), ("cell_pattern", .text c.cellPattern),
    ("functional_attribute", .text c.functionalAttribute),
    ("function_attribute", .text c.functionAttribute), ("hook_attribute", .text c.hookAttribute)]

-- Decodes a configuration, in which fields that are not there have their default values.
def ofItem : Item → Except Cbor.Error Config :=
  let setting (name default : String) : Record String :=
    Record.fieldOr name Item.toText fun _ => .ok default
  let usual : Config := {}
  Record.decode (Config.mk <$> setting "symbol_prefix" usual.symbolMark
    <*> setting "sort_prefix" usual.sortMark <*> setting "generated_top_symbol" usual.topCell
    <*> setting "cell_pattern" usual.cellPattern
    <*> setting "functional_attribute" usual.functionalAttribute
    <*> setting "function_attribute" usual.functionAttribute
    <*> setting "hook_attribute" usual.hookAttribute)

end Config
end MatchingLogic.Kore
