import MatchingLogic.Cbor.Record
import MatchingLogic.Metamath.Syntax

namespace MatchingLogic.Metamath

open Cbor
open Cbor.Record (field)

namespace Term

mutual

def toItem : Term → Item
  | app f ts => .variant "Application" (.record [("symbol", .text f), ("subterms", .list (toItems ts))])
  | var n => .variant "Metavariable" (.text n)

def toItems : List Term → List Item
  | [] => []
  | t :: ts => toItem t :: toItems ts

end

def decode : (fuel : Nat) → Item → Except Cbor.Error Term
  | 0, _ => .error .syntactic
  | fuel + 1, i => do
    let (name, content) ← Content.ofItem ["Application", "Metavariable"] i
    match name with
    | "Application" =>
      content.fields (app <$> field "symbol" Item.toText <*> field "subterms" (Item.toList (decode fuel)))
    | _ => var <$> content.single Item.toText

def ofItem (i : Item) : Except Cbor.Error Term :=
  decode (i.depth + 1) i

end Term

namespace Statement

mutual

def toItem : Statement → Item
  | declareConstants names => .variant "Constant" (.texts names)
  | declareVariables names => .variant "Variable" (.texts names)
  | floating label typecode name =>
    .variant "Floating" (.record [
      ("label", .text label), ("typecode", .text typecode), ("variable", .text name)])
  | essential label terms => .variant "Essential" (labelled label terms)
  | axiomatic label terms => .variant "Axiomatic" (labelled label terms)
  | provable label terms => .variant "Provable" (labelled label terms)
  | block ss => .variant "Block" (.list (toItems ss))
where
  labelled (label : String) (terms : List Term) : Item :=
    .record [("label", .text label), ("terms", .list (Term.toItems terms))]

def toItems : List Statement → List Item
  | [] => []
  | s :: ss => toItem s :: toItems ss

end

def variants : List String :=
  ["Constant", "Variable", "Floating", "Essential", "Axiomatic", "Provable", "Block"]

def decode : (fuel : Nat) → Item → Except Cbor.Error Statement
  | 0, _ => .error .syntactic
  | fuel + 1, i => do
    let label := field "label" Item.toText
    let labelled (make : String → List Term → Statement) : Record Statement :=
      make <$> label <*> field "terms" (Item.toList Term.ofItem)
    let (name, content) ← Content.ofItem variants i
    match name with
    | "Constant" => declareConstants <$> content.single Item.toTexts
    | "Variable" => declareVariables <$> content.single Item.toTexts
    | "Floating" =>
      content.fields (floating <$> label <*> field "typecode" Item.toText
        <*> field "variable" Item.toText)
    | "Essential" => content.fields (labelled essential)
    | "Axiomatic" => content.fields (labelled axiomatic)
    | "Provable" => content.fields (labelled provable)
    | _ => block <$> content.single (Item.toList (decode fuel))

def ofItem (i : Item) : Except Cbor.Error Statement :=
  decode (i.depth + 1) i

end Statement

namespace Database

def toItem (d : Database) : Item :=
  .record [("statements", .list (Statement.toItems d.statements))]

def ofItem (i : Item) : Except Cbor.Error Database :=
  (Database.mk <$> field "statements" (Item.toList Statement.ofItem)).decode i

end Database
end MatchingLogic.Metamath
