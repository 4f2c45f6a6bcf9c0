import MatchingLogic.Proofs.Cbor.Nesting

namespace MatchingLogic

open Cbor
open Cbor.Item (depth_lt_variant depth_lt_of_field)
open Cbor.Record (yields_fieldOr)

namespace Kore

namespace Term

-- Induction on the fuel, since every part of a term stands below a record in an alternative.
theorem carries_decode {fuel : Nat} {t : Term} (h : t.toItem.depth < fuel) :
    Carries (decode fuel) t.toItem t := by
  induction fuel generalizing t with
  | zero => cases h
  | succ fuel ih =>
    cases t with
    | elementVar n s =>
      refine carries_variant (by decide) (Record.Yields.carries ?_ rfl (by simp))
      exact ((yields_fieldOr rfl (carries_text n)).map elementVar).seq (yields_fieldOr rfl (carries_text s))
    | setVar n s =>
      refine carries_variant (by decide) (Record.Yields.carries ?_ rfl (by simp))
      exact ((yields_fieldOr rfl (carries_text n)).map setVar).seq (yields_fieldOr rfl (carries_text s))
    | app f ss ts =>
      have hlist : (Item.list (toItems ts)).depth < fuel :=
        depth_lt_of_field (e := ("args", .list (toItems ts))) (by simp) h
      have hargs : Carries (Item.toList (decode fuel)) (.list (toItems ts)) ts := by
        rw [toItems_eq] at hlist ⊢
        exact carries_list_of_depth (Nat.le_of_lt hlist) ih
      refine carries_variant (by decide) (Record.Yields.carries ?_ rfl (by simp))
      exact (((yields_fieldOr rfl (carries_text f)).map app).seq
        (yields_fieldOr rfl (carries_texts ss))).seq (yields_fieldOr rfl hargs)
    | top s => exact carries_variant (by decide) ((carries_text s).map top)
    | bottom s => exact carries_variant (by decide) ((carries_text s).map bottom)
    | not s t =>
      have ht := ih (depth_lt_of_field (e := ("pattern", t.toItem)) (by simp) h)
      refine carries_variant (by decide) (Record.Yields.carries ?_ rfl (by simp))
      exact ((yields_fieldOr rfl (carries_text s)).map not).seq (yields_fieldOr rfl ht)
    | and s l r | or s l r | implies s l r | transition s l r =>
      have hl := ih (depth_lt_of_field (e := ("left", l.toItem)) (by simp) h)
      have hr := ih (depth_lt_of_field (e := ("right", r.toItem)) (by simp) h)
      refine carries_variant (by decide) (Record.Yields.carries ?_ rfl (by simp))
      exact (((yields_fieldOr rfl (carries_text s)).map _).seq (yields_fieldOr rfl hl)).seq
        (yields_fieldOr rfl hr)
    | equals o s l r | mem o s l r =>
      have hl := ih (depth_lt_of_field (e := ("left", l.toItem)) (by simp) h)
      have hr := ih (depth_lt_of_field (e := ("right", r.toItem)) (by simp) h)
      refine carries_variant (by decide) (Record.Yields.carries ?_ rfl (by simp))
      exact ((((yields_fieldOr rfl (carries_text o)).map _).seq (yields_fieldOr rfl (carries_text s))).seq
        (yields_fieldOr rfl hl)).seq (yields_fieldOr rfl hr)
    | ex s v vs b =>
      have hb := ih (depth_lt_of_field (e := ("body", b.toItem)) (by simp) h)
      refine carries_variant (by decide) (Record.Yields.carries ?_ rfl (by simp))
      exact ((((yields_fieldOr rfl (carries_text s)).map ex).seq (yields_fieldOr rfl (carries_text v))).seq
        (yields_fieldOr rfl (carries_text vs))).seq (yields_fieldOr rfl hb)
    | value s v =>
      refine carries_variant (by decide) (Record.Yields.carries ?_ rfl (by simp))
      exact ((yields_fieldOr rfl (carries_text s)).map value).seq (yields_fieldOr rfl (carries_text v))

theorem carries (t : Term) : Carries ofItem t.toItem t :=
  have h := carries_decode (Nat.lt_succ_self t.toItem.depth)
  ⟨h.written, h.decoded⟩

end Term

theorem Attribute.carries (a : Attribute) : Carries ofItem a.toItem a := by
  refine Record.Yields.carries ?_ rfl (by simp)
  exact ((yields_fieldOr rfl (carries_text a.name)).map mk).seq (yields_fieldOr rfl (carries_texts a.args))

@[simp] theorem names_attributesField : attributesField.names = ["attrs"] := rfl

theorem yields_attributes {entries : List (String × Item)} {l : List Attribute}
    (h : entries.lookup "attrs" = some (attributesItem l)) : attributesField.Yields entries l := by
  rw [attributesField]
  exact yields_fieldOr h (carries_list fun a _ => a.carries)

theorem SortDecl.carries (d : SortDecl) : Carries ofItem d.toItem d := by
  refine Record.Yields.carries ?_ rfl (by simp)
  exact ((yields_fieldOr rfl (carries_text d.name)).map mk).seq
    (yields_attributes rfl)

theorem SymbolDecl.carries (d : SymbolDecl) : Carries ofItem d.toItem d := by
  refine Record.Yields.carries ?_ rfl (by simp)
  exact ((((yields_fieldOr rfl (carries_text d.name)).map mk).seq
    (yields_fieldOr rfl (carries_texts d.paramSorts))).seq
    (yields_fieldOr rfl (carries_text d.resultSort))).seq
    (yields_attributes rfl)

theorem Axiom.carries (a : Axiom) : Carries ofItem a.toItem a := by
  refine Record.Yields.carries ?_ rfl (by simp)
  exact ((yields_fieldOr rfl a.term.carries).map mk).seq
    (yields_attributes rfl)

theorem Module.carries (m : Module) : Carries ofItem m.toItem m := by
  refine Record.Yields.carries ?_ rfl (by simp)
  exact ((((yields_fieldOr rfl (carries_text m.name)).map mk).seq
    (yields_fieldOr rfl (carries_list fun d _ => d.carries))).seq
    (yields_fieldOr rfl (carries_list fun d _ => d.carries))).seq
    (yields_fieldOr rfl (carries_list fun a _ => a.carries))

theorem Definition.carries (d : Definition) : Carries ofItem d.toItem d := by
  refine Record.Yields.carries ?_ rfl (by simp)
  exact (yields_fieldOr rfl (carries_list fun m _ => m.carries)).map mk

theorem carries_location (l : Location) : Carries locationOfItem (locationItem l) l :=
  carries_list fun n _ => carries_uint n

theorem Event.carries (e : Event) : Carries ofItem e.toItem e := by
  cases e with
  | function name position =>
    refine carries_variant (by decide) (Record.Yields.carries ?_ rfl (by simp))
    exact ((yields_fieldOr rfl (carries_text name)).map function).seq
      (yields_fieldOr rfl (carries_location position))
  | hook name args result =>
    refine carries_variant (by decide) (Record.Yields.carries ?_ rfl (by simp))
    exact (((yields_fieldOr rfl (carries_text name)).map hook).seq
      (yields_fieldOr rfl (carries_list fun t _ => t.carries))).seq (yields_fieldOr rfl result.carries)

theorem Hint.carries (h : Hint) : Carries ofItem h.toItem h := by
  have hlocation : Carries (Item.toOption locationOfItem) (h.location.elim .null locationItem)
      h.location := by
    cases h.location with
    | none => exact carries_none
    | some l => exact (carries_location l).some
  have hbindings : Carries (Item.toList (Item.toPair Item.toText Term.ofItem))
      (.list (h.bindings.map fun b => .list [.text b.1, b.2.toItem])) h.bindings :=
    carries_list fun b _ => (carries_text b.1).pair b.2.carries
  refine Record.Yields.carries ?_ rfl (by simp)
  exact (((((yields_fieldOr rfl (carries_uint h.ordinal)).map mk).seq
    (yields_fieldOr rfl h.configuration.carries)).seq (yields_fieldOr rfl hbindings)).seq
    (yields_fieldOr rfl hlocation)).seq (yields_fieldOr rfl (carries_list fun e _ => e.carries))

theorem Config.carries (c : Config) : Carries ofItem c.toItem c := by
  refine Record.Yields.carries ?_ rfl (by simp)
  exact (((((((yields_fieldOr rfl (carries_text c.symbolMark)).map mk).seq
    (yields_fieldOr rfl (carries_text c.sortMark))).seq
    (yields_fieldOr rfl (carries_text c.topCell))).seq
    (yields_fieldOr rfl (carries_text c.cellPattern))).seq
    (yields_fieldOr rfl (carries_text c.functionalAttribute))).seq
    (yields_fieldOr rfl (carries_text c.functionAttribute))).seq
    (yields_fieldOr rfl (carries_text c.hookAttribute))

end Kore

namespace Metamath

namespace Term

theorem carries_decode {fuel : Nat} {t : Term} (h : t.toItem.depth < fuel) :
    Carries (decode fuel) t.toItem t := by
  induction fuel generalizing t with
  | zero => cases h
  | succ fuel ih =>
    cases t with
    | app f ts =>
      have hlist : (Item.list (toItems ts)).depth < fuel :=
        depth_lt_of_field (e := ("subterms", .list (toItems ts))) (by simp) h
      have hargs : Carries (Item.toList (decode fuel)) (.list (toItems ts)) ts := by
        rw [toItems_eq] at hlist ⊢
        exact carries_list_of_depth (Nat.le_of_lt hlist) ih
      refine carries_variant (by decide) (Record.Yields.carries ?_ rfl (by simp))
      exact ((yields_fieldOr rfl (carries_text f)).map app).seq (yields_fieldOr rfl hargs)
    | var n => exact carries_variant (by decide) ((carries_text n).map var)

theorem carries (t : Term) : Carries ofItem t.toItem t :=
  have h := carries_decode (Nat.lt_succ_self t.toItem.depth)
  ⟨h.written, h.decoded⟩

end Term

namespace Statement

theorem carries_decode {fuel : Nat} {s : Statement} (h : s.toItem.depth < fuel) :
    Carries (decode fuel) s.toItem s := by
  have hterms (terms : List Term) :
      Carries (Item.toList Term.ofItem) (.list (Term.toItems terms)) terms := by
    rw [Term.toItems_eq]
    exact carries_list fun t _ => t.carries
  induction fuel generalizing s with
  | zero => cases h
  | succ fuel ih =>
    cases s with
    | declareConstants names => exact carries_variant (by decide) ((carries_texts names).map declareConstants)
    | declareVariables names => exact carries_variant (by decide) ((carries_texts names).map declareVariables)
    | floating label typecode name =>
      refine carries_variant (by decide) (Record.Yields.carries ?_ rfl (by simp))
      exact (((yields_fieldOr rfl (carries_text label)).map floating).seq
        (yields_fieldOr rfl (carries_text typecode))).seq (yields_fieldOr rfl (carries_text name))
    | essential label terms | axiomatic label terms | provable label terms =>
      refine carries_variant (by decide) (Record.Yields.carries ?_ rfl (by simp))
      exact ((yields_fieldOr rfl (carries_text label)).map _).seq (yields_fieldOr rfl (hterms terms))
    | block ss =>
      have hlist : (Item.list (toItems ss)).depth ≤ fuel :=
        Nat.le_of_lt_succ (Nat.lt_trans (depth_lt_variant "Block" _) h)
      have hstatements : Carries (Item.toList (decode fuel)) (.list (toItems ss)) ss := by
        rw [toItems_eq] at hlist ⊢
        exact carries_list_of_depth hlist ih
      exact carries_variant (by decide) (hstatements.map block)

theorem carries (s : Statement) : Carries ofItem s.toItem s :=
  have h := carries_decode (Nat.lt_succ_self s.toItem.depth)
  ⟨h.written, h.decoded⟩

end Statement

theorem Database.carries (d : Database) : Carries ofItem d.toItem d := by
  have hstatements : Carries (Item.toList Statement.ofItem) (.list (Statement.toItems d.statements))
      d.statements := by
    rw [Statement.toItems_eq]
    exact carries_list fun s _ => s.carries
  refine Record.Yields.carries ?_ rfl (by simp)
  exact (yields_fieldOr rfl hstatements).map mk

end Metamath

theorem Certificate.carries (c : Certificate) : Carries ofItem c.toItem c := by
  refine Record.Yields.carries ?_ rfl (by simp)
  exact (((yields_fieldOr rfl (carries_list fun b _ => carries_byte b)).map mk).seq
    (yields_fieldOr rfl (carries_list fun b _ => carries_byte b))).seq
    (yields_fieldOr rfl (carries_list fun b _ => carries_byte b))

namespace Cbor

variable {α : Type}

-- What is written of a value is read back if the reader goes as deep as arrays and maps are nested in it, and
-- only then. A level of the value is at most three of them, and what stands around its terms at most five, so that
-- 40 levels are within the usual limit. No more can be written than positions in the bytes can be counted.
structure Restores (nesting : α → Nat) (toItem : α → Item) (ofItem : Item → Except Error α) : Prop where
  exactly : ∀ limit a, (toItem a).encode.length < UInt64.size →
    (decode ofItem (toItem a).encode limit = .ok a ↔ (toItem a).depth ≤ limit)
  depth_le : ∀ a, (toItem a).depth ≤ max 8 (3 * nesting a + 5)
  nested : ∀ a, (toItem a).encode.length < UInt64.size → nesting a ≤ 40 →
    decode ofItem (toItem a).encode = .ok a

theorem restores_of_carries {nesting : α → Nat} {toItem : α → Item} {ofItem : Item → Except Error α}
    (hcarries : ∀ a, Carries ofItem (toItem a) a)
    (hdepth : ∀ a, (toItem a).depth ≤ max 8 (3 * nesting a + 5)) : Restores nesting toItem ofItem := by
  have hexactly (limit : Nat) (a : α) (hsize : (toItem a).encode.length < UInt64.size) :
      decode ofItem (toItem a).encode limit = .ok a ↔ (toItem a).depth ≤ limit :=
    decode_encode_iff (hcarries a).written hsize (hcarries a).decoded
  refine ⟨hexactly, hdepth, fun a hsize hnesting => (hexactly maxDepth a hsize).mpr ?_⟩
  have ha := hdepth a
  rw [maxDepth]
  omega

theorem formats_restored :
    Restores Kore.Definition.nesting Kore.Definition.toItem Kore.Definition.ofItem ∧
    Restores Kore.Hint.nesting Kore.Hint.toItem Kore.Hint.ofItem ∧
    Restores (fun _ => 0) Kore.Config.toItem Kore.Config.ofItem ∧
    Restores Metamath.Database.nesting Metamath.Database.toItem Metamath.Database.ofItem ∧
    Restores (fun _ => 0) Certificate.toItem Certificate.ofItem := by
  refine ⟨?definition, ?hint, ?config, ?database, ?certificate⟩
  case definition => exact restores_of_carries Kore.Definition.carries Kore.Definition.depth_toItem
  case hint =>
    refine restores_of_carries Kore.Hint.carries fun h => ?_
    exact Nat.le_trans h.depth_toItem (Nat.le_max_right _ _)
  case config =>
    refine restores_of_carries Kore.Config.carries fun c => ?_
    simp [Kore.Config.toItem, Item.depth_record, Item.depthAll, Item.depth]
  case database =>
    refine restores_of_carries Metamath.Database.carries fun d => ?_
    have hdepth := d.depth_toItem
    omega
  case certificate =>
    refine restores_of_carries Certificate.carries fun c => ?_
    have hdepth := c.depth_toItem
    omega

-- Numbers of several widths, a text beyond the ASCII characters, and all kinds of parts.
def varied : Kore.Hint where
  ordinal := 0x100000000
  configuration := .not "s" (.app "f" [] [.value "s" "λ😀"])
  bindings := [("x", .top "s")]
  location := some [23, 24, 65536]
  events := [.function "f" [0], .hook "h" [] (.bottom "s")]

theorem formats_restored_varied :
    varied.toItem.encode.length < UInt64.size ∧ varied.nesting = 3 ∧
      decode Kore.Hint.ofItem varied.toItem.encode = .ok varied := by
  obtain ⟨-, hhint, -⟩ := formats_restored
  have hsize : varied.toItem.encode.length < UInt64.size := by decide +kernel
  have hnesting : varied.nesting = 3 := by decide +kernel
  exact ⟨hsize, hnesting, hhint.nested varied hsize (hnesting ▸ by decide)⟩

def tower : Nat → Kore.Term
  | 0 => .app "f" [] []
  | n + 1 => .app "f" [] [tower n]

def high : Kore.Hint where
  ordinal := 0
  configuration := tower 44
  bindings := []
  location := none
  events := []

-- 100 levels of a value are too many, since reading stops at the arrays and maps of the 43rd.
theorem high_not_restored :
    high.nesting ≤ 100 ∧ high.toItem.encode.length < UInt64.size ∧
      decode Kore.Hint.ofItem high.toItem.encode ≠ .ok high := by
  have hsize : high.toItem.encode.length < UInt64.size := by decide +kernel
  have hdepth : ¬high.toItem.depth ≤ maxDepth := by decide +kernel
  have hcarries := high.carries
  exact ⟨by decide +kernel, hsize, fun h =>
    hdepth ((decode_encode_iff hcarries.written hsize hcarries.decoded).mp h)⟩

end Cbor
end MatchingLogic
