import MatchingLogic.Certificate.Cbor
import MatchingLogic.Kore.Cbor
import MatchingLogic.Metamath.Cbor
import MatchingLogic.Proofs.Cbor.Decoding

namespace MatchingLogic

namespace Cbor

variable {α : Type}

def highest (f : α → Nat) : List α → Nat
  | [] => 0
  | a :: as => max (f a) (highest f as)

theorem le_highest {f : α → Nat} {a : α} {as : List α} (h : a ∈ as) : f a ≤ highest f as := by
  induction as with
  | nil => cases h
  | cons b as ih =>
    rw [highest]
    obtain rfl | h := List.mem_cons.mp h
    · exact Nat.le_max_left _ _
    · exact Nat.le_trans (ih h) (Nat.le_max_right _ _)

namespace Item

variable {toItem : α → Item} {as : List α}

theorem depth_list (items : List Item) : (list items).depth = depthAll items + 1 := by
  rw [list, depth]

theorem depth_record (entries : List (String × Item)) :
    (record entries).depth = depthAll (entries.map (·.2)) + 1 := by
  rw [record, depth]
  congr 1
  induction entries with
  | nil => rfl
  | cons e entries ih => simp [depthAll, depth, ih]

theorem depth_variant (name : String) (i : Item) : (variant name i).depth = i.depth + 1 := by
  simp [variant, depth_record, depthAll]

theorem depthAll_map_le {k : Nat} (h : ∀ a ∈ as, (toItem a).depth ≤ k) : depthAll (as.map toItem) ≤ k := by
  induction as with
  | nil => exact Nat.zero_le k
  | cons a as ih =>
    rw [List.map_cons, depthAll]
    exact Nat.max_le.mpr ⟨h a (by simp), ih fun b hb => h b (by simp [hb])⟩

theorem depth_texts (l : List String) : (texts l).depth ≤ 1 := by
  rw [texts, depth_list]
  exact Nat.succ_le_succ (depthAll_map_le fun s _ => by simp [depth])

-- The depth of the parts, where each is bounded by its own nesting.
theorem depthAll_map_le_highest {nesting : α → Nat} (bound : Nat → Nat) (hbound : Monotone bound)
    (h : ∀ a ∈ as, (toItem a).depth ≤ bound (nesting a)) :
    depthAll (as.map toItem) ≤ bound (highest nesting as) :=
  depthAll_map_le fun a ha => Nat.le_trans (h a ha) (hbound (le_highest ha))

theorem depthAll_map_le_mul {nesting : α → Nat} (h : ∀ a ∈ as, (toItem a).depth ≤ 3 * nesting a) :
    depthAll (as.map toItem) ≤ 3 * highest nesting as :=
  depthAll_map_le_highest (3 * ·) (fun _ _ => Nat.mul_le_mul_left 3) h

end Item
end Cbor

open Cbor (highest)
open Cbor.Item (depth depthAll depth_list depth_record depth_variant depth_texts depthAll_map_le
  depthAll_map_le_highest depthAll_map_le_mul)

namespace Kore

namespace Term

mutual

def nesting : Term → Nat
  | app _ _ ts => nestingAll ts + 1
  | not _ t | ex _ _ _ t => nesting t + 1
  | and _ l r | or _ l r | implies _ l r | equals _ _ l r | mem _ _ l r | transition _ l r =>
    max (nesting l) (nesting r) + 1
  | elementVar .. | setVar .. | top _ | bottom _ | value .. => 1

def nestingAll : List Term → Nat
  | [] => 0
  | t :: ts => max (nesting t) (nestingAll ts)

end

theorem nestingAll_eq (ts : List Term) : nestingAll ts = highest nesting ts := by
  induction ts with
  | nil => rfl
  | cons t ts ih => rw [nestingAll, ih, highest]

theorem toItems_eq (ts : List Term) : toItems ts = ts.map toItem := by
  induction ts with
  | nil => rfl
  | cons t ts ih => rw [toItems, ih, List.map_cons]

-- An application is an alternative with a record with a list, and no other term goes deeper.
theorem depth_toItem (t : Term) : t.toItem.depth ≤ 3 * t.nesting := by
  induction t with
  | app f ss ts ih =>
    have hargs : depthAll (ts.map toItem) ≤ 3 * highest nesting ts := depthAll_map_le_mul ih
    have hsorts := depth_texts ss
    simp only [toItem, nesting, toItems_eq, nestingAll_eq, depth_variant, depth_record, depth_list,
      List.map_cons, List.map_nil, depthAll, depth]
    omega
  | _ =>
    simp only [toItem, nesting, depth_variant, depth_record, List.map_cons, List.map_nil, depthAll, depth]
    omega

end Term

theorem Attribute.depth_toItem (a : Attribute) : a.toItem.depth ≤ 2 := by
  have hargs := depth_texts a.args
  simp only [toItem, depth_record, List.map_cons, List.map_nil, depthAll, depth]
  omega

theorem depth_attributesItem (l : List Attribute) : (attributesItem l).depth ≤ 3 := by
  rw [attributesItem, depth_list]
  exact Nat.succ_le_succ (depthAll_map_le fun a _ => a.depth_toItem)

theorem SortDecl.depth_toItem (d : SortDecl) : d.toItem.depth ≤ 4 := by
  have hattributes := depth_attributesItem d.attributes
  simp only [toItem, depth_record, List.map_cons, List.map_nil, depthAll, depth]
  omega

theorem SymbolDecl.depth_toItem (d : SymbolDecl) : d.toItem.depth ≤ 4 := by
  have hsorts := depth_texts d.paramSorts
  have hattributes := depth_attributesItem d.attributes
  simp only [toItem, depth_record, List.map_cons, List.map_nil, depthAll, depth]
  omega

theorem Axiom.depth_toItem (a : Axiom) : a.toItem.depth ≤ max 4 (3 * a.term.nesting + 1) := by
  have hterm := a.term.depth_toItem
  have hattributes := depth_attributesItem a.attributes
  simp only [toItem, depth_record, List.map_cons, List.map_nil, depthAll]
  omega

def Module.nesting (m : Module) : Nat :=
  highest (·.term.nesting) m.axioms

theorem Module.depth_toItem (m : Module) : m.toItem.depth ≤ max 6 (3 * m.nesting + 3) := by
  have hsorts : depthAll (m.sorts.map (·.toItem)) ≤ 4 := depthAll_map_le fun d _ => d.depth_toItem
  have hsymbols : depthAll (m.symbols.map (·.toItem)) ≤ 4 := depthAll_map_le fun d _ => d.depth_toItem
  have haxioms : depthAll (m.axioms.map (·.toItem)) ≤ max 4 (3 * m.nesting + 1) :=
    depthAll_map_le_highest (fun n => max 4 (3 * n + 1)) (fun _ _ h => by dsimp only; omega)
      fun a _ => a.depth_toItem
  simp only [toItem, depth_record, depth_list, List.map_cons, List.map_nil, depthAll, depth]
  omega

def Definition.nesting (d : Definition) : Nat :=
  highest Module.nesting d.modules

theorem Definition.depth_toItem (d : Definition) : d.toItem.depth ≤ max 8 (3 * d.nesting + 5) := by
  have hmodules : depthAll (d.modules.map (·.toItem)) ≤ max 6 (3 * d.nesting + 3) :=
    depthAll_map_le_highest (fun n => max 6 (3 * n + 3)) (fun _ _ h => by dsimp only; omega)
      fun m _ => m.depth_toItem
  simp only [toItem, depth_record, depth_list, List.map_cons, List.map_nil, depthAll]
  omega

theorem depth_locationItem (l : Location) : (locationItem l).depth ≤ 1 := by
  rw [locationItem, depth_list]
  exact Nat.succ_le_succ (depthAll_map_le fun n _ => by simp [depth])

def Event.nesting : Event → Nat
  | function _ _ => 0
  | hook _ args result => max (highest Term.nesting args) result.nesting

theorem Event.depth_toItem (e : Event) : e.toItem.depth ≤ 3 * e.nesting + 3 := by
  cases e with
  | function name position =>
    have hposition := depth_locationItem position
    simp only [toItem, depth_variant, depth_record, List.map_cons, List.map_nil, depthAll, depth]
    omega
  | hook name args result =>
    have hargs : depthAll (args.map (·.toItem)) ≤ 3 * highest Term.nesting args :=
      depthAll_map_le_mul fun t _ => t.depth_toItem
    have hresult := result.depth_toItem
    simp only [toItem, nesting, depth_variant, depth_record, depth_list, List.map_cons, List.map_nil,
      depthAll, depth]
    omega

def Hint.nesting (h : Hint) : Nat :=
  max h.configuration.nesting (max (highest (·.2.nesting) h.bindings) (highest Event.nesting h.events))

theorem Hint.depth_toItem (h : Hint) : h.toItem.depth ≤ 3 * h.nesting + 5 := by
  have hconfiguration := h.configuration.depth_toItem
  have hbindings : depthAll (h.bindings.map fun b => .list [.text b.1, b.2.toItem]) ≤
      3 * highest (·.2.nesting) h.bindings + 1 := by
    refine depthAll_map_le_highest (3 * · + 1) (fun _ _ h => by dsimp only; omega) fun b _ => ?_
    have hterm := b.2.depth_toItem
    simp only [depth_list, depthAll, depth]
    omega
  have hlocation : (h.location.elim .null locationItem).depth ≤ 1 := by
    cases h.location with
    | none => simp [depth]
    | some l => exact depth_locationItem l
  have hevents : depthAll (h.events.map (·.toItem)) ≤ 3 * highest Event.nesting h.events + 3 :=
    depthAll_map_le_highest (3 * · + 3) (fun _ _ h => by dsimp only; omega) fun e _ => e.depth_toItem
  simp only [toItem, nesting, depth_record, depth_list, List.map_cons, List.map_nil, depthAll, depth]
  omega

end Kore

namespace Metamath

namespace Term

mutual

def nesting : Term → Nat
  | app _ ts => nestingAll ts + 1
  | var _ => 1

def nestingAll : List Term → Nat
  | [] => 0
  | t :: ts => max (nesting t) (nestingAll ts)

end

theorem nestingAll_eq (ts : List Term) : nestingAll ts = highest nesting ts := by
  induction ts with
  | nil => rfl
  | cons t ts ih => rw [nestingAll, ih, highest]

theorem toItems_eq (ts : List Term) : toItems ts = ts.map toItem := by
  induction ts with
  | nil => rfl
  | cons t ts ih => rw [toItems, ih, List.map_cons]

theorem depth_toItem (t : Term) : t.toItem.depth ≤ 3 * t.nesting := by
  induction t with
  | app f ts ih =>
    have hargs : depthAll (ts.map toItem) ≤ 3 * highest nesting ts := depthAll_map_le_mul ih
    simp only [toItem, nesting, toItems_eq, nestingAll_eq, depth_variant, depth_record, depth_list,
      List.map_cons, List.map_nil, depthAll, depth]
    omega
  | var n =>
    simp only [toItem, nesting, depth_variant, depth]
    omega

end Term

namespace Statement

mutual

def nesting : Statement → Nat
  | essential _ ts | axiomatic _ ts | provable _ ts => highest Term.nesting ts + 1
  | block ss => nestingAll ss + 1
  | declareConstants _ | declareVariables _ | floating .. => 1

def nestingAll : List Statement → Nat
  | [] => 0
  | s :: ss => max (nesting s) (nestingAll ss)

end

theorem nestingAll_eq (ss : List Statement) : nestingAll ss = highest nesting ss := by
  induction ss with
  | nil => rfl
  | cons s ss ih => rw [nestingAll, ih, highest]

theorem toItems_eq (ss : List Statement) : toItems ss = ss.map toItem := by
  induction ss with
  | nil => rfl
  | cons s ss ih => rw [toItems, ih, List.map_cons]

theorem depth_labelled (label : String) (ts : List Term) :
    (toItem.labelled label ts).depth ≤ 3 * highest Term.nesting ts + 2 := by
  have hterms : depthAll (ts.map Term.toItem) ≤ 3 * highest Term.nesting ts :=
    depthAll_map_le_mul fun t _ => t.depth_toItem
  simp only [toItem.labelled, Term.toItems_eq, depth_record, depth_list, List.map_cons, List.map_nil,
    depthAll, depth]
  omega

theorem depth_toItem (s : Statement) : s.toItem.depth ≤ 3 * s.nesting := by
  induction s with
  | declareConstants names | declareVariables names =>
    have hnames := depth_texts names
    simp only [toItem, nesting, depth_variant]
    omega
  | floating label typecode name =>
    simp only [toItem, nesting, depth_variant, depth_record, List.map_cons, List.map_nil, depthAll, depth]
    omega
  | essential label ts | axiomatic label ts | provable label ts =>
    have hcontent := depth_labelled label ts
    simp only [toItem, nesting, depth_variant]
    omega
  | block ss ih =>
    have hstatements : depthAll (ss.map toItem) ≤ 3 * highest nesting ss := depthAll_map_le_mul ih
    simp only [toItem, nesting, toItems_eq, nestingAll_eq, depth_variant, depth_list]
    omega

end Statement

def Database.nesting (d : Database) : Nat :=
  highest Statement.nesting d.statements

theorem Database.depth_toItem (d : Database) : d.toItem.depth ≤ 3 * d.nesting + 2 := by
  have hstatements : depthAll (d.statements.map Statement.toItem) ≤ 3 * d.nesting :=
    depthAll_map_le_mul fun s _ => s.depth_toItem
  simp only [toItem, Statement.toItems_eq, depth_record, depth_list, List.map_cons, List.map_nil, depthAll]
  omega

end Metamath

theorem Certificate.depth_toItem (c : Certificate) : c.toItem.depth ≤ 2 := by
  have hstream (stream : Bytes) : (streamItem stream).depth ≤ 1 := by
    rw [streamItem, depth_list]
    exact Nat.succ_le_succ (depthAll_map_le fun b _ => by simp [depth])
  have htheory := hstream c.theory
  have hclaims := hstream c.claims
  have hproofs := hstream c.proofs
  simp only [toItem, depth_record, List.map_cons, List.map_nil, depthAll]
  omega

end MatchingLogic
