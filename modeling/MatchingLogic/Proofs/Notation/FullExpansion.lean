import MatchingLogic.Proofs.Notation.Acyclic
import MatchingLogic.Proofs.Notation.Registration
import MatchingLogic.Proofs.Pattern.Location

namespace MatchingLogic

namespace Pattern

variable {R : String → Nat → Prop} {p : Pattern} {s : Substitution} {id : UInt32}

theorem child_induction {motive : Pattern → Prop}
    (h : ∀ p : Pattern, (∀ c ∈ p.children, motive c) → motive p) (p : Pattern) : motive p := by
  induction p with
  | app l r ihl ihr | imp l r ihl ihr => exact h _ (by simp [children, ihl, ihr])
  | ex v b ih | mu v b ih => exact h _ (by simp [children, ih])
  | sugar name args ih => exact h _ ih
  | _ => exact h _ (by simp [children])

theorem within_iff_children (hp : p.sugar? = none) : p.Within R ↔ ∀ c ∈ p.children, c.Within R := by
  cases p with
  | sugar => cases hp
  | _ => simp [children]

theorem Within.of_instantiate (h : (p.instantiate s).Within R) : p.Within R := by
  induction p with
  | app l r ihl ihr | imp l r ihl ihr =>
    simp only [instantiate_app, instantiate_imp, within_app, within_imp] at h
    simpa using ⟨ihl h.1, ihr h.2⟩
  | ex v b ih | mu v b ih =>
    simp only [instantiate_ex, instantiate_mu, within_ex, within_mu] at h
    simpa using ih h
  | sugar name args ih =>
    rw [instantiate_sugar, within_sugar, List.length_map] at h
    exact within_sugar.mpr ⟨h.1, fun a ha => ih a ha (h.2 _ (List.mem_map_of_mem ha))⟩
  | _ => simp

end Pattern

namespace Notations

open Pattern

variable {ns : Notations} {name : String} {count : Nat} {p q : Pattern}

mutual

-- Full expansion of a pattern ends with this answer.
inductive Expands (ns : Notations) : Pattern → Except ConversionError Pattern → Prop
  | node {p : Pattern} {r : Except ConversionError (List Pattern)} (hp : p.sugar? = none)
    (hr : ExpandsAll ns p.children r) : Expands ns p (r.map p.withChildren)
  | stopped {name : String} {args : List Pattern} {e : ConversionError}
    (hargs : ExpandsAll ns args (.error e)) : Expands ns (.sugar name args) (.error e)
  | refused {name : String} {args args' : List Pattern} {e : ConversionError}
    (hargs : ExpandsAll ns args (.ok args')) (hbody : ns.expand name args' = .error e) :
    Expands ns (.sugar name args) (.error e)
  | body {name : String} {args args' : List Pattern} {body : Pattern} {r : Except ConversionError Pattern}
    (hargs : ExpandsAll ns args (.ok args')) (hbody : ns.expand name args' = .ok body)
    (hr : Expands ns body r) : Expands ns (.sugar name args) r

-- Full expansion of several patterns in turn ends with this answer.
inductive ExpandsAll (ns : Notations) : List Pattern → Except ConversionError (List Pattern) → Prop
  | nil : ExpandsAll ns [] (.ok [])
  | stopped {p : Pattern} {ps : List Pattern} {e : ConversionError} (hp : Expands ns p (.error e)) :
    ExpandsAll ns (p :: ps) (.error e)
  | cons {p q : Pattern} {ps : List Pattern} {r : Except ConversionError (List Pattern)}
    (hp : Expands ns p (.ok q)) (hr : ExpandsAll ns ps r) : ExpandsAll ns (p :: ps) (r.map (q :: ·))

end

section ExpandWith

variable {unfold : String → List Pattern → Except ConversionError Pattern} {R : String → Nat → Prop}

theorem expandWith_node (hp : p.sugar? = none) :
    expandWith unfold p = (p.children.mapM (expandWith unfold)).map p.withChildren := by
  cases p with
  | sugar => cases hp
  | app l r | imp l r =>
    simp only [expandWith, children, List.mapM_cons, List.mapM_nil]
    cases expandWith unfold l <;> cases expandWith unfold r <;> rfl
  | ex v b | mu v b =>
    simp only [expandWith, children, List.mapM_cons, List.mapM_nil]
    cases expandWith unfold b <;> rfl
  | _ => rw [expandWith_unsugared (unsugared_leaf rfl)]; rfl

theorem expandWith_sugar (name : String) (args : List Pattern) :
    expandWith unfold (.sugar name args) = args.mapM (expandWith unfold) >>= unfold name := by
  rw [expandWith, expandAllWith_eq]

theorem expandsAll_mapM {ps : List Pattern} (h : ∀ p ∈ ps, ns.Expands p (expandWith unfold p)) :
    ns.ExpandsAll ps (ps.mapM (expandWith unfold)) := by
  induction ps with
  | nil => exact .nil
  | cons p ps ih =>
    have hp := h p (by simp)
    have hps := ih fun q hq => h q (by simp [hq])
    rw [List.mapM_cons]
    cases hq : expandWith unfold p with
    | error e => exact .stopped (hq ▸ hp)
    | ok q =>
      have hcons := ExpandsAll.cons (hq ▸ hp) hps
      cases hqs : ps.mapM (expandWith unfold) <;> rw [hqs] at hcons <;> exact hcons

-- One notation, with arguments that are expanded.
def ExpandsNode (ns : Notations) (name : String) (args : List Pattern) (r : Except ConversionError Pattern) :
    Prop :=
  (∃ e, ns.expand name args = .error e ∧ r = .error e) ∨
    ∃ body, ns.expand name args = .ok body ∧ ns.Expands body r

theorem expands_expandWith (hplain : ∀ {name args q}, unfold name args = .ok q → q.Unsugared)
    (hunfold : ∀ {name args}, R name args.length → (∀ a ∈ args, a.Unsugared) →
      ns.ExpandsNode name args (unfold name args))
    (hp : p.Within R) : ns.Expands p (expandWith unfold p) := by
  induction p using child_induction with
  | h p ih =>
    obtain ⟨name, args, rfl⟩ | hsugar := p.sugar_or_plain
    case inr =>
      rw [expandWith_node hsugar]
      exact .node hsugar (expandsAll_mapM fun c hc => ih c hc ((within_iff_children hsugar).mp hp c hc))
    case inl =>
      obtain ⟨hname, hargs⟩ := within_sugar.mp hp
      have hall := expandsAll_mapM fun a ha => ih a ha (hargs a ha)
      rw [expandWith_sugar]
      -- Either an argument stops the expansion, or all of them are expanded.
      cases hmapM : args.mapM (expandWith unfold) with
      | error e => exact .stopped (hmapM ▸ hall)
      | ok args' =>
        have hforall := mapM_eq_ok.mp hmapM
        have hunsugared (a' : Pattern) (ha' : a' ∈ args') : a'.Unsugared := by
          obtain ⟨a, -, ha⟩ := exists_mem_left hforall ha'
          exact unsugared_expandWith hplain ha
        obtain ⟨e, hbody, heq⟩ | ⟨body, hbody, hr⟩ := hunfold (hforall.length_eq ▸ hname) hunsugared
        · change ns.Expands _ (unfold name args')
          rw [heq]
          exact .refused (hmapM ▸ hall) hbody
        · exact .body (hmapM ▸ hall) hbody hr

theorem within_of_expandWith (hunfold : ∀ {name args q}, unfold name args = .ok q → R name args.length)
    (h : expandWith unfold p = .ok q) : p.Within R := by
  induction p using child_induction generalizing q with
  | h p ih =>
    obtain ⟨name, args, rfl⟩ | hsugar := p.sugar_or_plain
    case inr =>
      rw [expandWith_node hsugar, map_eq_ok] at h
      obtain ⟨cs, hcs, -⟩ := h
      refine (within_iff_children hsugar).mpr fun c hc => ?_
      obtain ⟨c', -, hc'⟩ := exists_mem_right (mapM_eq_ok.mp hcs) hc
      exact ih c hc hc'
    case inl =>
      rw [expandWith_sugar, bind_eq_ok] at h
      obtain ⟨args', hargs, h⟩ := h
      have hforall := mapM_eq_ok.mp hargs
      refine within_sugar.mpr ⟨hforall.length_eq ▸ hunfold h, fun a ha => ?_⟩
      obtain ⟨a', -, ha'⟩ := exists_mem_right hforall ha
      exact ih a ha ha'

end ExpandWith

section Answers

theorem Expands.unique {r r' : Except ConversionError Pattern} (h : ns.Expands p r) (h' : ns.Expands p r') :
    r = r' := by
  revert r'
  refine @Expands.rec ns (fun p r _ => ∀ {r'}, ns.Expands p r' → r = r')
    (fun ps r _ => ∀ {r'}, ns.ExpandsAll ps r' → r = r') ?_ ?_ ?_ ?_ ?_ ?_ ?_ p r h
  case refine_1 =>
    intro p r hp _ ih r' h'
    cases h' with
    | node _ hr' => rw [ih hr']
    | stopped | refused | body => cases hp
  case refine_2 =>
    intro name args e _ ih r' h'
    cases h' with
    | node hp => cases hp
    | stopped hargs => cases ih hargs; rfl
    | refused hargs | body hargs => cases ih hargs
  case refine_3 =>
    intro name args args' e _ hbody ih r' h'
    cases h' with
    | node hp => cases hp
    | stopped hargs => cases ih hargs
    | refused hargs hbody' =>
      cases ih hargs
      cases hbody.symm.trans hbody'
      rfl
    | body hargs hbody' =>
      cases ih hargs
      cases hbody.symm.trans hbody'
  case refine_4 =>
    intro name args args' body r _ hbody _ ih ihr r' h'
    cases h' with
    | node hp => cases hp
    | stopped hargs => cases ih hargs
    | refused hargs hbody' =>
      cases ih hargs
      cases hbody.symm.trans hbody'
    | body hargs hbody' hr' =>
      cases ih hargs
      cases hbody.symm.trans hbody'
      exact ihr hr'
  case refine_5 =>
    intro r' h'
    cases h'
    rfl
  case refine_6 =>
    intro p ps e _ ih r' h'
    cases h' with
    | stopped hp => cases ih hp; rfl
    | cons hp => cases ih hp
  case refine_7 =>
    intro p q ps r _ _ ihp ihr r' h'
    cases h' with
    | stopped hp => cases ihp hp
    | cons hp hr => cases ihp hp; rw [ihr hr]

-- A notation stands in the pattern, or in a template that one of the pattern leads to.
def Brings (ns : Notations) (p : Pattern) (name : String) : Prop :=
  ∃ other args, .sugar other args ∈ p.nodes ∧ Relation.ReflTransGen ns.Refers other name

-- All notations have their number of arguments, in the pattern and in the templates that it brings in.
def Proper (ns : Notations) (p : Pattern) : Prop :=
  p.Within ns.Fits ∧ ∀ name n, ns.Brings p name → ns.get? name = some n → n.template.Within ns.Fits

-- So does a single notation with these many arguments.
def FitsBelow (ns : Notations) (name : String) (count : Nat) : Prop :=
  ns.Fits name count ∧ ∀ other n, Relation.ReflTransGen ns.Refers name other → ns.get? other = some n →
    n.template.Within ns.Fits

theorem proper_iff : ns.Proper p ↔ p.Within ns.FitsBelow := by
  constructor
  case mp =>
    rintro ⟨hp, htemplates⟩ name args hmem
    exact ⟨hp name args hmem, fun other n hleads => htemplates other n ⟨name, args, hmem, hleads⟩⟩
  case mpr =>
    intro h
    refine ⟨h.mono And.left, ?_⟩
    rintro name n ⟨other, args, hmem, hleads⟩
    exact (h other args hmem).2 name n hleads

theorem fitsBelow_iff : ns.FitsBelow name count ↔
    ns.Fits name count ∧ ∀ n, ns.get? name = some n → n.template.Within ns.FitsBelow := by
  constructor
  case mp =>
    rintro ⟨hfits, hbelow⟩
    refine ⟨hfits, fun n hget other args hmem => ⟨hbelow name n .refl hget other args hmem, ?_⟩⟩
    intro last m hleads hm
    by_cases hother : ns.contains other
    · exact hbelow last m (.head ⟨hother, n, args, hget, hmem⟩ hleads) hm
    · -- What is not registered leads nowhere.
      have hnone : ns.get? other = none := by simpa [contains] using hother
      obtain rfl | ⟨next, ⟨-, m', -, hm', -⟩, -⟩ := hleads.cases_head
      · cases hnone.symm.trans hm
      · cases hnone.symm.trans hm'
  case mpr =>
    rintro ⟨hfits, htemplate⟩
    refine ⟨hfits, fun other m hleads hm => ?_⟩
    obtain rfl | ⟨next, ⟨-, n, args, hget, hmem⟩, hrest⟩ := hleads.cases_head
    · exact (htemplate m hm).mono And.left
    · exact (htemplate n hget next args hmem).2 other m hrest hm

theorem fitsBelow_of_expandTemplate {depth : Nat} {args : List Pattern}
    (h : ns.expandTemplate depth name args = .ok q) : ns.FitsBelow name args.length := by
  induction depth generalizing name args q with
  | zero => cases h
  | succ depth ih =>
    rw [expandTemplate, bind_eq_ok] at h
    obtain ⟨body, hbody, h⟩ := h
    obtain ⟨hnone, -⟩ | ⟨n, hget, hlength, rfl⟩ := expand_eq_ok.mp hbody
    · exact fitsBelow_iff.mpr ⟨by simp [Fits, hnone], by simp [hnone]⟩
    · have hwithin : (n.template.instantiate (.positional args)).Within ns.FitsBelow :=
        within_of_expandWith ih h
      refine fitsBelow_iff.mpr ⟨fun m hm => ?_, fun m hm => ?_⟩
      all_goals cases hget.symm.trans hm
      · exact hlength
      · exact hwithin.of_instantiate

theorem descends_fitsBelow (hns : ns.Acyclic) :
    ns.Descends fun depth name count => ns.FitsBelow name count ∧ ns.height name < depth where
  bottom hname := Nat.not_lt_zero _ hname.2
  fits hname := hname.1.1
  template {depth name count n} hname hget := by
    intro other args hmem
    have hlt := height_lt hns hget other args hmem
    exact ⟨(fitsBelow_iff.mp hname.1).2 n hget other args hmem, by omega⟩

-- Full expansion gives a pattern exactly if all notations have their number of arguments.
theorem exists_expandFully_iff (hns : ns.Acyclic) : (∃ q, ns.expandFully p = .ok q) ↔ ns.Proper p := by
  rw [proper_iff]
  constructor
  case mp =>
    rintro ⟨q, hq⟩
    exact within_of_expandWith fitsBelow_of_expandTemplate hq
  case mpr =>
    intro hp
    have hbounded : p.Within fun name count => ns.FitsBelow name count ∧ ns.height name < ns.size + 1 :=
      hp.mono fun hname => ⟨hname, Nat.lt_succ_of_le (height_le_size hns _)⟩
    exact exists_expandWith unsugared_expandTemplate (exists_expandTemplate (descends_fitsBelow hns)) hbounded

theorem metavars_expand {args : List Pattern} (h : ns.expand name args = .ok p) {id : UInt32}
    (hid : id ∈ p.metavars) : id ∈ (Pattern.sugar name args).metavars := by
  rw [mem_metavars_sugar]
  obtain ⟨-, rfl⟩ | ⟨n, hget, hlength, rfl⟩ := expand_eq_ok.mp h
  · refine (mem_metavars_chain.mp hid).resolve_left fun hhead => ?_
    simp [mem_metavars, nodes] at hhead
  · obtain ⟨i, hi, hid⟩ := mem_metavars_instantiate.mp hid
    -- A template has no metavariables but its placeholders.
    obtain ⟨a, ha⟩ := Option.isSome_iff_exists.mp
      (Substitution.get?_positional_isSome (hlength ▸ n.placeholders i hi))
    rw [instantiate_metavar, ha] at hid
    exact ⟨a, Substitution.mem_of_get?_positional ha, hid⟩

theorem Unfolds.metavars (h : ns.Unfolds p q) {id : UInt32} (hid : id ∈ q.metavars) : id ∈ p.metavars := by
  induction h with
  | symbol | elementVar | setVar | metavar => exact hid
  | app _ _ ihl ihr => exact mem_metavars_app.mpr ((mem_metavars_app.mp hid).imp ihl ihr)
  | imp _ _ iha ihc => exact mem_metavars_imp.mpr ((mem_metavars_imp.mp hid).imp iha ihc)
  | ex _ ih => exact mem_metavars_ex.mpr (ih (mem_metavars_ex.mp hid))
  | mu _ ih => exact mem_metavars_mu.mpr (ih (mem_metavars_mu.mp hid))
  | sugar hbody _ ih => exact metavars_expand hbody (ih hid)

theorem expandsNode_expandTemplate (hns : ns.Acyclic) {depth : Nat} {args : List Pattern}
    (hname : ns.height name < depth) (hargs : ∀ a ∈ args, a.Unsugared) :
    ns.ExpandsNode name args (ns.expandTemplate depth name args) := by
  induction depth generalizing name args with
  | zero => exact absurd hname (Nat.not_lt_zero _)
  | succ depth ih =>
    rw [expandTemplate]
    cases hbody : ns.expand name args with
    | error e => exact .inl ⟨e, hbody, rfl⟩
    | ok body =>
      refine .inr ⟨body, hbody, ?_⟩
      have hwithin : body.Within fun other _ => ns.height other < depth := by
        obtain ⟨-, rfl⟩ | ⟨n, hget, -, rfl⟩ := expand_eq_ok.mp hbody
        · exact within_of_unsugared (unsugared_chain (unsugared_leaf rfl) hargs)
        · refine Within.instantiate ((height_lt hns hget).mono fun hlt => by omega) fun id a ha => ?_
          exact within_of_unsugared (hargs a (Substitution.mem_of_get?_positional ha))
      exact expands_expandWith unsugared_expandTemplate ih hwithin

-- The recursion comes to an end for every pattern.
theorem expands_expandFully (hns : ns.Acyclic) (p : Pattern) : ns.Expands p (ns.expandFully p) := by
  have hp : p.Within fun name _ => ns.height name < ns.size + 1 :=
    fun name _ _ => Nat.lt_succ_of_le (height_le_size hns name)
  exact expands_expandWith unsugared_expandTemplate (expandsNode_expandTemplate hns) hp

-- There is one reason not to give a pattern: a registered notation with the wrong number of arguments.
inductive Misfit (ns : Notations) : ConversionError → Prop
  | arity {name : String} {n : Notation} {found : Nat} (hget : ns.get? name = some n) (hfound : found ≠ n.arity) :
    Misfit ns (.arity name n.arity found)

theorem misfit_of_expand {args : List Pattern} {e : ConversionError} (h : ns.expand name args = .error e) :
    ns.Misfit e := by
  rw [expand] at h
  cases hget : ns.get? name with
  | none => simp [hget] at h
  | some n =>
    have hname : n.name = name := by simpa using List.find?_some hget
    rw [hget] at h
    simp only [Notation.instantiate, Notation.checkArity] at h
    split at h
    case isTrue => cases h
    case isFalse hfound =>
      cases h
      exact hname ▸ .arity (hname ▸ hget) hfound

theorem Expands.failsOnly {r : Except ConversionError Pattern} (h : ns.Expands p r) : FailsOnly ns.Misfit r := by
  refine @Expands.rec ns (fun _ r _ => FailsOnly ns.Misfit r) (fun _ r _ => FailsOnly ns.Misfit r)
    ?_ ?_ ?_ ?_ ?_ ?_ ?_ p r h
  case refine_1 => exact fun _ _ ih => ih.map
  case refine_2 => exact fun _ ih => .error (ih _ rfl)
  case refine_3 => exact fun _ hbody _ => .error (misfit_of_expand hbody)
  case refine_4 => exact fun _ _ _ _ ih => ih
  case refine_5 => exact .ok []
  case refine_6 => exact fun _ ih => .error (ih _ rfl)
  case refine_7 => exact fun _ _ _ ih => ih.map

-- Where no notation leads back to itself, full expansion comes to an end. Its answer is a pattern exactly if all
-- notations have their number of arguments, in the pattern and in the templates that it brings in; this pattern has
-- no notations, and no metavariables that were not there before. Any other answer names a notation with the wrong
-- number of arguments.
theorem expandFully_exactly (hns : ns.Acyclic) (p : Pattern) :
    (∀ r, ns.Expands p r ↔ ns.expandFully p = r) ∧
    ((∃ q, ns.expandFully p = .ok q) ↔ ns.Proper p) ∧
    (∀ q, ns.expandFully p = .ok q → q.Unsugared ∧ ∀ id ∈ q.metavars, id ∈ p.metavars) ∧
    ∀ e, ns.expandFully p = .error e →
      ∃ name n found, ns.get? name = some n ∧ found ≠ n.arity ∧ e = .arity name n.arity found := by
  have hends := expands_expandFully hns p
  refine ⟨fun r => ⟨fun h => hends.unique h, fun h => h ▸ hends⟩, exists_expandFully_iff hns, fun q hq => ⟨?_, ?_⟩,
    fun e he => ?_⟩
  · exact unsugared_expandWith unsugared_expandTemplate hq
  · exact fun id => (unfolds_of_expandFully hq).metavars
  · cases hends.failsOnly e he with
    | arity hget hfound => exact ⟨_, _, _, hget, hfound, rfl⟩

end Answers

namespace Dropping

-- A notation that does not use its argument.
def drop : Notation :=
  .ofTemplate "drop" 1 (.symbol "d") (by decide) (by decide)

def registry : Notations :=
  builtin.register drop

theorem acyclic_registry : registry.Acyclic := by
  have hordered : registry.Ordered :=
    ordered_builtin.register (by decide +kernel) (within_of_unsugared (unsugared_leaf rfl))
  exact hordered.grounded.acyclic

end Dropping

-- An argument that is dropped is expanded all the same, and a notation in it may have too few arguments.
open Dropping in
theorem expandFully_exactly_dropped :
    registry.Acyclic ∧ registry.Expands (.sugar "drop" [.neg (.metavar 7)]) (.ok (.symbol "d")) ∧
    registry.Proper (.sugar "drop" [.neg (.metavar 7)]) ∧ ¬registry.Proper (.sugar "drop" [.sugar "\\neg" []]) := by
  have hns := acyclic_registry
  obtain ⟨hends, hproper, -⟩ := expandFully_exactly hns (.sugar "drop" [.neg (.metavar 7)])
  obtain ⟨-, hproper', -⟩ := expandFully_exactly hns (.sugar "drop" [.sugar "\\neg" []])
  refine ⟨hns, (hends _).mpr (by rfl), hproper.mp ⟨.symbol "d", by rfl⟩, fun h => ?_⟩
  obtain ⟨q, hq⟩ := hproper'.mpr h
  cases hq

end Notations
end MatchingLogic
