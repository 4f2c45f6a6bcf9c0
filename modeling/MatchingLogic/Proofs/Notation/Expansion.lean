import MatchingLogic.Notation.Builtin
import MatchingLogic.Proofs.Pattern.Substitution
import MatchingLogic.Proofs.Success

namespace MatchingLogic

namespace Pattern

theorem sugar_or_plain (p : Pattern) : (∃ name args, p = sugar name args) ∨ p.sugar? = none := by
  cases p <;> simp [sugar?]

-- No notation node is left.
def Unsugared (p : Pattern) : Prop :=
  ∀ q ∈ p.nodes, q.sugar? = none

@[simp] theorem unsugared_app {l r : Pattern} : (app l r).Unsugared ↔ l.Unsugared ∧ r.Unsugared := by
  simp [Unsugared, nodes, sugar?, or_imp, forall_and]

@[simp] theorem unsugared_imp {a c : Pattern} : (imp a c).Unsugared ↔ a.Unsugared ∧ c.Unsugared := by
  simp [Unsugared, nodes, sugar?, or_imp, forall_and]

@[simp] theorem unsugared_ex {v : UInt32} {b : Pattern} : (ex v b).Unsugared ↔ b.Unsugared := by
  simp [Unsugared, nodes, sugar?]

@[simp] theorem unsugared_mu {v : UInt32} {b : Pattern} : (mu v b).Unsugared ↔ b.Unsugared := by
  simp [Unsugared, nodes, sugar?]

@[simp] theorem not_unsugared_sugar {n : String} {args : List Pattern} :
    ¬(sugar n args).Unsugared := by
  simp [Unsugared, nodes, sugar?]

theorem unsugared_chain {head : Pattern} {args : List Pattern} (hhead : head.Unsugared)
    (hargs : ∀ a ∈ args, a.Unsugared) : (chain head args).Unsugared := by
  induction args generalizing head with
  | nil => exact hhead
  | cons a args ih =>
    have happ := unsugared_app.mpr ⟨hhead, hargs a (by simp)⟩
    exact ih happ fun b hb => hargs b (by simp [hb])

theorem unsugared_leaf {p : Pattern} (h : p.isLeaf = true) : p.Unsugared := by
  cases p <;> simp_all [isLeaf, Unsugared, nodes, sugar?]

end Pattern

namespace Notations

open Pattern

variable {ns : Notations}

theorem expandAllWith_eq (unfold : String → List Pattern → Except ConversionError Pattern)
    (ps : List Pattern) : expandAllWith unfold ps = ps.mapM (expandWith unfold) := by
  induction ps with
  | nil => rfl
  | cons p ps ih => simp [expandAllWith, ih]

section ExpandWith

variable {unfold : String → List Pattern → Except ConversionError Pattern} {p q : Pattern}

theorem expandWith_unsugared (h : p.Unsugared) : expandWith unfold p = .ok p := by
  induction p with
  | app l r ihl ihr =>
    have ⟨hl, hr⟩ := unsugared_app.mp h
    simp only [expandWith, ihl hl, ihr hr]
    rfl
  | imp a c iha ihc =>
    have ⟨ha, hc⟩ := unsugared_imp.mp h
    simp only [expandWith, iha ha, ihc hc]
    rfl
  | ex v b ih =>
    simp only [expandWith, ih (unsugared_ex.mp h)]
    rfl
  | mu v b ih =>
    simp only [expandWith, ih (unsugared_mu.mp h)]
    rfl
  | sugar n args => exact absurd h not_unsugared_sugar
  | _ => simp [expandWith]

-- Where single notations are replaced by patterns without notations, so is everything.
theorem unsugared_expandWith
    (hu : ∀ {name args q}, unfold name args = .ok q → q.Unsugared) (h : expandWith unfold p = .ok q) :
    q.Unsugared := by
  induction p generalizing q with
  | app l r ihl ihr =>
    rw [expandWith, bind_eq_ok] at h
    obtain ⟨l', hl, h⟩ := h
    obtain ⟨r', hr, h⟩ := bind_eq_ok.mp h
    cases h
    exact unsugared_app.mpr ⟨ihl hl, ihr hr⟩
  | imp a c iha ihc =>
    rw [expandWith, bind_eq_ok] at h
    obtain ⟨a', ha, h⟩ := h
    obtain ⟨c', hc, h⟩ := bind_eq_ok.mp h
    cases h
    exact unsugared_imp.mpr ⟨iha ha, ihc hc⟩
  | ex v b ih =>
    rw [expandWith, bind_eq_ok] at h
    obtain ⟨b', hb, h⟩ := h
    cases h
    exact unsugared_ex.mpr (ih hb)
  | mu v b ih =>
    rw [expandWith, bind_eq_ok] at h
    obtain ⟨b', hb, h⟩ := h
    cases h
    exact unsugared_mu.mpr (ih hb)
  | sugar n args ih =>
    rw [expandWith, bind_eq_ok] at h
    obtain ⟨args', -, h⟩ := h
    exact hu h
  | _ =>
    rw [expandWith_unsugared (unsugared_leaf rfl)] at h
    cases h
    exact unsugared_leaf rfl

end ExpandWith

theorem unsugared_expandTemplate {depth : Nat} {name : String} {args : List Pattern} {q : Pattern}
    (h : ns.expandTemplate depth name args = .ok q) : q.Unsugared := by
  induction depth generalizing name args q with
  | zero => cases h
  | succ depth ih =>
    rw [expandTemplate, bind_eq_ok] at h
    obtain ⟨body, -, h⟩ := h
    exact unsugared_expandWith ih h

theorem expand_eq_ok {name : String} {args : List Pattern} {body : Pattern} :
    ns.expand name args = .ok body ↔
      (ns.get? name = none ∧ chain (.symbol name) args = body) ∨
      ∃ n, ns.get? name = some n ∧ args.length = n.arity ∧
        n.template.instantiate (.positional args) = body := by
  rw [expand]
  cases ns.get? name with
  | none => simp
  | some n =>
    by_cases h : args.length = n.arity
      <;> simp [Notation.instantiate, Notation.checkArity, h, bind, Except.bind, pure, Except.pure]

-- One level of unfolding commutes with instantiation, errors included: a template has no metavariables but
-- its placeholders.
theorem expand_instantiate (name : String) (args : List Pattern) (s : Substitution) :
    ns.expand name (args.map (·.instantiate s)) = (ns.expand name args).map (·.instantiate s) := by
  rw [expand, expand]
  cases ns.get? name with
  | none => simp [Except.map, instantiate_chain]
  | some n =>
    simp only [Notation.instantiate, Notation.checkArity, List.length_map]
    by_cases h : args.length = n.arity
    case neg => simp only [h, if_false]; rfl
    case pos =>
      have hp := instantiate_positional (h ▸ n.placeholders) s
      simp only [h, if_true]
      exact congrArg Except.ok hp.symm

theorem expandAllWith_instantiate
    {unfold : String → List Pattern → Except ConversionError Pattern} {s : Substitution}
    {args : List Pattern} (h : ∀ a ∈ args,
      expandWith unfold (a.instantiate s) = (expandWith unfold a).map (·.instantiate s)) :
    expandAllWith unfold (args.map (·.instantiate s)) =
      (expandAllWith unfold args).map (List.map (·.instantiate s)) := by
  induction args with
  | nil => rfl
  | cons a args ih =>
    rw [List.map_cons, expandAllWith, expandAllWith, h a (by simp),
      ih fun b hb => h b (by simp [hb])]
    exact map_return₂ (fun _ _ => List.map_cons) ..

-- Expansion commutes with instantiation by plugs that hold no notations.
theorem expandWith_instantiate
    {unfold : String → List Pattern → Except ConversionError Pattern} {s : Substitution}
    (hu : ∀ name args,
      unfold name (args.map (·.instantiate s)) = (unfold name args).map (·.instantiate s))
    (hs : ∀ id q, s.get? id = some q → q.Unsugared) (p : Pattern) :
    expandWith unfold (p.instantiate s) = (expandWith unfold p).map (·.instantiate s) := by
  induction p with
  | symbol | elementVar | setVar => simp [expandWith, Except.map]
  | metavar id =>
    have hleaf : expandWith unfold (metavar id) = .ok (metavar id) :=
      expandWith_unsugared (unsugared_leaf rfl)
    rw [hleaf, instantiate_metavar, Except.map, instantiate_metavar]
    cases hget : s.get? id with
    | none => exact hleaf
    | some q => exact expandWith_unsugared (hs id q hget)
  | app l r ihl ihr =>
    rw [instantiate_app, expandWith, expandWith, ihl, ihr]
    exact map_return₂ (instantiate_app s) ..
  | imp a c iha ihc =>
    rw [instantiate_imp, expandWith, expandWith, iha, ihc]
    exact map_return₂ (instantiate_imp s) ..
  | ex v b ih =>
    rw [instantiate_ex, expandWith, expandWith, ih]
    exact map_return (instantiate_ex s v) _
  | mu v b ih =>
    rw [instantiate_mu, expandWith, expandWith, ih]
    exact map_return (instantiate_mu s v) _
  | sugar n args ih =>
    rw [instantiate_sugar, expandWith, expandWith, expandAllWith_instantiate ih]
    cases expandAllWith unfold args with
    | error e => rfl
    | ok args' => exact hu n args'

theorem expandTemplate_instantiate {s : Substitution}
    (hs : ∀ id q, s.get? id = some q → q.Unsugared) (depth : Nat) (name : String)
    (args : List Pattern) :
    ns.expandTemplate depth name (args.map (·.instantiate s)) =
      (ns.expandTemplate depth name args).map (·.instantiate s) := by
  induction depth generalizing name args with
  | zero => rfl
  | succ depth ih =>
    rw [expandTemplate, expandTemplate, expand_instantiate]
    cases ns.expand name args with
    | error e => rfl
    | ok body => exact expandWith_instantiate ih hs body

-- Unfolding of all notations, outermost first.
inductive Unfolds (ns : Notations) : Pattern → Pattern → Prop
  | symbol (name : String) : Unfolds ns (.symbol name) (.symbol name)
  | elementVar (id : UInt32) : Unfolds ns (.elementVar id) (.elementVar id)
  | setVar (id : UInt32) : Unfolds ns (.setVar id) (.setVar id)
  | metavar (id : UInt32) : Unfolds ns (.metavar id) (.metavar id)
  | app {l r l' r' : Pattern} : Unfolds ns l l' → Unfolds ns r r' → Unfolds ns (.app l r) (.app l' r')
  | imp {a c a' c' : Pattern} : Unfolds ns a a' → Unfolds ns c c' → Unfolds ns (.imp a c) (.imp a' c')
  | ex {v : UInt32} {b b' : Pattern} : Unfolds ns b b' → Unfolds ns (.ex v b) (.ex v b')
  | mu {v : UInt32} {b b' : Pattern} : Unfolds ns b b' → Unfolds ns (.mu v b) (.mu v b')
  | sugar {name : String} {args : List Pattern} {body q : Pattern} :
    ns.expand name args = .ok body → Unfolds ns body q → Unfolds ns (.sugar name args) q

namespace Unfolds

variable {p q q' : Pattern}

theorem unique (h : Unfolds ns p q) (h' : Unfolds ns p q') : q = q' := by
  induction h generalizing q' <;> cases h'
  case app ihl ihr _ _ hl hr => rw [ihl hl, ihr hr]
  case imp iha ihc _ _ ha hc => rw [iha ha, ihc hc]
  case ex ih _ hb => rw [ih hb]
  case mu ih _ hb => rw [ih hb]
  case sugar he _ ih _ he' h' =>
    cases he.symm.trans he'
    exact ih h'
  all_goals rfl

theorem instantiate {s s' : Substitution}
    (hs : ∀ id, Unfolds ns ((Pattern.metavar id).instantiate s) ((Pattern.metavar id).instantiate s'))
    (h : Unfolds ns p q) : Unfolds ns (p.instantiate s) (q.instantiate s') := by
  induction h
  case symbol name => exact .symbol name
  case elementVar id => exact .elementVar id
  case setVar id => exact .setVar id
  case metavar id => exact hs id
  case app ihl ihr => simpa using .app ihl ihr
  case imp iha ihc => simpa using .imp iha ihc
  case ex ih => simpa using .ex ih
  case mu ih => simpa using .mu ih
  case sugar name args body q he _ ih =>
    have he' : ns.expand name (args.map (·.instantiate s)) = .ok (body.instantiate s) := by
      rw [expand_instantiate, he, Except.map]
    exact instantiate_sugar s .. ▸ .sugar he' ih

theorem getD {x y : Option Pattern} (hxy : Option.Rel (Unfolds ns) x y) (h : Unfolds ns p q) :
    Unfolds ns (x.getD p) (y.getD q) := by
  cases hxy
  case none => exact h
  case some h => exact h

theorem chain {args args' : List Pattern} (hargs : List.Forall₂ (Unfolds ns) args args')
    (h : Unfolds ns p q) : Unfolds ns (p.chain args) (q.chain args') := by
  induction hargs generalizing p q with
  | nil => exact h
  | cons ha _ ih => exact ih (h.app ha)

end Unfolds

theorem unfolds_unsugared {p : Pattern} (h : p.Unsugared) : Unfolds ns p p := by
  induction p with
  | symbol name => exact .symbol name
  | elementVar id => exact .elementVar id
  | setVar id => exact .setVar id
  | metavar id => exact .metavar id
  | app l r ihl ihr => exact .app (ihl (unsugared_app.mp h).1) (ihr (unsugared_app.mp h).2)
  | imp a c iha ihc => exact .imp (iha (unsugared_imp.mp h).1) (ihc (unsugared_imp.mp h).2)
  | ex v b ih => exact .ex (ih (unsugared_ex.mp h))
  | mu v b ih => exact .mu (ih (unsugared_mu.mp h))
  | sugar n args => exact absurd h not_unsugared_sugar

-- Full expansion reaches what unfolding does, if it does so on a notation whose arguments are expanded.
theorem unfolds_of_expandWith {unfold : String → List Pattern → Except ConversionError Pattern}
    (hplain : ∀ {name args q}, unfold name args = .ok q → q.Unsugared)
    (hsugar : ∀ {name args args' q}, List.Forall₂ (Unfolds ns) args args' →
      (∀ a ∈ args', a.Unsugared) → unfold name args' = .ok q → Unfolds ns (.sugar name args) q)
    {p q : Pattern} (h : expandWith unfold p = .ok q) : Unfolds ns p q := by
  induction p generalizing q with
  | app l r ihl ihr =>
    rw [expandWith, bind_eq_ok] at h
    obtain ⟨l', hl, h⟩ := h
    obtain ⟨r', hr, h⟩ := bind_eq_ok.mp h
    cases h
    exact .app (ihl hl) (ihr hr)
  | imp a c iha ihc =>
    rw [expandWith, bind_eq_ok] at h
    obtain ⟨a', ha, h⟩ := h
    obtain ⟨c', hc, h⟩ := bind_eq_ok.mp h
    cases h
    exact .imp (iha ha) (ihc hc)
  | ex v b ih =>
    rw [expandWith, bind_eq_ok] at h
    obtain ⟨b', hb, h⟩ := h
    cases h
    exact .ex (ih hb)
  | mu v b ih =>
    rw [expandWith, bind_eq_ok] at h
    obtain ⟨b', hb, h⟩ := h
    cases h
    exact .mu (ih hb)
  | sugar n args ih =>
    rw [expandWith, bind_eq_ok] at h
    obtain ⟨args', hargs, h⟩ := h
    rw [expandAllWith_eq, mapM_eq_ok] at hargs
    refine hsugar ?_ (fun a' ha' => ?_) h
    · exact List.forall₂_iff_zip.mpr ⟨hargs.length_eq, fun hz =>
        ih _ (List.of_mem_zip hz).1 (List.forall₂_zip hargs hz)⟩
    · obtain ⟨a, -, ha⟩ := exists_mem_left hargs ha'
      exact unsugared_expandWith hplain ha
  | _ =>
    rw [expandWith_unsugared (unsugared_leaf rfl)] at h
    cases h
    exact unfolds_unsugared (unsugared_leaf rfl)

-- The template is expanded with expanded arguments in place. As these hold no notations, it may as well
-- be expanded before, and then the arguments may be put in as they were.
theorem unfolds_of_expandTemplate {depth : Nat} {name : String} {args args' : List Pattern}
    {q : Pattern} (hargs : List.Forall₂ (Unfolds ns) args args') (hplain : ∀ a ∈ args', a.Unsugared)
    (h : ns.expandTemplate depth name args' = .ok q) : Unfolds ns (.sugar name args) q := by
  induction depth generalizing name args args' q with
  | zero => cases h
  | succ depth ih =>
    rw [expandTemplate, bind_eq_ok] at h
    obtain ⟨body', hbody, h⟩ := h
    obtain ⟨hget, rfl⟩ | ⟨n, hget, hlen, rfl⟩ := expand_eq_ok.mp hbody
    · have hexpand : ns.expand name args = .ok (chain (.symbol name) args) :=
        expand_eq_ok.mpr (.inl ⟨hget, rfl⟩)
      rw [expandWith_unsugared (unsugared_chain (unsugared_leaf rfl) hplain)] at h
      cases h
      exact .sugar hexpand (.chain hargs (.symbol name))
    · have hplugs (id : UInt32) (a : Pattern) (ha : (Substitution.positional args').get? id = some a) :
          a.Unsugared :=
        hplain a (Substitution.mem_of_get?_positional ha)
      rw [expandWith_instantiate (expandTemplate_instantiate hplugs depth) hplugs, map_eq_ok] at h
      obtain ⟨t, ht, rfl⟩ := h
      have htemplate : Unfolds ns n.template t :=
        unfolds_of_expandWith unsugared_expandTemplate ih ht
      have hexpand : ns.expand name args = .ok (n.template.instantiate (.positional args)) :=
        expand_eq_ok.mpr (.inr ⟨n, hget, hargs.length_eq.trans hlen, rfl⟩)
      refine .sugar hexpand (htemplate.instantiate fun id => ?_)
      exact .getD (Substitution.rel_positional hargs id) (.metavar id)

theorem unfolds_of_expandFully {p q : Pattern} (h : ns.expandFully p = .ok q) : Unfolds ns p q :=
  unfolds_of_expandWith unsugared_expandTemplate unfolds_of_expandTemplate h

end Notations
end MatchingLogic
