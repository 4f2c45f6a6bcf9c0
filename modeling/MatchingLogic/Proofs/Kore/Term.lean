import MatchingLogic.Kore.Syntax
import MatchingLogic.Proofs.Success

namespace MatchingLogic.Kore.Term

def children : Term → List Term
  | app _ _ args => args
  | not _ t | ex _ _ _ t => [t]
  | and _ l r | or _ l r | implies _ l r | equals _ _ l r | mem _ _ l r | transition _ l r => [l, r]
  | _ => []

mutual

-- The term and all its parts, at any depth.
def nodes : Term → List Term
  | app f ss args => app f ss args :: nodesAll args
  | not s t => not s t :: t.nodes
  | ex s v vs t => ex s v vs t :: t.nodes
  | and s l r => and s l r :: (l.nodes ++ r.nodes)
  | or s l r => or s l r :: (l.nodes ++ r.nodes)
  | implies s l r => implies s l r :: (l.nodes ++ r.nodes)
  | equals o s l r => equals o s l r :: (l.nodes ++ r.nodes)
  | mem o s l r => mem o s l r :: (l.nodes ++ r.nodes)
  | transition s l r => transition s l r :: (l.nodes ++ r.nodes)
  | t => [t]

def nodesAll : List Term → List Term
  | [] => []
  | t :: ts => t.nodes ++ nodesAll ts

end

theorem nodesAll_eq (ts : List Term) : nodesAll ts = ts.flatMap nodes := by
  induction ts with
  | nil => rfl
  | cons t ts ih => rw [nodesAll, ih, List.flatMap_cons]

theorem nodes_eq (t : Term) : t.nodes = t :: t.children.flatMap nodes := by
  cases t <;> simp [nodes, children, nodesAll_eq]

theorem mem_nodes {t u : Term} : u ∈ t.nodes ↔ u = t ∨ ∃ v ∈ t.children, u ∈ v.nodes := by
  simp [nodes_eq t]

theorem child_induction {motive : Term → Prop} (h : ∀ t, (∀ u ∈ t.children, motive u) → motive t)
    (t : Term) : motive t := by
  induction t with
  | app f ss ts ih => exact h _ ih
  | not s t ih | ex s v vs t ih => exact h _ (List.forall_mem_singleton.mpr ih)
  | and s l r ihl ihr | or s l r ihl ihr | implies s l r ihl ihr | equals o s l r ihl ihr
  | mem o s l r ihl ihr | transition s l r ihl ihr =>
    exact h _ (List.forall_mem_cons.mpr ⟨ihl, List.forall_mem_singleton.mpr ihr⟩)
  | _ => exact h _ nofun

def var? : Term → Option String
  | elementVar name _ => some name
  | _ => none

-- The names of element variables.
def vars (t : Term) : List String :=
  t.nodes.filterMap var?

theorem mem_vars {t : Term} {name : String} :
    name ∈ t.vars ↔ t.var? = some name ∨ ∃ u ∈ t.children, name ∈ u.vars := by
  simp only [vars, List.mem_filterMap, mem_nodes (t := t)]
  grind

theorem mem_vars_of_child {t u : Term} {name : String} (hu : u ∈ t.children) (h : name ∈ u.vars) :
    name ∈ t.vars :=
  mem_vars.mpr (.inr ⟨u, hu, h⟩)

theorem vars_of_children {t : Term} {ns : List String} (ht : t.var? = none)
    (h : ∀ u ∈ t.children, ∀ n ∈ u.vars, n ∈ ns) : ∀ n ∈ t.vars, n ∈ ns := by
  intro n hn
  obtain hvar | ⟨u, hu, hn⟩ := mem_vars.mp hn
  · simp [ht] at hvar
  · exact h u hu n hn

mutual

-- Replaces variables by name; of several bindings of one name the last counts.
def subst (bs : List (String × Term)) : Term → Term
  | elementVar name s => (bs.reverse.lookup name).getD (elementVar name s)
  | setVar name s => setVar name s
  | app f ss args => app f ss (substAll bs args)
  | top s => top s
  | bottom s => bottom s
  | not s t => not s (t.subst bs)
  | and s l r => and s (l.subst bs) (r.subst bs)
  | or s l r => or s (l.subst bs) (r.subst bs)
  | implies s l r => implies s (l.subst bs) (r.subst bs)
  | equals o s l r => equals o s (l.subst bs) (r.subst bs)
  | mem o s l r => mem o s (l.subst bs) (r.subst bs)
  | transition s l r => transition s (l.subst bs) (r.subst bs)
  | ex s v vs t => ex s v vs (t.subst (bs.filter (·.1 ≠ v)))
  | value s text => value s text

def substAll (bs : List (String × Term)) : List Term → List Term
  | [] => []
  | t :: ts => t.subst bs :: substAll bs ts

end

variable {bs : List (String × Term)} {t : Term}

theorem substAll_eq (bs : List (String × Term)) (ts : List Term) : substAll bs ts = ts.map (subst bs) := by
  induction ts with
  | nil => rfl
  | cons t ts ih => rw [substAll, ih, List.map_cons]

theorem mem_of_lookup_reverse {name : String} (h : bs.reverse.lookup name = some t) : (name, t) ∈ bs :=
  List.mem_reverse.mp (mem_of_lookup h)

-- A variable is replaced by what it is bound to or left as it is.
theorem subst_elementVar (bs : List (String × Term)) (name : String) (s : SortName) :
    (elementVar name s).subst bs = elementVar name s ∨ ∃ b ∈ bs, (elementVar name s).subst bs = b.2 := by
  rw [subst]
  cases h : bs.reverse.lookup name with
  | none => exact .inl rfl
  | some t => exact .inr ⟨(name, t), mem_of_lookup_reverse h, rfl⟩

-- The parts of an instance are instances of the parts. A bound variable is not replaced below its binder.
theorem mem_children_subst (ht : t.var? = none) {u : Term} (hu : u ∈ (t.subst bs).children) :
    ∃ v ∈ t.children, ∃ bs', bs' ⊆ bs ∧ u = v.subst bs' := by
  cases t with
  | elementVar => cases ht
  | app f ss ts =>
    rw [subst, substAll_eq, children] at hu
    obtain ⟨v, hv, rfl⟩ := List.mem_map.mp hu
    exact ⟨v, hv, bs, List.Subset.refl _, rfl⟩
  | ex s v vs t =>
    rw [subst, children, List.mem_singleton] at hu
    exact ⟨t, List.mem_singleton_self t, _, List.filter_subset_self _, hu⟩
  | not s t =>
    rw [subst, children, List.mem_singleton] at hu
    exact ⟨t, List.mem_singleton_self t, bs, List.Subset.refl _, hu⟩
  | and s l r | or s l r | implies s l r | equals o s l r | mem o s l r | transition s l r =>
    rw [subst, children, List.mem_pair] at hu
    obtain rfl | rfl := hu
    · exact ⟨l, by simp [children], bs, List.Subset.refl _, rfl⟩
    · exact ⟨r, by simp [children], bs, List.Subset.refl _, rfl⟩
  | _ =>
    rw [subst] at hu
    cases hu

-- What holds of all parts of a term and of all that is bound holds of the parts of the instance.
theorem forall_nodes_subst {P : Term → Prop} (hsubst : ∀ u bs', u.var? = none → P u → P (u.subst bs'))
    (ht : ∀ u ∈ t.nodes, P u) (hbs : ∀ b ∈ bs, ∀ u ∈ b.2.nodes, P u) : ∀ u ∈ (t.subst bs).nodes, P u := by
  induction t using child_induction generalizing bs with
  | h t ih =>
    cases t with
    | elementVar n s =>
      obtain heq | ⟨b, hb, heq⟩ := subst_elementVar bs n s
      all_goals rw [heq]
      · exact ht
      · exact hbs b hb
    | _ =>
      intro u hu
      obtain rfl | ⟨v, hv, hu⟩ := mem_nodes.mp hu
      · exact hsubst _ bs rfl (ht _ (mem_nodes.mpr (.inl rfl)))
      obtain ⟨w, hw, bs', hsub, rfl⟩ := mem_children_subst rfl hv
      refine ih w hw (fun u hu => ht u (mem_nodes.mpr (.inr ⟨w, hw, hu⟩))) (fun b hb => ?_) u hu
      exact hbs b (hsub hb)

theorem mem_vars_subst {name : String} (h : name ∈ (t.subst bs).vars) :
    name ∈ t.vars ∨ ∃ b ∈ bs, name ∈ b.2.vars := by
  induction t using child_induction generalizing bs with
  | h t ih =>
    cases t with
    | elementVar n s =>
      obtain heq | ⟨b, hb, heq⟩ := subst_elementVar bs n s
      all_goals rw [heq] at h
      · exact .inl h
      · exact .inr ⟨b, hb, h⟩
    | _ =>
      obtain h | ⟨u, hu, h⟩ := mem_vars.mp h
      · rw [subst] at h
        cases h
      obtain ⟨v, hv, bs', hbs, rfl⟩ := mem_children_subst rfl hu
      obtain h | ⟨b, hb, h⟩ := ih v hv h
      · exact .inl (mem_vars_of_child hv h)
      · exact .inr ⟨b, hbs hb, h⟩

section Cells

variable {cell : String → Bool}

-- Is the term an application of a symbol that names a cell?
def isCell (cell : String → Bool) (t : Term) : Bool :=
  t.symbol?.any cell

-- The forms of terms that have patterns.
def convertible : Term → Bool
  | elementVar .. | app .. | top _ | value .. | and .. | or .. | transition .. => true
  | _ => false

-- All parts can be converted, and cells do not stand below anything but cells.
structure Regular (cell : String → Bool) (t : Term) : Prop where
  supported : ∀ u ∈ t.nodes, u.convertible
  placed : ∀ u ∈ t.nodes, ¬u.isCell cell → ∀ v ∈ u.children, ¬v.isCell cell

instance (cell : String → Bool) (t : Term) : Decidable (t.Regular cell) :=
  decidable_of_iff
    ((∀ u ∈ t.nodes, u.convertible) ∧ ∀ u ∈ t.nodes, ¬u.isCell cell → ∀ v ∈ u.children, ¬v.isCell cell)
    ⟨fun h => ⟨h.1, h.2⟩, fun h => ⟨h.supported, h.placed⟩⟩

theorem regular_iff : t.Regular cell ↔
    t.convertible ∧ (¬t.isCell cell → ∀ v ∈ t.children, ¬v.isCell cell) ∧
      ∀ v ∈ t.children, v.Regular cell := by
  constructor
  case mp =>
    intro h
    refine ⟨h.supported t (mem_nodes.mpr (.inl rfl)), h.placed t (mem_nodes.mpr (.inl rfl)), fun v hv => ?_⟩
    exact ⟨fun u hu => h.supported u (mem_nodes.mpr (.inr ⟨v, hv, hu⟩)),
      fun u hu => h.placed u (mem_nodes.mpr (.inr ⟨v, hv, hu⟩))⟩
  case mpr =>
    rintro ⟨hsupported, hplaced, hchildren⟩
    constructor
    all_goals
      intro u hu
      obtain rfl | ⟨v, hv, hu⟩ := mem_nodes.mp hu
    · exact hsupported
    · exact (hchildren v hv).supported u hu
    · exact hplaced
    · exact (hchildren v hv).placed u hu

theorem regular_of_plain (h : ∀ u ∈ t.nodes, u.convertible ∧ ¬u.isCell cell) : t.Regular cell := by
  induction t using child_induction with
  | h t ih =>
    have hroot := h t (mem_nodes.mpr (.inl rfl))
    have hchild (v : Term) (hv : v ∈ t.children) (u : Term) (hu : u ∈ v.nodes) :=
      h u (mem_nodes.mpr (.inr ⟨v, hv, hu⟩))
    refine regular_iff.mpr ⟨hroot.1, fun _ v hv => ?_, fun v hv => ih v hv (hchild v hv)⟩
    exact (hchild v hv v (mem_nodes.mpr (.inl rfl))).2

theorem isCell_subst (hbs : ∀ b ∈ bs, ¬b.2.isCell cell) (t : Term) :
    (t.subst bs).isCell cell = t.isCell cell := by
  cases t with
  | elementVar name s =>
    obtain heq | ⟨b, hb, heq⟩ := subst_elementVar bs name s
    all_goals rw [heq]
    exact Bool.eq_false_iff.mpr (hbs b hb)
  | _ => simp only [subst, isCell, symbol?]

-- Only a variable may get another form.
theorem root_subst (ht : t.var? = none) :
    (t.subst bs).symbol? = t.symbol? ∧ (t.subst bs).convertible = t.convertible := by
  cases t with
  | elementVar => cases ht
  | _ => simp only [subst, symbol?, convertible, and_self]

-- A cell stays one.
theorem isCell_subst_of_isCell (h : t.isCell cell) : (t.subst bs).isCell cell := by
  cases t with
  | app f ss ts => rwa [subst]
  | _ => cases h

-- Every cell of the term that holds cells after the substitution holds some before.
def Settled (cell : String → Bool) (bs : List (String × Term)) (t : Term) : Prop :=
  ∀ u ∈ t.nodes, u.isCell cell → (∃ v ∈ u.children, (v.subst bs).isCell cell) → ∃ v ∈ u.children, v.isCell cell

instance (cell : String → Bool) (bs : List (String × Term)) (t : Term) : Decidable (t.Settled cell bs) :=
  inferInstanceAs (Decidable (∀ u ∈ t.nodes, _))

theorem settled_iff : t.Settled cell bs ↔
    (t.isCell cell → (∃ v ∈ t.children, (v.subst bs).isCell cell) → ∃ v ∈ t.children, v.isCell cell) ∧
      ∀ v ∈ t.children, v.Settled cell bs := by
  constructor
  case mp =>
    intro h
    exact ⟨h t (mem_nodes.mpr (.inl rfl)), fun v hv u hu => h u (mem_nodes.mpr (.inr ⟨v, hv, hu⟩))⟩
  case mpr =>
    rintro ⟨hroot, hchildren⟩ u hu
    obtain rfl | ⟨v, hv, hu⟩ := mem_nodes.mp hu
    · exact hroot
    · exact hchildren v hv u hu

theorem settled_of_plain (hbs : ∀ b ∈ bs, ¬b.2.isCell cell) (t : Term) : t.Settled cell bs := by
  rintro u - - ⟨v, hv, hcell⟩
  exact ⟨v, hv, isCell_subst hbs v ▸ hcell⟩

-- Values without cells can be put into a term without moving any cell.
theorem regular_subst (ht : t.Regular cell) (hbs : ∀ b ∈ bs, b.2.Regular cell ∧ ¬b.2.isCell cell) :
    (t.subst bs).Regular cell := by
  induction t using child_induction generalizing bs with
  | h t ih =>
    obtain ⟨hsupported, hplaced, hchildren⟩ := regular_iff.mp ht
    have hcell := isCell_subst fun b hb => (hbs b hb).2
    cases t with
    | elementVar name s =>
      obtain heq | ⟨b, hb, heq⟩ := subst_elementVar bs name s
      all_goals rw [heq]
      · exact ht
      · exact (hbs b hb).1
    | _ =>
      refine regular_iff.mpr ⟨by rw [subst]; exact hsupported, fun h u hu => ?_, fun u hu => ?_⟩
      all_goals obtain ⟨v, hv, bs', hsub, rfl⟩ := mem_children_subst rfl hu
      · rw [hcell] at h
        rw [isCell_subst fun b hb => (hbs b (hsub hb)).2]
        exact hplaced h v hv
      · exact ih v hv (hchildren v hv) fun b hb => hbs b (hsub hb)

end Cells

end MatchingLogic.Kore.Term
