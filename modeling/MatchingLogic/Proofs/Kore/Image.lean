import MatchingLogic.Proofs.Kore.Conversion
import MatchingLogic.Proofs.Kore.Naming
import MatchingLogic.Proofs.Kore.Term
import MatchingLogic.Proofs.Names
import MatchingLogic.Proofs.Pattern.Substitution

namespace MatchingLogic.Kore

open Conversion

abbrev Converter.names (c : Converter) : List String :=
  c.vocabulary.metavars.names

-- The head of a cell.
def Converter.cellSymbol (c : Converter) (symbol : String) : Pattern :=
  c.vocabulary.symbol ((c.cellName.capture? symbol).getD "")

mutual

def Term.image (c : Converter) : Term → Pattern
  | elementVar name _ => .metavar (c.vocabulary.metavars.id name)
  | app symbol sorts args =>
    if c.cellName.accepts symbol then
      if args.isEmpty then c.cellSymbol symbol
      else
        let content := Pattern.chain (c.cellSymbol symbol) (Term.imageAll c args)
        if holdsCells c.cellName args then .nestedCells content else .cell content
    else
      .sortedApp ((Pattern.chain? (sorts.map c.vocabulary.sort)).getD .top)
        (Pattern.chain (c.vocabulary.symbol symbol) (Term.imageAll c args))
  | top s => .sortedTop (c.vocabulary.sort s)
  | value s text => .domainValue (c.vocabulary.sort s) (c.vocabulary.symbol text)
  | and s l r => .sortedAnd (c.vocabulary.sort s) (l.image c) (r.image c)
  | or s l r => .sortedOr (c.vocabulary.sort s) (l.image c) (r.image c)
  | transition s l r => .transition (c.vocabulary.sort s) (l.image c) (r.image c)
  | _ => .bot

def Term.imageAll (c : Converter) : List Term → List Pattern
  | [] => []
  | t :: ts => t.image c :: Term.imageAll c ts

end

theorem Term.imageAll_eq (c : Converter) (ts : List Term) : imageAll c ts = ts.map (image c) := by
  induction ts with
  | nil => rfl
  | cons t ts ih => rw [imageAll, ih, List.map_cons]

-- A transition between two sides, each of which is guarded by a condition.
structure Rule where
  sort : SortName
  left : Term
  right : Term
  deriving DecidableEq

def Term.rule? : Term → Option Rule
  | transition s (and _ l _) (and _ r _) => some ⟨s, l, r⟩
  | _ => none

namespace Rule

def vars (r : Rule) : List String :=
  r.left.vars ++ r.right.vars

def image (c : Converter) (r : Rule) : MatchingLogic.Axiom :=
  ⟨.transition, .transition (c.vocabulary.sort r.sort) (r.left.image c) (r.right.image c), ∅⟩

structure Shown (c : Converter) (r : Rule) (a : MatchingLogic.Axiom) : Prop where
  known : ∀ n ∈ r.vars, n ∈ c.names
  eq_image : a = r.image c

end Rule

namespace Converter

variable {c c' c'' : Converter} {ns : List String} {name : String}

-- All that is known to `c` is known to `c'`, by the same names.
structure Grows (c c' : Converter) : Prop where
  config : c'.config = c.config
  cellName : c'.cellName = c.cellName
  axioms : c'.axioms = c.axioms
  functionalNames : c'.functionalNames = c.functionalNames
  symbolMark : c'.vocabulary.symbolMark = c.vocabulary.symbolMark
  sortMark : c'.vocabulary.sortMark = c.vocabulary.sortMark
  names : c.names <+: c'.names
  functional : c.functional ⊆ c'.functional
  converted : c.converted ⊆ c'.converted

namespace Grows

theorem refl (c : Converter) : c.Grows c :=
  ⟨rfl, rfl, rfl, rfl, rfl, rfl, List.prefix_rfl, List.Subset.refl _, List.Subset.refl _⟩

theorem trans (h : c.Grows c') (h' : c'.Grows c'') : c.Grows c'' where
  config := h'.config.trans h.config
  cellName := h'.cellName.trans h.cellName
  axioms := h'.axioms.trans h.axioms
  functionalNames := h'.functionalNames.trans h.functionalNames
  symbolMark := h'.symbolMark.trans h.symbolMark
  sortMark := h'.sortMark.trans h.sortMark
  names := h.names.trans h'.names
  functional := List.Subset.trans h.functional h'.functional
  converted := List.Subset.trans h.converted h'.converted

variable (h : c.Grows c')
include h

theorem symbol (name : String) : c'.vocabulary.symbol name = c.vocabulary.symbol name := by
  rw [Vocabulary.symbol, h.symbolMark, Vocabulary.symbol]

theorem sort (name : String) : c'.vocabulary.sort name = c.vocabulary.sort name := by
  rw [Vocabulary.sort, h.sortMark, Vocabulary.sort]

theorem cellSymbol (symbol : String) : c'.cellSymbol symbol = c.cellSymbol symbol := by
  rw [Converter.cellSymbol, h.symbol, h.cellName, Converter.cellSymbol]

theorem id (hname : name ∈ c.names) : c'.vocabulary.metavars.id name = c.vocabulary.metavars.id name :=
  NameTable.id_of_prefix h.names hname

theorem image {t : Term} (hvars : ∀ n ∈ t.vars, n ∈ c.names) : t.image c' = t.image c := by
  have hsort := funext h.sort
  induction t with
  | elementVar name s => rw [Term.image, Term.image, h.id (hvars name (Term.mem_vars.mpr (.inl rfl)))]
  | app f ss ts ih =>
    have hargs : ts.map (Term.image c') = ts.map (Term.image c) := by
      refine List.map_congr_left fun t ht => ih t ht fun n hn => hvars n ?_
      exact Term.mem_vars_of_child ht hn
    simp only [Term.image, Term.imageAll_eq, hargs, h.cellName, h.cellSymbol, h.symbol, hsort]
  | top s => simp only [Term.image, h.sort]
  | value s text => simp only [Term.image, h.sort, h.symbol]
  | and s l r ihl ihr | or s l r ihl ihr | transition s l r ihl ihr =>
    have hl := ihl fun n hn => hvars n (Term.mem_vars_of_child (by simp [Term.children]) hn)
    have hr := ihr fun n hn => hvars n (Term.mem_vars_of_child (by simp [Term.children]) hn)
    simp only [Term.image, hl, hr, h.sort]
  | _ => simp only [Term.image]

theorem rule {r : Rule} {a : MatchingLogic.Axiom} (hr : r.Shown c a) : r.Shown c' a where
  known n hn := h.names.subset (hr.known n hn)
  eq_image := by
    have hl := h.image fun n hn => hr.known n (List.mem_append_left _ hn)
    have hr' := h.image fun n hn => hr.known n (List.mem_append_right _ hn)
    rw [hr.eq_image, Rule.image, Rule.image, hl, hr', h.sort]

end Grows

@[simp] theorem names_addSymbol (c : Converter) (name : String) : (c.addSymbol name).names = c.names := rfl

@[simp] theorem names_addCell (c : Converter) (symbol name : String) :
    (c.addCell symbol name).names = c.names := rfl

theorem subset_record {known : List Pattern} {p : Pattern} {noted : Prop} [Decidable noted] :
    known ⊆ if noted then known.insert p else known := by
  split
  case isTrue => exact fun q hq => List.mem_insert_of_mem hq
  case isFalse => exact List.Subset.refl _

theorem grows_addSymbol (c : Converter) (name : String) : c.Grows (c.addSymbol name) := by
  constructor
  case names => exact List.prefix_rfl
  case functional => exact subset_record
  case converted => exact List.Subset.refl _
  all_goals rfl

theorem grows_addMetavar (c : Converter) (name : String) : c.Grows (c.addMetavar name) := by
  constructor
  case names => exact NameTable.prefix_declare
  case functional | converted => exact List.Subset.refl _
  all_goals rfl

theorem grows_addCell (c : Converter) (symbol name : String) : c.Grows (c.addCell symbol name) := by
  constructor
  case names => exact List.prefix_rfl
  case functional => exact subset_record
  case converted => exact List.Subset.refl _
  all_goals rfl

-- The records of a converter that names cells as usual and has met no variables but these.
structure Sound (ns : List String) (c : Converter) : Prop where
  captures : c.cellName.Captures
  topCell : c.cellName.accepts c.config.topCell
  cells : ∀ entry ∈ c.cells, c.cellName.accepts entry.1 ∧ entry.2 = c.cellSymbol entry.1
  nodup : c.names.Nodup
  names : ∀ n ∈ c.names, n ∈ ns
  converted : ∀ entry ∈ c.converted, ∃ r, entry.1.term.rule? = some r ∧ r.Shown c entry.2

theorem Sound.grow (hc : c.Sound ns) (h : c.Grows c')
    (hcells : ∀ entry ∈ c'.cells, entry ∈ c.cells ∨
      c.cellName.accepts entry.1 ∧ entry.2 = c.cellSymbol entry.1)
    (hnodup : c'.names.Nodup) (hnames : ∀ n ∈ c'.names, n ∈ ns)
    (hconverted : ∀ entry ∈ c'.converted, entry ∈ c.converted ∨
      ∃ r, entry.1.term.rule? = some r ∧ r.Shown c' entry.2) : c'.Sound ns where
  captures := h.cellName ▸ hc.captures
  topCell := by rw [h.cellName, h.config]; exact hc.topCell
  cells entry hentry := by
    rw [h.cellName, h.cellSymbol]
    exact (hcells entry hentry).elim (hc.cells entry) id
  nodup := hnodup
  names := hnames
  converted entry hentry := by
    obtain hentry | hnew := hconverted entry hentry
    · have ⟨r, hr, hshown⟩ := hc.converted entry hentry
      exact ⟨r, hr, h.rule hshown⟩
    · exact hnew

-- Where cells stand at their places, the known ones are those that follow the naming convention.
theorem Sound.isCell_eq (hc : c.Sound ns) {symbol : String} {inCell : Bool}
    (h : c.cellName.accepts symbol → inCell ∨ symbol = c.config.topCell) :
    (c.isCell symbol || inCell && c.cellName.accepts symbol) = c.cellName.accepts symbol := by
  cases haccepts : c.cellName.accepts symbol with
  | true =>
    obtain rfl | rfl := h haccepts
    · simp
    · simp [isCell]
  | false =>
    have htop : symbol ≠ c.config.topCell := by
      rintro rfl
      simp [hc.topCell] at haccepts
    have hcells : c.cells.lookup symbol = none := by
      cases hhead : c.cells.lookup symbol with
      | none => rfl
      | some head => simp [(hc.cells _ (mem_of_lookup hhead)).1] at haccepts
    simp [isCell, htop, hcells]

end Converter

namespace Term

variable {c : Converter} {s : Substitution} {bs : List (String × Term)} {t : Term}

-- A cell keeps its mark if it does not get its first cells.
theorem holdsCells_subst_iff (cellName : Matcher) (bs : List (String × Term)) (ts : List Term) :
    holdsCells cellName (ts.map (subst bs)) = holdsCells cellName ts ↔
      ((∃ v ∈ ts, (v.subst bs).isCell cellName.accepts) → ∃ v ∈ ts, v.isCell cellName.accepts) := by
  have hbefore : holdsCells cellName ts ↔ ∃ v ∈ ts, v.isCell cellName.accepts := List.any_eq_true
  have hafter : holdsCells cellName (ts.map (subst bs)) ↔ ∃ v ∈ ts, (v.subst bs).isCell cellName.accepts := by
    rw [holdsCells, List.any_map]
    exact List.any_eq_true
  rw [Bool.eq_iff_iff, hbefore, hafter]
  refine ⟨Iff.mp, fun h => ⟨h, ?_⟩⟩
  rintro ⟨v, hv, hcell⟩
  exact ⟨v, hv, isCell_subst_of_isCell hcell⟩

-- Instances of images are images of instances if, and only if, all cells keep their marks.
theorem instantiate_image_iff (ht : ∀ u ∈ t.nodes, u.convertible)
    (hs : ∀ n ∈ t.vars, s.get? (c.vocabulary.metavars.id n) = (bs.reverse.lookup n).map (image c)) :
    (t.image c).instantiate s = (t.subst bs).image c ↔ t.Settled c.cellName.accepts bs := by
  induction t using child_induction with
  | h t ih =>
    have hchild (u : Term) (hu : u ∈ t.children) :
        (u.image c).instantiate s = (u.subst bs).image c ↔ u.Settled c.cellName.accepts bs :=
      ih u hu (fun v hv => ht v (mem_nodes.mpr (.inr ⟨u, hu, hv⟩))) fun n hn => hs n (mem_vars_of_child hu hn)
    have hroot := ht t (mem_nodes.mpr (.inl rfl))
    rw [settled_iff]
    cases t with
    | elementVar name sort =>
      rw [image, Pattern.instantiate_metavar, hs name (mem_vars.mpr (.inl rfl)), subst]
      cases bs.reverse.lookup name <;> simp [image, isCell, symbol?, children]
    | app f ss ts =>
      have hsorts : ((Pattern.chain? (ss.map c.vocabulary.sort)).getD .top).instantiate s =
          (Pattern.chain? (ss.map c.vocabulary.sort)).getD .top := by
        cases ss with
        | nil => rfl
        | cons sort ss =>
          rw [List.map_cons, Pattern.chain?, Option.getD_some, Pattern.instantiate_chain, List.map_map]
          rfl
      have hcontent (head : Pattern) :
          Pattern.chain head (ts.map ((·.instantiate s) ∘ image c)) =
            .chain head (ts.map (image c ∘ subst bs)) ↔ ∀ t ∈ ts, t.Settled c.cellName.accepts bs := by
        rw [Pattern.chain_inj (by simp), List.map_inj_left, and_iff_right rfl]
        exact forall₂_congr hchild
      have hmarks := holdsCells_subst_iff c.cellName bs ts
      simp only [image, subst, imageAll_eq, substAll_eq, List.isEmpty_map, children]
      by_cases hcell : c.cellName.accepts f
      · have hroot : (app f ss ts).isCell c.cellName.accepts := hcell
        by_cases hempty : ts.isEmpty
        · simp [hcell, List.isEmpty_iff.mp hempty, Converter.cellSymbol, Vocabulary.symbol]
        rw [if_pos hcell, if_pos hcell, if_neg hempty, if_neg hempty, imp_iff_right hroot, ← hmarks]
        -- The marks are two different notations.
        cases holdsCells c.cellName ts <;> cases holdsCells c.cellName (ts.map (subst bs))
        all_goals simp [Pattern.cell, Pattern.nestedCells, Pattern.instantiate_chain, hcontent,
          Converter.cellSymbol, Vocabulary.symbol]
      · have hroot : ¬(app f ss ts).isCell c.cellName.accepts := hcell
        simp [hcell, hroot, Pattern.sortedApp, Pattern.instantiate_chain, hsorts, hcontent, Vocabulary.symbol]
    | top | value =>
      simp [image, subst, Pattern.sortedTop, Pattern.domainValue, Vocabulary.sort, Vocabulary.symbol, isCell,
        symbol?, children]
    | and s l r | or s l r | transition s l r =>
      have hl := hchild l (by simp [children])
      have hr := hchild r (by simp [children])
      simp [image, subst, Pattern.sortedAnd, Pattern.sortedOr, Pattern.transition, Vocabulary.sort, isCell,
        symbol?, children, hl, hr]
    | _ => cases hroot

end Term
end MatchingLogic.Kore
