import MatchingLogic.Proofs.Kore.Packaging
import MatchingLogic.Proofs.Kore.Reading

namespace MatchingLogic.Kore

open Converter

namespace Term

mutual

-- Forgets the sorts of variables and the sorts at which cells are used.
def unsorted (cell : String → Bool) : Term → Term
  | elementVar name _ => elementVar name ""
  | app f ss args => app f (if cell f then [] else ss) (unsortedAll cell args)
  | not s t => not s (t.unsorted cell)
  | and s l r => and s (l.unsorted cell) (r.unsorted cell)
  | or s l r => or s (l.unsorted cell) (r.unsorted cell)
  | implies s l r => implies s (l.unsorted cell) (r.unsorted cell)
  | equals o s l r => equals o s (l.unsorted cell) (r.unsorted cell)
  | mem o s l r => mem o s (l.unsorted cell) (r.unsorted cell)
  | transition s l r => transition s (l.unsorted cell) (r.unsorted cell)
  | ex s v vs t => ex s v vs (t.unsorted cell)
  | t => t

def unsortedAll (cell : String → Bool) : List Term → List Term
  | [] => []
  | t :: ts => t.unsorted cell :: unsortedAll cell ts

end

end Term

-- Sorts are told apart by the spine that they make up.
theorem sorts_inj (v : Vocabulary) {ss ss' : List SortName}
    (h : (Pattern.chain? (ss.map v.sort)).getD .top = (Pattern.chain? (ss'.map v.sort)).getD .top) :
    ss = ss' := by
  have htop (s : SortName) (ss : List SortName) :
      Pattern.chain (v.sort s) (ss.map v.sort) ≠ .top := by
    intro h
    have hhead := congrArg Pattern.head h
    rw [Pattern.head_chain] at hhead
    cases hhead
  have hinj : Function.Injective v.sort := fun _ _ => v.sort_inj.mp
  cases ss with
  | nil =>
    cases ss' with
    | nil => rfl
    | cons s' ss' => exact absurd h.symm (htop s' ss')
  | cons s ss =>
    cases ss' with
    | nil => exact absurd h (htop s ss)
    | cons s' ss' =>
      obtain ⟨hs, hss⟩ := Pattern.chain_symbol_inj.mp h
      rw [List.map_injective_iff.mpr hinj hss, hinj (congrArg Pattern.symbol hs)]

namespace Term

variable {c : Converter} {known : String → Bool} {inCell : Bool} {t u : Term} {ts us : List Term}
  {p q : Pattern} {ps : List Pattern}

-- All that can be seen of a term in its pattern, whatever was known of its cells.
inductive Depicted (c : Converter) : Term → Pattern → Prop
  | elementVar {x : String} {s : SortName} (hx : x ∈ c.names) :
    Depicted c (elementVar x s) (.metavar (c.vocabulary.metavars.id x))
  | emptyCell {f name : String} {ss : List SortName} (hname : c.cellName.capture? f = some name) :
    Depicted c (app f ss []) (c.vocabulary.symbol name)
  | cell {f name : String} {ss : List SortName} {ts : List Term} {ps : List Pattern}
    (hname : c.cellName.capture? f = some name) (hps : List.Forall₂ (Depicted c) ts ps) :
    Depicted c (app f ss ts) (.cell (.chain (c.vocabulary.symbol name) ps))
  | nestedCells {f name : String} {ss : List SortName} {ts : List Term} {ps : List Pattern}
    (hname : c.cellName.capture? f = some name) (hps : List.Forall₂ (Depicted c) ts ps) :
    Depicted c (app f ss ts) (.nestedCells (.chain (c.vocabulary.symbol name) ps))
  | plain {f : String} {ss : List SortName} {ts : List Term} {ps : List Pattern}
    (hps : List.Forall₂ (Depicted c) ts ps) :
    Depicted c (app f ss ts) (.sortedApp ((Pattern.chain? (ss.map c.vocabulary.sort)).getD .top)
      (.chain (c.vocabulary.symbol f) ps))
  | top {s : SortName} : Depicted c (top s) (.sortedTop (c.vocabulary.sort s))
  | value {s : SortName} {text : String} :
    Depicted c (value s text) (.domainValue (c.vocabulary.sort s) (c.vocabulary.symbol text))
  | and {s : SortName} {l r : Term} {p q : Pattern} (hp : Depicted c l p) (hq : Depicted c r q) :
    Depicted c (and s l r) (.sortedAnd (c.vocabulary.sort s) p q)
  | or {s : SortName} {l r : Term} {p q : Pattern} (hp : Depicted c l p) (hq : Depicted c r q) :
    Depicted c (or s l r) (.sortedOr (c.vocabulary.sort s) p q)
  | transition {s : SortName} {l r : Term} {p q : Pattern} (hp : Depicted c l p) (hq : Depicted c r q) :
    Depicted c (transition s l r) (.transition (c.vocabulary.sort s) p q)

theorem Reads.depicted (hc : c.Orderly) (h : t.Reads c known inCell p) : t.Depicted c p := by
  induction t generalizing inCell p with
  | elementVar x s =>
    cases h with
    | elementVar hx => exact .elementVar hx
  | app f ss ts ih =>
    cases h with
    | emptyCell hhead =>
      obtain ⟨name, hname, rfl⟩ := hc.cells _ _ hhead
      exact .emptyCell hname
    | cell hhead _ hps =>
      obtain ⟨name, hname, rfl⟩ := hc.cells _ _ hhead
      have hps := forall₂_imp_mem hps fun t ht _ _ => ih t ht
      split
      case isTrue => exact .nestedCells hname hps
      case isFalse => exact .cell hname hps
    | plain _ _ _ hps => exact .plain (forall₂_imp_mem hps fun t ht _ _ => ih t ht)
  | top s =>
    cases h
    exact .top
  | value s text =>
    cases h
    exact .value
  | and s l r ihl ihr | or s l r ihl ihr | transition s l r ihl ihr =>
    cases h
    rename_i hp hq
    constructor
    · exact ihl hp
    · exact ihr hq
  | _ => cases h

theorem Depicted.mem_names (h : t.Depicted c p) : ∀ x ∈ t.vars, x ∈ c.names := by
  induction t generalizing p with
  | elementVar x s =>
    cases h with
    | elementVar hx => simpa [vars, nodes, var?] using hx
  | app f ss ts ih =>
    have hargs {ps : List Pattern} (hps : List.Forall₂ (Depicted c) ts ps) :
        ∀ x ∈ (app f ss ts).vars, x ∈ c.names := by
      refine vars_of_children rfl fun t ht => ?_
      obtain ⟨p, -, hp⟩ := exists_mem_right hps ht
      exact ih t ht hp
    cases h with
    | emptyCell => exact hargs .nil
    | cell _ hps | nestedCells _ hps | plain hps => exact hargs hps
  | top | value => exact vars_of_children rfl (by simp [children])
  | and s l r ihl ihr | or s l r ihl ihr | transition s l r ihl ihr =>
    cases h
    rename_i hp hq
    exact vars_of_children rfl (List.forall_mem_cons.mpr ⟨ihl hp, List.forall_mem_singleton.mpr (ihr hq)⟩)
  | _ => cases h

-- The ids tell the variables of one term from those of the other.
def Apart (c : Converter) (t u : Term) : Prop :=
  ∀ x ∈ t.vars, ∀ y ∈ u.vars, c.vocabulary.metavars.id x = c.vocabulary.metavars.id y → x = y

theorem Apart.children (h : t.Apart c u) : ∀ v ∈ t.children, ∀ w ∈ u.children, v.Apart c w :=
  fun _ hv _ hw x hx y hy => h x (mem_vars_of_child hv hx) y (mem_vars_of_child hw hy)

theorem unsortedAll_congr {cell : String → Bool} (hts : List.Forall₂ (Depicted c) ts ps)
    (hus : List.Forall₂ (Depicted c) us ps)
    (h : ∀ t ∈ ts, ∀ u ∈ us, ∀ p, t.Depicted c p → u.Depicted c p → t.unsorted cell = u.unsorted cell) :
    unsortedAll cell ts = unsortedAll cell us := by
  induction hts generalizing us with
  | nil =>
    cases hus
    rfl
  | cons ht _ ih =>
    cases hus with
    | cons hu hus =>
      rw [unsortedAll, unsortedAll, h _ (by simp) _ (by simp) _ ht hu]
      rw [ih hus fun t ht u hu => h t (by simp [ht]) u (by simp [hu])]

-- If one pattern shows two terms, both have the same form, and their parts are shown by the same patterns.
theorem Depicted.unsorted_eq (hcells : c.cellName.Usual) (ht : t.Depicted c p) (hu : u.Depicted c q)
    (hpq : p = q) (hvars : t.Apart c u) :
    t.unsorted c.cellName.accepts = u.unsorted c.cellName.accepts := by
  have hcell {f f' name : String} (h : c.cellName.capture? f = some name)
      (h' : c.cellName.capture? f' = some name) : f = f' ∧ c.cellName.accepts f :=
    ⟨hcells.capture_inj h h', Matcher.accepts_of_capture h⟩
  induction t generalizing u p q
  all_goals
    cases ht <;> cases hu <;> simp [Pattern.cell, Pattern.nestedCells, Pattern.sortedApp, Pattern.sortedTop,
      Pattern.domainValue, Pattern.sortedAnd, Pattern.sortedOr, Pattern.transition, Vocabulary.symbol,
      Pattern.chain_symbol_inj, Vocabulary.sort_inj] at hpq
  case elementVar.elementVar.elementVar x _ _ y _ _ =>
    rw [unsorted, unsorted, hvars x (by simp [vars, nodes, var?]) y (by simp [vars, nodes, var?]) hpq]
  case app.emptyCell.emptyCell f _ name hname _ f' name' _ hname' =>
    obtain rfl := hpq
    obtain ⟨rfl, hf⟩ := hcell hname hname'
    rw [unsorted, unsorted, if_pos hf, if_pos hf]
  case app.cell.cell | app.nestedCells.nestedCells =>
    rename_i f ss ts ih name ps hname hps f' name' ss' us ps' hname' hps'
    obtain ⟨rfl, rfl⟩ := hpq
    obtain ⟨rfl, hf⟩ := hcell hname hname'
    have hparts := unsortedAll_congr hps hps' fun t ht u hu _ htp hup =>
      ih t ht htp hup rfl (hvars.children t ht u hu)
    rw [unsorted, unsorted, if_pos hf, if_pos hf, hparts]
  case app.plain.plain f ss ts ih ps hps f' ss' us ps' hps' =>
    obtain ⟨hss, rfl, rfl⟩ := hpq
    have hparts := unsortedAll_congr hps hps' fun t ht u hu _ htp hup =>
      ih t ht htp hup rfl (hvars.children t ht u hu)
    rw [unsorted, unsorted, sorts_inj c.vocabulary hss, hparts]
  case top.top.top => rw [hpq]
  case value.value.value => rw [hpq.1, hpq.2]
  case and.and.and | or.or.or | transition.transition.transition =>
    rename_i s l r ihl ihr p q hp hq s' l' r' p' q' hp' hq'
    obtain ⟨rfl, rfl, rfl⟩ := hpq
    have hl := ihl hp hp' rfl (hvars.children l (by simp [children]) l' (by simp [children]))
    have hr := ihr hq hq' rfl (hvars.children r (by simp [children]) r' (by simp [children]))
    rw [unsorted, unsorted, hl, hr]

end Term

-- Two terms that get the same pattern at whatever moments of a run are the same but for sorts. As ids of
-- variables are bounded, this takes that the two terms have no different variables of one id, which cannot
-- be before the ids run out.
theorem convert_injective {d : Definition} {engine : Engine} {c c₁ c₂ : Converter} {t u : Term} {p : Pattern}
    (hengine : engine.Usual) (hc : ofDefinition d {} engine = .ok c) (before between : List Action)
    (ht : t.convert.run (c.run before) = (.ok p, c₁))
    (hu : u.convert.run (c₁.run between) = (.ok p, c₂)) :
    (t.Apart c₂ u → t.unsorted c.cellName.accepts = u.unsorted c.cellName.accepts) ∧
    (c₂.names.length ≤ UInt32.size → t.unsorted c.cellName.accepts = u.unsorted c.cellName.accepts) := by
  obtain ⟨h₁, htreads⟩ := Term.reads_of_convert ht
  obtain ⟨h₂, hureads⟩ := Term.reads_of_convert hu
  have hbetween : c₁.Extends c₂ := (extends_run c₁ between).trans h₂
  have hextends : c.Extends c₂ := ((extends_run c before).trans h₁).trans hbetween
  have horderly : c₂.Orderly :=
    (lasting_orderly.run ((orderly_run hc before).convert ht) between).convert hu
  have hcells : c₂.cellName.Usual := hextends.cellName ▸ usual_cellName hengine hc
  have htp : t.Depicted c₂ p := (htreads.mono hbetween fun _ hf => hf).depicted horderly
  have hup : u.Depicted c₂ p := hureads.depicted horderly
  rw [← hextends.cellName]
  refine ⟨htp.unsorted_eq hcells hup rfl, fun hsize => htp.unsorted_eq hcells hup rfl ?_⟩
  exact fun x hx y hy => NameTable.id_inj hsize (htp.mem_names x hx) (hup.mem_names y hy)

open Counting in
theorem convert_injective_counting :
    let t := state count
    let u := Term.app "Lbl'-LT-'generatedTop'-GT-'" ["SortTop"]
      [.app "Lbl'-LT-'k'-GT-'" [] [.elementVar "N" "SortInt"]]
    let between := [Action.term (next zero)]
    ∃ c p c₁ c₂, ofDefinition definition {} = .ok c ∧ t.convert.run c = (.ok p, c₁) ∧
      u.convert.run (c₁.run between) = (.ok p, c₂) ∧ c₂.names.length ≤ UInt32.size ∧ t ≠ u ∧
      t.unsorted c.cellName.accepts = u.unsorted c.cellName.accepts := by
  intro t u between
  have hsame : (ofDefinition definition {}).toOption.any fun c =>
      (t.convert.run c).1.toOption.any fun p =>
        (u.convert.run ((t.convert.run c).2.run between)).1.toOption.any (· = p) &&
          (u.convert.run ((t.convert.run c).2.run between)).2.names.length = 1 := by
    decide +kernel
  obtain ⟨c, hc, hsame⟩ := exists_of_any hsame
  rcases ht : t.convert.run c with ⟨answer, c₁⟩
  rw [ht] at hsame
  obtain ⟨p, rfl, hsame⟩ := exists_of_any hsame
  rcases hu : u.convert.run (c₁.run between) with ⟨answer, c₂⟩
  rw [hu] at hsame
  obtain ⟨hsame, hsize⟩ := Bool.and_eq_true_iff.mp hsame
  obtain ⟨q, rfl, heq⟩ := exists_of_any hsame
  obtain rfl : q = p := of_decide_eq_true heq
  have hsize : c₂.names.length ≤ UInt32.size := by
    rw [of_decide_eq_true hsize]
    decide
  have hdiffer : t ≠ u := by decide
  exact ⟨c, q, c₁, c₂, hc, ht, hu, hsize, hdiffer, (convert_injective Regex.engine_usual hc [] between ht hu).2 hsize⟩

end MatchingLogic.Kore
