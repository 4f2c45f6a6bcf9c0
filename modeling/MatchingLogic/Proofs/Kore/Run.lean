import MatchingLogic.Proofs.Kore.Image

namespace MatchingLogic.Kore

open Conversion

namespace Converter

variable {c c' c'' : Converter} {I : Converter → Prop}

-- The records that are made of terms keep `I`. A cell is recorded once, under the name that it carries.
structure Steady (I : Converter → Prop) : Prop where
  addSymbol : ∀ {c}, I c → ∀ name, I (c.addSymbol name)
  addMetavar : ∀ {c}, I c → ∀ name, I (c.addMetavar name)
  addCell : ∀ {c symbol name}, I c → c.cells.lookup symbol = none →
    c.cellName.capture? symbol = some name → I (c.addCell symbol name)

-- And so do the records of converted axioms.
structure Lasting (I : Converter → Prop) : Prop extends Steady I where
  addAxiom : ∀ {c a}, I c → c.converted.lookup a = none →
    ∀ b, I { c with converted := (a, b) :: c.converted }

end Converter

-- The conversion keeps `I`, whatever it answers.
abbrev Conversion.Maintains {α : Type} (I : Converter → Prop) (act : Conversion α) : Prop :=
  Keeps I (fun _ => True) act

namespace Converter.Steady

variable {I : Converter → Prop} (hI : Steady I)
include hI

theorem symbol (name : String) : (symbol name).Maintains I :=
  keeps_modifyGet fun _ hc => ⟨hI.addSymbol hc name, trivial⟩

theorem metavarId (name : String) : (metavarId name).Maintains I :=
  keeps_modifyGet fun _ hc => ⟨hI.addMetavar hc name, trivial⟩

theorem cellHead (symbol : String) : (cellHead symbol).Maintains I := by
  refine keeps_get.bind fun c hc => ?_
  split
  case h_1 => exact keeps_pure trivial
  case h_2 hnew =>
    split
    case h_1 => exact keeps_throw
    case h_2 hname => exact (keeps_set (hI.addCell hc hnew hname)).bind fun _ _ => keeps_pure trivial

omit hI in
theorem sort (name : SortName) : (sort name).Maintains I :=
  keeps_get.bind fun _ _ => keeps_pure trivial

omit hI in
theorem convertAll {inCell : Bool} {ts : List Term} (h : ∀ t ∈ ts, (t.convertIn inCell).Maintains I) :
    (Term.convertAll inCell ts).Maintains I := by
  induction ts with
  | nil =>
    rw [Term.convertAll]
    exact keeps_pure trivial
  | cons t ts ih =>
    rw [Term.convertAll]
    refine (h t (by simp)).bind fun _ _ => ?_
    exact (ih fun u hu => h u (by simp [hu])).bind fun _ _ => keeps_pure trivial

theorem convertIn (inCell : Bool) (t : Term) : (t.convertIn inCell).Maintains I := by
  induction t generalizing inCell with
  | elementVar name s =>
    rw [Term.convertIn]
    exact (hI.metavarId name).bind fun _ _ => keeps_pure trivial
  | app f ss ts ih =>
    rw [Term.convertIn_app]
    refine keeps_get.bind fun c _ => ?_
    split
    case isTrue =>
      refine (hI.cellHead f).bind fun _ _ => ?_
      split
      case isTrue => exact keeps_pure trivial
      case isFalse => exact (convertAll fun t ht => ih t ht true).bind fun _ _ => keeps_pure trivial
    case isFalse =>
      refine (hI.symbol f).bind fun _ _ => (convertAll fun t ht => ih t ht false).bind fun _ _ => ?_
      exact (keeps_mapM fun s _ => sort s).bind fun _ _ => keeps_pure trivial
  | top s =>
    rw [Term.convertIn_top]
    exact (sort s).bind fun _ _ => keeps_pure trivial
  | value s text =>
    rw [Term.convertIn_value]
    exact (sort s).bind fun _ _ => (hI.symbol text).bind fun _ _ => keeps_pure trivial
  | and s l r ihl ihr | or s l r ihl ihr | transition s l r ihl ihr =>
    simp only [Term.convertIn_and, Term.convertIn_or, Term.convertIn_transition]
    refine (sort s).bind fun _ _ => (ihl false).bind fun _ _ => ?_
    exact (ihr false).bind fun _ _ => keeps_pure trivial
  | _ =>
    rw [Term.convertIn]
    exact keeps_throw
    all_goals simp

theorem convert (t : Term) : t.convert.Maintains I :=
  hI.convertIn false t

theorem requirements (condition : Term) : condition.requirements.Maintains I := by
  refine keeps_foldlM trivial fun (name, t) _ s _ => ?_
  exact (hI.metavarId name).bind fun _ _ => (hI.convert t).bind fun _ _ => keeps_pure trivial

theorem classify (t : Term) : t.classify.Maintains I := by
  have hother (t : Term) : Maintains I (do return (⟨.unclassified, ← t.convert, ∅⟩ : MatchingLogic.Axiom)) :=
    (hI.convert t).bind fun _ _ => keeps_pure trivial
  rw [Term.classify.eq_def]
  simp only [node_transition, node_equation, pure_bind]
  split
  case h_1 s _ l _ _ r _ =>
    refine (sort s).bind fun _ _ => (hI.convert l).bind fun _ _ => ?_
    exact (hI.convert r).bind fun _ _ => keeps_pure trivial
  case h_2 condition conclusion =>
    split
    case h_1 s _ l r _ =>
      refine (sort s).bind fun _ _ => (hI.convert l).bind fun _ _ => ?_
      refine (hI.convert r.stripped).bind fun _ _ => ?_
      exact (hI.requirements condition).bind fun _ _ => keeps_pure trivial
    case h_2 => exact hother _
  case h_3 => exact hother t

theorem bindings (bs : List (String × Term)) : (bindings bs).Maintains I := by
  refine keeps_foldlM trivial fun (name, t) _ s _ => ?_
  refine keeps_get.bind fun _ _ => (keeps_lift _).bind fun _ _ => ?_
  exact (hI.convert t).bind fun _ _ => keeps_pure trivial

theorem event (e : Event) : e.convert.Maintains I := by
  cases e with
  | function name position => exact keeps_pure trivial
  | hook name args result =>
    refine (keeps_mapM fun t _ => hI.convert t).bind fun _ _ => ?_
    exact (hI.convert result).bind fun _ _ => keeps_pure trivial

end Converter.Steady

namespace Converter.Lasting

variable {I : Converter → Prop} (hI : Lasting I)
include hI

-- While an axiom is being converted, the record of axioms stays as it is.
theorem convertAxiom (a : Axiom) : a.convert.Maintains I := by
  have hnone : Steady fun c => I c ∧ c.converted.lookup a = none :=
    ⟨fun hc name => ⟨hI.addSymbol hc.1 name, hc.2⟩, fun hc name => ⟨hI.addMetavar hc.1 name, hc.2⟩,
      fun hc hnew hname => ⟨hI.addCell hc.1 hnew hname, hc.2⟩⟩
  intro c hc
  refine ends_get_bind ?_
  split
  case h_1 => exact ends_pure ⟨hc, trivial⟩
  case h_2 hnew =>
    have hclassify := hnone.classify a.term c ⟨hc, hnew⟩
    refine Ends.bind (hclassify.weaken fun _ _ hc' => hc'.1) fun b c' hc' => ?_
    have hadded := hI.addAxiom hc'.1.1 hc'.1.2 b
    exact Ends.bind (ends_modifyGet hadded) fun _ _ h => ends_pure ⟨h, trivial⟩

theorem rule (ordinal : UInt64) : (rule ordinal).Maintains I := by
  refine keeps_get.bind fun c _ => ?_
  split
  case h_1 a _ => exact hI.convertAxiom a
  case h_2 => exact keeps_throw

theorem hint (h : Hint) : h.convert.Maintains I := by
  refine (hI.rule h.ordinal).bind fun _ _ => (hI.convert h.configuration).bind fun _ _ => ?_
  refine (hI.bindings h.bindings).bind fun _ _ => ?_
  exact (keeps_mapM fun e _ => hI.event e).bind fun _ _ => keeps_pure trivial

theorem hints (hs : List Hint) : (Hint.convertAll hs).Maintains I :=
  (keeps_mapM fun h _ => hI.hint h).bind fun _ _ => keeps_pure trivial

end Converter.Lasting

namespace Converter

variable {c c' c'' : Converter} {I : Converter → Prop}

-- What can be asked of a converter.
inductive Action where
  | term (t : Term)
  | law (a : Axiom)
  | rule (ordinal : UInt64)
  | bindings (bs : List (String × Term))
  | hint (h : Hint)
  | hints (hs : List Hint)
  | sideAxioms (s : Substitution) (events : List MatchingLogic.Event)

-- What is left behind, whatever is answered.
def act (c : Converter) : Action → Converter
  | .term t => (t.convert.run c).2
  | .law a => (a.convert.run c).2
  | .rule ordinal => ((Conversion.rule ordinal).run c).2
  | .bindings bs => ((Conversion.bindings bs).run c).2
  | .hint h => (h.convert.run c).2
  | .hints hs => ((Hint.convertAll hs).run c).2
  | .sideAxioms s events => (Semantics.sideAxioms s events c).2

def run (c : Converter) (actions : List Action) : Converter :=
  actions.foldl act c

theorem Lasting.act (hI : Lasting I) (hc : I c) (a : Action) : I (c.act a) := by
  cases a with
  | term t => exact (hI.convert t).state hc
  | law a => exact (hI.convertAxiom a).state hc
  | rule ordinal => exact (hI.rule ordinal).state hc
  | bindings bs => exact (hI.bindings bs).state hc
  | hint h => exact (hI.hint h).state hc
  | hints hs => exact (hI.hints hs).state hc
  | sideAxioms => exact hc

theorem Lasting.run (hI : Lasting I) (hc : I c) (actions : List Action) : I (c.run actions) := by
  induction actions generalizing c with
  | nil => exact hc
  | cons a actions ih => exact ih (hI.act hc a)

-- All that is known to `c` is known to `c'`, cells with their heads included.
structure Extends (c c' : Converter) : Prop extends c.Grows c' where
  cells : ∀ symbol head, c.cells.lookup symbol = some head → c'.cells.lookup symbol = some head

namespace Extends

theorem refl (c : Converter) : c.Extends c :=
  ⟨.refl c, fun _ _ h => h⟩

theorem trans (h : c.Extends c') (h' : c'.Extends c'') : c.Extends c'' :=
  ⟨h.toGrows.trans h'.toGrows, fun symbol head hhead => h'.cells symbol head (h.cells symbol head hhead)⟩

theorem isCell (h : c.Extends c') {symbol : String} (hcell : c.isCell symbol) : c'.isCell symbol := by
  simp only [Converter.isCell, h.config, Bool.or_eq_true] at hcell ⊢
  refine hcell.imp_right fun hhead => ?_
  obtain ⟨head, hhead⟩ := Option.isSome_iff_exists.mp hhead
  exact Option.isSome_iff_exists.mpr ⟨head, h.cells symbol head hhead⟩

end Extends

theorem lookup_addCell (c : Converter) (symbol name other : String) :
    (c.addCell symbol name).cells.lookup other =
      if other = symbol then some (c.vocabulary.symbol name) else c.cells.lookup other :=
  lookup_cons_if ..

theorem extends_addAxiom (c : Converter) (a : Axiom) (b : MatchingLogic.Axiom) :
    c.Extends { c with converted := (a, b) :: c.converted } :=
  ⟨{ Grows.refl c with converted := List.subset_cons_self .. }, fun _ _ h => h⟩

theorem lasting_extends (c : Converter) : Lasting c.Extends where
  addSymbol hc name := hc.trans ⟨grows_addSymbol _ name, fun _ _ h => h⟩
  addMetavar hc name := hc.trans ⟨grows_addMetavar _ name, fun _ _ h => h⟩
  addCell {c' symbol name} hc hnew hname := by
    refine hc.trans ⟨grows_addCell _ symbol name, fun other head hhead => ?_⟩
    have hne : other ≠ symbol := fun heq => by simp [heq, hnew] at hhead
    rw [lookup_addCell, if_neg hne]
    exact hhead
  addAxiom {_ a} hc _ b := hc.trans (extends_addAxiom _ a b)

theorem extends_run (c : Converter) (actions : List Action) : c.Extends (c.run actions) :=
  (lasting_extends c).run (.refl c) actions

-- The names that a symbol may get in patterns: its own one, and as a cell the one that it carries.
def aliases (c : Converter) (symbol : String) : List String :=
  symbol :: (c.cellName.capture? symbol).toList

-- The names that it may get as the head of a pattern. The outermost cell is one from the start.
def headNames (c : Converter) (symbol : String) : List String :=
  if symbol = c.config.topCell then (c.cellName.capture? symbol).toList else c.aliases symbol

theorem mem_headNames {symbol name : String} : name ∈ c.headNames symbol ↔
    c.cellName.capture? symbol = some name ∨ symbol ≠ c.config.topCell ∧ name = symbol := by
  simp only [headNames]
  split
  case isTrue h => simp [h]
  case isFalse h => simp [h, aliases, or_comm]

theorem Extends.aliases (h : c.Extends c') (symbol : String) : c'.aliases symbol = c.aliases symbol := by
  rw [Converter.aliases, h.cellName, Converter.aliases]

theorem Extends.headNames (h : c.Extends c') (symbol : String) : c'.headNames symbol = c.headNames symbol := by
  rw [Converter.headNames, h.config, h.cellName, h.aliases, Converter.headNames]

-- What can be said of the records of any converter.
structure Orderly (c : Converter) : Prop where
  cells : ∀ symbol head, c.cells.lookup symbol = some head →
    ∃ name, c.cellName.capture? symbol = some name ∧ head = c.vocabulary.symbol name
  vouched : ∀ symbol head, c.cells.lookup symbol = some head → symbol ∈ c.functionalNames →
    head ∈ c.functional
  functional : ∀ p ∈ c.functional, ∃ symbol ∈ c.functionalNames, ∃ name ∈ c.aliases symbol,
    p = c.vocabulary.symbol name

theorem mem_record {known : List Pattern} {p q : Pattern} {noted : Prop} [Decidable noted] :
    q ∈ (if noted then known.insert p else known) ↔ q ∈ known ∨ noted ∧ q = p := by
  split
  case isTrue h => simp [h, or_comm]
  case isFalse h => simp [h]

theorem lasting_orderly : Lasting Orderly where
  addSymbol {c} hc name := by
    have hsymbol (n : String) : (c.addSymbol name).vocabulary.symbol n = c.vocabulary.symbol n :=
      (grows_addSymbol c name).symbol n
    constructor
    case cells =>
      intro symbol head hhead
      rw [funext hsymbol]
      exact hc.cells symbol head hhead
    case vouched =>
      exact fun symbol head hhead hname => mem_record.mpr (.inl (hc.vouched symbol head hhead hname))
    case functional =>
      intro p hp
      rw [funext hsymbol]
      obtain hp | ⟨hname, rfl⟩ := mem_record.mp hp
      · exact hc.functional p hp
      · exact ⟨name, hname, name, List.mem_cons_self, rfl⟩
  addMetavar hc name := ⟨hc.cells, hc.vouched, hc.functional⟩
  addCell {c symbol name} hc hnew hname := by
    have hsymbol (n : String) : (c.addCell symbol name).vocabulary.symbol n = c.vocabulary.symbol n :=
      (grows_addCell c symbol name).symbol n
    have hlookup {other : String} {head : Pattern}
        (h : (c.addCell symbol name).cells.lookup other = some head) :
        other = symbol ∧ head = c.vocabulary.symbol name ∨ c.cells.lookup other = some head := by
      rw [lookup_addCell] at h
      split at h
      case isTrue heq => exact .inl ⟨heq, (Option.some.inj h).symm⟩
      case isFalse => exact .inr h
    constructor
    case cells =>
      intro other head hhead
      rw [funext hsymbol]
      obtain ⟨rfl, rfl⟩ | hhead := hlookup hhead
      · exact ⟨name, hname, rfl⟩
      · exact hc.cells other head hhead
    case vouched =>
      intro other head hhead hfunctional
      obtain ⟨rfl, rfl⟩ | hhead := hlookup hhead
      · exact mem_record.mpr (.inr ⟨hfunctional, rfl⟩)
      · exact mem_record.mpr (.inl (hc.vouched other head hhead hfunctional))
    case functional =>
      intro p hp
      rw [funext hsymbol]
      obtain hp | ⟨hfunctional, rfl⟩ := mem_record.mp hp
      · exact hc.functional p hp
      · exact ⟨symbol, hfunctional, name, List.mem_cons_of_mem _ (Option.mem_toList.mpr hname), rfl⟩
  addAxiom hc _ b := ⟨hc.cells, hc.vouched, hc.functional⟩

theorem Orderly.convert (hc : c.Orderly) {t : Term} {answer : Except Error Pattern}
    (h : t.convert.run c = (answer, c')) : c'.Orderly := by
  have hc' := lasting_orderly.act hc (.term t)
  rwa [act, h] at hc'

-- A converter that has not met anything yet.
structure Fresh (d : Definition) (config : Config) (engine : Engine) (c : Converter) : Prop where
  configured : c.config = config
  cellName : engine.compile config.cellPattern = some c.cellName
  functionalNames : ∀ symbol, symbol ∈ c.functionalNames ↔ ∃ decl ∈ d.symbols,
    decl.name = symbol ∧ hasAttribute decl.attributes config.functionalAttribute
  functional : c.functional = []
  cells : c.cells = []

section Definitions

variable {d : Definition} {config : Config} {engine : Engine}

theorem fresh_ofDefinition (h : ofDefinition d config engine = .ok c) : c.Fresh d config engine := by
  simp only [ofDefinition] at h
  split at h
  case h_1 => cases h
  case h_2 cellName hcellName =>
    cases h
    refine ⟨rfl, hcellName, fun symbol => ?_, rfl, rfl⟩
    simp only [List.mem_map, List.mem_filter]
    grind

theorem Fresh.orderly (h : c.Fresh d config engine) : c.Orderly where
  cells := by simp [h.cells]
  vouched := by simp [h.cells]
  functional := by simp [h.functional]

theorem Fresh.isCell (h : c.Fresh d config engine) {symbol : String} :
    c.isCell symbol ↔ symbol = c.config.topCell := by
  simp [Converter.isCell, h.cells]

theorem orderly_run (h : ofDefinition d config engine = .ok c) (actions : List Action) :
    (c.run actions).Orderly :=
  lasting_orderly.run (fresh_ofDefinition h).orderly actions

end Definitions

-- A converter whose naming convention gives a name to every cell, the outermost one included.
structure Usual (c : Converter) : Prop extends c.Orderly where
  captures : c.cellName.Captures
  topCell : c.cellName.accepts c.config.topCell

theorem Usual.capture_ne_none (hc : c.Usual) {symbol : String}
    (h : symbol = c.config.topCell ∨ c.cellName.accepts symbol) : c.cellName.capture? symbol ≠ none := by
  have haccepts : c.cellName.accepts symbol := h.elim (fun h => h ▸ hc.topCell) id
  obtain ⟨name, hname⟩ := hc.captures haccepts
  simp [hname]

theorem Usual.extend (hc : c.Usual) (h : c.Extends c') (hc' : c'.Orderly) : c'.Usual where
  toOrderly := hc'
  captures := h.cellName ▸ hc.captures
  topCell := by rw [h.cellName, h.config]; exact hc.topCell

theorem Usual.run (hc : c.Usual) (actions : List Action) : (c.run actions).Usual :=
  hc.extend (extends_run c actions) (lasting_orderly.run hc.toOrderly actions)

section Conventions

variable {d : Definition} {engine : Engine} (hengine : engine.Usual) (h : ofDefinition d {} engine = .ok c)
include hengine h

theorem usual_cellName : c.cellName.Usual := by
  obtain ⟨m, hm, husual⟩ := hengine
  obtain rfl : m = c.cellName := Option.some.inj (hm.symm.trans (fresh_ofDefinition h).cellName)
  exact husual

theorem usual_ofDefinition : c.Usual := by
  have hfresh := fresh_ofDefinition h
  have hcells := usual_cellName hengine h
  exact ⟨hfresh.orderly, hcells.captures, hfresh.configured ▸ hcells.accepts_topCell⟩

end Conventions

end Converter
end MatchingLogic.Kore
