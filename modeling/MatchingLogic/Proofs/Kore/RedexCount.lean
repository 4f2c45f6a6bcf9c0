import MatchingLogic.Proofs.Kore.Innermost

namespace MatchingLogic.Kore

open Conversion Converter

-- The definition declares that the symbol is defined by equations and not computed natively.
def Definition.Simplifies (d : Definition) (config : Config) (symbol : String) : Prop :=
  ∃ decl ∈ d.symbols, decl.name = symbol ∧ hasAttribute decl.attributes config.functionAttribute ∧
    ¬hasAttribute decl.attributes config.hookAttribute

instance (d : Definition) (config : Config) : DecidablePred (d.Simplifies config) :=
  fun symbol => inferInstanceAs (Decidable (∃ decl ∈ d.symbols, decl.name = symbol ∧ _))

namespace Term

-- The symbols of all applications, at any depth.
def heads (t : Term) : List String :=
  t.nodes.filterMap symbol?

theorem heads_eq (t : Term) : t.heads = t.symbol?.toList ++ t.children.flatMap heads := by
  rw [heads, nodes_eq, List.filterMap_cons, List.filterMap_flatMap]
  cases t.symbol? <;> rfl

theorem heads_app (f : String) (ss : List SortName) (ts : List Term) :
    (app f ss ts).heads = f :: ts.flatMap heads :=
  heads_eq _

end Term

namespace Converter

variable {c c' c'' : Converter} {f : String} {I : Converter → Prop}

-- What a converter is at some time after `c`: between requests, or when only some records of one are made.
inductive Moment (c : Converter) : Converter → Prop
  | start : Moment c c
  | act {c' : Converter} (h : Moment c c') (a : Action) : Moment c (c'.act a)
  | addSymbol {c' : Converter} (h : Moment c c') (name : String) : Moment c (c'.addSymbol name)
  | addMetavar {c' : Converter} (h : Moment c c') (name : String) : Moment c (c'.addMetavar name)
  | addCell {c' : Converter} {symbol name : String} (h : Moment c c') (hnew : c'.cells.lookup symbol = none)
    (hname : c'.cellName.capture? symbol = some name) : Moment c (c'.addCell symbol name)
  | addAxiom {c' : Converter} {a : Axiom} (h : Moment c c') (hnew : c'.converted.lookup a = none)
    (b : MatchingLogic.Axiom) : Moment c { c' with converted := (a, b) :: c'.converted }

theorem lasting_moment (c : Converter) : Lasting c.Moment :=
  ⟨⟨.addSymbol, .addMetavar, .addCell⟩, .addAxiom⟩

theorem Lasting.moment (hI : Lasting I) (hc : I c) (h : c.Moment c') : I c' := by
  induction h with
  | start => exact hc
  | act _ a ih => exact hI.act ih a
  | addSymbol _ name ih => exact hI.addSymbol ih name
  | addMetavar _ name ih => exact hI.addMetavar ih name
  | addCell _ hnew hname ih => exact hI.addCell ih hnew hname
  | addAxiom _ hnew b ih => exact hI.addAxiom ih hnew b

-- The symbol is noted to be simplifiable.
def Noted (f : String) (c : Converter) : Prop :=
  c.vocabulary.symbol f ∈ c.simplifiable

theorem lasting_noted (f : String) : Lasting (Noted f) where
  addSymbol {c} hc name := by
    rw [Noted, (grows_addSymbol c name).symbol]
    exact mem_record.mpr (.inl hc)
  addMetavar hc _ := hc
  addCell {c symbol name} hc _ _ := by
    rw [Noted, (grows_addCell c symbol name).symbol]
    exact hc
  addAxiom hc _ _ := hc

-- Only declared symbols are noted.
structure Faithful (names : List String) (c : Converter) : Prop where
  declared : c.simplifiableNames = names
  simplifiable : ∀ q ∈ c.simplifiable, ∃ f ∈ names, q = c.vocabulary.symbol f

theorem lasting_faithful (names : List String) : Lasting (Faithful names) where
  addSymbol {c} hc name := by
    refine ⟨hc.declared, fun q hq => ?_⟩
    rw [funext (grows_addSymbol c name).symbol]
    obtain hq | ⟨hname, rfl⟩ := mem_record.mp hq
    · exact hc.simplifiable q hq
    · exact ⟨name, hc.declared ▸ hname, rfl⟩
  addMetavar hc _ := ⟨hc.declared, hc.simplifiable⟩
  addCell {c symbol name} hc _ _ := by
    refine ⟨hc.declared, ?_⟩
    rw [funext (grows_addCell c symbol name).symbol]
    exact hc.simplifiable
  addAxiom hc _ _ := ⟨hc.declared, hc.simplifiable⟩

-- A simplifiable symbol that cannot be taken for a cell.
structure Plain (f : String) (c : Converter) : Prop where
  declared : f ∈ c.simplifiableNames
  unlike : ¬c.cellName.accepts f
  notCell : ¬c.isCell f

theorem lasting_plain (f : String) : Lasting (Plain f) where
  addSymbol hc _ := ⟨hc.declared, hc.unlike, hc.notCell⟩
  addMetavar hc _ := ⟨hc.declared, hc.unlike, hc.notCell⟩
  addCell {c symbol name} hc _ hname := by
    have hne : f ≠ symbol := by
      rintro rfl
      exact hc.unlike (Matcher.accepts_of_capture hname)
    refine ⟨hc.declared, hc.unlike, ?_⟩
    rw [isCell, lookup_addCell, if_neg hne]
    exact hc.notCell
  addAxiom hc _ _ := ⟨hc.declared, hc.unlike, hc.notCell⟩

end Converter

namespace Conversion

variable {α β : Type} {act : Conversion α} {f : α → Conversion β} {c : Converter} {g : String}

-- From `c`, the conversion answers only after it has noted the symbol.
abbrev Notes (g : String) (act : Conversion α) (c : Converter) : Prop :=
  Ends act c (fun _ c' => c'.Noted g) fun _ _ => True

theorem Notes.bind (h : Notes g act c) (hf : ∀ a, (f a).Maintains (Noted g)) : Notes g (act >>= f) c :=
  Ends.bind h fun a c' hc' => (hf a c' hc').answer fun _ _ h => h.1

theorem notes_later (hact : act.Maintains (Plain g)) (hc : c.Plain g)
    (hf : ∀ a c', c'.Plain g → Notes g (f a) c') : Notes g (act >>= f) c :=
  Ends.bind ((hact c hc).answer fun _ _ h => h.1) hf

theorem notes_symbol (hc : c.Plain g) : Notes g (symbol g) c := by
  refine ends_modifyGet (mem_record.mpr (.inr ⟨hc.declared, ?_⟩))
  exact (grows_addSymbol c g).symbol g

end Conversion

namespace Term

variable {c : Converter} {t : Term} {ts : List Term} {p : Pattern} {ps : List Pattern} {g : String} {inCell : Bool}
  {known : String → Bool}

theorem notes_convertAll (hg : g ∈ ts.flatMap heads) (hc : c.Plain g)
    (h : ∀ t ∈ ts, ∀ c', g ∈ t.heads → c'.Plain g → Notes g (t.convertIn inCell) c') :
    Notes g (convertAll inCell ts) c := by
  induction ts generalizing c with
  | nil => simp at hg
  | cons t ts ih =>
    rw [convertAll]
    by_cases ht : g ∈ t.heads
    case pos =>
      refine (h t List.mem_cons_self c ht hc).bind fun _ => ?_
      exact (Steady.convertAll fun u _ => (lasting_noted g).convertIn inCell u).bind fun _ _ => keeps_pure trivial
    case neg =>
      have hts : g ∈ ts.flatMap heads := by simpa [ht] using hg
      refine notes_later ((lasting_plain g).convertIn inCell t) hc fun _ c' hc' => ?_
      exact (ih hts hc' fun u hu => h u (List.mem_cons_of_mem _ hu)).bind fun _ => keeps_pure trivial

-- A term in which a plain symbol is applied is not answered before the symbol is noted.
theorem notes_convertIn (hg : g ∈ t.heads) (hc : c.Plain g) : Notes g (t.convertIn inCell) c := by
  induction t generalizing inCell c with
  | app f ss ts ih =>
    have hargs (inCell : Bool) {c' : Converter} (hc' : c'.Plain g) (hts : g ∈ ts.flatMap heads) :
        Notes g (convertAll inCell ts) c' :=
      notes_convertAll hts hc' fun t ht _ hg hc => ih t ht hg hc
    have hsorts (ps : List Pattern → Conversion Pattern) (h : ∀ qs, (ps qs).Maintains (Noted g)) :
        (ss.mapM Conversion.sort >>= ps).Maintains (Noted g) :=
      (keeps_mapM fun s _ => Steady.sort s).bind fun qs _ => h qs
    rw [heads_app] at hg
    rw [convertIn_app]
    refine ends_get_bind ?_
    split
    case isTrue hcell =>
      have hts : g ∈ ts.flatMap heads := by
        refine (List.mem_cons.mp hg).resolve_left ?_
        rintro rfl
        simp [hc.unlike, hc.notCell] at hcell
      refine notes_later ((lasting_plain g).cellHead f) hc fun _ c' hc' => ?_
      split
      case isTrue hempty => simp [List.isEmpty_iff.mp hempty] at hts
      case isFalse => exact (hargs true hc' hts).bind fun _ => keeps_pure trivial
    case isFalse =>
      obtain rfl | hts := List.mem_cons.mp hg
      · refine (notes_symbol hc).bind fun _ => ?_
        refine (Steady.convertAll fun u _ => (lasting_noted g).convertIn false u).bind fun _ _ => ?_
        exact hsorts _ fun _ => keeps_pure trivial
      · refine notes_later ((lasting_plain g).symbol f) hc fun _ c' hc' => ?_
        exact (hargs false hc' hts).bind fun _ => hsorts _ fun _ => keeps_pure trivial
  | and s l r ihl ihr | or s l r ihl ihr | transition s l r ihl ihr =>
    rw [heads_eq] at hg
    have hg : g ∈ l.heads ∨ g ∈ r.heads := by simpa [symbol?, children] using hg
    simp only [convertIn_and, convertIn_or, convertIn_transition]
    refine notes_later (Steady.sort s) hc fun _ c' hc' => ?_
    obtain hg | hg := hg
    · refine (ihl hg hc').bind fun _ => ?_
      exact ((lasting_noted g).convertIn false r).bind fun _ _ => keeps_pure trivial
    · refine notes_later ((lasting_plain g).convertIn false l) hc' fun _ c'' hc'' => ?_
      exact (ihr hg hc'').bind fun _ => keeps_pure trivial
  | elementVar | top | value => simp [heads_eq, symbol?, children] at hg
  | _ =>
    rw [convertIn]
    exact ends_throw trivial
    all_goals simp

theorem countP_flatMap_applied {P : Pattern → Bool} {Q : String → Bool}
    (h : List.Forall₂ (fun t p => p.applied.countP P = t.heads.countP Q) ts ps) :
    (ps.flatMap Pattern.applied).countP P = (ts.flatMap heads).countP Q := by
  induction h with
  | nil => rfl
  | cons h _ ih => simp only [List.flatMap_cons, List.countP_append, h, ih]

-- What is not named like a cell is applied in a reading as often as in the term.
theorem Reads.countP_applied {P : Pattern → Bool} (h : t.Reads c known inCell p) (hc : c.Orderly)
    (hP : ∀ f, P (c.vocabulary.symbol f) → ¬c.cellName.accepts f) :
    p.applied.countP P = t.heads.countP fun f => P (c.vocabulary.symbol f) := by
  have hcell {f : String} {head : Pattern} (hhead : c.cells.lookup f = some head) :
      head.applied = [] ∧ ¬P (c.vocabulary.symbol f) := by
    obtain ⟨name, hname, rfl⟩ := hc.cells f head hhead
    exact ⟨rfl, fun h => hP f h (Matcher.accepts_of_capture hname)⟩
  induction t generalizing inCell p with
  | app f ss ts ih =>
    have hargs {inCell : Bool} {ps : List Pattern} (hps : List.Forall₂ (Reads c known inCell) ts ps) :=
      countP_flatMap_applied (forall₂_imp_mem hps fun t ht p _ hread => ih t ht hread)
    rw [heads_app]
    cases h with
    | emptyCell hhead => simp [hcell hhead]
    | cell hhead _ hps =>
      have hnone := List.countP_cons_of_neg (p := fun f => P (c.vocabulary.symbol f)) (l := ts.flatMap heads)
        (hcell hhead).2
      rw [applied_cell, (hcell hhead).1, List.nil_append, hnone]
      exact hargs hps
    | plain _ _ _ hps => rw [applied_plain, List.countP_cons, List.countP_cons, hargs hps]
  | elementVar | top | value =>
    cases h
    simp [Pattern.sortedTop, Pattern.domainValue, Pattern.appliedHead?, Vocabulary.sort, Vocabulary.symbol, heads_eq,
      symbol?, children]
  | and s l r ihl ihr | or s l r ihl ihr | transition s l r ihl ihr =>
    cases h
    rename_i hl hr
    rw [heads_eq]
    simp [Pattern.sortedAnd, Pattern.sortedOr, Pattern.transition, Pattern.appliedHead?, Vocabulary.sort, symbol?,
      children, ihl hl, ihr hr]
  | _ => cases h

end Term

section Counts

variable {c c' earlier later : Converter} {d : Definition} {config : Config} {engine : Engine} {k : Term}
  {p : Pattern} {inCell : Bool} {f : String}

theorem faithful_ofDefinition (h : ofDefinition d config engine = .ok c) :
    c.Faithful c.simplifiableNames ∧ ∀ f, f ∈ c.simplifiableNames ↔ d.Simplifies config f := by
  simp only [ofDefinition] at h
  split at h
  case h_1 => cases h
  case h_2 =>
    cases h
    refine ⟨⟨rfl, by simp⟩, fun f => ?_⟩
    simp only [List.mem_map, List.mem_filter, Definition.Simplifies]
    grind

theorem simplifies_of_noted (hc : ofDefinition d config engine = .ok c) (h : c.Moment later) (hf : later.Noted f) :
    d.Simplifies config f := by
  obtain ⟨hfaithful, hdeclared⟩ := faithful_ofDefinition hc
  obtain ⟨g, hg, heq⟩ := ((lasting_faithful _).moment hfaithful h).simplifiable _ hf
  rw [later.vocabulary.symbol_inj.mp heq]
  exact (hdeclared g).mp hg

-- If no function is named like a cell, then no simplifiable symbol is ever taken for one.
theorem plain_of_simplifies (hengine : engine.Usual) (hc : ofDefinition d {} engine = .ok c)
    (hapart : ∀ decl ∈ d.symbols, c.cellName.accepts decl.name → ¬hasAttribute decl.attributes "function")
    (h : c.Moment later) (hf : d.Simplifies {} f) : later.Plain f := by
  have hunlike : ¬c.cellName.accepts f := by
    obtain ⟨decl, hdecl, rfl, hfunction, -⟩ := hf
    exact fun haccepts => hapart decl hdecl haccepts hfunction
  have hnotCell : ¬c.isCell f := by
    intro hcell
    rw [(fresh_ofDefinition hc).isCell.mp hcell] at hunlike
    exact hunlike (usual_ofDefinition hengine hc).topCell
  exact (lasting_plain f).moment ⟨((faithful_ofDefinition hc).2 f).mpr hf, hunlike, hnotCell⟩ h

theorem noted_of_converted (hearlier : earlier.Plain f) (hp : (k.convertIn inCell).run earlier = (.ok p, c'))
    (hlater : c'.Moment later) (hf : f ∈ k.heads) : later.Noted f := by
  have hnotes : Notes f (k.convertIn inCell) earlier := Term.notes_convertIn hf hearlier
  have hnoted := (ends_run.mp hnotes).1 p (congrArg Prod.fst hp)
  rw [hp] at hnoted
  exact (lasting_noted f).moment hnoted hlater

-- Whenever a term is converted, on its own or as a part of what was asked for, its pattern has as many redexes as
-- there are applications of simplifiable symbols in the term. This is so at once and ever after.
theorem redexes_converted (hengine : engine.Usual) (hc : ofDefinition d {} engine = .ok c)
    (hapart : ∀ decl ∈ d.symbols, c.cellName.accepts decl.name → ¬hasAttribute decl.attributes "function")
    (hearlier : c.Moment earlier) (hp : (k.convertIn inCell).run earlier = (.ok p, c')) (hlater : c'.Moment later) :
    later.redexes p = (k.nodes.filterMap Term.symbol?).countP (d.Simplifies {} ·) := by
  have hmoment : c.Moment later := by
    have hconverted := ((lasting_moment c).convertIn inCell k).state hearlier
    rw [hp] at hconverted
    exact (lasting_moment c).moment hconverted hlater
  have horderly : later.Orderly := lasting_orderly.moment (fresh_ofDefinition hc).orderly hmoment
  have hcells (f : String) (hf : decide (later.vocabulary.symbol f ∈ later.simplifiable)) :
      ¬later.cellName.accepts f := by
    have hnoted : later.vocabulary.symbol f ∈ later.simplifiable := of_decide_eq_true hf
    exact (plain_of_simplifies hengine hc hapart hmoment (simplifies_of_noted hc hmoment hnoted)).unlike
  have hreads : k.Reads later earlier.isCell inCell p :=
    (Term.reads_of_convertIn hp).2.mono ((lasting_extends c').moment (.refl c') hlater) fun _ hf => hf
  rw [redexes_eq, hreads.countP_applied horderly hcells]
  refine List.countP_congr fun f hf => ?_
  simp only [decide_eq_true_eq]
  constructor
  case mp => exact simplifies_of_noted hc hmoment
  case mpr => exact fun h => noted_of_converted (plain_of_simplifies hengine hc hapart hearlier h) hp hlater hf

-- A literal is not an application, whatever its text is.
open Doubling in
theorem redexes_converted_doubling :
    let k := Counting.state (double (Counting.next (increment (.value "SortNat" "Lbldouble"))))
    ∃ c p c', ofDefinition definition {} = .ok c ∧ k.convert.run c = (.ok p, c') ∧ c'.redexes p = 2 ∧
      (c'.act (.hints hints)).redexes p = 2 := by
  intro k
  have hconverts : (ofDefinition definition {}).toOption.any fun c => (k.convert.run c).1.isOk ∧
      ∀ decl ∈ definition.symbols, c.cellName.accepts decl.name → ¬hasAttribute decl.attributes "function" := by
    decide +kernel
  have hcount : (k.nodes.filterMap Term.symbol?).countP (definition.Simplifies {} ·) = 2 := by
    decide +kernel
  obtain ⟨c, hc, h⟩ := exists_of_any hconverts
  obtain ⟨hok, hapart⟩ := of_decide_eq_true h
  obtain ⟨p, hanswer⟩ := isOk_iff.mp hok
  have hp : k.convert.run c = (.ok p, (k.convert.run c).2) := Prod.ext hanswer rfl
  refine ⟨c, p, _, hc, hp, ?_, ?_⟩
  · exact (redexes_converted Regex.engine_usual hc hapart .start hp .start).trans hcount
  · exact (redexes_converted Regex.engine_usual hc hapart .start hp (.act .start _)).trans hcount

end Counts
end MatchingLogic.Kore
