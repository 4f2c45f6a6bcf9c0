import MatchingLogic.Proofs.Kore.Reading
import MatchingLogic.Proofs.Kore.Replay

namespace MatchingLogic.Kore

open Conversion Converter

-- The definition declares that the symbol denotes one element.
def Definition.Vouches (d : Definition) (config : Config) (symbol : String) : Prop :=
  ∃ decl ∈ d.symbols, decl.name = symbol ∧ hasAttribute decl.attributes config.functionalAttribute

-- A literal value, or an application of such a symbol.
def Definition.Grants (d : Definition) (config : Config) (v : Term) : Prop :=
  v.isValue ∨ ∃ f, v.symbol? = some f ∧ d.Vouches config f

instance (d : Definition) (config : Config) (symbol : String) : Decidable (d.Vouches config symbol) :=
  inferInstanceAs (Decidable (∃ decl ∈ d.symbols, _))

namespace Converter

theorem isCell_topCell (c : Converter) : c.isCell c.config.topCell := by
  simp [isCell]

-- As the head of a pattern, the one symbol may get a name that the other one gets as well.
def Clash (c : Converter) (f g : String) : Prop :=
  ∃ name ∈ c.headNames f, name ∈ c.aliases g

-- What is assumed of a value that is let pass.
def admitted (p : Pattern) : AxiomGroups :=
  [(.functional, [⟨.functional, p.functional, ∅⟩])]

theorem decidingHead?_plain (c : Converter) (name : String) (sorts : Pattern) (ps : List Pattern) :
    decidingHead? (.sortedApp sorts (.chain (c.vocabulary.symbol name) ps)) =
      some (c.vocabulary.symbol name) := by
  simp only [Pattern.sortedApp, decidingHead?, Pattern.head_chain]
  rfl

theorem decidingHead?_cell (c : Converter) (name : String) (nested : Bool) (ps : List Pattern) :
    decidingHead? (if nested then .nestedCells (.chain (c.vocabulary.symbol name) ps)
      else .cell (.chain (c.vocabulary.symbol name) ps)) = some (c.vocabulary.symbol name) := by
  split
  all_goals
    simp only [Pattern.nestedCells, Pattern.cell, decidingHead?, Pattern.head_chain]
    rfl

-- The guard asks whether the deciding head of the value is recorded.
theorem sideAxioms_single (c : Converter) (id : UInt32) (p : Pattern) :
    let answer := c.sideAxioms (.ofList [(id, p)]) []
    (∀ head ∈ decidingHead? p, head ∈ c.functional) ∧ answer = .ok (admitted p) ∨
    ∃ head ∈ decidingHead? p, head ∉ c.functional ∧
      answer = .error (.replay (.nonFunctionalSubstitution head.text p.text)) := by
  intro answer
  have hanswer : answer = (c.functionalAxiom p).map fun a => [(a.kind, [a])] := by
    have hplugs : (Substitution.ofList [(id, p)]).plugs = [p] := rfl
    simp only [answer, sideAxioms, hplugs, List.mapM_cons, List.mapM_nil]
    cases c.functionalAxiom p <;> rfl
  simp only [hanswer, functionalAxiom]
  cases decidingHead? p with
  | none => exact .inl ⟨by simp, rfl⟩
  | some head =>
    by_cases hhead : head ∈ c.functional
    · exact .inl ⟨by simpa using hhead, by simp [isFunctional, hhead]; rfl⟩
    · exact .inr ⟨head, rfl, hhead, by simp [isFunctional, hhead]; rfl⟩

end Converter

namespace Term.Reads

variable {c : Converter} {known : String → Bool} {inCell : Bool} {v : Term} {p : Pattern}

-- The deciding head of a value: none for a literal, one of its names for an application.
theorem decidingHead (h : v.Reads c known inCell p) (hc : c.Orderly) (htop : known c.config.topCell) :
    (v.isValue ∧ decidingHead? p = none) ∨
    (∃ f name, v.symbol? = some f ∧ name ∈ c.headNames f ∧
      decidingHead? p = some (c.vocabulary.symbol name) ∧
      (f ∈ c.functionalNames → c.vocabulary.symbol name ∈ c.functional)) ∨
    (v.symbol? = none ∧ ¬v.isValue ∧ ∃ head ∈ decidingHead? p, head ∉ c.functional) := by
  have hother {head : Pattern} (hhead : ∀ name, head ≠ .symbol name) : head ∉ c.functional := by
    intro hmem
    obtain ⟨f, hf, name, hname, heq⟩ := hc.functional head hmem
    exact hhead _ heq
  have hcell {f : String} {head : Pattern} (hhead : c.cells.lookup f = some head) :
      ∃ name ∈ c.headNames f, head = c.vocabulary.symbol name ∧
        (f ∈ c.functionalNames → c.vocabulary.symbol name ∈ c.functional) := by
    obtain ⟨name, hname, rfl⟩ := hc.cells f head hhead
    exact ⟨name, mem_headNames.mpr (.inl hname), rfl, hc.vouched f _ hhead⟩
  cases h with
  | elementVar => exact .inr (.inr ⟨rfl, nofun, _, rfl, hother nofun⟩)
  | emptyCell hhead =>
    obtain ⟨name, hname, rfl, hfunctional⟩ := hcell hhead
    exact .inr (.inl ⟨_, name, rfl, hname, rfl, hfunctional⟩)
  | cell hhead hts hps =>
    obtain ⟨name, hname, rfl, hfunctional⟩ := hcell hhead
    exact .inr (.inl ⟨_, name, rfl, hname, decidingHead?_cell c name _ _, hfunctional⟩)
  | @plain _ f _ _ _ hplain _ hfunctional _ =>
    have hne : f ≠ c.config.topCell := fun heq => hplain (heq ▸ htop)
    have hname : f ∈ c.headNames f := mem_headNames.mpr (.inr ⟨hne, rfl⟩)
    exact .inr (.inl ⟨f, f, rfl, hname, decidingHead?_plain c f _ _, hfunctional⟩)
  | value => exact .inl ⟨rfl, rfl⟩
  | _ => exact .inr (.inr ⟨rfl, nofun, _, rfl, hother nofun⟩)

theorem functional_of_granted (h : v.Reads c known inCell p) (hc : c.Orderly) (htop : known c.config.topCell)
    (hgranted : v.Granted c) : ∀ head ∈ decidingHead? p, head ∈ c.functional := by
  obtain ⟨-, hnone⟩ | ⟨f, name, hsymbol, -, hhead, hfunctional⟩ | ⟨hsymbol, hvalue, -⟩ := h.decidingHead hc htop
  · simp [hnone]
  · have hf : f ∈ c.functionalNames := by
      obtain hvalue | ⟨g, hg, heq⟩ := hgranted
      · cases h <;> cases hvalue
        cases hsymbol
      · rwa [Option.some.inj (hsymbol.symm.trans heq)]
    simpa [hhead] using hfunctional hf
  · obtain hvalue' | ⟨g, -, heq⟩ := hgranted
    · exact absurd hvalue' hvalue
    · simp [hsymbol] at heq

theorem clash_of_functional (h : v.Reads c known inCell p) (hc : c.Orderly) (htop : known c.config.topCell)
    (hfunctional : ∀ head ∈ decidingHead? p, head ∈ c.functional) :
    v.isValue ∨ ∃ f, v.symbol? = some f ∧ ∃ g ∈ c.functionalNames, c.Clash f g := by
  obtain ⟨hvalue, -⟩ | ⟨f, name, hsymbol, hname, hhead, -⟩ | ⟨-, -, head, hhead, hnot⟩ := h.decidingHead hc htop
  · exact .inl hvalue
  · obtain ⟨g, hg, other, hother, heq⟩ := hc.functional _ (hfunctional _ hhead)
    rw [Vocabulary.symbol_inj] at heq
    exact .inr ⟨f, hsymbol, g, hg, name, hname, heq ▸ hother⟩
  · exact absurd (hfunctional head hhead) hnot

end Term.Reads

section Guard

variable {c c' : Converter} {d : Definition} {config : Config} {engine : Engine} {v : Term} {p : Pattern}

-- Whatever is asked before and after the conversion of a value.
theorem Converter.guard_run (hc : ofDefinition d config engine = .ok c) (before after : List Action) (id : UInt32)
    (hp : v.convert.run (c.run before) = (.ok p, c')) :
    let answer := (c'.run after).sideAxioms (.ofList [(id, p)]) []
    (answer = .ok (admitted p) ∨
      ∃ head ∈ decidingHead? p, answer = .error (.replay (.nonFunctionalSubstitution head.text p.text))) ∧
    (d.Grants config v → answer = .ok (admitted p)) ∧
    (answer = .ok (admitted p) →
      d.Grants config v ∨ ∃ f, v.symbol? = some f ∧ ∃ g, d.Vouches config g ∧ c.Clash f g) := by
  intro answer
  obtain ⟨hconverted, hreads⟩ := Term.reads_of_convert hp
  have hextends : c.Extends (c'.run after) :=
    ((extends_run c before).trans hconverted).trans (extends_run c' after)
  have horderly : (c'.run after).Orderly := lasting_orderly.run ((orderly_run hc before).convert hp) after
  have hreads := hreads.mono (extends_run c' after) fun _ hf => hf
  have htop : (c.run before).isCell (c'.run after).config.topCell := by
    rw [hextends.config, ← (extends_run c before).config]
    exact isCell_topCell _
  have hnames (f : String) : f ∈ (c'.run after).functionalNames ↔ d.Vouches config f := by
    rw [hextends.functionalNames]
    exact (fresh_ofDefinition hc).functionalNames f
  obtain ⟨hfunctional, hanswer⟩ | ⟨head, hhead, hnot, hanswer⟩ := (c'.run after).sideAxioms_single id p
  · refine ⟨.inl hanswer, fun _ => hanswer, fun _ => ?_⟩
    obtain hvalue | ⟨f, hf, g, hg, name, hname⟩ := hreads.clash_of_functional horderly htop hfunctional
    · exact .inl (.inl hvalue)
    · rw [hextends.headNames, hextends.aliases] at hname
      exact .inr ⟨f, hf, g, (hnames g).mp hg, name, hname⟩
  · refine ⟨.inr ⟨head, hhead, hanswer⟩, fun hgranted => ?_, fun hok => ?_⟩
    · refine absurd (hreads.functional_of_granted horderly htop ?_ head hhead) hnot
      refine hgranted.imp_right ?_
      rintro ⟨f, hsymbol, hf⟩
      exact ⟨f, (hnames f).mpr hf, hsymbol⟩
    · cases hanswer.symm.trans hok

end Guard

namespace Converter

variable {c c' : Converter} {d : Definition} {v : Term} {p : Pattern} {f g name : String}

-- A cell inside of the outermost one becomes known.
theorem lookup_recognised (hc : c.Usual) (hname : c.cellName.capture? f = some name) :
    (c.act (.term (.app c.config.topCell [] [.app f [] []]))).cells.lookup f =
      some (c.vocabulary.symbol name) := by
  have hsupported : ∀ u ∈ (Term.app c.config.topCell [] [.app f [] []]).nodes, u.convertible := by
    simp [Term.nodes, Term.nodesAll, Term.convertible]
  obtain ⟨p, c', hrun, hextends, hreads⟩ := (Term.leads_convert hc hsupported).succeeds
  have hc' : c'.Orderly := hc.toOrderly.convert hrun
  rw [act, hrun]
  cases hreads with
  | plain hplain => exact absurd (isCell_topCell c) hplain
  | cell _ _ hps =>
    cases hps with
    | cons hread _ =>
      cases hread with
      | emptyCell hlookup =>
        obtain ⟨other, hother, rfl⟩ := hc'.cells f _ hlookup
        rw [hextends.cellName, hname] at hother
        rw [hlookup, Option.some.inj hother, hextends.symbol]
      | cell _ hts => exact absurd rfl hts
      | plain _ hnot =>
        rw [hextends.cellName] at hnot
        exact absurd (Matcher.accepts_of_capture hname) (hnot rfl)

-- Any name of a symbol that is declared to be functional can become recorded.
theorem exists_recorded (hc : c.Usual) (hg : g ∈ c.functionalNames) (hname : name ∈ c.aliases g) :
    ∃ a : Action, c.vocabulary.symbol name ∈ (c.act a).functional := by
  obtain rfl | hname := List.mem_cons.mp hname
  · -- A literal is recorded like a symbol.
    exact ⟨.term (.value "" name), mem_record.mpr (.inr ⟨hg, rfl⟩)⟩
  · let a : Action := .term (.app c.config.topCell [] [.app g [] []])
    have hlookup := lookup_recognised hc (Option.mem_toList.mp hname)
    have horderly := lasting_orderly.act hc.toOrderly a
    have hextends := (lasting_extends c).act (.refl c) a
    exact ⟨a, horderly.vouched g _ hlookup (hextends.functionalNames ▸ hg)⟩

end Converter

namespace Term

variable {c : Converter} {f name : String} {ss : List SortName} {ts : List Term}

-- An application is converted with its own name, if it is not known as a cell.
theorem ends_plain (h : ¬c.isCell f) :
    Ends (app f ss ts).convert c (fun p _ => decidingHead? p = some (c.vocabulary.symbol f))
      fun _ _ => True := by
  rw [convert, convertIn_app]
  refine ends_get_bind ?_
  rw [if_neg (by simpa using h)]
  have hhead : Ends (symbol f) c (fun head _ => head = c.vocabulary.symbol f) fun _ _ => True :=
    ends_modifyGet rfl
  refine Ends.bind hhead fun head _ hhead => ?_
  refine Ends.bind ends_true fun ps _ _ => Ends.bind ends_true fun sorts _ _ => ends_pure ?_
  rw [hhead, decidingHead?_plain]

theorem ends_cell (h : c.cells.lookup f = some (c.vocabulary.symbol name)) :
    Ends (app f ss ts).convert c (fun p _ => decidingHead? p = some (c.vocabulary.symbol name))
      fun _ _ => True := by
  have hhead : Ends (cellHead f) c (fun head _ => head = c.vocabulary.symbol name) fun _ _ => True := by
    refine ends_get_bind ?_
    rw [h]
    exact ends_pure rfl
  rw [convert, convertIn_app]
  refine ends_get_bind ?_
  rw [if_pos (by simp [Converter.isCell, h])]
  refine Ends.bind hhead fun head _ hhead => ?_
  split
  case isTrue => exact ends_pure (hhead.symm ▸ rfl)
  case isFalse =>
    refine Ends.bind ends_true fun ps _ _ => ends_pure ?_
    rw [hhead, decidingHead?_cell]

end Term

namespace Converter

variable {c : Converter} {d : Definition} {engine : Engine} {v : Term} {f name : String}

-- Any name that a symbol may get as a head can become the deciding one.
theorem exists_decidingHead (hengine : engine.Usual) (hc : ofDefinition d {} engine = .ok c)
    (hv : ∀ u ∈ v.nodes, u.convertible) (hf : v.symbol? = some f) (hname : name ∈ c.headNames f) :
    ∃ before p c', v.convert.run (c.run before) = (.ok p, c') ∧
      decidingHead? p = some (c.vocabulary.symbol name) := by
  have husual := usual_ofDefinition hengine hc
  have hconverts (before : List Action)
      (h : Ends v.convert (c.run before) (fun p _ => decidingHead? p = some (c.vocabulary.symbol name))
        fun _ _ => True) :
      ∃ p c', v.convert.run (c.run before) = (.ok p, c') ∧
        decidingHead? p = some (c.vocabulary.symbol name) := by
    have ⟨p, c', hrun, _⟩ := (Term.leads_convert (husual.run before) hv).succeeds
    have hhead := (ends_run.mp h).1 p (congrArg Prod.fst hrun)
    exact ⟨p, c', hrun, hhead⟩
  cases v with
  | app g ss ts =>
    cases hf
    obtain hcapture | ⟨hne, rfl⟩ := mem_headNames.mp hname
    · let a : Action := .term (.app c.config.topCell [] [.app f [] []])
      have hlookup := lookup_recognised husual hcapture
      have hextends := (lasting_extends c).act (.refl c) a
      rw [← hextends.symbol] at hlookup
      refine ⟨[a], hconverts [a] ?_⟩
      rw [← hextends.symbol]
      exact Term.ends_cell hlookup
    · exact ⟨[], hconverts [] (Term.ends_plain (hne ∘ (fresh_ofDefinition hc).isCell.mp))⟩
  | _ => cases hf

end Converter

section Guard

variable {c : Converter} {d : Definition} {engine : Engine}

-- What is declared to be functional is let pass at any later moment. Whatever else is let pass may get the name
-- of a symbol that is declared so, and all that may is let pass in some run. An error names the head that decided.
theorem functional_guard (hengine : engine.Usual) (hc : ofDefinition d {} engine = .ok c) (v : Term) :
    (∀ before after id p c', v.convert.run (c.run before) = (.ok p, c') →
      let answer := (c'.run after).sideAxioms (.ofList [(id, p)]) []
      (answer = .ok (admitted p) ∨ ∃ head ∈ decidingHead? p,
        answer = .error (.replay (.nonFunctionalSubstitution head.text p.text))) ∧
      (d.Grants {} v → answer = .ok (admitted p)) ∧
      (answer = .ok (admitted p) →
        d.Grants {} v ∨ ∃ f, v.symbol? = some f ∧ ∃ g, d.Vouches {} g ∧ c.Clash f g)) ∧
    ((∀ u ∈ v.nodes, u.convertible) →
      (∃ f, v.symbol? = some f ∧ ∃ g, d.Vouches {} g ∧ c.Clash f g) →
      ∃ before after p c', v.convert.run (c.run before) = (.ok p, c') ∧
        ∀ id, (c'.run after).sideAxioms (.ofList [(id, p)]) [] = .ok (admitted p)) := by
  refine ⟨fun before after id p c' hp => guard_run hc before after id hp, fun hv => ?_⟩
  rintro ⟨f, hf, g, hg, name, hname, hother⟩
  obtain ⟨before, p, c', hp, hhead⟩ := exists_decidingHead hengine hc hv hf hname
  have hextends := (extends_run c before).trans (Term.reads_of_convert hp).1
  have husual : c'.Usual :=
    (usual_ofDefinition hengine hc).extend hextends ((orderly_run hc before).convert hp)
  have hnames : g ∈ c'.functionalNames := by
    rw [hextends.functionalNames]
    exact ((fresh_ofDefinition hc).functionalNames g).mpr hg
  obtain ⟨a, ha⟩ := exists_recorded husual hnames (hextends.aliases g ▸ hother)
  rw [hextends.symbol] at ha
  refine ⟨before, [a], p, c', hp, fun id => ?_⟩
  obtain ⟨-, hanswer⟩ | ⟨head, hhead', hnot, -⟩ := (c'.act a).sideAxioms_single id p
  · exact hanswer
  · rw [hhead, Option.mem_some_iff] at hhead'
    exact absurd (hhead' ▸ ha) hnot

theorem functional_guard_counting :
    let v := Counting.next Counting.zero
    Counting.definition.Grants {} v ∧
    ∃ c p c', ofDefinition Counting.definition {} = .ok c ∧ v.convert.run c = (.ok p, c') ∧
      c'.sideAxioms (.ofList [(0, p)]) [] = .ok (admitted p) := by
  intro v
  have hgrants : Counting.definition.Grants {} v :=
    .inr ⟨"Lblsucc", rfl, _, List.mem_singleton_self _, rfl, rfl⟩
  have hconverts : (ofDefinition Counting.definition {}).toOption.any fun c => (v.convert.run c).1.isOk := by
    decide +kernel
  have ⟨c, hc, hok⟩ := exists_of_any hconverts
  have ⟨p, hanswer⟩ := isOk_iff.mp hok
  have hp : v.convert.run c = (.ok p, (v.convert.run c).2) := Prod.ext hanswer rfl
  have ⟨hguard, _⟩ := functional_guard Regex.engine_usual hc v
  have ⟨_, hgranted, _⟩ := hguard [] [] 0 p _ hp
  exact ⟨hgrants, c, p, _, hc, hp, hgranted hgrants⟩

namespace Clashing

open Term

def cell (name : String) (ts : List Term) : Term :=
  app ("Lbl'-LT-'" ++ name ++ "'-GT-'") [] ts

-- Only sequences are declared to be functional, but there is a cell that carries their name.
def definition : Definition where
  modules := [{
    name := "CLASHING"
    sorts := []
    symbols := [⟨"kseq", [], "SortK", [⟨"functional", []⟩]⟩, ⟨"Lbl'-LT-'kseq'-GT-'", [], "SortK", []⟩]
    axioms := [] }]

end Clashing

open Clashing in
theorem clashing_cell_admitted :
    let v := cell "kseq" [.value "SortInt" "1"]
    let before := [Action.term (cell "generatedTop" [cell "kseq" [.app "kseq" [] []]])]
    ¬definition.Grants {} v ∧
    ∃ c p c', ofDefinition definition {} = .ok c ∧ v.convert.run (c.run before) = (.ok p, c') ∧
      c'.sideAxioms (.ofList [(0, p)]) [] = .ok (admitted p) := by
  intro v before
  refine ⟨?_, ?_⟩
  · rintro (hvalue | ⟨f, hf, hvouches⟩)
    · cases hvalue
    obtain rfl := Option.some.inj hf
    revert hvouches
    decide +kernel
  have hadmits : (ofDefinition definition {}).toOption.any fun c =>
      (v.convert.run (c.run before)).1.toOption.any fun p =>
        ((v.convert.run (c.run before)).2.sideAxioms (.ofList [(0, p)]) []).toOption.any (· = admitted p) := by
    decide +kernel
  have ⟨c, hc, hadmits⟩ := exists_of_any hadmits
  have ⟨p, hanswer, hadmits⟩ := exists_of_any hadmits
  have ⟨groups, hgroups, heq⟩ := exists_of_any hadmits
  exact ⟨c, p, _, hc, Prod.ext hanswer rfl, of_decide_eq_true heq ▸ hgroups⟩

end Guard
end MatchingLogic.Kore
