import Mathlib.Data.List.Chain
import Mathlib.Data.List.Dedup
import MatchingLogic.Proofs.Kore.Learning
import MatchingLogic.Proofs.Kore.Packaging

namespace MatchingLogic

namespace Execution

variable {σ : Type} {x : Execution σ} {l : σ} {p q : Pattern}

-- The execution is open, and nothing is being simplified.
structure Stands (x : Execution σ) (l : σ) (p : Pattern) : Prop where
  language : x.language = l
  finalized : x.finalized = false
  simplification : x.simplification = { configuration := p }

theorem stands_start (l : σ) (p : Pattern) : (start l p).Stands l p :=
  ⟨rfl, rfl, rfl⟩

theorem Stands.finalize (hx : x.Stands l p) : ∃ x', x.finalize = (.ok (), x') := by
  simp [Execution.finalize, hx.finalized, hx.simplification]

variable [Semantics σ]

theorem Stands.transition {rule : Axiom} {s : Substitution} {events : List Event} {sort : Pattern}
    {groups : AxiomGroups} (hx : x.Stands l p) (hkind : rule.kind = .transition)
    (hclaim : rule.pattern.instantiate s = .transition sort p q)
    (hsides : Semantics.sideAxioms s events l = (.ok groups, l)) :
    ∃ proof x', x.transition rule s events = (.ok proof, x') ∧ x'.Stands l q := by
  have hcheck : x.checkTransition rule (rule.pattern.instantiate s) = .ok q := by
    have hp : p = x.configuration := by rw [configuration, hx.simplification]
    simp [checkTransition, hx.finalized, hx.simplification, hkind, successor, hclaim, Pattern.transition?,
      Pattern.transition, ← hp, Except.mapError]
  simp only [Execution.transition, hcheck, hx.language, hsides, hx.simplification]
  exact ⟨_, _, rfl, rfl, hx.finalized, rfl⟩

-- A step whose rule is a transition.
theorem Stands.apply {rule : Axiom} {step : Step} {sort : Pattern} {groups : AxiomGroups}
    (hx : x.Stands l p) (hrule : Semantics.rule step.ordinal l = (.ok rule, l))
    (hkind : rule.kind = .transition)
    (hclaim : rule.pattern.instantiate step.substitution = .transition sort p q)
    (hsides : Semantics.sideAxioms step.substitution step.events l = (.ok groups, l)) :
    ∃ x', x.apply step = (.ok (), x') ∧ x'.Stands l q := by
  have ⟨proof, x', htransition, hx'⟩ := hx.transition hkind hclaim hsides
  refine ⟨x', ?_, hx'⟩
  have hasked : { x with language := l } = x := by rw [← hx.language]
  rw [Execution.apply, if_neg (by simp [hx.finalized]), hx.language, hrule]
  simp only [hasked, hkind, htransition]
  rfl

end Execution

namespace Kore

open Conversion Converter

-- The symbols that follow the usual naming convention for cells.
def namesCell (engine : Engine) (symbol : String) : Bool :=
  (engine.compile ({} : Config).cellPattern).any (·.accepts symbol)

def Term.isValue : Term → Bool
  | value .. => true
  | _ => false

structure Firing where
  ordinal : UInt64
  rule : Rule
  bindings : List (String × Term)

namespace Firing

def source (f : Firing) : Term :=
  f.rule.left.subst f.bindings

def result (f : Firing) : Term :=
  f.rule.right.subst f.bindings

def hint (f : Firing) : Hint where
  ordinal := f.ordinal
  configuration := f.source
  bindings := f.bindings
  location := none
  events := []

def vars (f : Firing) : List String :=
  f.rule.vars ++ f.bindings.flatMap (·.2.vars)

-- A firing of a rule of the definition, in the usual configuration. In the sides of the rule, cells are the
-- outermost one or stand directly in cells. What is bound has no cells and denotes one element.
structure Genuine (engine : Engine) (d : Definition) (f : Firing) : Prop where
  declared : (d.axioms[f.ordinal.toNat]?.bind fun a => a.term.rule?) = some f.rule
  bound : ∀ b ∈ f.bindings, b.1 ∈ f.rule.vars
  sides : ∀ t ∈ [f.rule.left, f.rule.right], t.Regular (namesCell engine) ∧
    (t.isCell (namesCell engine) → t.symbol? = some ({} : Config).topCell)
  plain : ∀ b ∈ f.bindings, ∀ t ∈ b.2.nodes, t.convertible ∧ ¬t.isCell (namesCell engine)
  functional : ∀ b ∈ f.bindings, b.2.isValue ∨
    ∃ decl ∈ d.symbols, b.2.symbol? = some decl.name ∧
      hasAttribute decl.attributes ({} : Config).functionalAttribute

-- Each firing starts where the one before it ends.
def Chained (fs : List Firing) : Prop :=
  fs.IsChain fun f g => f.result = g.source

instance (fs : List Firing) : Decidable (Chained fs) :=
  inferInstanceAs (Decidable (fs.IsChain _))

instance (engine : Engine) (d : Definition) (f : Firing) : Decidable (f.Genuine engine d) :=
  decidable_of_iff (_ ∧ _ ∧ _ ∧ _ ∧ _)
    ⟨fun ⟨h₁, h₂, h₃, h₄, h₅⟩ => ⟨h₁, h₂, h₃, h₄, h₅⟩,
      fun h => ⟨h.declared, h.bound, h.sides, h.plain, h.functional⟩⟩

end Firing

namespace Converter

variable {c c' : Converter} {engine : Engine} {ns : List String}

theorem exists_ofDefinition (hengine : engine.Usual) (d : Definition) :
    ∃ c, ofDefinition d {} engine = .ok c ∧ c.Sound ns ∧ c.config = {} ∧
      c.cellName.accepts = namesCell engine ∧ c.axioms = d.axioms ∧
      ∀ decl ∈ d.symbols, hasAttribute decl.attributes ({} : Config).functionalAttribute →
        decl.name ∈ c.functionalNames := by
  obtain ⟨m, hm, husual⟩ := hengine
  rw [ofDefinition, hm]
  refine ⟨_, rfl, ?sound, rfl, ?cells, rfl, ?functional⟩
  case sound =>
    exact ⟨husual.captures, husual.accepts_topCell, by simp, .nil, (fun _ hn => by cases hn), by simp⟩
  case cells => simp [funext_iff, namesCell, hm]
  case functional => exact fun decl hdecl h => List.mem_map_of_mem (List.mem_filter.mpr ⟨hdecl, h⟩)

end Converter

-- A literal value, or an application of a symbol that is declared to denote one element.
def Term.Granted (c : Converter) (t : Term) : Prop :=
  t.isValue ∨ ∃ f ∈ c.functionalNames, t.symbol? = some f

section Instances

variable {c c' : Converter} {ns : List String} {bs : List (String × Term)} {t : Term}

theorem Term.symbol?_subst {f : String} (h : t.symbol? = some f) : (t.subst bs).symbol? = some f := by
  cases t with
  | app g ss ts => rwa [subst]
  | _ => cases h

theorem Term.Placed.subst (ht : t.Placed ns c false)
    (hbs : ∀ b ∈ bs, b.2.Placed ns c false ∧ ¬b.2.isCell c.cellName.accepts) :
    (t.subst bs).Placed ns c false where
  vars n hn := by
    obtain hn | ⟨b, hb, hn⟩ := mem_vars_subst hn
    · exact ht.vars n hn
    · exact (hbs b hb).1.vars n hn
  regular := regular_subst ht.regular fun b hb => ⟨(hbs b hb).1.regular, (hbs b hb).2⟩
  root h := by
    rw [isCell_subst fun b hb => (hbs b hb).2] at h
    exact (ht.root h).imp_right symbol?_subst

-- A term without new variables is converted to its image.
theorem Term.convert_known (hc : c.Sound ns) (ht : t.Placed ns c false) (hknown : ∀ n ∈ t.vars, n ∈ c.names) :
    (t.convert.run c).1 = .ok (t.image c) := by
  obtain ⟨p, c', hrun, -, hgrows, hp⟩ := (learns_convertIn hc ht).run
  rw [convert, hrun, hp.eq_image, hgrows.image hknown]

theorem Converter.Grows.substitution (h : c.Grows c') (hnames : ∀ b ∈ bs, b.1 ∈ c.names)
    (hvalues : ∀ b ∈ bs, b.2.Shown c (b.2.image c)) : c'.substitution bs = c.substitution bs := by
  refine congrArg Substitution.ofList (List.map_congr_left fun b hb => ?_)
  rw [h.id (hnames b hb), h.image (hvalues b hb).known]

-- While ids do not run out, the last binding of a name is the one that its id is bound to.
theorem Converter.get?_substitution (hsize : c.names.length ≤ UInt32.size)
    (hbs : ∀ b ∈ bs, b.1 ∈ c.names) {n : String} (hn : n ∈ c.names) :
    (c.substitution bs).get? (c.vocabulary.metavars.id n) = (bs.reverse.lookup n).map (Term.image c) := by
  have hlookup (l : List (String × Term)) (hl : ∀ b ∈ l, b.1 ∈ c.names) :
      (l.map fun b => (c.vocabulary.metavars.id b.1, b.2.image c)).lookup (c.vocabulary.metavars.id n) =
        (l.lookup n).map (Term.image c) := by
    induction l with
    | nil => rfl
    | cons b l ih =>
      obtain ⟨m, t⟩ := b
      obtain ⟨hm, hl⟩ := List.forall_mem_cons.mp hl
      have hid : c.vocabulary.metavars.id n = c.vocabulary.metavars.id m ↔ n = m :=
        ⟨NameTable.id_inj hsize hn hm, congrArg _⟩
      simp only [List.map_cons, List.lookup_cons, beq_eq_decide, hid, ih hl]
      split <;> rfl
  rw [substitution, Substitution.get?_ofList, ← List.map_reverse]
  exact hlookup bs.reverse fun b hb => hbs b (List.mem_reverse.mp hb)

-- The converter vouches for every value that it has met.
theorem Converter.exists_functionalAxiom (ht : t.Shown c (t.image c)) (hcell : ¬t.isCell c.cellName.accepts)
    (hgranted : t.Granted c) : ∃ a, c.functionalAxiom (t.image c) = .ok a := by
  obtain hvalue | ⟨f, hf, hsymbol⟩ := hgranted
  case inl =>
    cases t with
    | value s text => exact ⟨_, by rw [Term.image]; rfl⟩
    | _ => cases hvalue
  case inr =>
    cases t with
    | app g ss ts =>
      cases hsymbol
      have hnot : ¬c.cellName.accepts f := hcell
      have hfunctional := ht.functional f rfl hnot hf
      rw [Term.image, if_neg hnot]
      simp only [functionalAxiom, decidingHead?, Pattern.sortedApp, Pattern.head_chain]
      exact ⟨_, if_pos (decide_eq_true hfunctional)⟩
    | _ => cases hsymbol

theorem Converter.exists_sideAxioms
    (hbs : ∀ b ∈ bs, b.2.Shown c (b.2.image c) ∧ ¬b.2.isCell c.cellName.accepts ∧ b.2.Granted c) :
    ∃ groups, c.sideAxioms (c.substitution bs) [] = .ok groups := by
  have ⟨granted, hgranted⟩ : ∃ granted, (c.substitution bs).plugs.mapM c.functionalAxiom = .ok granted := by
    refine exists_mapM fun q hq => ?_
    obtain ⟨_, hbinding, rfl⟩ := Substitution.mem_plugs_ofList hq
    obtain ⟨b, hb, rfl⟩ := List.mem_map.mp hbinding
    obtain ⟨hshown, hcell, hgranted⟩ := hbs b hb
    exact exists_functionalAxiom hshown hcell hgranted
  exact ⟨_, bind_eq_ok.mpr ⟨granted, hgranted, rfl⟩⟩

end Instances

namespace Firing

variable {c c' : Converter} {ns : List String} {f : Firing} {d : Definition} {engine : Engine}

def step (c : Converter) (f : Firing) : Step where
  ordinal := f.ordinal
  configuration := f.source.image c
  substitution := c.substitution f.bindings

-- The firing as a converter sees it before it has met any part of it.
structure Ready (ns : List String) (c : Converter) (f : Firing) : Prop where
  declared : ∃ a, c.axioms[f.ordinal.toNat]? = some a ∧ a.term.rule? = some f.rule
  bound : ∀ b ∈ f.bindings, b.1 ∈ f.rule.vars
  rule : f.rule.Placed ns c
  values : ∀ b ∈ f.bindings, b.2.Placed ns c false ∧ ¬b.2.isCell c.cellName.accepts
  granted : ∀ b ∈ f.bindings, b.2.Granted c

-- And after that.
structure Known (c : Converter) (f : Firing) : Prop where
  rule : ∃ a b, c.axioms[f.ordinal.toNat]? = some a ∧ (a, b) ∈ c.converted ∧ f.rule.Shown c b
  values : ∀ b ∈ f.bindings, b.2.Shown c (b.2.image c)

theorem Ready.grow (h : f.Ready ns c) (hgrows : c.Grows c') : f.Ready ns c' where
  declared := hgrows.axioms ▸ h.declared
  bound := h.bound
  rule := h.rule.grow hgrows
  values b hb := ⟨(h.values b hb).1.grow hgrows, hgrows.cellName ▸ (h.values b hb).2⟩
  granted b hb := by
    rw [Term.Granted, hgrows.functionalNames]
    exact h.granted b hb

theorem Known.grow (h : f.Known c) (hgrows : c.Grows c') : f.Known c' where
  rule := by
    have ⟨a, b, ha, hb, hshown⟩ := h.rule
    exact ⟨a, b, hgrows.axioms ▸ ha, hgrows.converted hb, hgrows.rule hshown⟩
  values b hb := by
    have hshown := (h.values b hb).grow hgrows
    rwa [← hgrows.image (h.values b hb).known] at hshown

theorem Known.names (h : f.Known c) : ∀ n ∈ f.rule.vars, n ∈ c.names := by
  have ⟨_, _, _, _, hshown⟩ := h.rule
  exact hshown.known

theorem known_of_instance (h : f.Known c) {t : Term} (ht : ∀ n ∈ t.vars, n ∈ f.rule.vars) :
    ∀ n ∈ (t.subst f.bindings).vars, n ∈ c.names := by
  intro n hn
  obtain hn | ⟨b, hb, hn⟩ := Term.mem_vars_subst hn
  · exact h.names n (ht n hn)
  · exact (h.values b hb).known n hn

theorem step_of_grows (hf : f.Ready ns c) (h : f.Known c) (hgrows : c.Grows c') : f.step c' = f.step c := by
  have hsource := known_of_instance h fun n hn => List.mem_append_left f.rule.right.vars hn
  simp only [step, source]
  rw [hgrows.image hsource, hgrows.substitution (fun b hb => h.names _ (hf.bound b hb)) h.values]

theorem ready_of_genuine (hf : f.Genuine engine d) (hns : ∀ n ∈ f.vars, n ∈ ns) (hconfig : c.config = {})
    (hcells : c.cellName.accepts = namesCell engine) (haxioms : c.axioms = d.axioms)
    (hfunctional : ∀ decl ∈ d.symbols, hasAttribute decl.attributes ({} : Config).functionalAttribute →
      decl.name ∈ c.functionalNames) : f.Ready ns c := by
  have hside (t : Term) (ht : t ∈ [f.rule.left, f.rule.right]) (hvars : ∀ n ∈ t.vars, n ∈ f.rule.vars) :
      t.Placed ns c false := by
    have ⟨hregular, hroot⟩ := hf.sides t ht
    refine ⟨fun n hn => hns n (List.mem_append_left _ (hvars n hn)), hcells ▸ hregular, fun hcell => .inr ?_⟩
    rw [hconfig]
    exact hroot (hcells ▸ hcell)
  constructor
  case declared => exact haxioms ▸ Option.bind_eq_some_iff.mp hf.declared
  case bound => exact hf.bound
  case rule =>
    exact ⟨hside _ (by simp) fun n hn => List.mem_append_left _ hn,
      hside _ (by simp) fun n hn => List.mem_append_right _ hn⟩
  case values =>
    intro b hb
    have hcell := (hf.plain b hb b.2 (Term.mem_nodes.mpr (.inl rfl))).2
    rw [← hcells] at hcell
    have hregular := Term.regular_of_plain (hf.plain b hb)
    refine ⟨⟨fun n hn => hns n ?_, hcells ▸ hregular, fun h => absurd h hcell⟩, hcell⟩
    exact List.mem_append_right _ (List.mem_flatMap.mpr ⟨b, hb, hn⟩)
  case granted =>
    intro b hb
    refine (hf.functional b hb).imp_right ?_
    rintro ⟨decl, hdecl, hsymbol, hattribute⟩
    exact ⟨decl.name, hfunctional decl hdecl hattribute, hsymbol⟩

theorem learns_convert (hc : c.Sound ns) (hf : f.Ready ns c) :
    Learns ns f.hint.convert c fun step c' => step = f.step c' ∧ f.Known c' := by
  have ⟨a, hordinal, ha⟩ := hf.declared
  have hsource := hf.rule.left.subst hf.values
  refine (learns_rule hc hordinal ha hf.rule).bind fun b c₁ hc₁ h₁ ⟨hshown, hb⟩ => ?_
  refine (Term.learns_convertIn hc₁ (hsource.grow h₁)).bind fun p c₂ hc₂ h₂ hp => ?_
  have hgrows := h₁.trans h₂
  have hnames (b : String × Term) (hb : b ∈ f.bindings) : b.1 ∈ c₂.names :=
    h₂.names.subset (hshown.known _ (hf.bound b hb))
  have hvalues (b : String × Term) (hb : b ∈ f.bindings) := (hf.values b hb).1.grow hgrows
  refine (learns_bindings hc₂ hnames hvalues).bind fun s c₃ hc₃ h₃ ⟨hs, hvalues⟩ => ?_
  refine learns_pure hc₃ ⟨?step, ?rule, hvalues⟩
  case step => rw [hs, (hp.grow h₃).eq_image]; rfl
  case rule =>
    refine ⟨a, b, ?_, h₃.converted (h₂.converted hb), (h₂.trans h₃).rule hshown⟩
    rw [(hgrows.trans h₃).axioms]
    exact hordinal

theorem learns_convertAll {fs : List Firing} (hc : c.Sound ns) (hfs : ∀ f ∈ fs, f.Ready ns c) :
    Learns ns (Hint.convertAll (fs.map hint)) c fun trace c' =>
      trace.steps = fs.map (step c') ∧ ∀ f ∈ fs, f.Known c' := by
  have hmap : Learns ns ((fs.map hint).mapM Hint.convert) c fun steps c' =>
      steps = fs.map (step c') ∧ ∀ f ∈ fs, f.Known c' := by
    induction fs generalizing c with
    | nil => exact learns_pure hc ⟨rfl, nofun⟩
    | cons f fs ih =>
      obtain ⟨hf, hfs⟩ := List.forall_mem_cons.mp hfs
      rw [List.map_cons, List.mapM_cons]
      refine (learns_convert hc hf).bind fun st c₁ hc₁ h₁ ⟨hst, hknown⟩ => ?_
      refine (ih hc₁ fun g hg => (hfs g hg).grow h₁).bind fun sts c₂ hc₂ h₂ ⟨hsts, hknowns⟩ => ?_
      refine learns_pure hc₂ ⟨?_, List.forall_mem_cons.mpr ⟨hknown.grow h₂, hknowns⟩⟩
      rw [hst, hsts, List.map_cons, step_of_grows (hf.grow h₁) hknown h₂]
  exact hmap.bind fun _ _ hc' _ h => learns_pure hc' h

section Run

variable {x : Execution Converter}

theorem answer_rule (hc : c.Sound ns) (hf : f.Ready ns c) (hknown : f.Known c) :
    Semantics.rule f.ordinal c = (.ok (f.rule.image c), c) := by
  have ⟨a, hordinal, ha⟩ := hf.declared
  have ⟨a', b, hordinal', hb, _⟩ := hknown.rule
  obtain rfl : a = a' := Option.some.inj (hordinal.symm.trans hordinal')
  obtain ⟨b', hb'⟩ := exists_lookup hb
  obtain ⟨r, hr, hshown⟩ := hc.converted _ (mem_of_lookup hb')
  obtain rfl : f.rule = r := Option.some.inj (ha.symm.trans hr)
  have hrun : (Conversion.rule f.ordinal).run c = (.ok b', c) := by
    rw [Conversion.rule, run_get, hordinal]
    simp only
    rw [Axiom.convert, run_get, hb']
    rfl
  rw [← hshown.eq_image]
  exact hrun

theorem instance_of_image (hsize : c.names.length ≤ UInt32.size) (hf : f.Ready ns c) (hknown : f.Known c)
    {t : Term} (ht : t.Placed ns c false) (hvars : ∀ n ∈ t.vars, n ∈ f.rule.vars) :
    (t.image c).instantiate (c.substitution f.bindings) = (t.subst f.bindings).image c := by
  have hnames (b : String × Term) (hb : b ∈ f.bindings) := hknown.names _ (hf.bound b hb)
  refine (Term.instantiate_image_iff ht.regular.supported fun n hn => ?_).mpr ?_
  · exact get?_substitution hsize hnames (hknown.names n (hvars n hn))
  · exact Term.settled_of_plain (fun b hb => (hf.values b hb).2) t

theorem apply_step (hsize : c.names.length ≤ UInt32.size) (hc : c.Sound ns) (hf : f.Ready ns c)
    (hknown : f.Known c) (hx : x.Stands c (f.source.image c)) :
    ∃ x', x.apply (f.step c) = (.ok (), x') ∧ x'.Stands c (f.result.image c) := by
  have ⟨groups, hgroups⟩ := exists_sideAxioms fun b hb =>
    ⟨hknown.values b hb, (hf.values b hb).2, hf.granted b hb⟩
  have hclaim : (f.rule.image c).pattern.instantiate (c.substitution f.bindings) =
      .transition (c.vocabulary.sort f.rule.sort) (f.source.image c) (f.result.image c) := by
    have hleft := instance_of_image hsize hf hknown hf.rule.left
      fun n hn => List.mem_append_left f.rule.right.vars hn
    have hright := instance_of_image hsize hf hknown hf.rule.right
      fun n hn => List.mem_append_right f.rule.left.vars hn
    rw [source, result, ← hleft, ← hright]
    simp only [Rule.image, Pattern.transition, Pattern.instantiate_sugar, List.map_cons, List.map_nil]
    rfl
  exact hx.apply (answer_rule hc hf hknown) rfl hclaim (congrArg (·, c) hgroups)

theorem applyAll_steps {fs : List Firing} {t : Term} (hsize : c.names.length ≤ UInt32.size)
    (hc : c.Sound ns) (hfs : ∀ f ∈ fs, f.Ready ns c ∧ f.Known c) (hchained : Chained fs)
    (hstart : ∀ f ∈ fs.head?, f.source = t) (hx : x.Stands c (t.image c)) :
    ∃ x', x.applyAll (fs.map (step c)) = (.ok (), x') ∧
      x'.Stands c ((fs.foldl (fun _ f => f.result) t).image c) := by
  induction fs generalizing x t with
  | nil => exact ⟨x, rfl, hx⟩
  | cons f fs ih =>
    obtain ⟨⟨hready, hknown⟩, hfs⟩ := List.forall_mem_cons.mp hfs
    obtain ⟨hnext, hchained⟩ := List.isChain_cons.mp hchained
    obtain rfl := hstart f rfl
    obtain ⟨x₁, happly, hx₁⟩ := apply_step hsize hc hready hknown hx
    obtain ⟨x', hrest, hx'⟩ := ih hfs hchained (fun g hg => (hnext g hg).symm) hx₁
    refine ⟨x', ?_, hx'⟩
    rw [List.map_cons, Execution.applyAll, happly]
    exact hrest

theorem prove_steps {fs : List Firing} (hsize : c.names.length ≤ UInt32.size) (hc : c.Sound ns)
    (hfs : ∀ f ∈ fs, f.Ready ns c ∧ f.Known c) (hchained : Chained fs) :
    ∃ b c', Execution.prove c (fs.map (step c)) = (.ok b, c') := by
  cases fs with
  | nil => exact ⟨_, _, rfl⟩
  | cons f fs =>
    have hx := Execution.stands_start c (f.source.image c)
    obtain ⟨x, hrun, hx⟩ := applyAll_steps hsize hc hfs hchained (by simp) hx
    obtain ⟨x', hfinalize⟩ := hx.finalize
    have hsteps : (Execution.start c (f.step c).configuration).applyAll (f.step c :: fs.map (step c)) =
        (.ok (), x) := hrun
    refine ⟨x'.bundle, x'.language, ?_⟩
    simp only [List.map_cons, Execution.prove, hsteps, hfinalize]
    rfl

-- After each step the execution stands at the result of its firing.
theorem reaches_result {fs : List Firing} (hsize : c.names.length ≤ UInt32.size) (hc : c.Sound ns)
    (hfs : ∀ f ∈ fs, f.Ready ns c ∧ f.Known c) (hchained : Chained fs) {i : Nat} (hi : fs[i]? = some f) :
    ∃ initial ∈ (Trace.mk (fs.map (step c))).initial?, ∃ x,
      (Execution.start c initial).applyAll ((fs.map (step c)).take (i + 1)) = (.ok (), x) ∧
        x.configuration = f.result.image c := by
  cases fs with
  | nil => cases hi
  | cons g fs =>
    have hx := Execution.stands_start c (g.source.image c)
    obtain ⟨x, hrun, hx⟩ := applyAll_steps hsize hc
      (fun f hf => hfs f (List.mem_of_mem_take hf)) (hchained.take (i + 1)) (by simp) hx
    refine ⟨g.source.image c, rfl, x, ?_, ?_⟩
    · rw [← List.map_take]
      exact hrun
    · rw [List.take_add_one, List.foldl_append, hi] at hx
      rw [Execution.configuration, hx.simplification]
      rfl

-- Hints that record genuine firings, one after the other, are converted. They are replayed too, and the
-- configuration after each step is what its result is converted to. For this each variable needs an id of its
-- own, and there are no more ids than numbers of 32 bits.
theorem replays_chained {fs : List Firing} (hengine : engine.Usual) (hfs : ∀ f ∈ fs, f.Genuine engine d)
    (hchained : Chained fs) :
    ∃ c trace c',
      Converter.ofDefinition d {} engine = .ok c ∧
      (Hint.convertAll (fs.map hint)).run c = (.ok trace, c') ∧
      ((fs.flatMap vars).dedup.length ≤ UInt32.size →
        (∃ b c'', Execution.prove c' trace.steps = (.ok b, c'')) ∧
        ∀ (i : Nat) f, fs[i]? = some f → ∃ initial ∈ trace.initial?, ∃ x,
          (Execution.start c' initial).applyAll (trace.steps.take (i + 1)) = (.ok (), x) ∧
            (f.result.convert.run c').1 = .ok x.configuration) := by
  obtain ⟨c, hc, hsound, hconfig, hcells, haxioms, hfunctional⟩ := exists_ofDefinition hengine d
  have hready (f : Firing) (hf : f ∈ fs) : f.Ready (fs.flatMap vars) c := by
    refine ready_of_genuine (hfs f hf) (fun n hn => ?_) hconfig hcells haxioms hfunctional
    exact List.mem_flatMap.mpr ⟨f, hf, hn⟩
  obtain ⟨⟨steps⟩, c', hrun, hsound', hgrows, hsteps, hknown⟩ := (learns_convertAll hsound hready).run
  obtain rfl : steps = fs.map (step c') := hsteps
  refine ⟨c, _, c', hc, hrun, fun hnames => ?_⟩
  have hsize : c'.names.length ≤ UInt32.size := by
    refine (hsound'.nodup.length_le_of_subset fun n hn => ?_).trans hnames
    exact List.mem_dedup.mpr (hsound'.names n hn)
  have hfs' (f : Firing) (hf : f ∈ fs) : f.Ready (fs.flatMap vars) c' ∧ f.Known c' :=
    ⟨(hready f hf).grow hgrows, hknown f hf⟩
  refine ⟨prove_steps hsize hsound' hfs' hchained, fun i f hi => ?_⟩
  obtain ⟨initial, hinitial, x, hx, hresult⟩ := reaches_result hsize hsound' hfs' hchained hi
  obtain ⟨hf, hf'⟩ := hfs' f (List.mem_of_getElem? hi)
  refine ⟨initial, hinitial, x, hx, ?_⟩
  rw [hresult]
  refine Term.convert_known hsound' (hf.rule.right.subst hf.values) ?_
  exact known_of_instance hf' fun n hn => List.mem_append_right _ hn

end Run

open Counting in
theorem replays_chained_counting :
    let count (t : Term) : Firing := ⟨0, ⟨"SortTop", state count, state (next count)⟩, [("N", t)]⟩
    let fs := [count zero, count (next zero)]
    (∀ f ∈ fs, f.Genuine Regex.engine definition) ∧ Chained fs ∧ ∃ c trace c',
      Converter.ofDefinition definition {} = .ok c ∧
      (Hint.convertAll (fs.map hint)).run c = (.ok trace, c') ∧
      (∃ b c'', Execution.prove c' trace.steps = (.ok b, c'')) ∧
      ∀ (i : Nat) f, fs[i]? = some f → ∃ initial ∈ trace.initial?, ∃ x,
        (Execution.start c' initial).applyAll (trace.steps.take (i + 1)) = (.ok (), x) ∧
          (f.result.convert.run c').1 = .ok x.configuration := by
  intro count fs
  have hfs : ∀ f ∈ fs, f.Genuine Regex.engine definition := by decide +kernel
  have hchained : Chained fs := by decide +kernel
  have hnames : (fs.flatMap vars).dedup.length ≤ UInt32.size := by decide +kernel
  have ⟨c, trace, c', hc, htrace, hreplay⟩ := replays_chained Regex.engine_usual hfs hchained
  exact ⟨hfs, hchained, c, trace, c', hc, htrace, hreplay hnames⟩

end Firing
end Kore
end MatchingLogic
