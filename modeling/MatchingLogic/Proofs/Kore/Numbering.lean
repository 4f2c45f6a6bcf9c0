import MatchingLogic.Proofs.Kore.Injectivity

namespace MatchingLogic

-- The metavariables of the parts of an answer.
def Substitution.metavars (s : Substitution) : List UInt32 :=
  s.ids ++ s.plugs.flatMap Pattern.metavars

def Axiom.metavars (a : Axiom) : List UInt32 :=
  a.pattern.metavars ++ a.requires.metavars

def Event.metavars : Event → List UInt32
  | function .. => []
  | hook _ args result => args.flatMap Pattern.metavars ++ result.metavars

def Step.metavars (s : Step) : List UInt32 :=
  s.configuration.metavars ++ s.substitution.metavars ++ s.events.flatMap Event.metavars

@[simp] theorem Substitution.metavars_empty : (∅ : Substitution).metavars = [] := rfl

theorem Substitution.mem_metavars_insert {s : Substitution} {id i : UInt32} {p : Pattern}
    (h : i ∈ (s.insert id p).metavars) : i = id ∨ i ∈ p.metavars ∨ i ∈ s.metavars := by
  simp only [metavars, List.mem_append, List.mem_flatMap] at h ⊢
  obtain h | ⟨q, hq, hi⟩ := h
  · obtain ⟨b, hb, rfl⟩ := List.mem_map.mp h
    obtain hid | hb := mem_put_fst hb
    · exact .inl hid
    · exact .inr (.inr (.inl (List.mem_map_of_mem hb)))
  · obtain rfl | hq := mem_plugs_insert hq
    · exact .inr (.inl hi)
    · exact .inr (.inr (.inr ⟨q, hq, hi⟩))

namespace Kore

open Converter Conversion

-- The variables that have to be converted for an answer.
def boundVars (bs : List (String × Term)) : List String :=
  bs.flatMap fun b => b.1 :: b.2.vars

def Term.used : Term → List String
  | transition _ (and _ l _) (and _ r _) => l.vars ++ r.vars
  | t@(implies _ condition conclusion) =>
    match conclusion.stripped with
    | equals _ _ l r => l.vars ++ r.stripped.vars ++ boundVars (condition.conjuncts.filterMap binding?)
    | _ => t.vars
  | t => t.vars

def Event.vars : Event → List String
  | function .. => []
  | hook _ args result => args.flatMap Term.vars ++ result.vars

-- The variables of the axiom with this number.
def ruleVars (axioms : List Axiom) (ordinal : UInt64) : List String :=
  axioms[ordinal.toNat]?.elim [] (·.term.used)

def Hint.used (axioms : List Axiom) (h : Hint) : List String :=
  ruleVars axioms h.ordinal ++ h.configuration.vars ++ boundVars h.bindings ++ h.events.flatMap Event.vars

namespace Converter

variable {c c' : Converter} {names names' : List String} {ids ids' : List UInt32}

-- All the names are declared, and all the ids are theirs.
structure Numbers (c : Converter) (names : List String) (ids : List UInt32) : Prop where
  declared : ∀ name ∈ names, name ∈ c.names
  given : ∀ id ∈ ids, ∃ name ∈ names, c.vocabulary.metavars.id name = id

namespace Numbers

theorem nil : c.Numbers [] [] :=
  ⟨nofun, nofun⟩

theorem extend (h : c.Numbers names ids) (hc : c.Extends c') : c'.Numbers names ids where
  declared name hname := hc.names.subset (h.declared name hname)
  given id hid := by
    obtain ⟨name, hname, rfl⟩ := h.given id hid
    exact ⟨name, hname, hc.id (h.declared name hname)⟩

theorem mono (h : c.Numbers names ids) (hids : ids' ⊆ ids) : c.Numbers names ids' :=
  ⟨h.declared, fun id hid => h.given id (hids hid)⟩

theorem append (h : c.Numbers names ids) (h' : c.Numbers names' ids') :
    c.Numbers (names ++ names') (ids ++ ids') where
  declared := List.forall_mem_append.mpr ⟨h.declared, h'.declared⟩
  given := by
    refine List.forall_mem_append.mpr ⟨fun id hid => ?_, fun id hid => ?_⟩
    · obtain ⟨name, hname, heq⟩ := h.given id hid
      exact ⟨name, List.mem_append_left _ hname, heq⟩
    · obtain ⟨name, hname, heq⟩ := h'.given id hid
      exact ⟨name, List.mem_append_right _ hname, heq⟩

-- A name that is declared, with its id.
theorem cons {name : String} (h : name ∈ c.names) (h' : c.Numbers names ids) :
    c.Numbers (name :: names) (c.vocabulary.metavars.id name :: ids) := by
  have hone : c.Numbers [name] [c.vocabulary.metavars.id name] := ⟨by simpa using h, by simp⟩
  exact hone.append h'

end Numbers

-- The metavariables of stored axioms are those of their variables.
structure Tidy (c : Converter) : Prop extends c.Orderly where
  converted : ∀ entry ∈ c.converted, c.Numbers entry.1.term.used entry.2.metavars

theorem steady_tidy : Steady Tidy where
  addSymbol {c} hc name :=
    have hextends : c.Extends (c.addSymbol name) := (lasting_extends c).addSymbol (.refl c) name
    ⟨lasting_orderly.addSymbol hc.toOrderly name, fun entry hentry => (hc.converted entry hentry).extend hextends⟩
  addMetavar {c} hc name :=
    have hextends : c.Extends (c.addMetavar name) := (lasting_extends c).addMetavar (.refl c) name
    ⟨lasting_orderly.addMetavar hc.toOrderly name, fun entry hentry => (hc.converted entry hentry).extend hextends⟩
  addCell {c symbol name} hc hnew hname :=
    have hextends : c.Extends (c.addCell symbol name) := (lasting_extends c).addCell (.refl c) hnew hname
    ⟨lasting_orderly.addCell hc.toOrderly hnew hname,
      fun entry hentry => (hc.converted entry hentry).extend hextends⟩

end Converter

namespace Term

variable {c : Converter} {t : Term} {p : Pattern} {id : UInt32}

theorem exists_vars_iff {P : String → Prop} (ht : t.var? = none) :
    (∃ x ∈ t.vars, P x) ↔ ∃ u ∈ t.children, ∃ x ∈ u.vars, P x := by
  constructor
  · rintro ⟨x, hx, h⟩
    obtain hvar | ⟨u, hu, hx⟩ := mem_vars.mp hx
    · simp [ht] at hvar
    · exact ⟨u, hu, x, hx, h⟩
  · rintro ⟨u, hu, x, hx, h⟩
    exact ⟨x, mem_vars_of_child hu hx, h⟩

-- The metavariables of a pattern are those of the variables of its term.
theorem Depicted.mem_metavars_iff (h : t.Depicted c p) :
    id ∈ p.metavars ↔ ∃ x ∈ t.vars, c.vocabulary.metavars.id x = id := by
  induction t generalizing p with
  | elementVar x s =>
    cases h
    simp [vars, nodes, var?, eq_comm]
  | app f ss ts ih =>
    have hargs {ps : List Pattern} (hps : List.Forall₂ (Depicted c) ts ps) :
        (∃ q ∈ ps, id ∈ q.metavars) ↔ ∃ x ∈ (app f ss ts).vars, c.vocabulary.metavars.id x = id := by
      rw [exists_vars_iff rfl]
      constructor
      · rintro ⟨q, hq, hid⟩
        obtain ⟨u, hu, huq⟩ := exists_mem_left hps hq
        exact ⟨u, hu, (ih u hu huq).mp hid⟩
      · rintro ⟨u, hu, hx⟩
        obtain ⟨q, hq, huq⟩ := exists_mem_right hps hu
        exact ⟨q, hq, (ih u hu huq).mpr hx⟩
    have hsorts : id ∉ ((Pattern.chain? (ss.map c.vocabulary.sort)).getD .top).metavars := by
      cases ss with
      | nil => simp [Pattern.chain?, Pattern.top]
      | cons s ss => simp [Pattern.chain?, Pattern.mem_metavars_chain, Vocabulary.sort]
    cases h with
    | emptyCell => simpa [Vocabulary.symbol] using hargs .nil
    | cell _ hps | nestedCells _ hps =>
      simpa [Pattern.cell, Pattern.nestedCells, Pattern.mem_metavars_chain, Vocabulary.symbol]
        using hargs hps
    | plain hps =>
      simpa [Pattern.sortedApp, hsorts, Pattern.mem_metavars_chain, Vocabulary.symbol] using hargs hps
  | top | value =>
    cases h
    rw [exists_vars_iff rfl]
    simp [Pattern.sortedTop, Pattern.domainValue, Vocabulary.sort, Vocabulary.symbol, children]
  | and s l r ihl ihr | or s l r ihl ihr | transition s l r ihl ihr =>
    cases h
    rename_i hp hq
    rw [exists_vars_iff rfl]
    simp [Pattern.sortedAnd, Pattern.sortedOr, Pattern.transition, Vocabulary.sort, ihl hp, ihr hq,
      children]
  | _ => cases h

-- This is so at any later moment.
theorem mem_metavars_convert {c' later : Converter} (hc : c.Orderly) (h : t.convert.run c = (.ok p, c'))
    (hlater : c'.Extends later) :
    id ∈ p.metavars ↔ ∃ x ∈ t.vars, later.vocabulary.metavars.id? x = some id := by
  have hp := (reads_of_convert h).2.depicted (hc.convert h)
  rw [hp.mem_metavars_iff]
  refine exists_congr fun x => and_congr_right fun hx => ?_
  have hdeclared := hp.mem_names x hx
  rw [NameTable.id?_eq_some_iff, hlater.id hdeclared, and_iff_right (hlater.names.subset hdeclared)]

theorem Depicted.numbers (h : t.Depicted c p) : c.Numbers t.vars p.metavars :=
  ⟨h.mem_names, fun _ => h.mem_metavars_iff.mp⟩

end Term

namespace Conversion

variable {α β : Type} {act : Conversion α} {c : Converter} {a : α} {Q : α → Converter → Prop}
  {R : β → Converter → Prop}

-- The conversion keeps the records tidy in any case, and answers as `Q` says.
def Yields (act : Conversion α) (c : Converter) (Q : α → Converter → Prop) : Prop :=
  Ends act c (fun a c' => c'.Tidy ∧ c.Extends c' ∧ Q a c') fun _ c' => c'.Tidy

theorem yields_pure (hc : c.Tidy) (h : Q a c) : Yields (pure a) c Q :=
  ends_pure ⟨hc, .refl c, h⟩

theorem yields_get {f : Converter → Conversion α} (h : Yields (f c) c Q) : Yields (get >>= f) c Q :=
  h

theorem Yields.bind {f : α → Conversion β} (h : Yields act c Q)
    (hf : ∀ a c', c'.Tidy → c.Extends c' → Q a c' → Yields (f a) c' R) : Yields (act >>= f) c R := by
  refine Ends.bind h ?_
  rintro a c' ⟨hc', hextends, ha⟩
  refine (hf a c' hc' hextends ha).mono ?_
  rintro b c'' ⟨hc'', hextends', hb⟩
  exact ⟨hc'', hextends.trans hextends', hb⟩

-- What is said of an answer holds if the records are kept tidy anyway.
theorem Leads.yields (h : Leads (fun _ => True) act c Q) (hkeeps : act.Maintains Tidy) (hc : c.Tidy) :
    Yields act c Q := by
  refine ((Ends.and h (hkeeps c hc)).mono ?_).weaken ?_
  · rintro a c' ⟨⟨hextends, ha⟩, hc', -⟩
    exact ⟨hc', hextends, ha⟩
  · rintro e c' ⟨-, hc'⟩
    exact hc'

-- What is left behind, and what was answered.
theorem Yields.outcome {names : List String} {ids : α → List UInt32}
    (h : Yields act c fun a c' => c'.Numbers names (ids a)) :
    (act.run c).2.Tidy ∧ ∀ given, (act.run c).1.toOption.map ids = some given →
      (act.run c).2.Numbers names given := by
  refine ⟨Leaves.state (h.mono fun _ _ hc' => hc'.1), fun given hgiven => ?_⟩
  obtain ⟨a, ha, rfl⟩ := Option.map_eq_some_iff.mp hgiven
  exact ((ends_run.mp h).1 a (toOption_eq_some.mp ha)).2.2

theorem yields_sort {name : SortName} {f : Pattern → Conversion α}
    (h : Yields (f (c.vocabulary.sort name)) c Q) : Yields (sort name >>= f) c Q :=
  h

theorem yields_metavarId (hc : c.Tidy) (name : String) : Yields (metavarId name) c fun id c' =>
    name ∈ c'.names ∧ id = c'.vocabulary.metavars.id name :=
  (leads_metavarId name).yields (steady_tidy.metavarId name) hc

theorem yields_convert (hc : c.Tidy) (t : Term) :
    Yields t.convert c fun p c' => c'.Numbers t.vars p.metavars := by
  have hreads : Leads (fun _ => True) t.convert c fun p c' => t.Reads c' c.isCell false p :=
    Term.leads_convertIn (fun _ _ _ => trivial) fun _ _ _ => trivial
  refine (hreads.yields (steady_tidy.convert t) hc).mono ?_
  rintro p c' ⟨hc', hextends, hp⟩
  exact ⟨hc', hextends, (hp.depicted hc'.toOrderly).numbers⟩

theorem yields_mapM {f : α → Conversion β} {names : α → List String} {ids : β → List UInt32} (hc : c.Tidy)
    (hf : ∀ a c', c.Extends c' → c'.Tidy → Yields (f a) c' fun b c'' => c''.Numbers (names a) (ids b))
    (as : List α) : Yields (as.mapM f) c fun bs c' => c'.Numbers (as.flatMap names) (bs.flatMap ids) := by
  induction as generalizing c with
  | nil =>
    rw [List.mapM_nil]
    exact yields_pure hc .nil
  | cons a as ih =>
    rw [List.mapM_cons]
    refine (hf a c (.refl c) hc).bind fun b c₁ hc₁ h₁ hb => ?_
    refine (ih hc₁ fun a c' hc' => hf a c' (h₁.trans hc')).bind fun bs c₂ hc₂ h₂ hbs => yields_pure hc₂ ?_
    exact (hb.extend h₂).append hbs

-- Bindings are converted one after the other, once it is known how the names get their ids.
theorem yields_bindings {number : String → Conversion UInt32} {s : Substitution} {names : List String}
    (hnumber : ∀ name c, c.Tidy → Yields (number name) c fun id c' =>
      name ∈ c'.names ∧ id = c'.vocabulary.metavars.id name)
    (hc : c.Tidy) (hs : c.Numbers names s.metavars) (bs : List (String × Term)) :
    Yields (bs.foldlM (fun s (name, t) => do
        let id ← number name
        return s.insert id (← t.convert)) s) c
      fun s' c' => c'.Numbers (names ++ boundVars bs) s'.metavars := by
  induction bs generalizing c s names with
  | nil =>
    rw [List.foldlM_nil]
    exact yields_pure hc (by simpa [boundVars] using hs)
  | cons b bs ih =>
    obtain ⟨name, t⟩ := b
    rw [List.foldlM_cons, bind_assoc]
    refine (hnumber name c hc).bind fun id c₁ hc₁ h₁ hid => ?_
    obtain ⟨hname, rfl⟩ := hid
    rw [bind_assoc]
    refine (yields_convert hc₁ t).bind fun p c₂ hc₂ h₂ hp => ?_
    have hids := (hs.extend (h₁.trans h₂)).append (.cons (h₂.names.subset hname) hp)
    have hinsert : c₂.Numbers (names ++ name :: t.vars) (s.insert (c₁.vocabulary.metavars.id name) p).metavars := by
      refine hids.mono fun i hi => ?_
      rw [h₂.id hname]
      obtain rfl | hi | hi := Substitution.mem_metavars_insert hi <;> simp [*]
    rw [pure_bind]
    have hrest := ih hc₂ hinsert
    rwa [List.append_assoc] at hrest

theorem yields_requirements (hc : c.Tidy) (condition : Term) : Yields condition.requirements c fun s c' =>
    c'.Numbers (boundVars (condition.conjuncts.filterMap Term.binding?)) s.metavars := by
  have hempty : c.Numbers [] (∅ : Substitution).metavars := .nil
  exact yields_bindings (fun name _ hc => yields_metavarId hc name) hc hempty _

theorem yields_classify (hc : c.Tidy) (t : Term) :
    Yields t.classify c fun a c' => c'.Numbers t.used a.metavars := by
  have hplain (t : Term) : Yields (do return ⟨.unclassified, ← t.convert, ∅⟩) c
      fun (a : MatchingLogic.Axiom) c' => c'.Numbers t.vars a.metavars := by
    refine (yields_convert hc t).bind fun p c₁ hc₁ _ hp => yields_pure hc₁ ?_
    exact hp.mono fun id hid => by simpa [MatchingLogic.Axiom.metavars] using hid
  rw [Term.classify.eq_def]
  simp only [node_transition, node_equation, pure_bind]
  split
  case h_1 s _ l _ _ r _ =>
    refine yields_sort ((yields_convert hc l).bind fun p c₁ hc₁ _ hp => ?_)
    refine (yields_convert hc₁ r).bind fun q c₂ hc₂ h₂ hq => yields_pure hc₂ ?_
    refine ((hp.extend h₂).append hq).mono fun id hid => ?_
    simpa [MatchingLogic.Axiom.metavars, Pattern.transition, Vocabulary.sort] using hid
  case h_2 sort condition conclusion =>
    by_cases hequation : ∃ s s' l r, conclusion.stripped = .equals s s' l r
    case pos =>
      obtain ⟨s, s', l, r, heq⟩ := hequation
      simp only [Term.used, heq]
      refine yields_sort ((yields_convert hc l).bind fun p c₁ hc₁ _ hp => ?_)
      refine (yields_convert hc₁ r.stripped).bind fun q c₂ hc₂ h₂ hq => ?_
      refine (yields_requirements hc₂ condition).bind fun s c₃ hc₃ h₃ hs => yields_pure hc₃ ?_
      refine (((hp.extend h₂).append hq).extend h₃ |>.append hs).mono fun id hid => ?_
      simpa [MatchingLogic.Axiom.metavars, Pattern.equation, Vocabulary.sort, or_assoc] using hid
    case neg =>
      have hused : (Term.implies sort condition conclusion).used = (Term.implies sort condition conclusion).vars := by
        rw [Term.used]
        split
        case h_1 heq => exact (hequation ⟨_, _, _, _, heq⟩).elim
        case h_2 => rfl
      rw [hused]
      split
      case h_1 heq => exact (hequation ⟨_, _, _, _, heq⟩).elim
      case h_2 => exact hplain _
  case h_3 hrule hequation =>
    rw [Term.used.eq_3 _ hrule hequation]
    exact hplain t

theorem yields_law (hc : c.Tidy) (a : Axiom) :
    Yields a.convert c fun b c' => c'.Numbers a.term.used b.metavars := by
  refine yields_get ?_
  split
  case h_1 b hb => exact yields_pure hc (hc.converted _ (mem_of_lookup hb))
  case h_2 =>
    refine (yields_classify hc a.term).bind fun b c₁ hc₁ _ hb => ?_
    have hextends := extends_addAxiom c₁ a b
    have hstored : Tidy { c₁ with converted := (a, b) :: c₁.converted } := by
      refine ⟨⟨hc₁.cells, hc₁.vouched, hc₁.functional⟩, List.forall_mem_cons.mpr ⟨hb.extend hextends, ?_⟩⟩
      exact fun entry hentry => (hc₁.converted entry hentry).extend hextends
    have hmodify : Yields (modify fun c => { c with converted := (a, b) :: c.converted }) c₁
        fun _ c' => c'.Numbers a.term.used b.metavars :=
      ends_modifyGet ⟨hstored, hextends, hb.extend hextends⟩
    exact hmodify.bind fun _ _ hc₂ _ hb => yields_pure hc₂ hb

theorem yields_rule (hc : c.Tidy) (ordinal : UInt64) :
    Yields (rule ordinal) c fun b c' => c'.Numbers (ruleVars c.axioms ordinal) b.metavars := by
  refine yields_get ?_
  split
  case h_1 a ha => 
    rw [ruleVars, ha]
    exact yields_law hc a
  case h_2 => exact ends_throw hc

theorem yields_event (hc : c.Tidy) (e : Event) :
    Yields e.convert c fun e' c' => c'.Numbers e.vars e'.metavars := by
  cases e with
  | function name position => exact yields_pure hc .nil
  | hook name args result =>
    refine (yields_mapM hc (fun t _ _ hc => yields_convert hc t) args).bind fun ps c₁ hc₁ _ hps => ?_
    refine (yields_convert hc₁ result).bind fun p c₂ hc₂ h₂ hp => yields_pure hc₂ ?_
    exact (hps.extend h₂).append hp

theorem yields_declared (hc : c.Tidy) (bs : List (String × Term)) :
    Yields (bindings bs) c fun s c' => c'.Numbers (boundVars bs) s.metavars := by
  let number (name : String) : Conversion UInt32 := do liftM ((← get).vocabulary.metavarId name)
  have hnumber (name : String) (c : Converter) (hc : c.Tidy) : Yields (number name) c fun id c' =>
      name ∈ c'.names ∧ id = c'.vocabulary.metavars.id name := by
    refine yields_get (ends_lift (fun id hid => ⟨hc, .refl c, ?_⟩) fun _ _ => hc)
    simp only [Vocabulary.metavarId] at hid
    split at hid
    case h_1 id' hid' =>
      cases hid
      obtain ⟨hname, rfl⟩ := NameTable.id?_eq_some_iff.mp hid'
      exact ⟨hname, rfl⟩
    case h_2 => cases hid
  have hempty : c.Numbers [] (∅ : Substitution).metavars := .nil
  exact yields_bindings hnumber hc hempty bs

theorem yields_hint (hc : c.Tidy) (h : Hint) :
    Yields h.convert c fun step c' => c'.Numbers (h.used c.axioms) step.metavars := by
  refine (yields_rule hc h.ordinal).bind fun b c₁ hc₁ h₁ hb => ?_
  refine (yields_convert hc₁ h.configuration).bind fun p c₂ hc₂ h₂ hp => ?_
  refine (yields_declared hc₂ h.bindings).bind fun s c₃ hc₃ h₃ hs => ?_
  refine (yields_mapM hc₃ (fun e _ _ hc => yields_event hc e) h.events).bind fun es c₄ hc₄ h₄ hes => ?_
  refine yields_pure hc₄ ?_
  have hids := ((((hb.extend h₂).append hp).extend h₃ |>.append hs).extend h₄).append hes
  refine hids.mono fun id hid => ?_
  simp only [Step.metavars, List.mem_append] at hid ⊢
  grind

theorem yields_hints (hc : c.Tidy) (hs : List Hint) :
    Yields (Hint.convertAll hs) c fun trace c' =>
      c'.Numbers (hs.flatMap (Hint.used c.axioms)) (trace.steps.flatMap Step.metavars) := by
  refine (yields_mapM hc (fun h c' hc' htidy => ?_) hs).bind fun steps c₁ hc₁ _ hsteps => yields_pure hc₁ hsteps
  rw [← hc'.axioms]
  exact yields_hint htidy h

end Conversion

namespace Converter

variable {c : Converter}

-- The variables that are used if the request is answered.
def Action.used (axioms : List Axiom) : Action → List String
  | .term t => t.vars
  | .law a => a.term.used
  | .rule ordinal => ruleVars axioms ordinal
  | .bindings bs => boundVars bs
  | .hint h => h.used axioms
  | .hints hs => hs.flatMap (Hint.used axioms)
  | .sideAxioms .. => []

-- The metavariables of what is answered, if it is. Those of side axioms come with the request.
def Action.metavars? (c : Converter) : Action → Option (List UInt32)
  | .term t => (t.convert.run c).1.toOption.map Pattern.metavars
  | .law a => (a.convert.run c).1.toOption.map Axiom.metavars
  | .rule ordinal => ((Conversion.rule ordinal).run c).1.toOption.map Axiom.metavars
  | .bindings bs => ((Conversion.bindings bs).run c).1.toOption.map Substitution.metavars
  | .hint h => (h.convert.run c).1.toOption.map Step.metavars
  | .hints hs => ((Hint.convertAll hs).run c).1.toOption.map fun trace => trace.steps.flatMap Step.metavars
  | .sideAxioms .. => none

theorem numbers_act (hc : c.Tidy) (asked : Action) : (c.act asked).Tidy ∧
    ∀ ids, asked.metavars? c = some ids → (c.act asked).Numbers (asked.used c.axioms) ids := by
  cases asked with
  | term t => exact (yields_convert hc t).outcome
  | law a => exact (yields_law hc a).outcome
  | rule ordinal => exact (yields_rule hc ordinal).outcome
  | bindings bs => exact (yields_declared hc bs).outcome
  | hint h => exact (yields_hint hc h).outcome
  | hints hs => exact (yields_hints hc hs).outcome
  | sideAxioms => exact ⟨hc, nofun⟩

theorem tidy_run (hc : c.Tidy) (actions : List Action) : (c.run actions).Tidy := by
  induction actions generalizing c with
  | nil => exact hc
  | cons a actions ih => exact ih (numbers_act hc a).1

end Converter

end Kore
end MatchingLogic
