import MatchingLogic.Proofs.Kore.Packaging
import MatchingLogic.Proofs.Kore.Reading

namespace MatchingLogic.Kore

open Converter

namespace Conversion

variable {α β : Type} {act : Conversion α} {c c' : Converter} {first rest : Option ConversionError}
  {Q : α → Converter → Prop}

-- From `c`, the conversion fails with this error, and if there is none it succeeds and only adds records.
def Decided (first : Option ConversionError) (act : Conversion α) (c : Converter) : Prop :=
  Leads (first = some ·) act c fun _ _ => first = none

theorem Decided.bind {f : α → Conversion β} (h : Decided first act c)
    (hf : ∀ a c', c.Extends c' → Decided rest (f a) c') : Decided (first.or rest) (act >>= f) c := by
  cases first with
  | none =>
    have h : Leads (rest = some ·) act c fun _ _ => none = none := Ends.weaken h (by simp)
    exact h.bind fun a c' hc' _ => hf a c' hc'
  | some e => exact Leads.bind h (by simp)

theorem decided_throw (e : ConversionError) : Decided (some e) (throw e : Conversion α) c := by
  rw [Decided, Leads]
  exact ends_throw rfl

theorem decided_none (h : Leads (fun _ => False) act c Q) : Decided none act c :=
  (Ends.mono h fun _ _ hc' => ⟨hc'.1, rfl⟩).weaken fun _ _ => False.elim

-- What cannot fail decides nothing, neither before nor after what does.
theorem Leads.decided_bind {f : α → Conversion β} (h : Leads (fun _ => False) act c Q)
    (hf : ∀ a c', c.Extends c' → Decided first (f a) c') : Decided first (act >>= f) c :=
  (decided_none h).bind hf

theorem Decided.bind_leads {f : α → Conversion β} (h : Decided first act c)
    (hf : ∀ a c', Leads (fun _ => False) (f a) c' fun _ _ => True) : Decided first (act >>= f) c := by
  have hbind := h.bind fun a c' _ => decided_none (hf a c')
  rwa [Option.or_none] at hbind

theorem Decided.answer (h : Decided first act c) : (first = none ∧ ∃ a, (act.run c).1 = .ok a) ∨
    ∃ e, first = some e ∧ (act.run c).1 = .error (.conversion e) := by
  obtain ⟨hok, herror⟩ := ends_run.mp h
  cases hrun : (act.run c).1 with
  | ok a => exact .inl ⟨(hok a hrun).2, a, rfl⟩
  | error e =>
    obtain ⟨e', rfl, hfirst⟩ := herror e hrun
    exact .inr ⟨e', hfirst, rfl⟩

theorem Decided.succeeds_iff (h : Decided first act c) : (∃ a, (act.run c).1 = .ok a) ↔ first = none := by
  obtain ⟨hfirst, hok⟩ | ⟨e, hfirst, herror⟩ := h.answer
  · simp [hfirst, hok]
  · simp [hfirst, herror]

theorem Decided.fails_iff (h : Decided first act c) {e : ConversionError} :
    (act.run c).1 = .error (.conversion e) ↔ first = some e := by
  obtain ⟨hfirst, a, hok⟩ | ⟨e', hfirst, herror⟩ := h.answer
  · simp [hfirst, hok]
  · simp [hfirst, herror]

end Conversion

open Conversion

namespace Term

variable {c : Converter} {t : Term} {ts : List Term} {inCell : Bool}

-- The kinds of terms that have no patterns.
def unsupported : List String :=
  ["set variable", "\\bottom", "\\not", "\\implies", "\\equals", "\\in", "\\exists"]

theorem convertible_eq (t : Term) : t.convertible = decide (t.kind ∉ unsupported) := by
  cases t <;> rfl

-- What the first part without a pattern is answered with. A term comes before its parts, and these come from
-- left to right.
def rejection? (t : Term) : Option ConversionError :=
  (t.nodes.find? (!·.convertible)).map fun u => .unsupported "pattern" u.kind

theorem rejection?_eq (t : Term) : t.rejection? =
    (t.nodes.find? (·.kind ∈ unsupported)).map fun u => .unsupported "pattern" u.kind := by
  simp [rejection?, convertible_eq]

theorem rejection?_of_root (h : t.convertible = false) :
    t.rejection? = some (.unsupported "pattern" t.kind) := by
  simp [rejection?, nodes_eq t, h]

theorem rejection?_of_children (h : t.convertible) : t.rejection? = t.children.findSome? rejection? := by
  simp only [rejection?, nodes_eq t, List.find?_cons, h, Bool.not_true, List.find?_flatMap, List.map_findSome?]
  rfl

theorem findSome?_rejection? (t : Term) (ts : List Term) :
    (t :: ts).findSome? rejection? = t.rejection?.or (ts.findSome? rejection?) := by
  cases h : t.rejection? <;> simp [h]

theorem decided_convertAll (h : ∀ t ∈ ts, ∀ c', c.Extends c' → Decided t.rejection? (t.convertIn inCell) c') :
    Decided (ts.findSome? rejection?) (convertAll inCell ts) c := by
  induction ts generalizing c with
  | nil =>
    rw [convertAll]
    exact leads_pure rfl
  | cons t ts ih =>
    rw [convertAll, findSome?_rejection?]
    refine (h t (by simp) c (.refl c)).bind fun p c₁ h₁ => ?_
    have hrest := ih fun u hu c' hc' => h u (by simp [hu]) c' (h₁.trans hc')
    exact hrest.bind_leads fun _ _ => leads_pure trivial

theorem decided_convertIn
    (hnamed : ∀ f, f = c.config.topCell ∨ c.cellName.accepts f → c.cellName.capture? f ≠ none) :
    Decided t.rejection? (t.convertIn inCell) c := by
  induction t generalizing inCell c with
  | elementVar name s =>
    rw [convertIn]
    exact (leads_metavarId name).decided_bind fun _ _ _ => leads_pure rfl
  | app f ss ts ih =>
    have hargs (inCell : Bool) (c' : Converter) (hc' : c.Extends c') :
        Decided (ts.findSome? rejection?) (convertAll inCell ts) c' := by
      refine decided_convertAll fun t ht c'' hc'' => ih t ht ?_
      have h := hc'.trans hc''
      rwa [h.config, h.cellName]
    rw [convertIn_app, rejection?_of_children rfl, children]
    refine leads_get ?_
    split
    case isTrue hcell =>
      have hhead : Leads (fun _ => False) (cellHead f) c fun p c' => c'.cells.lookup f = some p :=
        leads_cellHead fun hnew => hnamed f (follows_of_new hcell hnew)
      refine hhead.decided_bind fun _ c₁ h₁ => ?_
      split
      case isTrue hempty =>
        obtain rfl := List.isEmpty_iff.mp hempty
        exact leads_pure rfl
      case isFalse => exact (hargs true c₁ h₁).bind_leads fun _ _ => leads_pure trivial
    case isFalse =>
      refine (leads_symbol f).decided_bind fun _ c₁ h₁ => ?_
      exact (hargs false c₁ h₁).bind_leads fun _ _ => leads_sorts (leads_pure trivial)
  | top s =>
    rw [convertIn_top]
    exact leads_sort (leads_pure rfl)
  | value s text =>
    rw [convertIn_value]
    exact leads_sort ((leads_symbol text).decided_bind fun _ _ _ => leads_pure rfl)
  | and s l r ihl ihr | or s l r ihl ihr | transition s l r ihl ihr =>
    rw [convertIn, rejection?_of_children rfl, children, findSome?_rejection?,
      findSome?_rejection?, List.findSome?_nil, Option.or_none]
    refine leads_sort ((ihl hnamed).bind fun _ c₁ h₁ => ?_)
    have hr : Decided r.rejection? (r.convertIn false) c₁ := ihr (by rwa [h₁.config, h₁.cellName])
    exact hr.bind_leads fun _ _ => leads_pure trivial
  | _ =>
    rw [convertIn, rejection?_of_root rfl]
    · exact decided_throw _
    all_goals simp

theorem decided_convert (hc : c.Usual) (t : Term) : Decided t.rejection? t.convert c :=
  decided_convertIn fun _ => hc.capture_ne_none

-- Whatever was converted before, a term is converted exactly if all its parts have patterns, and the first one
-- that has none is named otherwise. Cells always have names, and notations get as many arguments as they take.
theorem convert_supported {d : Definition} {engine : Engine} (hengine : engine.Usual)
    (hc : ofDefinition d {} engine = .ok c) (actions : List Action) (t : Term) :
    let answer := (t.convert.run (c.run actions)).1
    ((∃ p, answer = .ok p) ↔ ∀ u ∈ t.nodes, u.kind ∉ unsupported) ∧
    (∀ u, t.nodes.find? (·.kind ∈ unsupported) = some u →
      answer = .error (.conversion (.unsupported "pattern" u.kind))) ∧
    (∀ symbol, answer ≠ .error (.conversion (.notACell symbol))) ∧
    (∀ name expected found, answer ≠ .error (.conversion (.arity name expected found))) ∧
    ∀ p, answer = .ok p → p.Within Notations.builtin.Fits := by
  intro answer
  have hdecided := decided_convert ((usual_ofDefinition hengine hc).run actions) t
  have hrejected (e : ConversionError) (h : answer = .error (.conversion e)) :
      ∃ u : Term, e = .unsupported "pattern" u.kind := by
    obtain ⟨u, -, rfl⟩ := Option.map_eq_some_iff.mp (hdecided.fails_iff.mp h)
    exact ⟨u, rfl⟩
  refine ⟨?succeeds, ?fails, ?cells, ?arity, ?fits⟩
  case succeeds =>
    rw [hdecided.succeeds_iff, rejection?_eq, Option.map_eq_none_iff, List.find?_eq_none]
    simp
  case fails =>
    intro u hu
    exact hdecided.fails_iff.mpr (by rw [rejection?_eq, hu, Option.map_some])
  case cells =>
    intro symbol h
    obtain ⟨u, hu⟩ := hrejected _ h
    cases hu
  case arity =>
    intro name expected found h
    obtain ⟨u, hu⟩ := hrejected _ h
    cases hu
  case fits =>
    have hfits := fits_convert t _ (upholds_fits.run (fits_ofDefinition hc) actions)
    exact fun p hp => ((ends_run.mp hfits).1 p hp).2

open Counting in
theorem convert_supported_counting :
    let t := state (and "SortNat" count (not "SortNat" (bottom "SortNat")))
    ∃ c, ofDefinition definition {} = .ok c ∧
      (t.convert.run (c.run [.term (state zero), .term t])).1 =
        .error (.conversion (.unsupported "pattern" "\\not")) ∧
      ∃ p, ((state (next count)).convert.run (c.run [.term t])).1 = .ok p := by
  intro t
  obtain ⟨c, hc, -⟩ := exists_of_any (x := ofDefinition definition {}) (P := fun _ => true) (by decide +kernel)
  refine ⟨c, hc, ?_, ?_⟩
  · exact (convert_supported Regex.engine_usual hc _ t).2.1 (not "SortNat" (bottom "SortNat")) (by decide)
  · exact (convert_supported Regex.engine_usual hc _ (state (next count))).1.mpr (by decide)

end Term

end MatchingLogic.Kore
