import MatchingLogic.Proofs.Execution.Confinement
import MatchingLogic.Proofs.Kore.Arity
import MatchingLogic.Proofs.Semantics.Grouping

namespace MatchingLogic

open Notations Pattern

theorem Pattern.within_functional {p : Pattern} (h : p.Within builtin.Fits) :
    p.functional.Within builtin.Fits :=
  within_ex.mpr (within_builtin rfl (by simpa using h))

theorem Event.within_toAxiom (e : Event) : e.toAxiom.pattern.Within builtin.Fits := by
  cases e <;> simp [toAxiom, eventAxiom]

namespace Kore

namespace Converter

variable {c : Converter} {s : Substitution}

theorem fits_functionalAxiom {p : Pattern} {a : MatchingLogic.Axiom} (hp : p.Within builtin.Fits)
    (h : c.functionalAxiom p = .ok a) : a.pattern.Within builtin.Fits := by
  simp only [functionalAxiom] at h
  split at h
  case h_1 =>
    cases h
    exact within_functional hp
  case h_2 =>
    split at h
    case isTrue =>
      cases h
      exact within_functional hp
    case isFalse => cases h

theorem fits_sideAxioms {events : List MatchingLogic.Event} {groups : AxiomGroups}
    (hs : ∀ q ∈ s.plugs, q.Within builtin.Fits) (h : c.sideAxioms s events = .ok groups) :
    ∀ p ∈ groups.patterns, p.Within builtin.Fits := by
  intro p hp
  have ⟨granted, hgranted, h⟩ := bind_eq_ok.mp h
  cases h
  obtain ⟨a, ha, rfl⟩ := AxiomGroups.mem_patterns_organize hp
  obtain ha | ha := List.mem_append.mp ha
  · have ⟨q, hq, h⟩ := exists_mem_left (mapM_eq_ok.mp hgranted) ha
    exact fits_functionalAxiom (hs q hq) h
  · obtain ⟨e, -, rfl⟩ := List.mem_map.mp ha
    exact e.within_toAxiom

theorem fits_ofDefinition {d : Definition} {config : Config} {engine : Engine}
    (h : ofDefinition d config engine = .ok c) :
    c.Fits := by
  simp only [ofDefinition] at h
  split at h
  case h_1 => cases h
  case h_2 =>
    cases h
    constructor <;> simp

theorem confined : Semantics.Confined Converter.Fits fun p => p.Within builtin.Fits where
  instantiate hp hs := hp.instantiate fun _ _ hq => hs _ (Substitution.mem_plugs_of_get? hq)
  rule ordinal hl := by
    obtain ⟨hok, -⟩ := Conversion.ends_run.mp (Conversion.fits_rule ordinal _ hl)
    exact ⟨(Conversion.fits_rule ordinal).state hl, fun a ha => (hok a ha).2⟩
  sides events hl hs := ⟨hl, fun _ h => fits_sideAxioms hs h⟩

end Converter

variable {d : Definition} {config : Config} {engine : Engine} {hints : List Hint} {c c' c'' : Converter}
  {trace : Trace} {b : Bundle}

-- Hints that can be converted and replayed can be packaged, and nothing of a notation is left in the end.
theorem certificate_of_replay (hc : Converter.ofDefinition d config engine = .ok c)
    (htrace : (Hint.convertAll hints).run c = (.ok trace, c'))
    (hb : Execution.prove c' trace.steps = (.ok b, c'')) :
    (∃ certificate, b.certificate (Semantics.notations c'') = .ok certificate) ∧
    ∀ p ∈ b.axioms ++ b.claims ++ b.proofs.flatMap (·.derivation.plugs),
      ∃ q, (Semantics.notations c'').expandFully p = .ok q ∧ q.Unsugared := by
  have hconverted := Conversion.ends_run.mp (Hint.fits_convertAll hints c (Converter.fits_ofDefinition hc))
  rw [htrace] at hconverted
  have ⟨hfits, hsteps⟩ := hconverted.1 trace rfl
  have ⟨hdischarged, hpatterns⟩ := Execution.confined_prove Converter.confined hfits hsteps hb
  constructor
  case left =>
    exact Certificate.exists_write grounded_builtin hdischarged.conclusions hdischarged.assumed hpatterns
  case right => exact fun p hp => exists_expandFully grounded_builtin (hpatterns p hp)

namespace Counting

open Term

-- A language of one rule, which counts up what its only cell holds.
def state (t : Term) : Term :=
  app "Lbl'-LT-'generatedTop'-GT-'" [] [app "Lbl'-LT-'k'-GT-'" [] [t]]

def next (t : Term) : Term :=
  app "Lblsucc" [] [t]

def count : Term :=
  elementVar "N" "SortNat"

def rule : Term :=
  let guarded (t : Term) := and "SortTop" (state t) (top "SortTop")
  transition "SortTop" (guarded count) (guarded (next count))

def definition : Definition where
  modules := [{
    name := "COUNTING"
    sorts := [⟨"SortNat", []⟩]
    symbols := [⟨"Lblsucc", ["SortNat"], "SortNat", [⟨"functional", []⟩]⟩]
    axioms := [⟨rule, []⟩] }]

def zero : Term :=
  value "SortNat" "0"

def hint (t : Term) : Hint :=
  { ordinal := 0, configuration := state t, bindings := [("N", t)], location := none, events := [] }

-- What a trace of two hints is converted to.
theorem exists_steps (hints : List Hint) (P : Converter → Step → Step → Bool)
    (h : (Converter.ofDefinition definition {}).toOption.any fun c =>
      ((Hint.convertAll hints).run c).1.toOption.any fun trace =>
        match trace.steps with
        | [first, second] => P ((Hint.convertAll hints).run c).2 first second
        | _ => false) :
    ∃ c trace c' first second, Converter.ofDefinition definition {} = .ok c ∧
      (Hint.convertAll hints).run c = (.ok trace, c') ∧ trace.steps = [first, second] ∧
      P c' first second := by
  obtain ⟨c, hc, h⟩ := exists_of_any h
  obtain ⟨trace, htrace, h⟩ := exists_of_any h
  split at h
  case h_1 first second hsteps => exact ⟨c, trace, _, first, second, hc, Prod.ext htrace rfl, hsteps, h⟩
  case h_2 => cases h

end Counting

theorem certificate_of_replay_counting :
    let hints := [Counting.hint Counting.zero, Counting.hint (Counting.next Counting.zero)]
    ∃ c trace c' b c'',
      Converter.ofDefinition Counting.definition {} = .ok c ∧
      (Hint.convertAll hints).run c = (.ok trace, c') ∧
      Execution.prove c' trace.steps = (.ok b, c'') ∧
      (∃ certificate, b.certificate (Semantics.notations c'') = .ok certificate) ∧
      ∀ p ∈ b.axioms ++ b.claims ++ b.proofs.flatMap (·.derivation.plugs),
        ∃ q, (Semantics.notations c'').expandFully p = .ok q ∧ q.Unsugared := by
  intro hints
  have hreplays : ((Converter.ofDefinition Counting.definition {}).toOption.any fun c =>
      ((Hint.convertAll hints).run c).1.toOption.any fun trace =>
        (Execution.prove ((Hint.convertAll hints).run c).2 trace.steps).1.isOk) = true := by
    decide +kernel
  rcases hc : Converter.ofDefinition Counting.definition {} with _ | c
  · simp [hc, Except.toOption] at hreplays
  rcases htrace : (Hint.convertAll hints).run c with ⟨_ | trace, c'⟩
  · simp [hc, htrace, Except.toOption] at hreplays
  rcases hb : Execution.prove c' trace.steps with ⟨_ | b, c''⟩
  · simp [hc, htrace, hb, Except.toOption, Except.isOk, Except.toBool] at hreplays
  exact ⟨c, trace, c', b, c'', rfl, htrace, hb, certificate_of_replay hc htrace hb⟩

end Kore
end MatchingLogic
