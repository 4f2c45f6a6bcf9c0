import MatchingLogic.Proofs.Kore.Packaging

namespace MatchingLogic

namespace Execution

variable {σ : Type} [Semantics σ] {x x' x'' : Execution σ} {rule : Axiom} {step : Step}

theorem applyAll_cons_eq_ok {steps : List Step} :
    x.applyAll (step :: steps) = (.ok (), x'') ↔
      ∃ x', x.apply step = (.ok (), x') ∧ x'.applyAll steps = (.ok (), x'') := by
  rcases h : x.apply step with ⟨_ | _, y⟩ <;> simp [applyAll, h]

-- The replay of a trace is the replay of its first part, followed by that of the other.
theorem applyAll_append_eq_ok {before after : List Step} :
    x.applyAll (before ++ after) = (.ok (), x'') ↔
      ∃ x', x.applyAll before = (.ok (), x') ∧ x'.applyAll after = (.ok (), x'') := by
  induction before generalizing x with
  | nil => simp [applyAll]
  | cons step before ih =>
    simp only [List.cons_append, applyAll_cons_eq_ok, ih]
    grind

theorem transition_eq_ok {s : Substitution} {events : List Event} {proof : Proof}
    (h : x.transition rule s events = (.ok proof, x')) :
    ∃ sort, rule.pattern.instantiate s = .transition sort x.configuration x'.configuration := by
  simp only [transition] at h
  split at h
  case h_1 => cases h
  case h_2 next hnext =>
    split at h
    case h_1 => cases h
    case h_2 =>
      cases h
      exact checkTransition_eq_ok hnext

theorem apply_eq_ok (h : x.apply step = (.ok (), x'))
    (hrule : (Semantics.rule step.ordinal x.language).1 = .ok rule) (hkind : rule.kind = .transition) :
    ∃ sort, rule.pattern.instantiate step.substitution =
      .transition sort x.configuration x'.configuration := by
  let asked : Execution σ := { x with language := (Semantics.rule step.ordinal x.language).2 }
  simp only [apply, hrule, hkind] at h
  split at h
  case isTrue => cases h
  case isFalse =>
    rcases hanswer : asked.transition rule step.substitution step.events with ⟨_ | proof, y⟩
    all_goals
      rw [hanswer] at h
      cases h
    have hinstance := transition_eq_ok hanswer
    exact hinstance

-- What is asked for in both steps is the same.
def Alike (step step' : Step) : Prop :=
  ∃ p, step' = { step with configuration := p }

theorem apply_of_alike {step' : Step} (h : Alike step step') : x.apply step' = x.apply step := by
  obtain ⟨p, rfl⟩ := h
  rfl

theorem applyAll_of_alike {steps steps' : List Step} (h : List.Forall₂ Alike steps steps') :
    x.applyAll steps' = x.applyAll steps := by
  induction h generalizing x with
  | nil => rfl
  | cons hstep _ ih => simp only [applyAll, apply_of_alike hstep, ih]

theorem prove_eq_ok {l l' : σ} {first : Step} {rest : List Step} {b : Bundle}
    (h : prove l (first :: rest) = (.ok b, l')) :
    ∃ x, (start l first.configuration).applyAll (first :: rest) = (.ok (), x) := by
  simp only [prove] at h
  split at h
  case h_1 => cases h
  case h_2 x hx => exact ⟨x, hx⟩

end Execution

-- The step records the left side of the instance of its rule.
def Step.Coherent (step : Step) (rule : Axiom) : Prop :=
  ∃ sort right, rule.pattern.instantiate step.substitution = .transition sort step.configuration right

namespace Execution

variable {σ : Type} [Semantics σ]

-- Every transition of a trace that is proved starts from the configuration that the replay has reached, by
-- the instance of its rule. A record agrees with the replay if it is coherent, and only then. All records but
-- the first one may be replaced.
theorem follows_of_prove {l l' : σ} {first : Step} {rest : List Step} {b : Bundle}
    (h : prove l (first :: rest) = (.ok b, l')) :
    (∀ before step after, first :: rest = before ++ step :: after →
      ∃ x, (start l first.configuration).applyAll before = (.ok (), x) ∧
        (before = [] → step.configuration = x.configuration) ∧
        ∀ rule, (Semantics.rule step.ordinal x.language).1 = .ok rule → rule.kind = .transition →
          (∃ sort right,
            rule.pattern.instantiate step.substitution = .transition sort x.configuration right) ∧
          (step.configuration = x.configuration ↔ step.Coherent rule)) ∧
    ∀ rest', List.Forall₂ Alike rest rest' → prove l (first :: rest') = (.ok b, l') := by
  constructor
  case left =>
    intro before step after hsteps
    obtain ⟨final, hfinal⟩ := prove_eq_ok h
    rw [hsteps] at hfinal
    obtain ⟨x, hx, hrest⟩ := applyAll_append_eq_ok.mp hfinal
    obtain ⟨x', hx', -⟩ := applyAll_cons_eq_ok.mp hrest
    refine ⟨x, hx, ?_, fun rule hrule hkind => ?_⟩
    · rintro rfl
      cases hsteps
      cases hx
      rfl
    · obtain ⟨sort, hinstance⟩ := apply_eq_ok hx' hrule hkind
      refine ⟨⟨sort, x'.configuration, hinstance⟩, fun hrecord => ?_, ?_⟩
      · exact ⟨sort, x'.configuration, hrecord ▸ hinstance⟩
      · rintro ⟨sort', right, hcoherent⟩
        rw [hinstance] at hcoherent
        simp only [Pattern.transition, Pattern.sugar.injEq, List.cons.injEq] at hcoherent
        exact hcoherent.2.2.1.symm
  case right =>
    intro rest' hrest
    have hsteps : List.Forall₂ Alike (first :: rest) (first :: rest') := .cons ⟨first.configuration, rfl⟩ hrest
    simpa only [prove, applyAll_of_alike hsteps] using h

end Execution

namespace Kore

open Counting Execution

theorem follows_of_prove_counting :
    let hints := [hint zero, hint (next zero)]
    ∃ c trace c' first second, Converter.ofDefinition definition {} = .ok c ∧
      (Hint.convertAll hints).run c = (.ok trace, c') ∧ trace.steps = [first, second] ∧
      (∃ b c'', prove c' [first, second] = (.ok b, c'')) ∧
      ∃ x rule, (start c' first.configuration).applyAll [first] = (.ok (), x) ∧
        (Semantics.rule second.ordinal x.language).1 = .ok rule ∧ rule.kind = .transition ∧
        second.Coherent rule ∧ second.configuration = x.configuration := by
  intro hints
  obtain ⟨c, trace, c', first, second, hc, htrace, hsteps, hproved⟩ := exists_steps hints
    (fun c' first second => (prove c' [first, second]).1.isOk &&
      (Semantics.rule second.ordinal
        ((start c' first.configuration).applyAll [first]).2.language).1.toOption.any
        fun rule => rule.kind = .transition &&
          (rule.pattern.instantiate second.substitution).transition?.any (·.1 = second.configuration))
    (by decide +kernel)
  obtain ⟨hproved, hrule⟩ := Bool.and_eq_true_iff.mp hproved
  obtain ⟨b, hb⟩ := isOk_iff.mp hproved
  obtain ⟨rule, hrule, hcoherent⟩ := exists_of_any hrule
  obtain ⟨hkind, hcoherent⟩ := Bool.and_eq_true_iff.mp hcoherent
  obtain ⟨⟨left, right⟩, hsides, hleft⟩ := (Option.any_eq_true _ _).mp hcoherent
  obtain ⟨sort, hinstance⟩ := Pattern.transition?_eq_some hsides
  have hcoherent : second.Coherent rule := ⟨sort, right, of_decide_eq_true hleft ▸ hinstance⟩
  have hb : prove c' [first, second] = (.ok b, _) := Prod.ext hb rfl
  obtain ⟨x, hx, -, hfollows⟩ := (follows_of_prove hb).1 [first] second [] rfl
  rw [hx] at hrule
  have hkind := of_decide_eq_true hkind
  have hrecord := (hfollows rule hrule hkind).2.mpr hcoherent
  exact ⟨c, trace, c', first, second, hc, htrace, hsteps, ⟨b, _, hb⟩, x, rule, hx, hrule, hkind, hcoherent,
    hrecord⟩

-- The second hint records the configuration from which the first one starts, but its substitution fits.
theorem diverging_record :
    let hints := [hint zero, { hint (next zero) with configuration := state zero }]
    ∃ c trace c' first second, Converter.ofDefinition definition {} = .ok c ∧
      (Hint.convertAll hints).run c = (.ok trace, c') ∧ trace.steps = [first, second] ∧
      (∃ b c'', prove c' [first, second] = (.ok b, c'')) ∧
      ∃ x rule, (start c' first.configuration).applyAll [first] = (.ok (), x) ∧
        (Semantics.rule second.ordinal x.language).1 = .ok rule ∧ rule.kind = .transition ∧
        second.configuration ≠ x.configuration := by
  intro hints
  obtain ⟨c, trace, c', first, second, hc, htrace, hsteps, hproved⟩ := exists_steps hints
    (fun c' first second =>
      let x := ((start c' first.configuration).applyAll [first]).2
      (prove c' [first, second]).1.isOk &&
        (Semantics.rule second.ordinal x.language).1.toOption.any (·.kind = .transition) &&
        second.configuration ≠ x.configuration)
    (by decide +kernel)
  simp only [Bool.and_eq_true] at hproved
  obtain ⟨⟨hproved, hrule⟩, hdiffers⟩ := hproved
  obtain ⟨b, hb⟩ := isOk_iff.mp hproved
  obtain ⟨rule, hrule, hkind⟩ := exists_of_any hrule
  have hb : prove c' [first, second] = (.ok b, _) := Prod.ext hb rfl
  obtain ⟨final, hfinal⟩ := prove_eq_ok hb
  obtain ⟨x, hx, -⟩ := applyAll_cons_eq_ok.mp hfinal
  have hx : (start c' first.configuration).applyAll [first] = (.ok (), x) :=
    applyAll_cons_eq_ok.mpr ⟨x, hx, rfl⟩
  rw [hx] at hrule hdiffers
  exact ⟨c, trace, c', first, second, hc, htrace, hsteps, ⟨b, _, hb⟩, x, rule, hx, hrule,
    of_decide_eq_true hkind, of_decide_eq_true hdiffers⟩

end Kore
end MatchingLogic
