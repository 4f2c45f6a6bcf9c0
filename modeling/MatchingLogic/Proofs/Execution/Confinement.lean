import MatchingLogic.Proofs.Execution.Obligations

namespace MatchingLogic

namespace Bundle

variable {b : Bundle} {p q : Pattern} {proof : Proof}

-- All that is asserted and claimed, and all that the proofs put in place of variables.
def patterns (b : Bundle) : List Pattern :=
  b.axioms ++ b.claims ++ b.proofs.flatMap (·.derivation.plugs)

theorem mem_patterns_assert : q ∈ (b.assert p).patterns ↔ q ∈ b.patterns ∨ q = p := by
  simp only [patterns, assert, List.mem_append, mem_addNew]
  tauto

theorem mem_patterns_assertAll {ps : List Pattern} :
    q ∈ (b.assertAll ps).patterns ↔ q ∈ b.patterns ∨ q ∈ ps := by
  induction ps generalizing b with
  | nil => simp [assertAll]
  | cons p ps ih =>
    have h : b.assertAll (p :: ps) = (b.assert p).assertAll ps := rfl
    rw [h, ih, mem_patterns_assert, List.mem_cons, or_assoc]

theorem mem_patterns_claim : q ∈ (b.claim p).patterns ↔ q ∈ b.patterns ∨ q = p := by
  simp only [patterns, claim, List.mem_append, List.mem_singleton]
  tauto

theorem mem_patterns_prove :
    q ∈ (b.prove proof).patterns ↔ q ∈ b.patterns ∨ q ∈ proof.derivation.plugs := by
  simp only [patterns, prove, List.flatMap_append, List.mem_append, List.flatMap_singleton, or_assoc]

end Bundle

theorem Proof.mem_plugs_instantiate {rule q : Pattern} {s : Substitution}
    (h : q ∈ ((Proof.assumed rule).instantiate s).derivation.plugs) : q ∈ s.plugs := by
  obtain ⟨hd, -⟩ | hd := (Proof.assumed rule).derivation_instantiate s
  all_goals rw [hd] at h
  · cases h
  · exact Substitution.mem_plugs_restrict (by simpa [Derivation.plugs, Proof.assumed] using h)

namespace Execution

variable {σ : Type} {I : σ → Prop} {P : Pattern → Prop} {x : Execution σ}

structure Keeps (I : σ → Prop) (P : Pattern → Prop) (x : Execution σ) : Prop where
  language : I x.language
  discharged : x.bundle.Discharged
  patterns : ∀ q ∈ x.bundle.patterns, P q

theorem keeps_start {l : σ} (hl : I l) (initial : Pattern) : (start l initial).Keeps I P where
  language := hl
  discharged := Bundle.discharged_empty
  patterns := nofun

theorem Keeps.asked {l : σ} (hx : x.Keeps I P) (hl : I l) : Keeps I P { x with language := l } :=
  ⟨hl, hx.discharged, hx.patterns⟩

end Execution

variable {σ : Type} [Semantics σ] {I : σ → Prop} {P : Pattern → Prop}

-- As long as the language is in a state of `I` and is asked about patterns of `P`, it answers with such.
structure Semantics.Confined (I : σ → Prop) (P : Pattern → Prop) : Prop where
  instantiate : ∀ {p s}, P p → (∀ q ∈ s.plugs, P q) → P (p.instantiate s)
  rule : ∀ {l} ordinal, I l → I (Semantics.rule ordinal l).2 ∧
    ∀ a, (Semantics.rule ordinal l).1 = .ok a → P a.pattern
  sides : ∀ {l s} events, I l → (∀ q ∈ s.plugs, P q) → I (Semantics.sideAxioms s events l).2 ∧
    ∀ groups, (Semantics.sideAxioms s events l).1 = .ok groups → ∀ p ∈ groups.patterns, P p

namespace Execution

open Semantics (Confined)

variable {x : Execution σ} {s : Substitution}

theorem keeps_transition (h : Confined I P) (hx : x.Keeps I P) {rule : Axiom} (hrule : P rule.pattern)
    (hs : ∀ q ∈ s.plugs, P q) (events : List Event) : (x.transition rule s events).2.Keeps I P := by
  have hasked := h.sides events hx.language hs
  have haccounts := x.accounts_transition rule s events
  simp only [transition] at haccounts ⊢
  split
  case h_1 => exact hx
  case h_2 next hnext =>
    split
    case h_1 => exact hx.asked hasked.1
    case h_2 groups hgroups =>
      simp only [hnext, hgroups] at haccounts
      refine ⟨hasked.1, hx.discharged.grow haccounts, fun q hq => ?_⟩
      rw [Bundle.mem_patterns_prove, Bundle.mem_patterns_claim, Bundle.mem_patterns_assert,
        Bundle.mem_patterns_assertAll] at hq
      obtain (((hq | hq) | rfl) | rfl) | hq := hq
      · exact hx.patterns q hq
      · exact hasked.2 groups hgroups q hq
      · exact hrule
      · exact h.instantiate hrule hs
      · exact hs q (Proof.mem_plugs_instantiate hq)

theorem language_call (h : Confined I P) {l : σ} (hl : I l) (t : Simplification) (ordinal : UInt64)
    (s : Substitution) (location : Location) : I (t.call l ordinal s location).2.2 := by
  simp only [Simplification.call]
  split
  case h_1 => exact hl
  case h_2 => split <;> exact (h.rule ordinal hl).1

theorem keeps_simplify (h : Confined I P) (hx : x.Keeps I P) (ordinal : UInt64) (s : Substitution)
    (l : Location) : (x.simplify ordinal s l).2.Keeps I P := by
  have hbundle := x.bundle_simplify ordinal s l
  refine ⟨?language, hbundle ▸ hx.discharged, hbundle ▸ hx.patterns⟩
  simp only [simplify]
  split
  case isTrue => exact hx.language
  case isFalse =>
    split
    case h_1 => exact hx.language
    case h_2 opened _ => split <;> exact language_call h hx.language opened ordinal s l

theorem keeps_apply (h : Confined I P) (hx : x.Keeps I P) {step : Step}
    (hs : ∀ q ∈ step.substitution.plugs, P q) : (x.apply step).2.Keeps I P := by
  have ⟨hl, hrule⟩ := h.rule step.ordinal hx.language
  simp only [apply]
  split
  case isTrue => exact hx
  case isFalse =>
    split
    case h_1 => exact hx.asked hl
    case h_2 rule hr =>
      split
      case h_1 => exact keeps_transition h (hx.asked hl) (hrule rule hr) hs step.events
      case h_2 l _ _ => exact keeps_simplify h (hx.asked hl) step.ordinal step.substitution l
      case h_3 => exact hx.asked hl
      case h_4 => exact hx.asked hl

theorem keeps_applyAll (h : Confined I P) (hx : x.Keeps I P) {steps : List Step}
    (hs : ∀ step ∈ steps, ∀ q ∈ step.substitution.plugs, P q) : (x.applyAll steps).2.Keeps I P := by
  induction steps generalizing x with
  | nil => exact hx
  | cons step steps ih =>
    have happly := keeps_apply h hx (hs step (by simp))
    rw [applyAll]
    split
    case h_1 x' hx' =>
      rw [hx'] at happly
      exact ih happly fun step hstep => hs step (by simp [hstep])
    case h_2 => exact happly

theorem confined_prove (h : Confined I P) {l l' : σ} {steps : List Step} {b : Bundle} (hl : I l)
    (hs : ∀ step ∈ steps, ∀ q ∈ step.substitution.plugs, P q) (hb : prove l steps = (.ok b, l')) :
    b.Discharged ∧ ∀ q ∈ b.patterns, P q := by
  cases steps with
  | nil =>
    cases hb
    exact ⟨Bundle.discharged_empty, nofun⟩
  | cons first steps =>
    have hx := keeps_applyAll h (keeps_start hl first.configuration) hs
    simp only [prove] at hb
    split at hb
    case h_1 => cases hb
    case h_2 x hrun =>
      rw [hrun] at hx
      have hbundle : x.bundle = b := by
        rw [← bundle_finalize]
        cases hf : x.finalize.1 with
        | error e => simp [hf, Except.map] at hb
        | ok u => simpa [hf, Except.map] using (Prod.mk.inj hb).1
      exact hbundle ▸ ⟨hx.discharged, hx.patterns⟩

end Execution
end MatchingLogic
