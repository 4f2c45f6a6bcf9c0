import MatchingLogic.Proofs.Proof.Transitivity

namespace MatchingLogic

-- A reading of patterns as propositions, which respects implication and negation and is free in all else.
structure Valuation where
  holds : Pattern → Prop
  imp : ∀ a c, holds (.imp a c) ↔ (holds a → holds c)
  neg : ∀ p, holds (.neg p) ↔ ¬holds p

namespace Valuation

-- All instances of the pattern hold.
def Validates (v : Valuation) (p : Pattern) : Prop :=
  ∀ t, v.holds (p.instantiate t)

theorem Validates.instantiate {v : Valuation} {p : Pattern} (h : v.Validates p) (s : Substitution) :
    v.Validates (p.instantiate s) :=
  fun t => Pattern.instantiate_comp p s t ▸ h (s.comp t)

theorem Validates.modusPonens {v : Valuation} {a c : Pattern} (ha : v.Validates a)
    (hc : v.Validates (.imp a c)) : v.Validates c := by
  intro t
  have h := hc t
  rw [Pattern.instantiate_imp, v.imp] at h
  exact h (ha t)

mutual

-- Implications and negations are read as such, and all other patterns are true.
def truth : Pattern → Bool
  | .imp a c => !truth a || truth c
  | .sugar name args => if name = "\\neg" then !truthAll args else true
  | _ => true

def truthAll : List Pattern → Bool
  | [] => true
  | p :: ps => truth p && truthAll ps

end

def ofTruth : Valuation where
  holds p := truth p = true
  imp a c := by cases h : truth a <;> simp [truth, h]
  neg p := by simp [Pattern.neg, truth, truthAll]

end Valuation

namespace Derivation

open MatchingLogic.Valuation

variable {d : Derivation} {v : Valuation}

theorem validates_conclusion (hd : d.Valid) (h : ∀ a ∈ d.leaves, v.Validates a) :
    v.Validates d.conclusion := by
  induction d with
  | prop1 =>
    intro t
    simp only [conclusion, Pattern.instantiate_imp, v.imp]
    exact fun h _ => h
  | prop2 =>
    intro t
    simp only [conclusion, Pattern.instantiate_imp, v.imp]
    exact fun h h' h₀ => h h₀ (h' h₀)
  | prop3 =>
    intro t
    have hneg (p : Pattern) : p.neg.instantiate t = (p.instantiate t).neg := Pattern.instantiate_sugar ..
    simp only [conclusion, Pattern.instantiate_imp, hneg, v.imp, v.neg]
    exact not_not.mp
  | assumed p => exact h p (by simp [leaves])
  | modusPonens left right ihl ihr =>
    obtain ⟨hleft, hright, c, hc⟩ := hd
    have hl := ihl hleft fun a ha => h a (List.mem_append_left _ ha)
    have hr := ihr hright fun a ha => h a (List.mem_append_right _ ha)
    rw [hc] at hr
    simpa [conclusion, hc] using hl.modusPonens hr
  | instantiate inner plugs ih => exact (ih hd h).instantiate plugs

end Derivation

namespace Proof

variable {p q left right : Proof} {a b c : Pattern} {v : Valuation}

theorem validates_conclusion (p : Proof) (h : ∀ a ∈ p.assumptions, v.Validates a) :
    v.Validates p.conclusion :=
  Derivation.validates_conclusion p.valid fun a ha => h a (Derivation.mem_assumptions.mpr ha)

-- One reading cannot hold of a pattern and of its negation.
theorem consistent (hp : p.assumptions = []) (hq : q.assumptions = []) :
    q.conclusion ≠ .neg p.conclusion := by
  intro h
  have hholds := p.validates_conclusion (v := .ofTruth) (by simp [hp]) ∅
  have hneg := q.validates_conclusion (v := .ofTruth) (by simp [hq]) ∅
  rw [Pattern.instantiate_empty] at hholds hneg
  rw [h, Valuation.neg] at hneg
  exact hneg hholds

theorem conclusion_reflexivity (h : reflexivity = .ok p) :
    p.conclusion = .imp (.metavar 0) (.metavar 0) := by
  have hmap : reflexivity.map (·.conclusion) = .ok (.imp (.metavar 0) (.metavar 0)) := rfl
  rw [h] at hmap
  exact Except.ok.inj hmap

-- The ways to build a proof, with the conclusions that are computed on the way.
inductive Built : Proof → Pattern → Prop
  | prop1 : Built .prop1 (.imp (.metavar 0) (.imp (.metavar 1) (.metavar 0)))
  | prop2 : Built .prop2
    (.imp (.imp (.metavar 0) (.imp (.metavar 1) (.metavar 2)))
      (.imp (.imp (.metavar 0) (.metavar 1)) (.imp (.metavar 0) (.metavar 2))))
  | prop3 : Built .prop3 (.imp (.neg (.neg (.metavar 0))) (.metavar 0))
  | assumed (p : Pattern) : Built (.assumed p) p
  | modusPonens {left right p : Proof} {a c : Pattern} : Built left a → Built right (.imp a c) →
    left.modusPonens right = .ok p → Built p c
  | instantiate {p : Proof} {c : Pattern} (s : Substitution) : Built p c →
    Built (p.instantiate s) (c.instantiate (s.restrict c.metavars))
  | reflexivity {p : Proof} : Proof.reflexivity = .ok p → Built p (.imp (.metavar 0) (.metavar 0))
  | transitivity {ab bc p : Proof} {a b c : Pattern} : Built ab (.imp a b) → Built bc (.imp b c) →
    ab.transitivity bc = .ok p → Built p (.imp a c)

theorem Built.conclusion_eq (h : Built p c) : p.conclusion = c := by
  induction h with
  | prop1 | prop2 | prop3 | assumed => rfl
  | modusPonens _ _ hp ihl ihr =>
    have h := modusPonens_eq_ok hp
    rw [ihr] at h
    exact (Pattern.imp.inj h).2.symm
  | instantiate s _ ih => rw [conclusion_instantiate, ih, Pattern.instantiate_restrict]
  | reflexivity h => exact conclusion_reflexivity h
  | transitivity _ _ h ihab ihbc => exact (transitivity_eq_ok ihab ihbc h).1

theorem validates_of_built (h : Built p c) (v : Valuation)
    (hassumed : ∀ a ∈ p.assumptions, v.Validates a) : v.Validates c :=
  h.conclusion_eq ▸ p.validates_conclusion hassumed

-- A proof says what its tree of rules says, it holds wherever its assumptions hold, and nothing is proved
-- together with its negation.
theorem built_sound (h : Built p c) :
    p.derivation.conclusion = c ∧
    (∀ v : Valuation, (∀ a ∈ p.assumptions, ∀ t, v.holds (a.instantiate t)) →
      ∀ t, v.holds (c.instantiate t)) ∧
    (p.assumptions = [] → ∀ q, Built q (.neg c) → q.assumptions ≠ []) := by
  refine ⟨h.conclusion_eq, validates_of_built h, fun hp q hq hempty => ?_⟩
  exact consistent hp hempty (h.conclusion_eq.symm ▸ hq.conclusion_eq)

-- `φ1 → φ0` and `φ0 → φ2` are assumed and chained, and a metavariable of the schemas is plugged in the end.
theorem built_sound_chained :
    let ab := Pattern.imp (.metavar 1) (.metavar 0)
    let bc := Pattern.imp (.metavar 0) (.metavar 2)
    ∃ ac, (assumed ab).transitivity (assumed bc) = .ok ac ∧
      let p := ac.instantiate (.ofList [(2, .metavar 1), (7, .bot)])
      let c := Pattern.imp (.metavar 1) (.metavar 1)
      Built p c ∧ p.assumptions = [ab, bc] ∧ p.derivation.conclusion = c ∧
      ∀ v : Valuation, (∀ a ∈ [ab, bc], ∀ t, v.holds (a.instantiate t)) →
        ∀ t, v.holds (c.instantiate t) := by
  intro ab bc
  have ⟨ac, hac⟩ := isOk_iff.mp
    (show ((assumed ab).transitivity (assumed bc)).isOk = true by decide +kernel)
  have hassumed : ((assumed ab).transitivity (assumed bc)).map (·.assumptions) = .ok [ab, bc] := by
    decide +kernel
  have hp : Built (ac.instantiate (.ofList [(2, .metavar 1), (7, .bot)])) (.imp (.metavar 1) (.metavar 1)) :=
    .instantiate _ (.transitivity (.assumed ab) (.assumed bc) hac)
  have hassumptions : (ac.instantiate (.ofList [(2, .metavar 1), (7, .bot)])).assumptions = [ab, bc] := by
    rw [assumptions_instantiate]
    rw [hac] at hassumed
    exact Except.ok.inj hassumed
  have ⟨hconclusion, hholds, _⟩ := built_sound hp
  exact ⟨ac, hac, hp, hassumptions, hconclusion, hassumptions ▸ hholds⟩

end Proof
end MatchingLogic
