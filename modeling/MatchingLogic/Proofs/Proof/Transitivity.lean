import MatchingLogic.Proof.Propositional
import MatchingLogic.Proofs.FirstOccurrence
import MatchingLogic.Proofs.Proof.Basic
import MatchingLogic.Proofs.Success

namespace MatchingLogic

theorem Derivation.assumptions_eq (d : Derivation) : d.assumptions = d.leaves.eraseDups :=
  foldl_addNew_eraseDups [] d.leaves

namespace Proof

variable {ab bc left right p : Proof} {a b b' c : Pattern}

theorem assumptions_eq (p : Proof) : p.assumptions = p.derivation.leaves.eraseDups :=
  p.derivation.assumptions_eq

theorem leaves_instantiate (p : Proof) (s : Substitution) :
    (p.instantiate s).derivation.leaves = p.derivation.leaves := by
  obtain ⟨h, -⟩ | h := p.derivation_instantiate s
  · rw [h]
  · rw [h, Derivation.leaves]

-- Instances of the schemas, whatever metavariables the parts have in common with the schemas.
theorem conclusion_weakening (p q : Pattern) :
    (prop1.instantiate (.ofList [(0, p), (1, q)])).conclusion = .imp p (.imp q p) := by
  rw [conclusion_instantiate]
  rfl

theorem conclusion_distribution (a b c : Pattern) :
    (prop2.instantiate (.ofList [(0, a), (1, b), (2, c)])).conclusion =
      .imp (.imp a (.imp b c)) (.imp (.imp a b) (.imp a c)) := by
  rw [conclusion_instantiate]
  rfl

theorem derivation_modusPonens (h : left.modusPonens right = .ok p) :
    p.derivation = .modusPonens left.derivation right.derivation := by
  simp only [modusPonens] at h
  split at h
  case h_1 =>
    split at h
    case isTrue => cases h; rfl
    case isFalse => cases h
  case h_2 => cases h

theorem modusPonens_eq_ok (h : left.modusPonens right = .ok p) :
    right.conclusion = .imp left.conclusion p.conclusion := by
  have hd := derivation_modusPonens h
  obtain ⟨-, -, c, hc⟩ : (Derivation.modusPonens left.derivation right.derivation).Valid :=
    hd ▸ p.valid
  simp [conclusion, hd, Derivation.conclusion, hc]

theorem exists_modusPonens (hleft : left.conclusion = a) (hright : right.conclusion = .imp a c) :
    ∃ p, left.modusPonens right = .ok p ∧ p.conclusion = c ∧
      p.derivation.leaves = left.derivation.leaves ++ right.derivation.leaves := by
  have hok : ∃ p, left.modusPonens right = .ok p := by
    simp only [modusPonens]
    split
    case h_1 a' c' h =>
      obtain ⟨rfl, -⟩ := Pattern.imp.inj (h.symm.trans hright)
      simp [hleft]
    case h_2 hother => exact absurd hright (hother _ _)
  obtain ⟨p, hp⟩ := hok
  refine ⟨p, hp, (Pattern.imp.inj ((modusPonens_eq_ok hp).symm.trans hright)).2, ?_⟩
  rw [derivation_modusPonens hp, Derivation.leaves]

theorem sides_eq_ok (h : p.sides = .ok (a, b)) : p.conclusion = .imp a b := by
  simp only [sides] at h
  split at h
  case h_1 hsides =>
    cases h
    cases hp : p.conclusion <;> simp_all [Pattern.implication?]
  case h_2 => cases h

theorem sides_of_imp (h : p.conclusion = .imp a b) : p.sides = .ok (a, b) := by
  rw [sides, h]
  rfl

theorem sides_of_not_imp (h : ∀ a b, p.conclusion ≠ .imp a b) :
    p.sides = .error (.notAnImplication p.conclusion.text) := by
  have hnone : p.conclusion.implication? = none := by
    cases hp : p.conclusion with
    | imp a b => exact absurd hp (h a b)
    | _ => rfl
  rw [sides, hnone]

theorem exists_transitivity (hab : ab.conclusion = .imp a b) (hbc : bc.conclusion = .imp b c) :
    ∃ p, ab.transitivity bc = .ok p ∧ p.conclusion = .imp a c ∧
      p.derivation.leaves = ab.derivation.leaves ++ bc.derivation.leaves := by
  obtain ⟨abc, habc, hconclusion, hleaves⟩ := exists_modusPonens hbc (conclusion_weakening (.imp b c) a)
  obtain ⟨abac, habac, hconclusion', hleaves'⟩ :=
    exists_modusPonens hconclusion (conclusion_distribution a b c)
  obtain ⟨ac, hac, hconclusion'', hleaves''⟩ := exists_modusPonens hab hconclusion'
  refine ⟨ac, ?_, hconclusion'', ?_⟩
  · simp only [transitivity, sides_of_imp hab, sides_of_imp hbc]
    simp [bind, Except.bind, habc, habac, hac]
  · simp [hleaves'', hleaves', hleaves, leaves_instantiate, prop1, prop2, Derivation.leaves]

theorem transitivity_mismatch (hab : ab.conclusion = .imp a b) (hbc : bc.conclusion = .imp b' c) (h : b ≠ b') :
    ab.transitivity bc = .error (.modusPonensMismatch b.text b'.text) := by
  rw [transitivity, sides_of_imp hab, sides_of_imp hbc]
  simp [bind, Except.bind, h, throw, throwThe, MonadExceptOf.throw]

theorem middle_of_transitivity (hab : ab.conclusion = .imp a b) (hbc : bc.conclusion = .imp b' c)
    (h : ab.transitivity bc = .ok p) : b = b' := by
  by_contra hne
  cases (transitivity_mismatch hab hbc hne).symm.trans h

theorem transitivity_eq_ok (hab : ab.conclusion = .imp a b) (hbc : bc.conclusion = .imp b c)
    (h : ab.transitivity bc = .ok p) : p.conclusion = .imp a c ∧
      p.derivation.leaves = ab.derivation.leaves ++ bc.derivation.leaves := by
  obtain ⟨q, hq, hresult⟩ := exists_transitivity hab hbc
  obtain rfl : p = q := Except.ok.inj (h.symm.trans hq)
  exact hresult

theorem assumptions_append (h : p.derivation.leaves = left.derivation.leaves ++ right.derivation.leaves) :
    p.assumptions = left.assumptions ++ right.assumptions.filter (· ∉ left.assumptions) := by
  simp only [assumptions_eq, h, eraseDups_append_filter, List.mem_eraseDups]

-- Two proofs can be chained exactly if they prove implications of which the one ends where the other begins. Then the
-- outcome leads from the beginning to the end, and assumes what the first proof assumes and after that what only
-- the second does. Otherwise it is said which proof is not one of an implication, or how the middles differ.
theorem transitivity_exactly (ab bc : Proof) :
    ((∃ p, ab.transitivity bc = .ok p) ↔
      ∃ a b b' c, ab.conclusion = .imp a b ∧ bc.conclusion = .imp b' c ∧ b = b') ∧
    (∀ a b b' c p, ab.conclusion = .imp a b → bc.conclusion = .imp b' c → ab.transitivity bc = .ok p →
      p.conclusion = .imp a c ∧
      p.assumptions = ab.assumptions ++ bc.assumptions.filter (· ∉ ab.assumptions)) ∧
    ((∀ a b, ab.conclusion ≠ .imp a b) →
      ab.transitivity bc = .error (.notAnImplication ab.conclusion.text)) ∧
    ((∃ a b, ab.conclusion = .imp a b) → (∀ b' c, bc.conclusion ≠ .imp b' c) →
      ab.transitivity bc = .error (.notAnImplication bc.conclusion.text)) ∧
    ∀ a b b' c, ab.conclusion = .imp a b → bc.conclusion = .imp b' c → b ≠ b' →
      ab.transitivity bc = .error (.modusPonensMismatch b.text b'.text) := by
  refine ⟨⟨?succeeds, ?chained⟩, ?outcome, ?first, ?second, fun a b b' c => transitivity_mismatch⟩
  case succeeds =>
    rintro ⟨p, hp⟩
    obtain ⟨⟨a, b⟩, hab, hrest⟩ := bind_eq_ok.mp hp
    obtain ⟨⟨b', c⟩, hbc, -⟩ := bind_eq_ok.mp hrest
    have hab := sides_eq_ok hab
    have hbc := sides_eq_ok hbc
    exact ⟨a, b, b', c, hab, hbc, middle_of_transitivity hab hbc hp⟩
  case chained =>
    rintro ⟨a, b, b', c, hab, hbc, rfl⟩
    obtain ⟨p, hp, -⟩ := exists_transitivity hab hbc
    exact ⟨p, hp⟩
  case outcome =>
    intro a b b' c p hab hbc hp
    obtain rfl := middle_of_transitivity hab hbc hp
    obtain ⟨hconclusion, hleaves⟩ := transitivity_eq_ok hab hbc hp
    exact ⟨hconclusion, assumptions_append hleaves⟩
  case first =>
    intro h
    rw [transitivity, sides_of_not_imp h]
    rfl
  case second =>
    rintro ⟨a, b, hab⟩ h
    rw [transitivity, sides_of_imp hab, sides_of_not_imp h]
    rfl

end Proof
end MatchingLogic
