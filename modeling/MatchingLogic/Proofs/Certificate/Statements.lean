import MatchingLogic.Proofs.Certificate.Writer

namespace MatchingLogic.Certificate

open Machine

theorem writer_steps {t : Theory} {claims : List Pattern} {proofs : List Proof} {c : Certificate}
    (h : write t claims proofs = .ok c) :
    checkPairs 0 claims proofs = .ok () ∧
    ∃ theoryCode claimsCode proofsCode,
      patternCode t.notations t.axioms t.axioms = .ok theoryCode ∧
      patternCode t.notations claims claims.reverse = .ok claimsCode ∧
      proofCode t proofs = .ok proofsCode ∧
      c = ⟨theoryCode.encode, claimsCode.encode, proofsCode.encode⟩ := by
  obtain ⟨_, hpairs, h⟩ := bind_eq_ok.mp h
  obtain ⟨theoryCode, htheory, h⟩ := bind_eq_ok.mp h
  obtain ⟨claimsCode, hclaims, h⟩ := bind_eq_ok.mp h
  obtain ⟨proofsCode, hproofs, h⟩ := bind_eq_ok.mp h
  cases h
  exact ⟨mapError_eq_ok.mp hpairs, _, _, _, htheory, hclaims, hproofs, rfl⟩

-- What is published is what full expansion gives, where it gives something.
theorem eq_of_unfolds {ns : Notations} {ps qs qs' : List Pattern}
    (h : List.Forall₂ ns.Unfolds ps qs) (h' : ps.mapM ns.expandFully = .ok qs') : qs = qs' := by
  have hunique : Relator.RightUnique ns.Unfolds := fun _ _ _ => Notations.Unfolds.unique
  have hunfolds : List.Forall₂ ns.Unfolds ps qs' :=
    (mapM_eq_ok.mp h').imp fun _ _ => Notations.unfolds_of_expandFully
  exact List.right_unique_forall₂' hunique h hunfolds

theorem replay_patternCode {ns : Notations} {ps order qs : List Pattern} {code : Code}
    (h : patternCode ns ps order = .ok code) (hfits : ∀ i ∈ code, i.Fits)
    (hqs : order.mapM ns.expandFully = .ok qs) (theory : List Pattern) :
    replay .statements theory code.encode = some qs := by
  obtain ⟨uses, -, h⟩ := bind_eq_ok.mp h
  have hwrites (p : Pattern) (_ : p ∈ order) :
      Writer.Writes ns .statements theory ((ns.unfolding p).write uses) .pattern (ns.Unfolds p) :=
    Notations.writes_unfolding p uses
  obtain ⟨qs', hforall, hreplay⟩ := replay_publishAll hwrites h hfits
  rwa [← eq_of_unfolds hforall hqs]

-- The theory and the claims come back fully expanded, the claims in reverse order.
theorem replay_statements {t : Theory} {claims : List Pattern} {proofs : List Proof}
    {c : Certificate} (h : write t claims proofs = .ok c) {axioms' claims' : List Pattern}
    (haxioms : t.axioms.mapM t.notations.expandFully = .ok axioms')
    (hclaims : claims.mapM t.notations.expandFully = .ok claims')
    (hfits : ∀ code, patternCode t.notations t.axioms t.axioms = .ok code → ∀ i ∈ code, i.Fits)
    (hfits' : ∀ code, patternCode t.notations claims claims.reverse = .ok code → ∀ i ∈ code, i.Fits)
    (theory : List Pattern) :
    replay .statements theory c.theory = some axioms' ∧
      replay .statements theory c.claims = some claims'.reverse := by
  obtain ⟨-, theoryCode, claimsCode, _, htheory, hcode, -, rfl⟩ := writer_steps h
  have hreverse : claims.reverse.mapM t.notations.expandFully = .ok claims'.reverse :=
    mapM_eq_ok.mpr (List.forall₂_reverse_iff.mpr (mapM_eq_ok.mp hclaims))
  exact ⟨replay_patternCode htheory (hfits _ htheory) haxioms theory,
    replay_patternCode hcode (hfits' _ hcode) hreverse theory⟩

-- `¬a` is saved when the first statement is written and loaded for the second.
theorem replay_statements_shared :
    let a := Pattern.symbol "a"
    let statements := [Pattern.neg a, .and a (.neg a)]
    let bot := Pattern.mu 0 (.setVar 0)
    let expanded := [Pattern.imp a bot, .imp (.imp a (.imp (.imp a bot) bot)) bot]
    let t : Theory := ⟨.builtin, statements, []⟩
    ∃ c, write t statements (statements.map .assumed) = .ok c ∧
      replay .statements [] c.theory = some expanded ∧
      replay .statements [] c.claims = some expanded.reverse := by
  intro a statements bot expanded t
  have hexpanded : statements.mapM t.notations.expandFully = .ok expanded := rfl
  have ⟨c, hc⟩ := isOk_iff.mp
    (show (write t statements (statements.map .assumed)).isOk = true by decide +kernel)
  have hfits : ∀ order ∈ [statements, statements.reverse],
      ∀ code ∈ (patternCode t.notations statements order).toOption, ∀ i ∈ code, i.Fits := by
    decide +kernel
  refine ⟨c, hc, replay_statements hc hexpanded hexpanded ?_ ?_ []⟩
  · exact fun code h => hfits statements (by simp) code (by rw [h]; rfl)
  · exact fun code h => hfits statements.reverse (by simp) code (by rw [h]; rfl)

end MatchingLogic.Certificate
