import MatchingLogic.Proofs.Certificate.Packaging
import MatchingLogic.Proofs.Certificate.Statements

namespace MatchingLogic

open Writer

namespace Notations

variable {ns : Notations}

theorem unfolds_bot (hbot : ns.get? "\\bot" = some .bot) : ns.Unfolds .bot (.mu 0 (.setVar 0)) := by
  have hexpand : ns.expand "\\bot" [] = .ok (.mu 0 (.setVar 0)) :=
    expand_eq_ok.mpr (.inr ⟨.bot, hbot, rfl, rfl⟩)
  exact .sugar hexpand (.mu (.setVar 0))

theorem unfolds_neg (hneg : ns.get? "\\neg" = some .neg) (hbot : ns.get? "\\bot" = some .bot)
    {p q : Pattern} (h : ns.Unfolds p q) : ns.Unfolds (.neg p) (.imp q (.mu 0 (.setVar 0))) := by
  have hexpand : ns.expand "\\neg" [p] = .ok (.imp p .bot) :=
    expand_eq_ok.mpr (.inr ⟨.neg, hneg, rfl, rfl⟩)
  exact .sugar hexpand (.imp h (unfolds_bot hbot))

end Notations

namespace Machine

theorem popPatterns_map (qs : List Pattern) (stack : List Entry) :
    popPatterns qs.length (qs.map Entry.pattern ++ stack) = some (qs.reverse, stack) := by
  induction qs with
  | nil => rfl
  | cons q qs ih => simp [popPatterns, ih]

theorem popPatterns_reverse (qs : List Pattern) (stack : List Entry) :
    popPatterns qs.length ((qs.map Entry.pattern).reverse ++ stack) = some (qs, stack) := by
  have h := popPatterns_map qs.reverse stack
  rwa [List.length_reverse, List.map_reverse, List.reverse_reverse] at h

end Machine

namespace Derivation

variable {ns : Notations} {phase : Phase} {theory : List Pattern} {t : Theory} {uses : Uses}
  {d : Derivation}

theorem shared_eq_ok {body : Writer Code} {m m' : Memory} {code : Code}
    (h : (shared t uses d body).run m = .ok (code, m')) :
    (∃ slot, (m.proofs.lookup d).or (m.lemmas.lookup d.conclusion) = some slot ∧
      code = [.load slot] ∧ m' = m) ∨
    (m.proofs.lookup d).or (m.lemmas.lookup d.conclusion) = none ∧
    ∃ code₁ m₁, body.run m = .ok (code₁, m₁) ∧
      code = code₁ ++ (if d.conclusion ∈ t.lemmas ∨ uses.repeatsProof d then [.save] else []) ∧
      m' = if d.conclusion ∈ t.lemmas then m₁.saveLemma d.conclusion
        else if uses.repeatsProof d then m₁.saveProof d else m₁ := by
  obtain ⟨_, _, hget, h⟩ := Writer.bind_eq_ok.mp h
  cases hget
  split at h
  case h_1 slot hslot =>
    cases pure_eq_ok.mp h
    exact .inl ⟨slot, hslot, rfl, rfl⟩
  case h_2 hnone =>
    obtain ⟨code₁, m₁, hbody, h⟩ := Writer.bind_eq_ok.mp h
    refine .inr ⟨hnone, code₁, m₁, hbody, ?_⟩
    split at h
    case isTrue hlemma =>
      obtain ⟨_, _, hsave, h⟩ := Writer.bind_eq_ok.mp h
      cases hsave
      cases pure_eq_ok.mp h
      simp [hlemma]
    case isFalse hlemma =>
      split at h
      case isTrue hrepeats =>
        obtain ⟨_, _, hsave, h⟩ := Writer.bind_eq_ok.mp h
        cases hsave
        cases pure_eq_ok.mp h
        simp [hlemma, hrepeats]
      case isFalse hrepeats =>
        cases pure_eq_ok.mp h
        simp [hlemma, hrepeats]

-- A slot with another derivation serves as well: it holds the same conclusion.
theorem writes_shared {body : Writer Code}
    (hbody : Writes ns phase theory body .proved (ns.Unfolds d.conclusion)) :
    Writes ns phase theory (shared t uses d body) .proved (ns.Unfolds d.conclusion) := by
  intro m μ code m' hm h
  obtain ⟨slot, hslot, rfl, rfl⟩ | ⟨-, code₁, m₁, h₁, rfl, rfl⟩ := shared_eq_ok h
  · obtain hslot | ⟨-, hslot⟩ := Option.or_eq_some_iff.mp hslot
    · have ⟨q, hget, hq⟩ := hm.proofs.lookup hslot
      exact ⟨q, μ, hq, hm, Machine.pushes_load hget⟩
    · have ⟨q, hget, hq⟩ := hm.lemmas.lookup hslot
      exact ⟨q, μ, hq, hm, Machine.pushes_load hget⟩
  · have ⟨q, μ₁, hq, hm₁, hpush⟩ := hbody hm h₁
    by_cases hlemma : d.conclusion ∈ t.lemmas
    · simp only [hlemma, true_or, if_true]
      exact ⟨q, μ₁ ++ [.proved q], hq, hm₁.saveLemma hq, hpush.save⟩
    · by_cases hrepeats : uses.repeatsProof d
      · simp only [hlemma, hrepeats, or_true, if_true, if_false]
        exact ⟨q, μ₁ ++ [.proved q], hq, hm₁.saveProof hq, hpush.save⟩
      · simp only [hlemma, hrepeats, Bool.false_eq_true, or_self, if_false, List.append_nil]
        exact ⟨q, μ₁, hq, hm₁, hpush⟩

theorem writes_leaf {body : Writer Code}
    (hbody : Writes ns phase theory body .proved (ns.Unfolds d.conclusion)) :
    Writes ns phase theory (leaf d body) .proved (ns.Unfolds d.conclusion) := by
  intro m μ code m' hm h
  obtain ⟨_, _, hget, h⟩ := Writer.bind_eq_ok.mp h
  cases hget
  split at h
  case h_1 slot hslot =>
    cases pure_eq_ok.mp h
    have ⟨q, hget, hq⟩ := hm.lemmas.lookup hslot
    exact ⟨q, μ, hq, hm, Machine.pushes_load hget⟩
  case h_2 => exact hbody hm h

theorem writes_assumed {p : Pattern}
    (htheory : t.axioms.mapM t.notations.expandFully = .ok theory) :
    Writes t.notations phase theory ((assumed p).write t uses) .proved (t.notations.Unfolds p) := by
  refine writes_leaf (d := assumed p) ?_
  intro m μ code m' hm h
  split at h
  case h_1 index hindex =>
    cases pure_eq_ok.mp h
    obtain ⟨hlt, hget, -⟩ := List.idxOf?_eq_some_iff.mp hindex
    have ⟨q, hq, hexpand⟩ := exists_getElem?_right (mapM_eq_ok.mp htheory)
      (List.getElem?_eq_some_iff.mpr ⟨hlt, hget⟩)
    refine ⟨q, μ, Notations.unfolds_of_expandFully hexpand, hm, fun stack published => ?_⟩
    simp [Machine.exec, Machine.step, Machine.push, hq]
  case h_2 => cases h

theorem writes_instantiate {inner : Derivation} {plugs : Substitution}
    (h : Writes t.notations phase theory (inner.write t uses) .proved
      (t.notations.Unfolds inner.conclusion)) :
    Writes t.notations phase theory ((instantiate inner plugs).write t uses) .proved
      (t.notations.Unfolds (inner.conclusion.instantiate plugs)) := by
  refine writes_shared (d := instantiate inner plugs) ?_
  intro m μ code m' hm hrun
  obtain ⟨code, m₁, hcode, hrun⟩ := Writer.bind_eq_ok.mp hrun
  obtain ⟨codes, m₂, hcodes, hrun⟩ := Writer.bind_eq_ok.mp hrun
  cases pure_eq_ok.mp hrun
  have ⟨q, μ₁, hq, hm₁, hpush⟩ := h hm hcode
  have hplugs (p : Pattern) (_ : p ∈ plugs.plugs) : Writes t.notations phase theory
      ((t.notations.unfolding p).write uses) .pattern (t.notations.Unfolds p) :=
    Notations.writes_unfolding p uses
  have ⟨qs, μ₂, hqs, hm₂, hexec⟩ := mapM_pushes hplugs hm₁ hcodes
  refine ⟨q.instantiate (.ofList (plugs.ids.zip qs)), μ₂, ?_, hm₂, fun stack published => ?_⟩
  · exact hq.instantiate fun id => .getD (Substitution.rel_ofList_zip hqs id) (.metavar id)
  · have hlen : plugs.ids.length = qs.length := by
      rw [← hqs.length_eq, Substitution.ids, Substitution.plugs, List.length_map, List.length_map]
    rw [Machine.exec_append, Machine.exec_append, hpush]
    simp only [bind, Option.bind_some]
    rw [hexec]
    simp [Machine.exec, Machine.step, hlen, Machine.popPatterns_reverse]

-- The steps of modus ponens and of instantiation are made on unfolded conclusions.
theorem writes (hneg : t.notations.get? "\\neg" = some .neg)
    (hbot : t.notations.get? "\\bot" = some .bot)
    (htheory : t.axioms.mapM t.notations.expandFully = .ok theory) (hd : d.Valid) :
    Writes t.notations phase theory (d.write t uses) .proved (t.notations.Unfolds d.conclusion) := by
  induction d with
  | prop1 =>
    have h : t.notations.Unfolds (conclusion .prop1) (conclusion .prop1) :=
      .imp (.metavar 0) (.imp (.metavar 1) (.metavar 0))
    exact writes_leaf (writes_pure h fun _ _ _ => rfl)
  | prop2 =>
    have h : t.notations.Unfolds (conclusion .prop2) (conclusion .prop2) :=
      .imp (.imp (.metavar 0) (.imp (.metavar 1) (.metavar 2)))
        (.imp (.imp (.metavar 0) (.metavar 1)) (.imp (.metavar 0) (.metavar 2)))
    exact writes_leaf (writes_pure h fun _ _ _ => rfl)
  | prop3 =>
    have h : t.notations.Unfolds (conclusion .prop3) Machine.doubleNegation :=
      .imp (Notations.unfolds_neg hneg hbot (Notations.unfolds_neg hneg hbot (.metavar 0)))
        (.metavar 0)
    exact writes_leaf (writes_pure h fun _ _ _ => rfl)
  | assumed p => exact writes_assumed htheory
  | modusPonens left right ihl ihr =>
    obtain ⟨hleft, hright, c, hc⟩ := hd
    refine writes_shared (.then_two (ihl hleft) (ihr hright) fun q q' hq hq' => ?_)
    rw [hc] at hq'
    cases hq' with
    | imp ha hc' =>
      cases ha.unique hq
      exact ⟨_, by simpa [conclusion, hc] using hc', fun _ _ _ => by simp [Machine.step]⟩
  | instantiate inner plugs ih => exact writes_instantiate (ih hd)

end Derivation

namespace Certificate

open Machine

-- The machine accepts the proofs and publishes the claims, fully expanded, whatever lemmas are reused.
theorem replay_proofs {t : Theory} {claims : List Pattern} {proofs : List Proof} {c : Certificate}
    (h : write t claims proofs = .ok c)
    (hneg : t.notations.get? "\\neg" = some .neg) (hbot : t.notations.get? "\\bot" = some .bot)
    {axioms' claims' : List Pattern}
    (haxioms : t.axioms.mapM t.notations.expandFully = .ok axioms')
    (hclaims : claims.mapM t.notations.expandFully = .ok claims')
    (hfits : ∀ code, proofCode t proofs = .ok code → ∀ i ∈ code, i.Fits) :
    replay .proofs axioms' c.proofs = some claims' ∧ claims'.length = proofs.length := by
  obtain ⟨hpairs, _, _, code, -, -, hcode, rfl⟩ := writer_steps h
  obtain ⟨uses, -, hpublish⟩ := bind_eq_ok.mp hcode
  have hwrites (d : Derivation) (hd : d ∈ proofs.map (·.derivation)) :
      Writes t.notations .proofs axioms' (d.write t uses) .proved
        (t.notations.Unfolds d.conclusion) := by
    obtain ⟨p, -, rfl⟩ := List.mem_map.mp hd
    exact Derivation.writes hneg hbot haxioms p.valid
  obtain ⟨qs, hqs, hreplay⟩ := replay_publishAll hwrites hpublish (hfits code hcode)
  rw [List.forall₂_map_left_iff] at hqs
  have hunfolds : List.Forall₂ t.notations.Unfolds claims qs := by
    rw [← checkPairs_eq_ok.mp hpairs]
    exact List.forall₂_map_left_iff.mpr hqs
  cases eq_of_unfolds hunfolds hclaims
  exact ⟨hreplay, hqs.length_eq.symm⟩

-- `b → a` is proved in two ways. The first proof is saved as a lemma and loaded in place of the second.
theorem replay_proofs_lemma :
    let a := Pattern.symbol "a"
    let b := Pattern.symbol "b"
    let bot := Pattern.mu 0 (.setVar 0)
    let weakened : Proof :=
      ⟨.modusPonens (.assumed a) (.instantiate .prop1 (.ofList [(0, a), (1, b)])),
        trivial, trivial, .imp b a, rfl⟩
    let proofs := [weakened, .assumed (.imp b a), Proof.prop3.instantiate (.ofList [(0, .neg a)])]
    let claims := [Pattern.imp b a, .imp b a, .imp (.neg (.neg (.neg a))) (.neg a)]
    let na := Pattern.imp a bot
    let t : Theory := ⟨.builtin, [a, .imp b a], [.imp b a]⟩
    ∃ c, write t claims proofs = .ok c ∧
      replay .proofs [a, .imp b a] c.proofs =
        some [.imp b a, .imp b a, .imp (.imp (.imp na bot) bot) na] ∧ 3 = proofs.length := by
  intro a b bot weakened proofs claims na t
  have haxioms : t.axioms.mapM t.notations.expandFully = .ok [a, .imp b a] := rfl
  have hclaims : claims.mapM t.notations.expandFully =
      .ok [.imp b a, .imp b a, .imp (.imp (.imp na bot) bot) na] := rfl
  have ⟨c, hc⟩ := isOk_iff.mp (show (write t claims proofs).isOk = true by decide +kernel)
  have hfits : ∀ code ∈ (proofCode t proofs).toOption, ∀ i ∈ code, i.Fits := by
    decide +kernel
  refine ⟨c, hc, replay_proofs hc rfl rfl haxioms hclaims ?_⟩
  exact fun code h => hfits code (by rw [h]; rfl)

end Certificate
end MatchingLogic
