import MatchingLogic.Proofs.Certificate.Reuse

namespace MatchingLogic

namespace Notations

-- What is met when a pattern is unfolded, outermost first. The arguments of a notation are met where its
-- expansion has them.
inductive Meets (ns : Notations) : Pattern → Pattern → Prop
  | self {p : Pattern} : ns.Meets p p
  | part {p q r : Pattern} (hp : p.sugar? = none) (hq : q ∈ p.children) (hr : ns.Meets q r) : ns.Meets p r
  | body {name : String} {args : List Pattern} {q r : Pattern} (hq : ns.expand name args = .ok q)
    (hr : ns.Meets q r) : ns.Meets (.sugar name args) r

-- All notations that are met take so many arguments as they have.
def Unfoldable (ns : Notations) (p : Pattern) : Prop :=
  ∀ name args, ns.Meets p (.sugar name args) → ns.Fits name args.length

variable {ns : Notations} {name : String} {args : List Pattern} {p q : Pattern}

theorem exists_expand_iff : (∃ q, ns.expand name args = .ok q) ↔ ns.Fits name args.length := by
  simp only [expand_eq_ok, Fits]
  cases ns.get? name <;> simp

theorem unfoldable_iff (hp : p.sugar? = none) : ns.Unfoldable p ↔ ∀ q ∈ p.children, ns.Unfoldable q := by
  constructor
  case mp => exact fun h q hq name args hmeets => h name args (.part hp hq hmeets)
  case mpr =>
    intro h name args hmeets
    cases hmeets with
    | self => cases hp
    | part _ hq hmeets => exact h _ hq name args hmeets
    | body => cases hp

theorem unfoldable_sugar (hq : ns.expand name args = .ok q) :
    ns.Unfoldable (.sugar name args) ↔ ns.Unfoldable q := by
  constructor
  case mp => exact fun h name args hmeets => h name args (.body hq hmeets)
  case mpr =>
    intro h name args hmeets
    cases hmeets with
    | self => exact exists_expand_iff.mp ⟨q, hq⟩
    | part hp => cases hp
    | body hq' hmeets =>
      cases hq.symm.trans hq'
      exact h name args hmeets

end Notations

namespace Unfolding

open Notations

variable {ns : Notations} {u : Unfolding}

-- An unfolding that is stuck only where it has to is not stuck at all if all that is met can be expanded.
theorem stuckOnly_iff (hfaithful : u.Faithful ns) (hexhaustive : u.Exhaustive ns) :
    (u.StuckOnly fun _ => False) ↔ ns.Unfoldable u.folded := by
  induction u with
  | symbol | elementVar | setVar | metavar =>
    rw [folded, unfoldable_iff rfl]
    simp [StuckOnly, Pattern.children]
  | app l r ihl ihr | imp l r ihl ihr =>
    rw [folded, unfoldable_iff rfl, StuckOnly, ihl hfaithful.1 hexhaustive.1, ihr hfaithful.2 hexhaustive.2]
    simp [Pattern.children]
  | ex v b ih | mu v b ih =>
    rw [folded, unfoldable_iff rfl, StuckOnly, ih hfaithful hexhaustive]
    simp [Pattern.children]
  | sugar name args body ih =>
    rw [folded, unfoldable_sugar hfaithful.1, StuckOnly, ih () hfaithful.2 hexhaustive]
  | stuck name args reason =>
    refine ⟨False.elim, fun h => ?_⟩
    obtain ⟨q, hq⟩ := exists_expand_iff.mpr (h name args .self)
    exact hexhaustive q hq

end Unfolding

namespace Notations

variable {ns : Notations} (hns : ns.Acyclic)
include hns

theorem stuckOnly_unfolding_iff (p : Pattern) :
    ((ns.unfolding p).StuckOnly fun _ => False) ↔ ns.Unfoldable p := by
  rw [Unfolding.stuckOnly_iff (ns.faithful_unfolding p) (exhaustive_unfolding hns p), ns.folded_unfolding]

-- Whatever is counted only once, all of it is met.
theorem exists_countUses_iff {ps : List Pattern} :
    (∃ u, ns.countUses ps ∅ = .ok u) ↔ ∀ p ∈ ps, ns.Unfoldable p := by
  simp only [← stuckOnly_unfolding_iff hns]
  constructor
  case mp =>
    rintro ⟨u, hu⟩ p hp
    obtain ⟨hadvances, hcovers⟩ := advances_countUses hu
    refine Unfolding.stuckOnly_of_covers hadvances (ns.faithful_unfolding p) (exhaustive_unfolding hns p) ?_
    rw [ns.folded_unfolding]
    exact hcovers p hp
  case mpr => exact fun h => (failsOnly_countUses h ∅).exists_ok

theorem exists_countProofUses_iff {ds : List Derivation} :
    (∃ u, ns.countProofUses ds ∅ = .ok u) ↔ ∀ d ∈ ds, ∀ p ∈ d.plugs, ns.Unfoldable p := by
  simp only [← stuckOnly_unfolding_iff hns]
  constructor
  case mp =>
    rintro ⟨u, hu⟩ d hd p hp
    exact stuckOnly_of_countProofUses hns hu hd hp
  case mpr =>
    intro h
    exact (FailsOnly.foldlM (fun d hd => Derivation.failsOnly_countUses (h d hd)) ∅).exists_ok

end Notations

namespace Certificate

variable {t : Theory} {claims : List Pattern} {proofs : List Proof}

theorem exists_patternCode_iff {ns : Notations} (hns : ns.Acyclic) {ps order : List Pattern}
    (horder : ∀ p ∈ order, p ∈ ps) :
    (∃ code, patternCode ns ps order = .ok code) ↔ ∀ p ∈ ps, ns.Unfoldable p := by
  constructor
  case mp =>
    rintro ⟨code, h⟩
    obtain ⟨u, hu, -⟩ := bind_eq_ok.mp h
    exact (ns.exists_countUses_iff hns).mp ⟨u, mapError_eq_ok.mp hu⟩
  case mpr =>
    intro h
    refine (failsOnly_patternCode (fun p hp => ?_) horder).exists_ok
    exact (ns.stuckOnly_unfolding_iff hns p).mpr (h p hp)

-- At this place, the proof concludes the claim, if there are both.
def AgreeAt (claims : List Pattern) (proofs : List Proof) (i : Nat) : Prop :=
  ∀ claim p, claims[i]? = some claim → proofs[i]? = some p → p.conclusion = claim

section Pairs

variable {claim : Pattern} {p : Proof} {i : Nat}

theorem agreeAt_zero : AgreeAt (claim :: claims) (p :: proofs) 0 ↔ p.conclusion = claim := by
  simp [AgreeAt]

theorem agreeAt_succ : AgreeAt (claim :: claims) (p :: proofs) (i + 1) ↔ AgreeAt claims proofs i := by
  simp [AgreeAt]

theorem paired_iff : proofs.map (·.conclusion) = claims ↔
    claims.length = proofs.length ∧ ∀ i, AgreeAt claims proofs i := by
  constructor
  case mp =>
    rintro rfl
    refine ⟨List.length_map .., fun i claim p hclaim hp => ?_⟩
    simpa [hp] using hclaim
  case mpr =>
    rintro ⟨hlength, hagree⟩
    refine List.ext_getElem (by simpa using hlength.symm) fun i hi hi' => ?_
    rw [List.getElem_map]
    exact hagree i _ _ (List.getElem?_eq_getElem hi') (List.getElem?_eq_getElem _)

-- The first place at which they do not agree is reported.
theorem checkPairs_mismatch (index : Nat) (hclaim : claims[i]? = some claim) (hp : proofs[i]? = some p)
    (hne : p.conclusion ≠ claim) (hbefore : ∀ j < i, AgreeAt claims proofs j) :
    checkPairs index claims proofs =
      .error (.conclusionMismatch (index + i) claim.text p.conclusion.text) := by
  induction i generalizing index claims proofs with
  | zero =>
    obtain ⟨rest, rfl⟩ := List.head?_eq_some_iff.mp (List.head?_eq_getElem?.trans hclaim)
    obtain ⟨rest', rfl⟩ := List.head?_eq_some_iff.mp (List.head?_eq_getElem?.trans hp)
    rw [checkPairs, if_neg hne, Nat.add_zero]
  | succ i ih =>
    cases claims with
    | nil => cases hclaim
    | cons c claims =>
      cases proofs with
      | nil => cases hp
      | cons q proofs =>
        have hq : q.conclusion = c := agreeAt_zero.mp (hbefore 0 (Nat.succ_pos i))
        rw [checkPairs, if_pos hq, ih (index + 1) hclaim hp fun j hj => agreeAt_succ.mp (hbefore (j + 1) (by omega))]
        rw [Nat.add_right_comm, Nat.add_assoc]

theorem checkPairs_unclaimed (index : Nat) (hagree : ∀ i, AgreeAt claims proofs i)
    (hlength : claims.length < proofs.length) :
    checkPairs index claims proofs = .error (.unclaimedProof (index + claims.length)) := by
  induction claims generalizing index proofs with
  | nil =>
    cases proofs with
    | nil => cases hlength
    | cons q proofs => rfl
  | cons c claims ih =>
    cases proofs with
    | nil => cases hlength
    | cons q proofs =>
      rw [checkPairs, if_pos (agreeAt_zero.mp (hagree 0)), ih (index + 1) (fun i => agreeAt_succ.mp (hagree (i + 1)))
        (Nat.lt_of_succ_lt_succ hlength), List.length_cons, Nat.add_right_comm, Nat.add_assoc]

theorem checkPairs_missing (index : Nat) (hagree : ∀ i, AgreeAt claims proofs i)
    (hlength : proofs.length < claims.length) :
    checkPairs index claims proofs =
      .error (.missingProofs (index + claims.length) (index + proofs.length)) := by
  induction proofs generalizing index claims with
  | nil =>
    cases claims with
    | nil => cases hlength
    | cons c claims => rfl
  | cons q proofs ih =>
    cases claims with
    | nil => cases hlength
    | cons c claims =>
      rw [checkPairs, if_pos (agreeAt_zero.mp (hagree 0)), ih (index + 1) (fun i => agreeAt_succ.mp (hagree (i + 1)))
        (Nat.lt_of_succ_lt_succ hlength), List.length_cons, List.length_cons]
      simp only [Nat.add_assoc, Nat.add_comm 1]

end Pairs

theorem write_of_unpaired {e : PackagingError} (h : checkPairs 0 claims proofs = .error e) :
    write t claims proofs = .error (.packaging e) := by
  rw [write, h]
  rfl

theorem presentable_iff {ns : Notations} (hns : ns.Acyclic) {axioms : List Pattern} :
    Presentable ns axioms claims proofs ↔ proofs.map (·.conclusion) = claims ∧
      ∀ q ∈ axioms ++ claims ++ proofs.flatMap (·.derivation.plugs), ns.Unfoldable q := by
  have htheory : (∃ code, patternCode ns axioms axioms = .ok code) ↔ ∀ q ∈ axioms, ns.Unfoldable q :=
    exists_patternCode_iff hns fun q hq => hq
  have hclaims : (∃ code, patternCode ns claims claims.reverse = .ok code) ↔ ∀ q ∈ claims, ns.Unfoldable q :=
    exists_patternCode_iff hns fun q hq => List.mem_reverse.mp hq
  have hcounted : (∃ uses, ns.countProofUses (proofs.map (·.derivation)) ∅ = .ok uses) ↔
      ∀ q ∈ proofs.flatMap (·.derivation.plugs), ns.Unfoldable q := by
    rw [ns.exists_countProofUses_iff hns]
    simp only [List.mem_map, List.mem_flatMap]
    grind
  simp only [List.forall_mem_append, ← htheory, ← hclaims, ← hcounted]
  constructor
  case mp => exact fun h => ⟨h.paired, ⟨h.theory, h.claims⟩, h.counted⟩
  case mpr =>
    rintro ⟨hpaired, ⟨htheory, hclaims⟩, hcounted⟩
    exact ⟨hpaired, htheory, hclaims, hcounted⟩

-- Without lemmas, there is nothing to look up but axioms.
theorem exists_vetAll_iff {axioms : List Pattern} :
    (∃ known, Derivation.vetAll axioms [] (proofs.map (·.derivation)) [] = some known) ↔
      ∀ p ∈ proofs, ∀ a ∈ p.assumptions, a ∈ axioms := by
  have hleaves : (∀ p ∈ proofs, ∀ a ∈ p.assumptions, a ∈ axioms) ↔
      ∀ d ∈ proofs.map (·.derivation), ∀ a ∈ d.leaves, a ∈ axioms := by
    simp [Proof.assumptions, Derivation.mem_assumptions]
  rw [hleaves]
  constructor
  case mp =>
    rintro ⟨known, h⟩
    exact Derivation.vetAll_nil h
  case mpr => exact fun h => Derivation.exists_vetAll h []

-- A certificate is written without lemmas exactly if claims and proofs pair up, nothing but axioms is assumed, and
-- all notations that are met can be expanded. Claims and proofs that do not pair up are reported in any case: the
-- first pair that does not agree, or else the first proof without a claim, or else how many proofs are missing.
theorem accepted_exactly {ns : Notations} (hns : ns.Acyclic) (axioms claims : List Pattern)
    (proofs : List Proof) :
    let answer := write ⟨ns, axioms, []⟩ claims proofs
    ((∃ c, answer = .ok c) ↔
      claims.length = proofs.length ∧ (∀ i, AgreeAt claims proofs i) ∧
      (∀ p ∈ proofs, ∀ a ∈ p.assumptions, a ∈ axioms) ∧
      ∀ q ∈ axioms ++ claims ++ proofs.flatMap (·.derivation.plugs), ns.Unfoldable q) ∧
    (∀ i claim p, claims[i]? = some claim → proofs[i]? = some p → p.conclusion ≠ claim →
      (∀ j < i, AgreeAt claims proofs j) →
      answer = .error (.packaging (.conclusionMismatch i claim.text p.conclusion.text))) ∧
    ((∀ i, AgreeAt claims proofs i) → claims.length < proofs.length →
      answer = .error (.packaging (.unclaimedProof claims.length))) ∧
    ((∀ i, AgreeAt claims proofs i) → proofs.length < claims.length →
      answer = .error (.packaging (.missingProofs claims.length proofs.length))) := by
  intro answer
  refine ⟨?_, fun i claim p hclaim hp hne hbefore => ?_, fun hagree hlength => ?_, fun hagree hlength => ?_⟩
  · have hwrite : (∃ c, answer = .ok c) ↔ Presentable ns axioms claims proofs ∧
        ∃ known, Derivation.vetAll axioms [] (proofs.map (·.derivation)) [] = some known :=
      exists_write_iff (t := ⟨ns, axioms, []⟩) hns
    rw [hwrite, presentable_iff hns, exists_vetAll_iff, paired_iff]
    grind
  · have herror := checkPairs_mismatch 0 hclaim hp hne hbefore
    rw [Nat.zero_add] at herror
    exact write_of_unpaired herror
  · have herror := checkPairs_unclaimed 0 hagree hlength
    rw [Nat.zero_add] at herror
    exact write_of_unpaired herror
  · have herror := checkPairs_missing 0 hagree hlength
    rw [Nat.zero_add, Nat.zero_add] at herror
    exact write_of_unpaired herror

-- A notation that stands only in a plug is met, and a proof too many is reported.
open Shortcut in
theorem accepted_exactly_plugged :
    let p := Proof.prop1.instantiate (.ofList [(0, .neg a)])
    Notations.builtin.Acyclic ∧ (∃ c, write ⟨.builtin, [], []⟩ [p.conclusion] [p] = .ok c) ∧
    Notations.builtin.Unfoldable (.neg a) ∧
    write ⟨.builtin, [], []⟩ [p.conclusion] [p, p] = .error (.packaging (.unclaimedProof 1)) := by
  intro p
  have hacyclic := Notations.grounded_builtin.acyclic
  have haccepted : ∃ c, write ⟨.builtin, [], []⟩ [p.conclusion] [p] = .ok c := isOk_iff.mp (by decide +kernel)
  have hagree (i : Nat) : AgreeAt [p.conclusion] [p, p] i := by
    cases i <;> simp [AgreeAt]
  obtain ⟨hiff, -⟩ := accepted_exactly hacyclic [] [p.conclusion] [p]
  obtain ⟨-, -, -, hunfoldable⟩ := hiff.mp haccepted
  obtain ⟨-, -, hunclaimed, -⟩ := accepted_exactly hacyclic [] [p.conclusion] [p, p]
  exact ⟨hacyclic, haccepted, hunfoldable _ (by decide +kernel), hunclaimed hagree (by decide)⟩

end Certificate
end MatchingLogic
