import MatchingLogic.Execution.Basic
import MatchingLogic.Proofs.Certificate.Packaging

namespace MatchingLogic

namespace Bundle

variable {b b' : Bundle} {p l r : Pattern} {proof : Proof}

-- Every claim is proved at its place, from the axioms of the bundle.
structure Discharged (b : Bundle) : Prop where
  conclusions : b.proofs.map (·.conclusion) = b.claims
  assumed : ∀ p ∈ b.proofs, ∀ a ∈ p.assumptions, a ∈ b.axioms
  nodup : b.axioms.Nodup

theorem discharged_empty : (∅ : Bundle).Discharged where
  conclusions := rfl
  assumed := nofun
  nodup := .nil

namespace Discharged

theorem assert (h : b.Discharged) (p : Pattern) : (b.assert p).Discharged := by
  constructor
  case conclusions => exact h.conclusions
  case assumed => exact fun q hq a ha => mem_addNew.mpr (.inl (h.assumed q hq a ha))
  case nodup => exact nodup_addNew h.nodup

theorem assertAll (h : b.Discharged) (ps : List Pattern) : (b.assertAll ps).Discharged := by
  induction ps generalizing b with
  | nil => exact h
  | cons p ps ih => exact ih (h.assert p)

theorem claim_prove (h : b.Discharged) (hp : proof.conclusion = p)
    (hassumed : ∀ a ∈ proof.assumptions, a ∈ b.axioms) : ((b.claim p).prove proof).Discharged where
  conclusions := by simp [prove, claim, h.conclusions, hp]
  assumed q hq := by
    obtain hq | hq := List.mem_append.mp hq
    · exact h.assumed q hq
    · exact List.mem_singleton.mp hq ▸ hassumed
  nodup := h.nodup

theorem certificate (h : b.Discharged) (ns : Notations) : Packs (b.certificate ns) :=
  Certificate.packs_write h.conclusions h.assumed

end Discharged

@[simp] theorem claims_assertAll (b : Bundle) (ps : List Pattern) : (b.assertAll ps).claims = b.claims := by
  induction ps generalizing b with
  | nil => rfl
  | cons p ps ih => exact ih _

-- A bundle grows by the instance of a rule that leads from `l` to `r`.
def Grows (b b' : Bundle) (l r : Pattern) : Prop :=
  ∃ rule s sort sides, rule.instantiate s = .transition sort l r ∧
    b' = (((b.assertAll sides).assert rule).claim (rule.instantiate s)).prove
      ((Proof.assumed rule).instantiate s)

theorem Discharged.grow (h : b.Discharged) (hg : b.Grows b' l r) : b'.Discharged := by
  obtain ⟨rule, s, sort, sides, -, rfl⟩ := hg
  refine ((h.assertAll sides).assert rule).claim_prove (Proof.conclusion_instantiate _ s) ?_
  intro a ha
  rw [Proof.assumptions_instantiate] at ha
  have h : a = rule := List.mem_singleton.mp (Derivation.mem_assumptions.mp ha)
  rw [h]
  exact mem_addNew.mpr (.inr rfl)

theorem Grows.claims (hg : b.Grows b' l r) : ∃ sort, b'.claims = b.claims ++ [.transition sort l r] := by
  obtain ⟨rule, s, sort, sides, hrule, rfl⟩ := hg
  exact ⟨sort, by simp [prove, claim, assert, hrule]⟩

end Bundle

theorem Pattern.transition?_eq_some {p left right : Pattern} (h : p.transition? = some (left, right)) :
    ∃ sort, p = .transition sort left right := by
  simp only [transition?] at h
  split at h
  case h_1 name sort l r =>
    split at h
    case isTrue hname =>
      cases h
      exact ⟨sort, by rw [hname, transition]⟩
    case isFalse => cases h
  case h_2 => cases h

namespace Execution

variable {σ : Type} {x x' : Execution σ} {rule : Axiom} {s : Substitution} {events : List Event}

theorem bundle_finalize (x : Execution σ) : x.finalize.2.bundle = x.bundle := by
  simp only [finalize]
  split_ifs <;> rfl

theorem successor_eq_ok {claim next : Pattern} (h : x.successor rule claim = .ok next) :
    ∃ sort, claim = .transition sort x.configuration next := by
  simp only [successor] at h
  split at h
  case h_1 left right hsides =>
    split at h
    case isTrue hleft =>
      cases h
      exact hleft ▸ Pattern.transition?_eq_some hsides
    case isFalse => cases h
  case h_2 => cases h

theorem checkTransition_eq_ok {claim next : Pattern} (h : x.checkTransition rule claim = .ok next) :
    ∃ sort, claim = .transition sort x.configuration next := by
  simp only [checkTransition] at h
  split_ifs at h
  exact successor_eq_ok (mapError_eq_ok.mp h)

-- A claim states the step from one configuration to another.
def States (claim : Pattern) (step : Pattern × Pattern) : Prop :=
  ∃ sort, claim = .transition sort step.1 step.2

structure Records (x : Execution σ) (steps : List (Pattern × Pattern)) : Prop where
  discharged : x.bundle.Discharged
  claims : List.Forall₂ States x.bundle.claims steps

theorem records_start (language : σ) (initial : Pattern) : (start language initial).Records [] :=
  ⟨Bundle.discharged_empty, .nil⟩

variable [Semantics σ]

-- What an operation that is a successful transition does to the bundle, and what any other does.
def Accounts (x x' : Execution σ) : (rewrites : Bool) → Prop
  | true => x.bundle.Grows x'.bundle x.configuration x'.configuration
  | false => x'.bundle = x.bundle

theorem accounts_transition (x : Execution σ) (rule : Axiom) (s : Substitution)
    (events : List Event) :
    x.Accounts (x.transition rule s events).2 (x.transition rule s events).1.isOk := by
  simp only [transition]
  split
  case h_1 => rfl
  case h_2 next hnext =>
    split
    case h_1 => rfl
    case h_2 groups _ =>
      have ⟨sort, hclaim⟩ := checkTransition_eq_ok hnext
      exact ⟨rule.pattern, s, sort, groups.patterns, hclaim, rfl⟩

theorem bundle_simplify (x : Execution σ) (ordinal : UInt64) (s : Substitution) (l : Location) :
    (x.simplify ordinal s l).2.bundle = x.bundle := by
  simp only [simplify]
  split
  case isTrue => rfl
  case isFalse =>
    split
    case h_1 => rfl
    case h_2 => split <;> rfl

inductive Action where
  | apply (step : Step)
  | rewrite (rule : Axiom) (s : Substitution)
  | simplify (ordinal : UInt64) (s : Substitution) (l : Location)
  | finalize

-- What an action leaves behind, whatever it answers.
def act (x : Execution σ) : Action → Execution σ
  | .apply step => (x.apply step).2
  | .rewrite rule s => (x.transition rule s []).2
  | .simplify ordinal s l => (x.simplify ordinal s l).2
  | .finalize => x.finalize.2

def run (x : Execution σ) (actions : List Action) : Execution σ :=
  actions.foldl act x

-- Is the action a transition, and does it succeed?
def rewrites (x : Execution σ) : Action → Bool
  | .apply step =>
    match (Semantics.rule step.ordinal x.language).1 with
    | .ok rule => rule.kind = .transition && (x.apply step).1.isOk
    | .error _ => false
  | .rewrite rule s => (x.transition rule s []).1.isOk
  | _ => false

-- The configurations before and after the action, if it is such a transition.
def rewritten (x : Execution σ) (a : Action) : List (Pattern × Pattern) :=
  if x.rewrites a then [(x.configuration, (x.act a).configuration)] else []

def history (x : Execution σ) : List Action → List (Pattern × Pattern)
  | [] => []
  | a :: actions => x.rewritten a ++ history (x.act a) actions

theorem accounts_apply (x : Execution σ) (step : Step) :
    x.Accounts (x.apply step).2 (x.rewrites (.apply step)) := by
  simp only [rewrites, apply]
  split
  case isTrue => split <;> simp [Except.isOk, Except.toBool, Accounts]
  case isFalse =>
    cases (Semantics.rule step.ordinal x.language).1 with
    | error e => rfl
    | ok rule =>
      simp only
      split
      case h_1 hk =>
        let asked : Execution σ := { x with language := (Semantics.rule step.ordinal x.language).2 }
        have h : asked.Accounts _ _ := asked.accounts_transition rule step.substitution step.events
        simp only [hk, decide_true, Bool.true_and]
        rcases ho : asked.transition rule step.substitution step.events with ⟨_ | proof, x'⟩
        all_goals
          rw [ho] at h
          exact h
      case h_2 hk _ => simpa [hk, Accounts] using bundle_simplify ..
      case h_3 hk _ => simp [hk, Accounts]
      case h_4 => simp [Accounts, Except.isOk, Except.toBool]

-- A transition that succeeds makes the bundle grow by its own step, and nothing else touches the bundle.
theorem accounts_act (x : Execution σ) (a : Action) : x.Accounts (x.act a) (x.rewrites a) := by
  cases a with
  | apply step => exact x.accounts_apply step
  | rewrite rule s => exact x.accounts_transition rule s []
  | simplify ordinal s l => exact x.bundle_simplify ordinal s l
  | finalize => exact x.bundle_finalize

theorem Records.act {steps : List (Pattern × Pattern)} (h : x.Records steps) (a : Action) :
    (x.act a).Records (steps ++ x.rewritten a) := by
  have hact := x.accounts_act a
  cases hr : x.rewrites a with
  | true =>
    rw [hr] at hact
    have ⟨sort, hclaims⟩ := hact.claims
    constructor
    case discharged => exact h.discharged.grow hact
    case claims =>
      rw [hclaims, rewritten, if_pos hr]
      exact List.rel_append h.claims (.cons ⟨sort, rfl⟩ .nil)
  | false =>
    rw [hr] at hact
    have hb : (x.act a).bundle = x.bundle := hact
    rw [rewritten, hr, if_neg Bool.false_ne_true, List.append_nil]
    exact ⟨hb ▸ h.discharged, hb ▸ h.claims⟩

theorem Records.run {steps : List (Pattern × Pattern)} (h : x.Records steps) (actions : List Action) :
    (x.run actions).Records (steps ++ x.history actions) := by
  induction actions generalizing x steps with
  | nil => rwa [history, List.append_nil]
  | cons a actions ih =>
    rw [history, ← List.append_assoc]
    exact ih (h.act a)

-- Whatever was tried, the bundle pairs a proof with each claim, and the claims are the steps made so far.
theorem bundle_run (language : σ) (initial : Pattern) (actions : List Action) :
    let x := start language initial
    let b := (x.run actions).bundle
    b.claims.length = b.proofs.length ∧
    (∀ i : Nat, b.proofs[i]?.map (·.conclusion) = b.claims[i]?) ∧
    (∀ p ∈ b.proofs, ∀ a ∈ p.assumptions, a ∈ b.axioms) ∧
    b.axioms.Nodup ∧
    List.Forall₂ States b.claims (x.history actions) ∧
    ∀ ns e, b.certificate ns ≠ .error (.packaging e) := by
  intro x b
  have ⟨h, hclaims⟩ := (records_start language initial).run actions
  refine ⟨?lengths, ?conclusions, h.assumed, h.nodup, hclaims, h.certificate⟩
  case lengths => rw [← h.conclusions, List.length_map]
  case conclusions => exact fun i => by rw [← h.conclusions, List.getElem?_map]

end Execution
end MatchingLogic
