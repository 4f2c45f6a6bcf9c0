import MatchingLogic.Proofs.Execution.InPlace
import MatchingLogic.Proofs.Execution.Obligations

namespace MatchingLogic

namespace Simplification

variable {s s' : Simplification} {v : Pattern}

-- What a simplification is like between two events.
structure Idle (s : Simplification) : Prop where
  closed : s.inScope = false
  waiting : ∀ f ∈ s.frames, 1 ≤ f.remaining
  shown : ∃ v, s.Shows v

theorem idle_of_frames_nil (hs : s.inScope = false) (hf : s.frames = []) : s.Idle where
  closed := hs
  waiting := by simp [hf]
  shown := ⟨_, shows_of_frames_nil hf⟩

section Drain

variable {configuration : Pattern} {top : Frame} {below : List Frame} {b : Bool}

-- How a drain proceeds while every frame below the top waits for a redex.
inductive Drains (configuration : Pattern) : Frame → List Frame → List Frame → Pattern → Prop
  | waits {top : Frame} {below : List Frame} (htop : top.remaining ≠ 0) :
    Drains configuration top below (top :: below) configuration
  | ends {top : Frame} {p : Pattern} (htop : top.remaining = 0)
    (hat : configuration.at? top.location = some top.initial)
    (hp : configuration.replaceAt? top.location top.result = some p) : Drains configuration top [] [] p
  | merges {top parent : Frame} {below frames : List Frame} {p q : Pattern} {n : Nat}
    (htop : top.remaining = 0) (hat : parent.result.at? top.location = some top.initial)
    (hp : parent.result.replaceAt? top.location top.result = some p) (hn : parent.remaining = n + 1)
    (hrest : Drains configuration { parent with result := p, remaining := n } below frames q) :
    Drains configuration top (parent :: below) frames q

-- The frames below the top take one redex less each time, so no count runs out before it is looked at.
theorem drains_drain (hs : Shows ⟨configuration, top :: below, b⟩ v) (hb : ∀ f ∈ below, 1 ≤ f.remaining) :
    (drain configuration top below).1 = .ok () ∧
      Drains configuration top below (drain configuration top below).2.1
        (drain configuration top below).2.2 := by
  induction below generalizing top with
  | nil =>
    obtain ⟨q, hq⟩ := hs.exists_replaceAt?
    simp only [drain]
    split
    case isTrue htop => exact ⟨rfl, .waits htop⟩
    case isFalse htop =>
      simp only [splice, show configuration.replaceAt? top.location top.result = some q from hq]
      exact ⟨trivial, .ends (not_not.mp htop) hs.at?_top hq⟩
  | cons parent below ih =>
    obtain ⟨q, hq⟩ := hs.exists_replaceAt?
    have hat := hs.at?_top
    rw [List.reverse_cons, Frame.ground_concat] at hq hat
    have hparent := hb parent (by simp)
    simp only [drain]
    split
    case isTrue htop => exact ⟨rfl, .waits htop⟩
    case isFalse htop =>
      simp only [splice, hq]
      split
      case h_1 hzero => simp [hzero] at hparent
      case h_2 n hn =>
        let merged : Frame := { parent with result := q, remaining := n }
        have hmerged : Shows ⟨configuration, merged :: below, b⟩ v := hs.merge rfl rfl hq
        obtain ⟨hok, hrest⟩ := ih hmerged fun f hf => hb f (by simp [hf])
        exact ⟨hok, .merges (not_not.mp htop) hat hq hn hrest⟩

theorem Drains.waiting {frames : List Frame} {p : Pattern} (h : Drains configuration top below frames p)
    (hb : ∀ f ∈ below, 1 ≤ f.remaining) : ∀ f ∈ frames, 1 ≤ f.remaining := by
  induction h with
  | waits htop => exact List.forall_mem_cons.mpr ⟨Nat.one_le_iff_ne_zero.mpr htop, hb⟩
  | ends => simp
  | merges _ _ _ _ _ ih => exact ih (List.forall_mem_cons.mp hb).2

end Drain

theorem exit_of_waiting (h : ∀ f ∈ s.frames, 1 ≤ f.remaining) :
    s.exit = (.ok (), { s with inScope := false }) := by
  simp only [exit]
  split
  case h_1 => rfl
  case h_2 top below hf =>
    have htop : top.remaining ≠ 0 := Nat.ne_of_gt (h top (by simp [hf]))
    cases below <;> simp [drain, htop, hf]

theorem exit_of_waiting_below {top : Frame} {below : List Frame} (hs : s.Shows v)
    (hf : s.frames = top :: below) (hb : ∀ f ∈ below, 1 ≤ f.remaining) :
    s.exit.1 = .ok () ∧ s.exit.2.Idle := by
  have hshows : Shows ⟨s.configuration, top :: below, s.inScope⟩ v := by rwa [← hf]
  have ⟨hok, hdrains⟩ := drains_drain hshows hb
  have hexit := hs.exit
  simp only [exit, hf] at hexit ⊢
  exact ⟨hok, rfl, hdrains.waiting hb, v, hexit⟩

theorem Idle.enter (hs : s.Idle) : s.enter = .ok { s with inScope := true } := by
  simp [Simplification.enter, hs.closed]

section Calls

variable {σ : Type} [Semantics σ] {language language' : σ} {ordinal : UInt64} {subst : Substitution}
  {l : Location} {called : Except Error Frame} {opened : Simplification}

-- One call in a scope of its own, with the drain that closes it.
theorem Idle.exit_call (hs : s.Idle)
    (h : { s with inScope := true }.call language ordinal subst l = (called, opened, language')) :
    opened.exit.1 = .ok () ∧ opened.exit.2.Idle ∧ ∀ e, called = .error e → opened.exit.2 = s := by
  have ⟨v, hv⟩ := hs.shown
  cases called with
  | error e =>
    cases call_eq_error h
    have hback : { s with inScope := false } = s := by rw [← hs.closed]
    rw [exit_of_waiting (s := { s with inScope := true }) hs.waiting, hback]
    exact ⟨rfl, hs, fun _ _ => rfl⟩
  | ok f =>
    have ⟨v', _, hshows⟩ := (hv.scope true).call h
    obtain ⟨rfl, -⟩ := call_eq_ok h
    have ⟨hok, hidle⟩ := exit_of_waiting_below hshows rfl hs.waiting
    exact ⟨hok, hidle, fun e he => nomatch he⟩

end Calls

end Simplification

namespace Execution

variable {σ : Type} {α β : Type} {x x' : Execution σ}

-- What an operation that answers `r` leaves behind. If it fails, only the language may have changed.
structure Atomic (x : Execution σ) (r : Outcome (Execution σ) α) : Prop where
  idle : r.2.simplification.Idle
  undone : ∀ e, r.1 = .error e → r.2 = { x with language := r.2.language }

theorem atomic_error (hx : x.simplification.Idle) (e : Error) (language : σ) :
    x.Atomic (α := α) (.error e, { x with language }) :=
  ⟨hx, fun _ _ => rfl⟩

theorem Atomic.map {r : Outcome (Execution σ) α} (h : x.Atomic r) (f : α → β) :
    x.Atomic (r.1.map f, r.2) where
  idle := h.idle
  undone e he := by
    cases hr : r.1 with
    | error e' => exact h.undone e' hr
    | ok a => simp [hr, Except.map] at he

-- Asking the language first makes no difference.
theorem Atomic.asked (language : σ) {r : Outcome (Execution σ) α}
    (h : { x with language }.Atomic r) : x.Atomic r :=
  ⟨h.idle, h.undone⟩

theorem atomic_finalize (hx : x.simplification.Idle) : x.Atomic x.finalize := by
  simp only [finalize]
  split
  case isTrue => exact atomic_error hx _ x.language
  case isFalse =>
    split
    case isTrue => exact atomic_error hx _ x.language
    case isFalse => exact ⟨hx, fun _ he => by cases he⟩

theorem finalized_of_finalize (h : x.finalize = (.ok (), x')) : x'.finalized = true := by
  simp only [finalize] at h
  split_ifs at h <;> cases h
  rfl

theorem frames_of_checkTransition {rule : Axiom} {claim next : Pattern}
    (h : x.checkTransition rule claim = .ok next) : x.simplification.frames = [] := by
  simp only [checkTransition] at h
  split_ifs at h with _ _ hframes
  exact not_not.mp hframes

variable [Semantics σ]

theorem atomic_transition (x : Execution σ) (hx : x.simplification.Idle) (rule : Axiom)
    (s : Substitution) (events : List Event) : x.Atomic (x.transition rule s events) := by
  simp only [transition]
  split
  case h_1 => exact atomic_error hx _ x.language
  case h_2 next hnext =>
    split
    case h_1 => exact atomic_error hx _ _
    case h_2 =>
      have hframes := frames_of_checkTransition hnext
      exact ⟨Simplification.idle_of_frames_nil hx.closed hframes, fun _ he => by cases he⟩

theorem atomic_simplify (x : Execution σ) (hx : x.simplification.Idle) (ordinal : UInt64)
    (s : Substitution) (l : Location) : x.Atomic (x.simplify ordinal s l) := by
  simp only [simplify, hx.enter]
  split
  case isTrue => exact atomic_error hx _ x.language
  case isFalse =>
    rcases hc : { x.simplification with inScope := true }.call x.language ordinal s l with
      ⟨called, opened, language⟩
    obtain ⟨hok, hidle, hundone⟩ := hx.exit_call hc
    simp only [hc, hok]
    cases called with
    | error e => exact ⟨hidle, fun _ _ => by simp [hundone e rfl]⟩
    | ok f => exact ⟨hidle, fun _ he => by cases he⟩

theorem atomic_apply (hx : x.simplification.Idle) (step : Step) : x.Atomic (x.apply step) := by
  simp only [apply]
  split
  case isTrue => exact atomic_error hx _ x.language
  case isFalse =>
    generalize (Semantics.rule step.ordinal x.language).2 = language
    let asked : Execution σ := { x with language }
    split
    case h_1 => exact atomic_error hx _ _
    case h_2 rule _ =>
      split
      case h_1 => exact .asked language ((asked.atomic_transition hx rule _ _).map _)
      case h_2 => exact .asked language (asked.atomic_simplify hx _ _ _)
      case h_3 => exact atomic_error hx _ _
      case h_4 => exact atomic_error hx _ _

-- What an action answers.
def answer (x : Execution σ) : Action → Except Error Unit
  | .apply step => (x.apply step).1
  | .rewrite rule s => (x.transition rule s []).1.map fun _ => ()
  | .simplify ordinal s l => (x.simplify ordinal s l).1
  | .finalize => x.finalize.1

theorem atomic_act (hx : x.simplification.Idle) (a : Action) : x.Atomic (x.answer a, x.act a) := by
  cases a with
  | apply step => exact atomic_apply hx step
  | rewrite rule s => exact (atomic_transition x hx rule s []).map _
  | simplify ordinal s l => exact atomic_simplify x hx ordinal s l
  | finalize => exact atomic_finalize hx

theorem idle_run (hx : x.simplification.Idle) (actions : List Action) :
    (x.run actions).simplification.Idle := by
  induction actions generalizing x with
  | nil => exact hx
  | cons a actions ih => exact ih (atomic_act hx a).idle

theorem answer_of_finalized (hx : x.finalized = true) (a : Action) :
    x.answer a = .error (.scope .finalized) ∧ x.act a = x := by
  cases a <;> simp [answer, act, apply, transition, checkTransition, simplify, finalize, hx, Except.map]

theorem run_of_finalized (hx : x.finalized = true) (actions : List Action) : x.run actions = x := by
  induction actions with
  | nil => rfl
  | cons a actions ih =>
    have ⟨_, hact⟩ := answer_of_finalized hx a
    rw [run, List.foldl_cons, hact]
    exact ih

-- Whatever was tried before: a drain succeeds, an event that fails has changed nothing, and after the end
-- nothing happens any more.
theorem atomic_run (language : σ) (initial : Pattern) (actions : List Action) :
    let x := (start language initial).run actions
    x.simplification.inScope = false ∧
    (∀ f ∈ x.simplification.frames, 1 ≤ f.remaining) ∧
    (∃ opened, x.simplification.enter = .ok opened ∧
      ∀ (language' : σ) ordinal s l, (opened.call language' ordinal s l).2.1.exit.1 = .ok ()) ∧
    (∀ a e, x.answer a = .error e → x.act a = { x with language := (x.act a).language }) ∧
    ∀ x', x.finalize = (.ok (), x') → ∀ later a,
      x'.run later = x' ∧ x'.answer a = .error (.scope .finalized) ∧ x'.act a = x' := by
  intro x
  have hstart : (start language initial).simplification.Idle :=
    Simplification.idle_of_frames_nil rfl rfl
  have hx : x.simplification.Idle := idle_run hstart actions
  refine ⟨hx.closed, hx.waiting, ⟨_, hx.enter, fun language' ordinal s l => ?drained⟩, ?undone, ?ended⟩
  case drained => exact (hx.exit_call rfl).left
  case undone => exact fun a e h => (atomic_act hx a).undone e h
  case ended =>
    intro x' h later a
    have hx' := finalized_of_finalize h
    exact ⟨run_of_finalized hx' later, answer_of_finalized hx' a⟩

end Execution
end MatchingLogic
