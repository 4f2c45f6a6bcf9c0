import MatchingLogic.Execution.Simplification
import MatchingLogic.Proofs.Pattern.Location
import MatchingLogic.Proofs.Success

namespace MatchingLogic

variable {p v : Pattern} {f : Frame} {fs : List Frame} {l : Location}

namespace Frame

-- The results of the frames, bottom first, in place in each other and in `p`.
def splices (p : Pattern) : List Frame → Option Pattern
  | [] => some p
  | f :: above => splices f.result above >>= fun r => p.replaceAt? f.location r

-- Each frame stands where its initial term is, in `p` or in the result of the frame below it.
def Stacked (p : Pattern) : List Frame → Prop
  | [] => True
  | f :: above => p.at? f.location = some f.initial ∧ Stacked f.result above

-- What the next frame stands in.
def ground (p : Pattern) (fs : List Frame) : Pattern :=
  fs.getLast?.elim p (·.result)

def path (fs : List Frame) : Location :=
  fs.flatMap (·.location)

theorem ground_cons (p : Pattern) (f : Frame) (fs : List Frame) :
    ground p (f :: fs) = ground f.result fs := by
  rw [ground, ground, List.getLast?_cons]
  cases fs.getLast? <;> rfl

theorem ground_concat (p : Pattern) (fs : List Frame) (f : Frame) : ground p (fs ++ [f]) = f.result := by
  simp [ground]

theorem stacked_concat :
    Stacked p (fs ++ [f]) ↔ Stacked p fs ∧ (ground p fs).at? f.location = some f.initial := by
  induction fs generalizing p with
  | nil => simp [Stacked, ground]
  | cons g fs ih => simp [Stacked, ih, ground_cons, and_assoc]

theorem Stacked.exists_splices (h : Stacked p fs) : ∃ v, splices p fs = some v := by
  induction fs generalizing p with
  | nil => exact ⟨p, rfl⟩
  | cons f fs ih =>
    have ⟨r, hr⟩ := ih h.right
    have ⟨v, hv⟩ := Pattern.exists_replaceAt? h.left r
    exact ⟨v, by simp [splices, hr, hv]⟩

-- Only the pattern in which the upper frames stand matters to them.
theorem splices_append_congr {gs gs' : List Frame} (h : ∀ p, splices p gs = splices p gs') :
    splices p (fs ++ gs) = splices p (fs ++ gs') := by
  induction fs generalizing p with
  | nil => exact h p
  | cons f fs ih => simp only [List.cons_append, splices, ih]

-- A frame on top replaces at the joined locations in what the frames below it stand for.
theorem Stacked.splices_concat (h : Stacked p fs) :
    splices p (fs ++ [f]) = splices p fs >>= fun v => v.replaceAt? (path fs ++ f.location) f.result := by
  induction fs generalizing p with
  | nil => rfl
  | cons g fs ih =>
    have ⟨w, hw⟩ := h.right.exists_splices
    have ⟨v, hv⟩ := Pattern.exists_replaceAt? h.left w
    have inner : splices g.result (fs ++ [f]) = w.replaceAt? (path fs ++ f.location) f.result := by
      simp [ih h.right, hw]
    calc splices p (g :: (fs ++ [f]))
      _ = w.replaceAt? (path fs ++ f.location) f.result >>= fun r => p.replaceAt? g.location r := by
        simp only [splices, inner]
      _ = w.replaceAt? (path fs ++ f.location) f.result >>= fun r => v.replaceAt? g.location r := by
        simp only [Pattern.replaceAt?_of_replaceAt? hv]
      _ = v.replaceAt? (g.location ++ (path fs ++ f.location)) f.result := by
        simp [Pattern.replaceAt?_append v g.location, Pattern.at?_of_replaceAt? hv]
      _ = splices p (g :: fs) >>= fun v => v.replaceAt? (path (g :: fs) ++ f.location) f.result := by
        simp [splices, hw, hv, path]

-- The top frame merges into the frame below it, which keeps its place.
theorem splices_merge {parent parent' top : Frame} (hl : parent'.location = parent.location)
    (h : parent.result.replaceAt? top.location top.result = some parent'.result) :
    splices p (fs ++ [parent, top]) = splices p (fs ++ [parent']) :=
  splices_append_congr fun p => by simp [splices, h, hl]

end Frame

namespace Simplification

open MatchingLogic.Frame

variable {s s' : Simplification}

def view (s : Simplification) : Option Pattern :=
  splices s.configuration s.frames.reverse

def Stacked (s : Simplification) : Prop :=
  Frame.Stacked s.configuration s.frames.reverse

-- Where the top frame stands in the view.
def path (s : Simplification) : Location :=
  Frame.path s.frames.reverse

structure Shows (s : Simplification) (v : Pattern) : Prop where
  stacked : s.Stacked
  view_eq : s.view = some v

theorem root_eq_ground (s : Simplification) : s.root = ground s.configuration s.frames.reverse := by
  simp [root, ground]

theorem shows_of_frames_nil (h : s.frames = []) : s.Shows s.configuration := by
  constructor
  case stacked => simp [Stacked, h, Frame.Stacked]
  case view_eq => simp [view, h, splices]

theorem Shows.configuration_eq (hs : s.Shows v) (h : s.frames = []) : s.configuration = v :=
  Option.some.inj <| (shows_of_frames_nil h).view_eq.symm.trans hs.view_eq

-- Whether a scope is open is nothing to the view.
theorem Shows.scope (hs : s.Shows v) (b : Bool) : { s with inScope := b }.Shows v :=
  ⟨hs.stacked, hs.view_eq⟩

theorem Shows.enter (hs : s.Shows v) (h : s.enter = .ok s') : s'.Shows v := by
  simp only [Simplification.enter] at h
  split at h
  case isTrue => cases h
  case isFalse => cases h; exact hs.scope true

theorem shows_update (h : s.update p = .ok s') : s'.Shows p := by
  simp only [update] at h
  split at h
  case isTrue => cases h
  case isFalse =>
    split at h
    case isTrue => cases h
    case isFalse hf =>
      cases h
      exact shows_of_frames_nil (s := { s with configuration := p }) (not_not.mp hf)

section Drain

variable {configuration : Pattern} {top parent parent' : Frame} {below : List Frame} {b : Bool}

theorem Shows.at?_top (hs : Shows ⟨configuration, top :: below, b⟩ v) :
    (ground configuration below.reverse).at? top.location = some top.initial := by
  have h := hs.stacked
  simp only [Stacked, List.reverse_cons, stacked_concat] at h
  exact h.right

theorem Shows.exists_replaceAt? (hs : Shows ⟨configuration, top :: below, b⟩ v) :
    ∃ q, (ground configuration below.reverse).replaceAt? top.location top.result = some q :=
  Pattern.exists_replaceAt? hs.at?_top top.result

theorem Shows.merge (hs : Shows ⟨configuration, top :: parent :: below, b⟩ v)
    (hl : parent'.location = parent.location) (hi : parent'.initial = parent.initial)
    (hr : parent.result.replaceAt? top.location top.result = some parent'.result) :
    Shows ⟨configuration, parent' :: below, b⟩ v := by
  constructor
  case stacked =>
    have h := hs.stacked
    simp only [Stacked, List.reverse_cons, stacked_concat] at h ⊢
    exact ⟨h.left.left, by rw [hl, hi]; exact h.left.right⟩
  case view_eq =>
    have h := hs.view_eq
    simp only [view, List.reverse_cons, List.append_assoc, List.singleton_append] at h ⊢
    rw [← splices_merge hl hr, h]

-- The location of a stacked frame resolves, so no splice fails, and what a drain does before it ends is to
-- move results down. This is so also when it ends with an error.
theorem Shows.drain (hs : Shows ⟨configuration, top :: below, b⟩ v) :
    Shows ⟨(drain configuration top below).2.2, (drain configuration top below).2.1, b⟩ v := by
  induction below generalizing top with
  | nil =>
    have ⟨q, hq⟩ := hs.exists_replaceAt?
    have hv : some q = some v := hq.symm.trans hs.view_eq
    simp only [Simplification.drain]
    split
    case isTrue => exact hs
    case isFalse =>
      simp only [splice, show configuration.replaceAt? top.location top.result = some q from hq]
      exact Option.some.inj hv ▸ shows_of_frames_nil rfl
  | cons parent below ih =>
    have ⟨q, hq⟩ := hs.exists_replaceAt?
    rw [List.reverse_cons, ground_concat] at hq
    simp only [Simplification.drain]
    split
    case isTrue => exact hs
    case isFalse =>
      simp only [splice, hq]
      split
      case h_1 => exact hs.merge rfl rfl hq
      case h_2 n _ => exact ih (hs.merge rfl rfl hq)

end Drain

theorem Shows.exit (hs : s.Shows v) : s.exit.2.Shows v := by
  simp only [Simplification.exit]
  split
  case h_1 => exact hs.scope false
  case h_2 top below hf =>
    have : Shows { s with frames := top :: below } v := by rwa [← hf]
    exact this.drain.scope false

section Calls

variable {σ : Type} [Semantics σ] {language language' : σ} {ordinal : UInt64} {subst : Substitution}

theorem target_eq_ok (h : s.target l = .ok p) : s.root.at? l = some p := by
  simp only [target] at h
  split at h
  case isTrue =>
    split at h
    case h_1 hp => cases h; exact hp
    case h_2 => cases h
  case isFalse => cases h

theorem simplified_eq_ok {rule : Axiom} (h : rule.simplified ordinal subst = .ok p) :
    rule.kind = .equation ∧ ∃ left right, rule.sides? = some (left, right) ∧
      p = (right.instantiate rule.requires).instantiate subst := by
  simp only [Axiom.simplified] at h
  split at h
  case isTrue hk =>
    split at h
    case h_1 left right hsides => cases h; exact ⟨hk, left, right, hsides, rfl⟩
    case h_2 => cases h
  case isFalse => cases h

-- A call that fails leaves the stack as it was.
theorem call_eq_error {e : Error} (h : s.call language ordinal subst l = (.error e, s', language')) :
    s' = s := by
  simp only [call] at h
  split at h
  case h_1 => cases h; rfl
  case h_2 =>
    split at h
    case h_1 => cases h; rfl
    case h_2 => cases h

theorem call_eq_ok (h : s.call language ordinal subst l = (.ok f, s', language')) :
    s' = { s with frames := f :: s.frames } ∧ f.location = l ∧ s.root.at? l = some f.initial ∧
      ∃ rule left right, (Semantics.rule ordinal language).1 = .ok rule ∧ rule.kind = .equation ∧
        rule.sides? = some (left, right) ∧
        f.result = (right.instantiate rule.requires).instantiate subst := by
  simp only [call] at h
  split at h
  case h_1 => cases h
  case h_2 initial hinitial =>
    split at h
    case h_1 => cases h
    case h_2 result hresult =>
      cases h
      have ⟨rule, hrule, hsimplified⟩ := bind_eq_ok.mp hresult
      have ⟨hk, left, right, hsides, hr⟩ := simplified_eq_ok (mapError_eq_ok.mp hsimplified)
      exact ⟨rfl, rfl, target_eq_ok hinitial, rule, left, right, hrule, hk, hsides, hr⟩

theorem Shows.call (hs : s.Shows v) (h : s.call language ordinal subst l = (.ok f, s', language')) :
    ∃ v', v.replaceAt? (s.path ++ l) f.result = some v' ∧ s'.Shows v' := by
  obtain ⟨rfl, rfl, hat, _⟩ := call_eq_ok h
  have stacked : Frame.Stacked s.configuration (s.frames.reverse ++ [f]) :=
    stacked_concat.mpr ⟨hs.stacked, root_eq_ground s ▸ hat⟩
  have ⟨v', hv'⟩ := stacked.exists_splices
  have replaced : splices s.configuration s.frames.reverse = some v := hs.view_eq
  refine ⟨v', ?replace, ?stacked, ?view⟩
  case replace => simpa [path, hs.stacked.splices_concat, replaced] using hv'
  case stacked => simpa [Stacked] using stacked
  case view => simpa [view] using hv'

inductive Action where
  | enter
  | call (ordinal : UInt64) (subst : Substitution) (l : Location)
  | exit
  -- A scope that is given up is closed as well; nobody hears of a failure.
  | drop
  | update (p : Pattern)

-- What an action leaves behind, whatever it answers.
def act : Simplification × σ → Action → Simplification × σ
  | (s, language), .enter => (s.enter.toOption.getD s, language)
  | (s, language), .call ordinal subst l => (s.call language ordinal subst l).2
  | (s, language), .exit | (s, language), .drop => (s.exit.2, language)
  | (s, language), .update p => ((s.update p).toOption.getD s, language)

def run (x : Simplification × σ) (actions : List Action) : Simplification × σ :=
  actions.foldl act x

-- The same action on a pattern `v` that is rewritten in place. A call that succeeds replaces once.
def Action.inPlace (x : Simplification × σ) (v : Pattern) : Action → Option Pattern
  | .call ordinal subst l =>
    match (x.1.call x.2 ordinal subst l).1 with
    | .ok f => v.replaceAt? (x.1.path ++ l) f.result
    | .error _ => some v
  | .update p =>
    match x.1.update p with
    | .ok _ => some p
    | .error _ => some v
  | _ => some v

def inPlace (x : Simplification × σ) (v : Pattern) : List Action → Option Pattern
  | [] => some v
  | a :: actions => a.inPlace x v >>= fun v' => inPlace (act x a) v' actions

theorem Shows.act {x : Simplification × σ} (hs : x.1.Shows v) (a : Action) :
    ∃ v', a.inPlace x v = some v' ∧ (act x a).1.Shows v' := by
  obtain ⟨s, language⟩ := x
  cases a with
  | enter =>
    refine ⟨v, rfl, ?_⟩
    cases h : s.enter with
    | ok s' => simpa [Simplification.act, h, Except.toOption] using hs.enter h
    | error => simpa [Simplification.act, h, Except.toOption] using hs
  | call ordinal subst l =>
    rcases h : s.call language ordinal subst l with ⟨_ | f, s', language'⟩
    case error =>
      refine ⟨v, by simp [Action.inPlace, h], ?_⟩
      simpa [Simplification.act, h, call_eq_error h] using hs
    case ok =>
      obtain ⟨v', hv', hs'⟩ := hs.call h
      exact ⟨v', by simpa [Action.inPlace, h] using hv', by simpa [Simplification.act, h] using hs'⟩
  | exit | drop => exact ⟨v, rfl, hs.exit⟩
  | update p =>
    cases h : s.update p with
    | ok s' =>
      refine ⟨p, by simp [Action.inPlace, h], ?_⟩
      simpa [Simplification.act, h, Except.toOption] using shows_update h
    | error =>
      refine ⟨v, by simp [Action.inPlace, h], ?_⟩
      simpa [Simplification.act, h, Except.toOption] using hs

theorem Shows.run {x : Simplification × σ} (hs : x.1.Shows v) (actions : List Action) :
    ∃ v', inPlace x v actions = some v' ∧ (run x actions).1.Shows v' := by
  induction actions generalizing x v with
  | nil => exact ⟨v, rfl, hs⟩
  | cons a actions ih =>
    have ⟨v₁, h₁, hs₁⟩ := hs.act a
    have ⟨v₂, h₂, hs₂⟩ := ih hs₁
    exact ⟨v₂, by simp [inPlace, h₁, h₂], hs₂⟩

-- The stack refines rewriting in place: after every run it stands for what the run makes of the initial
-- configuration in place. Once the stack is empty, this is the configuration itself.
theorem view_run (language : σ) (initial : Pattern) (actions : List Action) :
    let start : Simplification × σ := ({ configuration := initial }, language)
    let (s, language') := run start actions
    ∃ v, s.view = some v ∧ inPlace start initial actions = some v ∧ s.Stacked ∧
      s.exit.2.view = some v ∧
      (∀ ordinal subst l f s' language'', s.call language' ordinal subst l = (.ok f, s', language'') →
        (∃ rule left right, (Semantics.rule ordinal language').1 = .ok rule ∧
          rule.kind = .equation ∧ rule.sides? = some (left, right) ∧
          f.result = (right.instantiate rule.requires).instantiate subst) ∧
        ∃ v', v.replaceAt? (s.path ++ l) f.result = some v' ∧ s'.view = some v') ∧
      (s.frames = [] → s.configuration = v) := by
  intro start
  have hs : start.1.Shows initial := shows_of_frames_nil rfl
  have ⟨v, hv, hs⟩ := hs.run actions
  refine ⟨v, hs.view_eq, hv, hs.stacked, hs.exit.view_eq, ?call, hs.configuration_eq⟩
  intro ordinal subst l f s' language'' h
  have ⟨_, _, _, hrule⟩ := call_eq_ok h
  have ⟨v', hv', hs'⟩ := hs.call h
  exact ⟨hrule, v', hv', hs'.view_eq⟩

end Calls

end Simplification
end MatchingLogic
