import MatchingLogic.Proofs.Execution.Licensing

namespace MatchingLogic

variable {σ : Type} [Semantics σ] {l : σ} {Good Inner : Pattern → Prop}

-- Replacing a pattern of `Inner` in one of `Good` takes one redex away and adds those of its replacement.
structure Semantics.Additive (l : σ) (Good Inner : Pattern → Prop) : Prop where
  splice : ∀ {p q r p' location}, Good p → Good r → Inner q → p.at? location = some q →
    p.replaceAt? location r = some p' →
    Good p' ∧ Semantics.redexes l p' + 1 = Semantics.redexes l p + Semantics.redexes l r
  sides : ∀ s events, (Semantics.sideAxioms s events l).2 = l

open Semantics (Additive)

-- Under `s` the axiom leads to patterns of `Good`, be it as a transition or as an equation.
structure Axiom.Yields (Good : Pattern → Prop) (rule : Axiom) (s : Substitution) : Prop where
  transition : ∀ {sort left right}, rule.pattern.instantiate s = .transition sort left right → Good right
  equation : ∀ {left right}, rule.sides? = some (left, right) →
    Good ((right.instantiate rule.requires).instantiate s)

-- The language knows the axiom already, and it leads to patterns of `Good`.
structure Semantics.Prepared (l : σ) (Good : Pattern → Prop) (ordinal : UInt64) (s : Substitution) :
    Prop where
  kept : (Semantics.rule ordinal l).2 = l
  yields : ∀ rule, (Semantics.rule ordinal l).1 = .ok rule → rule.Yields Good s

-- A frame that was opened at a pattern of `Inner` and counts the redexes of its result.
structure Frame.Exact (l : σ) (Good Inner : Pattern → Prop) (f : Frame) : Prop where
  result : Good f.result
  initial : Inner f.initial
  remaining : f.remaining = Semantics.redexes l f.result

theorem Frame.dropWhile_exact {fs : List Frame} (h : ∀ f ∈ fs, f.Exact l Good Inner) :
    fs.dropWhile (·.remaining = 1) = fs.dropWhile (Semantics.redexes l ·.result = 1) := by
  induction fs with
  | nil => rfl
  | cons f fs ih =>
    obtain ⟨hf, hfs⟩ := List.forall_mem_cons.mp h
    simp only [List.dropWhile_cons, hf.remaining, ih hfs]

namespace Simplification

variable {s opened : Simplification} {v p configuration : Pattern} {f top : Frame} {below frames : List Frame}

-- The frames that are put in place are those for which the next redex is the last one.
theorem Drains.length_frames (h : Drains configuration top below frames p) : frames.length =
    if top.remaining = 0 then (below.dropWhile (·.remaining = 1)).length else below.length + 1 := by
  induction h with
  | waits htop => simp [htop]
  | ends htop => simp [htop]
  | @merges top parent below _ _ _ n htop _ _ hn _ ih =>
    rw [ih, if_pos htop]
    cases n <;> simp [hn]

theorem Drains.length_frames_exact (h : Drains configuration top below frames p)
    (htop : top.Exact l Good Inner) (hbelow : ∀ f ∈ below, f.Exact l Good Inner) : frames.length =
    if Semantics.redexes l top.result = 0 then (below.dropWhile (Semantics.redexes l ·.result = 1)).length
    else below.length + 1 := by
  rw [h.length_frames, htop.remaining, Frame.dropWhile_exact hbelow]

-- What a simplification makes of a configuration: nothing as long as a frame waits, and in the end one redex
-- less.
structure Settled (l : σ) (Good Inner : Pattern → Prop) (configuration : Pattern) (frames : List Frame)
    (p : Pattern) : Prop where
  counted : ∀ f ∈ frames, f.Exact l Good Inner
  pending : frames ≠ [] → p = configuration
  done : frames = [] → Good configuration →
    Good p ∧ Semantics.redexes l p + 1 = Semantics.redexes l configuration

theorem Drains.settled (h : Drains configuration top below frames p) (hl : Additive l Good Inner)
    (htop : top.Exact l Good Inner) (hbelow : ∀ f ∈ below, f.Exact l Good Inner) :
    Settled l Good Inner configuration frames p := by
  have hspliced {top : Frame} {q p : Pattern} (htop : top.Exact l Good Inner) (hzero : top.remaining = 0)
      (hq : Good q) (hat : q.at? top.location = some top.initial)
      (hp : q.replaceAt? top.location top.result = some p) :
      Good p ∧ Semantics.redexes l p + 1 = Semantics.redexes l q := by
    have h := hl.splice hq htop.result htop.initial hat hp
    rwa [← htop.remaining, hzero, Nat.add_zero] at h
  induction h with
  | waits =>
    refine ⟨List.forall_mem_cons.mpr ⟨htop, hbelow⟩, fun _ => rfl, fun hnil => ?_⟩
    cases hnil
  | ends hzero hat hp =>
    exact ⟨fun f hf => absurd hf List.not_mem_nil, fun hne => absurd rfl hne,
      fun _ hgood => hspliced htop hzero hgood hat hp⟩
  | merges hzero hat hp hn _ ih =>
    have ⟨hparent, hbelow⟩ := List.forall_mem_cons.mp hbelow
    have ⟨hgood, hcount⟩ := hspliced htop hzero hparent.result hat hp
    refine ih ⟨hgood, hparent.initial, ?_⟩ hbelow
    rw [← hparent.remaining, hn] at hcount
    exact (Nat.add_right_cancel hcount).symm

section Calls

variable {ordinal : UInt64} {subst : Substitution} {location : Location} {called : Except Error Frame} {l' : σ}

theorem remaining_call (h : s.call l ordinal subst location = (.ok f, opened, l')) :
    f.remaining = Semantics.redexes l' f.result := by
  simp only [call] at h
  split at h
  case h_1 => cases h
  case h_2 =>
    split at h
    case h_1 => cases h
    case h_2 =>
      cases h
      rfl

theorem language_call_eq (hkept : (Semantics.rule ordinal l).2 = l)
    (h : s.call l ordinal subst location = (called, opened, l')) : l' = l := by
  simp only [call] at h
  split at h
  case h_1 =>
    cases h
    rfl
  case h_2 => split at h <;> cases h <;> exact hkept

-- The frame that a call opens, and the drain that follows.
theorem Idle.drains_call (hs : s.Idle) (hprepared : Semantics.Prepared l Good ordinal subst)
    (hinner : ∀ p, s.root.at? location = some p → Inner p)
    (h : { s with inScope := true }.call l ordinal subst location = (.ok f, opened, l')) :
    f.Exact l Good Inner ∧
      Drains s.configuration f s.frames opened.exit.2.frames opened.exit.2.configuration := by
  obtain ⟨v, hv⟩ := hs.shown
  obtain ⟨v', -, hshows⟩ := (hv.scope true).call h
  have hremaining := remaining_call h
  rw [language_call_eq hprepared.kept h] at hremaining
  obtain ⟨rfl, -, hat, rule, left, right, hrule, -, hsides, hresult⟩ := call_eq_ok h
  refine ⟨⟨?_, hinner _ hat, hremaining⟩, (drains_drain hshows hs.waiting).2⟩
  rw [hresult]
  exact (hprepared.yields rule hrule).equation hsides

end Calls

end Simplification

namespace Execution

open Simplification (Drains Settled)

-- The language is as it was in the beginning, and the counts are right.
structure Exact (l : σ) (Good Inner : Pattern → Prop) (x : Execution σ) : Prop where
  language : x.language = l
  idle : x.simplification.Idle
  counted : ∀ f ∈ x.simplification.frames, f.Exact l Good Inner

def Action.Prepared (l : σ) (Good : Pattern → Prop) : Action → Prop
  | .apply step => Semantics.Prepared l Good step.ordinal step.substitution
  | .rewrite rule s => rule.Yields Good s
  | .simplify ordinal s _ => Semantics.Prepared l Good ordinal s
  | .finalize => True

-- What an action may do to the configuration and to the stack.
inductive Moves (l : σ) (Good Inner : Pattern → Prop) (x x' : Execution σ) : Prop
  | stays (h : x'.simplification = x.simplification)
  | transition (hbefore : x.simplification.frames = []) (hafter : x'.simplification.frames = [])
    (hgood : Good x'.configuration)
  | simplifies {f : Frame} (hf : f.Exact l Good Inner)
    (h : Drains x.configuration f x.simplification.frames x'.simplification.frames x'.configuration)

variable {x : Execution σ} {a : Action} {ordinal : UInt64} {s : Substitution} {location : Location}

theorem moves_transition (hl : Additive l Good Inner) (hx : x.language = l) {rule : Axiom}
    (hrule : rule.Yields Good s) (events : List Event) :
    (x.transition rule s events).2.language = l ∧ Moves l Good Inner x (x.transition rule s events).2 := by
  have hsides : (Semantics.sideAxioms s events x.language).2 = l := hx ▸ hl.sides s events
  simp only [transition]
  split
  case h_1 => exact ⟨hx, .stays rfl⟩
  case h_2 next hnext =>
    split
    case h_1 => exact ⟨hsides, .stays rfl⟩
    case h_2 =>
      obtain ⟨sort, hinstance⟩ := checkTransition_eq_ok hnext
      have hframes := frames_of_checkTransition hnext
      exact ⟨hsides, .transition hframes hframes (hrule.transition hinstance)⟩

-- The frame that a request opens.
def opened? (x : Execution σ) (r : Request σ) : Option Frame :=
  ({ x.simplification with inScope := true }.call r.language r.ordinal r.bindings r.location).1.toOption

theorem Exact.simplify (hx : x.Exact l Good Inner) (hprepared : Semantics.Prepared l Good ordinal s)
    (hinner : ∀ p, x.simplification.root.at? location = some p → Inner p) :
    let x' := (x.simplify ordinal s location).2
    x'.language = l ∧
    ((x.simplify ordinal s location).1 ≠ .ok () ∧ x'.simplification = x.simplification ∨
      ∃ f, x.opened? ⟨l, ordinal, s, location⟩ = some f ∧ f.Exact l Good Inner ∧
        Drains x.configuration f x.simplification.frames x'.simplification.frames x'.configuration) := by
  obtain ⟨rfl, hidle, -⟩ := hx
  cases hopen : x.finalized with
  | true => simp [Execution.simplify, hopen]
  | false =>
    rcases h : { x.simplification with inScope := true }.call x.language ordinal s location with
      ⟨called, opened, language⟩
    obtain ⟨hok, -, hundone⟩ := hidle.exit_call h
    obtain rfl := Simplification.language_call_eq hprepared.kept h
    simp only [Execution.simplify, hopen, hidle.enter, h, hok, Bool.false_eq_true, if_false]
    cases called with
    | error e => exact ⟨rfl, .inl ⟨by simp, hundone e rfl⟩⟩
    | ok f =>
      have hopened : x.opened? ⟨x.language, ordinal, s, location⟩ = some f := by
        simp [opened?, h, Except.toOption]
      exact ⟨rfl, .inr ⟨f, hopened, hidle.drains_call hprepared hinner h⟩⟩

-- What the action simplifies is of `Inner`.
def Aims (Inner : Pattern → Prop) (x : Execution σ) (a : Action) : Prop :=
  ∀ r ∈ x.request? a, ∀ p ∈ x.simplification.root.at? r.location, Inner p

instance [DecidablePred Inner] : Decidable (x.Aims Inner a) :=
  inferInstanceAs (Decidable (∀ r ∈ x.request? a, ∀ p ∈ x.simplification.root.at? r.location, Inner p))

theorem moves_simplify (hx : x.Exact l Good Inner) (hprepared : Semantics.Prepared l Good ordinal s)
    (hinner : ∀ p, x.simplification.root.at? location = some p → Inner p) :
    (x.simplify ordinal s location).2.language = l ∧
      Moves l Good Inner x (x.simplify ordinal s location).2 := by
  obtain ⟨hlanguage, ⟨-, hstays⟩ | ⟨f, -, hf, hdrains⟩⟩ := hx.simplify hprepared hinner
  · exact ⟨hlanguage, .stays hstays⟩
  · exact ⟨hlanguage, .simplifies hf hdrains⟩

theorem prepared_request {r : Request σ} (hx : x.language = l) (ha : a.Prepared l Good)
    (hr : x.request? a = some r) : r.language = l ∧ Semantics.Prepared l Good r.ordinal r.bindings := by
  subst hx
  cases a with
  | simplify =>
    cases hr
    exact ⟨rfl, ha⟩
  | apply step =>
    simp only [request?] at hr
    split at hr
    case h_1 =>
      split_ifs at hr
      cases hr
      exact ⟨ha.kept, ha⟩
    case h_2 => cases hr
  | _ => cases hr

theorem Exact.drains_of_request {r : Request σ} (hx : x.Exact l Good Inner) (ha : a.Prepared l Good)
    (haims : x.Aims Inner a) (hr : x.request? a = some r) (hanswer : x.answer a = .ok ()) :
    ∃ f, x.opened? r = some f ∧ f.Exact l Good Inner ∧
      Drains x.configuration f x.simplification.frames (x.act a).simplification.frames
        (x.act a).configuration := by
  obtain ⟨hlanguage, hprepared⟩ := prepared_request hx.language ha hr
  have hasked : Exact l Good Inner { x with language := r.language } := ⟨hlanguage, hx.idle, hx.counted⟩
  obtain ⟨hanswered, hact⟩ := answer_request hr
  rw [configuration, configuration, hact]
  rw [hanswered] at hanswer
  obtain ⟨-, ⟨hfails, -⟩ | hopened⟩ := hasked.simplify hprepared fun p hp => haims r hr p hp
  · exact absurd hanswer hfails
  · subst hlanguage
    exact hopened

theorem moves_act (hl : Additive l Good Inner) (hx : x.Exact l Good Inner) (ha : a.Prepared l Good)
    (haims : x.Aims Inner a) : (x.act a).language = l ∧ Moves l Good Inner x (x.act a) := by
  cases a with
  | rewrite rule s => exact moves_transition hl hx.language ha []
  | simplify ordinal s location => exact moves_simplify hx ha fun p hp => haims _ rfl p hp
  | finalize =>
    simp only [act, finalize]
    split_ifs <;> exact ⟨hx.language, .stays rfl⟩
  | apply step =>
    obtain ⟨rfl, hidle, hcounted⟩ := hx
    simp only [act, apply]
    split
    case isTrue => exact ⟨rfl, .stays rfl⟩
    case isFalse =>
      rw [ha.kept]
      split
      case h_1 => exact ⟨rfl, .stays rfl⟩
      case h_2 rule hrule =>
        split
        case h_1 => exact moves_transition hl rfl (ha.yields rule hrule) step.events
        case h_2 location hkind hlocation =>
          have hrequest : x.request? (.apply step) =
              some ⟨x.language, step.ordinal, step.substitution, location⟩ := by
            simp [request?, hrule, hkind, hlocation, ha.kept]
          exact moves_simplify ⟨rfl, hidle, hcounted⟩ ha fun p hp => haims _ hrequest p hp
        case h_3 => exact ⟨rfl, .stays rfl⟩
        case h_4 => exact ⟨rfl, .stays rfl⟩

variable {x' : Execution σ}

theorem Moves.counted (h : Moves l Good Inner x x') (hl : Additive l Good Inner)
    (hx : x.Exact l Good Inner) : ∀ f ∈ x'.simplification.frames, f.Exact l Good Inner := by
  cases h with
  | stays h =>
    rw [h]
    exact hx.counted
  | transition _ hafter _ => simp [hafter]
  | simplifies hf h => exact (h.settled hl hf hx.counted).counted

theorem Moves.good (h : Moves l Good Inner x x') (hl : Additive l Good Inner) (hx : x.Exact l Good Inner)
    (hgood : Good x.configuration) : Good x'.configuration := by
  cases h with
  | stays h =>
    rw [configuration, h]
    exact hgood
  | transition _ _ hgood' => exact hgood'
  | simplifies hf h =>
    have hsettled := h.settled hl hf hx.counted
    by_cases hframes : x'.simplification.frames = []
    case pos => exact (hsettled.done hframes hgood).1
    case neg => exact hsettled.pending hframes ▸ hgood

-- As long as frames wait, only a simplification changes the configuration, by emptying the stack.
theorem Moves.settled (h : Moves l Good Inner x x') (hl : Additive l Good Inner)
    (hx : x.Exact l Good Inner) (hframes : x.simplification.frames ≠ []) :
    Settled l Good Inner x.configuration x'.simplification.frames x'.configuration := by
  cases h with
  | stays h =>
    rw [configuration, configuration, h]
    exact ⟨hx.counted, fun _ => rfl, fun hnil => absurd hnil hframes⟩
  | transition hbefore => exact absurd hbefore hframes
  | simplifies hf h => exact h.settled hl hf hx.counted

theorem Exact.act (hx : x.Exact l Good Inner) (hl : Additive l Good Inner) (ha : a.Prepared l Good)
    (haims : x.Aims Inner a) : (x.act a).Exact l Good Inner := by
  have ⟨hlanguage, hmoves⟩ := moves_act hl hx ha haims
  exact ⟨hlanguage, (atomic_act hx.idle a).idle, hmoves.counted hl hx⟩

-- The same along a run.
def AimsAll (Inner : Pattern → Prop) (x : Execution σ) : List Action → Prop
  | [] => True
  | a :: actions => x.Aims Inner a ∧ (x.act a).AimsAll Inner actions

instance decidableAimsAll [DecidablePred Inner] (x : Execution σ) :
    ∀ actions : List Action, Decidable (x.AimsAll Inner actions)
  | [] => isTrue trivial
  | a :: actions =>
    have := decidableAimsAll (x.act a) actions
    inferInstanceAs (Decidable (x.Aims Inner a ∧ (x.act a).AimsAll Inner actions))

theorem AimsAll.append {before after : List Action} (h : x.AimsAll Inner (before ++ after)) :
    x.AimsAll Inner before ∧ (x.run before).AimsAll Inner after := by
  induction before generalizing x with
  | nil => exact ⟨trivial, h⟩
  | cons a before ih =>
    obtain ⟨haims, h⟩ := h
    obtain ⟨hbefore, hafter⟩ := ih h
    exact ⟨⟨haims, hbefore⟩, hafter⟩

-- The stack is empty after the actions and not before.
def Empties (x : Execution σ) : List Action → Prop
  | [] => x.simplification.frames = []
  | a :: actions => x.simplification.frames ≠ [] ∧ (x.act a).Empties actions

instance decidableEmpties (x : Execution σ) : ∀ actions : List Action, Decidable (x.Empties actions)
  | [] => inferInstanceAs (Decidable (x.simplification.frames = []))
  | a :: actions =>
    have := decidableEmpties (x.act a) actions
    inferInstanceAs (Decidable (x.simplification.frames ≠ [] ∧ (x.act a).Empties actions))

section Runs

variable (hl : Additive l Good Inner) {actions : List Action} (hactions : ∀ a ∈ actions, a.Prepared l Good)
include hl hactions

theorem Exact.run (hx : x.Exact l Good Inner) (haims : x.AimsAll Inner actions) :
    (x.run actions).Exact l Good Inner := by
  induction actions generalizing x with
  | nil => exact hx
  | cons a actions ih =>
    obtain ⟨ha, hactions⟩ := List.forall_mem_cons.mp hactions
    exact ih hactions (hx.act hl ha haims.1) haims.2

theorem good_run (hx : x.Exact l Good Inner) (hgood : Good x.configuration) (haims : x.AimsAll Inner actions) :
    Good (x.run actions).configuration := by
  induction actions generalizing x with
  | nil => exact hgood
  | cons a actions ih =>
    obtain ⟨ha, hactions⟩ := List.forall_mem_cons.mp hactions
    have ⟨_, hmoves⟩ := moves_act hl hx ha haims.1
    exact ih hactions (hx.act hl ha haims.1) (hmoves.good hl hx hgood) haims.2

-- The configuration stays `p` until the stack is empty.
theorem redexes_of_empties {p : Pattern} (hp : Good p) (hx : x.Exact l Good Inner)
    (hsettled : Settled l Good Inner p x.simplification.frames x.configuration)
    (haims : x.AimsAll Inner actions) (h : x.Empties actions) :
    Semantics.redexes l (x.run actions).configuration + 1 = Semantics.redexes l p := by
  induction actions generalizing x with
  | nil => exact (hsettled.done h hp).2
  | cons a actions ih =>
    obtain ⟨ha, hactions⟩ := List.forall_mem_cons.mp hactions
    have ⟨_, hmoves⟩ := moves_act hl hx ha haims.1
    have hnext := hmoves.settled hl hx h.1
    rw [hsettled.pending h.1] at hnext
    exact ih hactions (hx.act hl ha haims.1) hnext haims.2 h.2

-- From one simplification to the one that empties the stack.
theorem Exact.redexes_of_request {r : Request σ} (hx : x.Exact l Good Inner) (hgood : Good x.configuration)
    (ha : a.Prepared l Good) (haims : x.AimsAll Inner (a :: actions)) (hr : x.request? a = some r)
    (hanswer : x.answer a = .ok ()) (h : (x.act a).Empties actions) :
    Semantics.redexes l ((x.act a).run actions).configuration + 1 =
      Semantics.redexes l x.configuration := by
  obtain ⟨f, -, hf, hdrains⟩ := hx.drains_of_request ha haims.1 hr hanswer
  have hsettled := hdrains.settled hl hf hx.counted
  exact redexes_of_empties hl hactions hgood (hx.act hl ha haims.1) hsettled haims.2 h

end Runs

end Execution
end MatchingLogic
