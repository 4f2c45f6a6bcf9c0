import MatchingLogic.Proofs.Execution.Atomicity
import MatchingLogic.Semantics.Table

namespace MatchingLogic

-- Under the bindings `s`, the axiom turns `v` into `v'` at the location.
def Axiom.Licenses (a : Axiom) (s : Substitution) (l : Location) (v v' : Pattern) : Prop :=
  ∃ left right, a.sides? = some (left, right) ∧
    v.at? l = some ((left.instantiate a.requires).instantiate s) ∧
    v.replaceAt? l ((right.instantiate a.requires).instantiate s) = some v'

namespace Simplification

variable {s : Simplification} {p v : Pattern} {l : Location}

theorem at?_path {fs : List Frame} (h : Frame.splices p fs = some v) :
    v.at? (Frame.path fs) = some (Frame.ground p fs) := by
  induction fs generalizing p v with
  | nil =>
    cases h
    rfl
  | cons f fs ih =>
    obtain ⟨r, hr, h⟩ := Option.bind_eq_some_iff.mp h
    calc v.at? (Frame.path (f :: fs))
      _ = v.at? f.location >>= (·.at? (Frame.path fs)) := Pattern.at?_append ..
      _ = r.at? (Frame.path fs) := by rw [Pattern.at?_of_replaceAt? h]; rfl
      _ = some (Frame.ground p (f :: fs)) := by rw [ih hr, Frame.ground_cons]

-- What a call finds at its location stands in the view at the joined locations.
theorem Shows.at?_append (hs : s.Shows v) (l : Location) : v.at? (s.path ++ l) = s.root.at? l := by
  rw [Pattern.at?_append, path, at?_path hs.view_eq, ← root_eq_ground]
  rfl

variable {σ : Type} [Semantics σ] {language language' : σ} {ordinal : UInt64} {subst : Substitution}
  {called : Except Error Frame} {s' : Simplification}

theorem exists_call_iff (hs : s.inScope = true)
    (h : s.call language ordinal subst l = (called, s', language')) :
    (∃ f, called = .ok f) ↔
      (∃ term, s.root.at? l = some term) ∧
      ∃ rule, (Semantics.rule ordinal language).1 = .ok rule ∧ rule.kind = .equation ∧
        ∃ sides, rule.sides? = some sides := by
  constructor
  case mp =>
    rintro ⟨f, rfl⟩
    have ⟨_, _, hterm, rule, left, right, hrule, hkind, hsides, _⟩ := call_eq_ok h
    exact ⟨⟨_, hterm⟩, rule, hrule, hkind, _, hsides⟩
  case mpr =>
    rintro ⟨⟨term, hterm⟩, rule, hrule, hkind, ⟨left, right⟩, hsides⟩
    have htarget : s.target l = .ok term := by simp [target, hs, hterm]
    have hresult : rule.simplified ordinal subst =
        .ok ((right.instantiate rule.requires).instantiate subst) := by
      simp [Axiom.simplified, hkind, hsides]
    have hbind : ((Semantics.rule ordinal language).1 >>= fun a =>
        (a.simplified ordinal subst).mapError Error.replay) = .ok _ :=
      bind_eq_ok.mpr ⟨rule, hrule, mapError_eq_ok.mpr hresult⟩
    simp only [call, htarget, hbind] at h
    cases h
    exact ⟨_, rfl⟩

end Simplification

namespace Execution

variable {σ : Type} [Semantics σ] {x : Execution σ} {ordinal : UInt64} {s : Substitution} {l : Location}

-- A simplification that an action asks for.
structure Request (σ : Type) where
  language : σ
  ordinal : UInt64
  bindings : Substitution
  location : Location

-- A step of a trace first asks the language for the kind of its axiom.
def request? (x : Execution σ) : Action → Option (Request σ)
  | .simplify ordinal s l => some ⟨x.language, ordinal, s, l⟩
  | .apply step =>
    match (Semantics.rule step.ordinal x.language).1, step.location with
    | .ok rule, some l =>
      if rule.kind = .equation then
        some ⟨(Semantics.rule step.ordinal x.language).2, step.ordinal, step.substitution, l⟩
      else none
    | _, _ => none
  | _ => none

theorem answer_request {a : Action} {r : Request σ} (h : x.request? a = some r) :
    let asked : Execution σ := { x with language := r.language }
    x.answer a = (asked.simplify r.ordinal r.bindings r.location).1 ∧
      (x.act a).simplification = (asked.simplify r.ordinal r.bindings r.location).2.simplification := by
  cases a with
  | simplify ordinal s l =>
    cases h
    exact ⟨rfl, rfl⟩
  | apply step =>
    simp only [request?] at h
    split at h
    case h_1 rule l hrule hl =>
      split_ifs at h with hkind
      cases h
      by_cases hx : x.finalized = true
      case pos => simp [answer, act, apply, simplify, hx]
      case neg =>
        have happly : x.apply step = { x with language := (Semantics.rule step.ordinal x.language).2 }.simplify
            step.ordinal step.substitution l := by
          simp [apply, hx, hrule, hkind, hl]
        simp only [answer, act, happly, and_self]
    case h_2 => cases h
  | _ => cases h

-- A simplification is one call in a scope of its own.
theorem simplify_eq_call {called : Except Error Frame} {opened : Simplification} {language : σ}
    (hx : x.simplification.Idle) (hopen : x.finalized = false)
    (h : { x.simplification with inScope := true }.call x.language ordinal s l = (called, opened, language)) :
    (x.simplify ordinal s l).1 = called.map (fun _ => ()) ∧
      (x.simplify ordinal s l).2.simplification = opened.exit.2 := by
  obtain ⟨hok, -⟩ := hx.exit_call h
  simp only [simplify, hopen, hx.enter, h, hok, Bool.false_eq_true, if_false]
  cases called <;> exact ⟨rfl, rfl⟩

theorem exists_simplify_iff (hx : x.simplification.Idle) :
    (x.simplify ordinal s l).1 = .ok () ↔
      x.finalized = false ∧ (∃ term, x.simplification.root.at? l = some term) ∧
      ∃ rule, (Semantics.rule ordinal x.language).1 = .ok rule ∧ rule.kind = .equation ∧
        ∃ sides, rule.sides? = some sides := by
  cases hopen : x.finalized with
  | true => simp [simplify, hopen]
  | false =>
    rcases h : { x.simplification with inScope := true }.call x.language ordinal s l with
      ⟨called, opened, language⟩
    have hanswer := (simplify_eq_call hx hopen h).1
    have hcall := Simplification.exists_call_iff rfl h
    simp only [hanswer, map_eq_ok, and_true, true_and]
    exact hcall

-- The view after a simplification, and what makes the step to it an instance of the equation.
theorem licensed_simplify (hx : x.simplification.Idle) (h : (x.simplify ordinal s l).1 = .ok ()) :
    ∃ rule left right v v', (Semantics.rule ordinal x.language).1 = .ok rule ∧ rule.kind = .equation ∧
      rule.sides? = some (left, right) ∧ x.simplification.view = some v ∧
      (x.simplify ordinal s l).2.simplification.view = some v' ∧
      (rule.Licenses s (x.simplification.path ++ l) v v' ↔
        x.simplification.root.at? l = some ((left.instantiate rule.requires).instantiate s)) := by
  have ⟨v, hv⟩ := hx.shown
  have ⟨hopen, _⟩ := (exists_simplify_iff hx).mp h
  rcases hcall : { x.simplification with inScope := true }.call x.language ordinal s l with
    ⟨called, opened, language⟩
  have ⟨hanswer, hleft⟩ := simplify_eq_call hx hopen hcall
  rw [hanswer] at h
  obtain ⟨f, rfl, -⟩ := map_eq_ok.mp h
  have ⟨v', hreplace, hshows⟩ := (hv.scope true).call hcall
  have ⟨_, _, _, rule, left, right, hrule, hkind, hsides, hresult⟩ := Simplification.call_eq_ok hcall
  refine ⟨rule, left, right, v, v', hrule, hkind, hsides, hv.view_eq, hleft ▸ hshows.exit.view_eq, ?_⟩
  rw [← hv.at?_append]
  constructor
  case mp =>
    rintro ⟨left', right', hsides', hat, -⟩
    rw [hsides] at hsides'
    cases hsides'
    exact hat
  case mpr =>
    intro hat
    exact ⟨left, right, hsides, hat, hresult ▸ hreplace⟩

-- Whatever was tried before: a simplification succeeds where its location resolves and its axiom is an
-- equation, whether the left side matches or not. Its step is licensed exactly if the left side matches.
theorem licensed_iff (language : σ) (initial : Pattern) (actions : List Action) {a : Action} {r : Request σ} :
    let x := (start language initial).run actions
    x.request? a = some r →
    (x.answer a = .ok () ↔
      x.finalized = false ∧ (∃ term, x.simplification.root.at? r.location = some term) ∧
      ∃ rule, (Semantics.rule r.ordinal r.language).1 = .ok rule ∧ rule.kind = .equation ∧
        ∃ sides, rule.sides? = some sides) ∧
    (x.answer a = .ok () →
      ∃ rule left right v v', (Semantics.rule r.ordinal r.language).1 = .ok rule ∧
        rule.kind = .equation ∧ rule.sides? = some (left, right) ∧
        x.simplification.view = some v ∧ (x.act a).simplification.view = some v' ∧
        (rule.Licenses r.bindings (x.simplification.path ++ r.location) v v' ↔
          x.simplification.root.at? r.location =
            some ((left.instantiate rule.requires).instantiate r.bindings))) := by
  intro x hr
  have hstart : (start language initial).simplification.Idle :=
    Simplification.idle_of_frames_nil rfl rfl
  have hx : x.simplification.Idle := idle_run hstart actions
  have ⟨hanswer, hact⟩ := answer_request hr
  let asked : Execution σ := { x with language := r.language }
  have hasked : asked.simplification.Idle := hx
  rw [hanswer, hact]
  exact ⟨exists_simplify_iff hasked, licensed_simplify hasked⟩

section Constants

-- A language of one equation between two constants.
def constants : Table where
  axioms := [⟨.equation, .equation (.symbol "sort") (.symbol "a") (.symbol "b"), ∅⟩]

theorem licensed_iff_constants :
    let x := start constants (.app (.symbol "f") (.symbol "a"))
    let simplify := Action.simplify 0 ∅ [1]
    x.request? simplify = some ⟨constants, 0, ∅, [1]⟩ ∧
    x.answer simplify = .ok () ∧
    ∃ rule v v', (Semantics.rule 0 constants).1 = .ok rule ∧
      x.simplification.view = some v ∧ (x.act simplify).simplification.view = some v' ∧
      rule.Licenses ∅ [1] v v' := by
  intro x simplify
  have hrequest : x.request? simplify = some ⟨constants, 0, ∅, [1]⟩ := rfl
  have ⟨hiff, hlicensed⟩ := licensed_iff constants (.app (.symbol "f") (.symbol "a")) [] hrequest
  have hanswer : x.answer simplify = .ok () := hiff.mpr ⟨rfl, ⟨_, rfl⟩, _, rfl, rfl, _, rfl⟩
  have ⟨rule, left, right, v, v', hrule, _, hsides, hv, hv', hiff⟩ := hlicensed hanswer
  cases hrule
  cases hsides
  exact ⟨hrequest, hanswer, _, v, v', rfl, hv, hv', hiff.mpr rfl⟩

-- The equation replaces a constant that it does not speak of.
theorem unlicensed_simplification :
    let x := start constants (.symbol "c")
    let simplify := Action.simplify 0 ∅ []
    x.answer simplify = .ok () ∧ (x.act simplify).configuration = .symbol "b" ∧
    ∃ rule left right, (Semantics.rule 0 constants).1 = .ok rule ∧ rule.sides? = some (left, right) ∧
      x.simplification.root.at? [] ≠ some ((left.instantiate rule.requires).instantiate ∅) := by
  refine ⟨rfl, rfl, _, _, _, rfl, rfl, ?_⟩
  decide

end Constants

end Execution
end MatchingLogic
