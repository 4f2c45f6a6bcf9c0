import MatchingLogic.Proofs.Execution.Innermost
import MatchingLogic.Proofs.Kore.Redexes

namespace MatchingLogic

theorem Axiom.Spined.yields {a : Axiom} (ha : a.Spined) {s : Substitution} (hs : ∀ q ∈ s.plugs, q.Spined) :
    a.Yields Pattern.Spined s where
  transition hinstance := by
    have hspined := ha.1.instantiate hs
    rw [hinstance] at hspined
    exact hspined.child (by simp [Pattern.transition, Pattern.children])
  equation hsides := ((ha.1.right hsides).instantiate ha.2).instantiate hs

namespace Kore

open Conversion

namespace Converter

variable {c c' : Converter} {ordinal : UInt64} {asked : List Action} {step : Step}

theorem additive (c : Converter) : Semantics.Additive c Pattern.Spined c.Innermost where
  splice hp hr hq hat hreplace := ⟨hp.replaceAt? hr hq.head hat hreplace, hq.replaceAt? hp hat hreplace⟩
  sides _ _ := rfl

-- The axiom with this number has been converted.
def Cached (ordinal : UInt64) (c : Converter) : Prop :=
  ∃ a b, c.axioms[ordinal.toNat]? = some a ∧ c.converted.lookup a = some b

theorem lasting_cached (ordinal : UInt64) : Lasting (Cached ordinal) where
  addSymbol hc _ := hc
  addMetavar hc _ := hc
  addCell hc _ _ := hc
  addAxiom {c a} hc hnew b := by
    obtain ⟨a', b', ha, hb⟩ := hc
    exact ⟨a', b', ha, lookup_cons_of_new hnew hb⟩

theorem cached_rule (c : Converter) (ordinal : UInt64) :
    Ends (rule ordinal) c (fun _ c' => c'.Cached ordinal) fun _ _ => True := by
  refine ends_get_bind ?_
  split
  case h_2 => exact ends_throw trivial
  case h_1 a ha =>
    have hsteady : Steady fun c' => c'.axioms[ordinal.toNat]? = some a :=
      ⟨fun h _ => h, fun h _ => h, fun h _ _ => h⟩
    refine ends_get_bind ?_
    split
    case h_1 b hb => exact ends_pure ⟨a, b, ha, hb⟩
    case h_2 =>
      refine ((hsteady.classify a.term c ha).answer fun _ _ h => h.1).bind fun b c' hc' => ?_
      have hadded : Cached ordinal { c' with converted := (a, b) :: c'.converted } :=
        ⟨a, b, hc', List.lookup_cons_self⟩
      exact Ends.bind (ends_modifyGet hadded) fun _ _ h => ends_pure h

theorem cached_hint (c : Converter) (h : Hint) :
    Ends h.convert c (fun step c' => c'.Cached step.ordinal) fun _ _ => True := by
  have hlasting := lasting_cached h.ordinal
  refine (cached_rule c h.ordinal).bind fun _ c₁ hc₁ => ?_
  have hrest {act : Conversion Step}
      (hact : Keeps (Cached h.ordinal) (fun step : Step => step.ordinal = h.ordinal) act) :
      Ends act c₁ (fun step c' => c'.Cached step.ordinal) fun _ _ => True :=
    (hact c₁ hc₁).answer fun step c' hstep => by rw [hstep.2]; exact hstep.1
  refine hrest ?_
  refine (hlasting.convert h.configuration).bind fun _ _ => (hlasting.bindings h.bindings).bind fun _ _ => ?_
  exact (keeps_mapM fun e _ => hlasting.event e).bind fun _ _ => keeps_pure rfl

theorem cached_hints (c : Converter) (hints : List Hint) :
    Ends (Hint.convertAll hints) c (fun trace c' => ∀ step ∈ trace.steps, c'.Cached step.ordinal)
      fun _ _ => True := by
  have hsteps : Ends (hints.mapM Hint.convert) c (fun steps c' => ∀ step ∈ steps, c'.Cached step.ordinal)
      fun _ _ => True := by
    induction hints generalizing c with
    | nil =>
      rw [List.mapM_nil]
      exact ends_pure (by simp)
    | cons h hints ih =>
      rw [List.mapM_cons]
      refine (cached_hint c h).bind fun step c₁ hc₁ => ?_
      have hkept := keeps_mapM fun h (_ : h ∈ hints) => (lasting_cached step.ordinal).hint h
      refine (((ih c₁).and (hkept c₁ hc₁)).answer fun _ _ h => h).bind fun steps c₂ hc₂ => ends_pure ?_
      exact List.forall_mem_cons.mpr ⟨hc₂.2.1, hc₂.1⟩
  exact hsteps.bind fun _ _ h => ends_pure h

theorem run_of_cached (h : c.Cached ordinal) :
    ∃ entry ∈ c.converted, (rule ordinal).run c = (.ok entry.2, c) := by
  obtain ⟨a, b, ha, hb⟩ := h
  refine ⟨(a, b), mem_of_lookup hb, ?_⟩
  simp only [rule, Axiom.convert, run_get, ha, hb]
  rfl

theorem prepared_of_cached (hc : c.Regular) (h : c.Cached ordinal) {s : Substitution}
    (hs : ∀ q ∈ s.plugs, q.Spined) : Semantics.Prepared c Pattern.Spined ordinal s := by
  obtain ⟨entry, hentry, hrun⟩ := run_of_cached h
  constructor
  case kept => exact congrArg Prod.snd hrun
  case yields =>
    intro b hb
    obtain rfl : entry.2 = b := Except.ok.inj ((congrArg Prod.fst hrun).symm.trans hb)
    exact (hc.stored entry hentry).yields hs

-- A step of a trace that the converter was asked for.
def Traced (c : Converter) (asked : List Action) (step : Step) : Prop :=
  ∃ before hints after trace, asked = before ++ .hints hints :: after ∧
    ((Hint.convertAll hints).run (c.run before)).1 = .ok trace ∧ step ∈ trace.steps

-- A pattern that the converter has answered, for a term or as the configuration of a step.
inductive Answered (c : Converter) (asked : List Action) : Pattern → Prop
  | term {before after : List Action} {t : Term} {p : Pattern} (hasked : asked = before ++ .term t :: after)
    (hp : (t.convert.run (c.run before)).1 = .ok p) : Answered c asked p
  | configuration {step : Step} (hstep : c.Traced asked step) : Answered c asked step.configuration

theorem run_append_cons (c : Converter) (before after : List Action) (a : Action) :
    c.run (before ++ a :: after) = ((c.run before).act a).run after := by
  simp [run]

theorem Regular.traced (hc : c.Regular) (h : c.Traced asked step) : (c.run asked).Cached step.ordinal ∧
    step.configuration.Spined ∧ ∀ q ∈ step.substitution.plugs, q.Spined := by
  obtain ⟨before, hints, after, trace, rfl, htrace, hstep⟩ := h
  have hbefore : (c.run before).Regular := upholds_spined.run hc before
  have hcached := (ends_run.mp (cached_hints (c.run before) hints)).1 trace htrace step hstep
  have hspined := ((ends_run.mp (upholds_spined.hints hints _ hbefore)).1 trace htrace).2 step hstep
  rw [run_append_cons]
  exact ⟨(lasting_cached step.ordinal).run hcached after, hspined⟩

theorem Regular.answered (hc : c.Regular) {p : Pattern} (h : c.Answered asked p) : p.Spined := by
  cases h with
  | @term before _ t _ _ hp =>
    exact ((ends_run.mp (spined_convert t _ (upholds_spined.run hc before))).1 p hp).2
  | configuration hstep => exact (hc.traced hstep).2.1

theorem regular_ofDefinition {d : Definition} {config : Config} {engine : Engine}
    (h : ofDefinition d config engine = .ok c) :
    c.Regular := by
  refine ⟨(fresh_ofDefinition h).orderly, ?_⟩
  simp only [ofDefinition] at h
  split at h
  case h_1 => cases h
  case h_2 =>
    cases h
    simp

-- What is done with the steps of a trace.
def Follows (c : Converter) (asked : List Action) : Execution.Action → Prop
  | .apply step => c.Traced asked step
  | .rewrite rule s => ∃ step, c.Traced asked step ∧ s = step.substitution ∧
    (Semantics.rule step.ordinal (c.run asked)).1 = .ok rule
  | .simplify ordinal s _ => ∃ step, c.Traced asked step ∧ ordinal = step.ordinal ∧ s = step.substitution
  | .finalize => True

theorem Regular.prepared (hc : c.Regular) {a : Execution.Action} (h : c.Follows asked a) :
    a.Prepared (c.run asked) Pattern.Spined := by
  have hlater : (c.run asked).Regular := upholds_spined.run hc asked
  have hstep {step : Step} (hstep : c.Traced asked step) :
      Semantics.Prepared (c.run asked) Pattern.Spined step.ordinal step.substitution := by
    obtain ⟨hcached, -, hs⟩ := hc.traced hstep
    exact prepared_of_cached hlater hcached hs
  cases a with
  | apply step => exact hstep h
  | rewrite rule s =>
    obtain ⟨step, h, rfl, hrule⟩ := h
    exact (hstep h).yields rule hrule
  | simplify ordinal s location =>
    obtain ⟨step, h, rfl, rfl⟩ := h
    exact hstep h
  | finalize => exact trivial

end Converter

section Runs

open Converter Execution

variable {d : Definition} {config : Config} {engine : Engine} {c : Converter} {initial : Pattern}
  {events : List Execution.Action}

-- Steps of converted traces are replayed, and each simplification replaces a redex that contains no other one.
-- Then each frame waits for as many redexes as its result has. A simplification puts in place its own result if
-- that has no redex, and with it the frames that waited for nothing else. Once no frame is left, the
-- configuration has one redex less than when the first of them was opened.
theorem redexes_run (hc : ofDefinition d config engine = .ok c) (asked : List Converter.Action)
    (hevents : ∀ a ∈ events, c.Follows asked a)
    (haims : (start (c.run asked) initial).AimsAll (c.run asked).Innermost events) :
    let language := c.run asked
    let x := (start language initial).run events
    x.language = language ∧
    (∀ f ∈ x.simplification.frames, f.remaining = language.redexes f.result ∧ 1 ≤ f.remaining) ∧
    ∀ before a after r, events = before ++ a :: after →
      let y := (start language initial).run before
      y.request? a = some r → y.answer a = .ok () →
      (∃ f, y.opened? r = some f ∧ (y.act a).simplification.frames.length =
        if language.redexes f.result = 0 then
          (y.simplification.frames.dropWhile (language.redexes ·.result = 1)).length
        else y.simplification.frames.length + 1) ∧
      (c.Answered asked initial → (y.act a).Empties after →
        language.redexes x.configuration + 1 = language.redexes y.configuration) := by
  intro language x
  have hregular := regular_ofDefinition hc
  have hadditive := additive language
  have hprepared (a : Execution.Action) (ha : a ∈ events) : a.Prepared language Pattern.Spined :=
    hregular.prepared (hevents a ha)
  have hstart : (start language initial).Exact language Pattern.Spined language.Innermost :=
    ⟨rfl, Simplification.idle_of_frames_nil rfl rfl, by simp [start]⟩
  have hx := hstart.run hadditive hprepared haims
  refine ⟨hx.language, fun f hf => ⟨(hx.counted f hf).remaining, hx.idle.waiting f hf⟩, ?_⟩
  rintro before a after r rfl y hr hanswer
  obtain ⟨hbefore, haims⟩ := haims.append
  have hbeforePrepared (b : Execution.Action) (hb : b ∈ before) := hprepared b (List.mem_append_left _ hb)
  have ha := hprepared a (by simp)
  have hy := hstart.run hadditive hbeforePrepared hbefore
  obtain ⟨f, hopened, hf, hdrains⟩ := hy.drains_of_request ha haims.1 hr hanswer
  refine ⟨⟨f, hopened, hdrains.length_frames_exact hf hy.counted⟩, fun hinitial hempties => ?_⟩
  have hgood := good_run hadditive hbeforePrepared hstart (hregular.answered hinitial) hbefore
  have hrun : x = (y.act a).run after := by simp [x, y, Execution.run]
  rw [hrun]
  refine hy.redexes_of_request hadditive (fun b hb => hprepared b ?_) hgood ha haims hr hanswer hempties
  simp [hb]

namespace Doubling

open Term

-- A language of two functions, of which one is defined by two calls of the other.
def double (t : Term) : Term :=
  app "Lbldouble" [] [t]

def increment (t : Term) : Term :=
  app "Lblincrement" [] [t]

def law (l r : Term) : Axiom :=
  ⟨implies "SortNat" (top "SortNat") (equals "SortNat" "SortNat" l r), []⟩

def definition : Definition where
  modules := [{
    name := "DOUBLING"
    sorts := [⟨"SortNat", []⟩]
    symbols := [⟨"Lbldouble", ["SortNat"], "SortNat", [⟨"function", []⟩]⟩,
      ⟨"Lblincrement", ["SortNat"], "SortNat", [⟨"function", []⟩]⟩]
    axioms := [law (double Counting.count) (increment (increment Counting.count)),
      law (increment Counting.count) (Counting.next Counting.count)] }]

def hint (ordinal : UInt64) (t : Term) (l : Location) : Hint where
  ordinal := ordinal
  configuration := Counting.state (double Counting.zero)
  bindings := [("N", t)]
  location := some l
  events := []

-- The double of zero, and then first the inner one of the two increments.
def hints : List Hint :=
  [hint 0 Counting.zero [0, 1, 0, 1], hint 1 Counting.zero [1, 1], hint 1 (Counting.next Counting.zero) []]

end Doubling

open Doubling in
theorem redexes_run_doubling :
    ∃ c first second third, ofDefinition definition {} = .ok c ∧
      let asked := [Converter.Action.hints hints]
      let language := c.run asked
      let x := start language first.configuration
      let events := [Action.apply first, .apply second, .apply third]
      (∀ a ∈ events, c.Follows asked a) ∧ x.AimsAll language.Innermost events ∧
      (x.act (.apply first)).simplification.frames.map (·.remaining) = [2] ∧
      (x.act (.apply first)).Empties [.apply second, .apply third] ∧
      language.redexes (x.run events).configuration + 1 = language.redexes x.configuration := by
  have hreplayed : (ofDefinition definition {}).toOption.any fun c =>
      ((Hint.convertAll hints).run c).1.toOption.any fun trace =>
        trace.steps.length = 3 ∧ ∀ first ∈ trace.steps.head?,
          let language := c.run [.hints hints]
          let x := start language first.configuration
          let events := trace.steps.map Action.apply
          x.AimsAll language.Innermost events ∧
          (x.request? (.apply first)).isSome ∧ (x.answer (.apply first)).isOk ∧
          (x.act (.apply first)).simplification.frames.map (·.remaining) = [2] ∧
          (x.act (.apply first)).Empties events.tail := by
    decide +kernel
  obtain ⟨c, hc, h⟩ := exists_of_any hreplayed
  obtain ⟨trace, htrace, h⟩ := exists_of_any h
  obtain ⟨hlength, h⟩ := of_decide_eq_true h
  obtain ⟨first, second, third, hsteps⟩ := List.length_eq_three.mp hlength
  rw [hsteps] at h
  obtain ⟨haims, hrequest, hok, hwaiting, hempties⟩ := h first rfl
  obtain ⟨r, hr⟩ := Option.isSome_iff_exists.mp hrequest
  obtain ⟨_, hanswer⟩ := isOk_iff.mp hok
  have htraced (step : Step) (hstep : step ∈ [first, second, third]) : c.Traced [.hints hints] step :=
    ⟨[], hints, [], trace, rfl, htrace, hsteps ▸ hstep⟩
  have hfollows : ∀ a ∈ [Action.apply first, .apply second, .apply third], c.Follows [.hints hints] a := by
    simpa [Follows] using htraced
  have hinitial := Answered.configuration (htraced first (by simp))
  obtain ⟨-, -, hbatch⟩ := redexes_run hc [.hints hints] hfollows haims
  obtain ⟨-, hcount⟩ := hbatch [] (.apply first) [.apply second, .apply third] r rfl hr hanswer
  exact ⟨c, first, second, third, hc, hfollows, haims, hwaiting, hempties, hcount hinitial hempties⟩

end Runs

end Kore
end MatchingLogic
