import MatchingLogic.Proofs.Kore.Run

namespace MatchingLogic

namespace Substitution

variable {P : Pattern → Prop} {s : Substitution} {id : UInt32} {p : Pattern}

theorem forall_plugs_empty : ∀ q ∈ (∅ : Substitution).plugs, P q := by
  intro q hq
  cases hq

theorem forall_plugs_insert (hs : ∀ q ∈ s.plugs, P q) (hp : P p) : ∀ q ∈ (s.insert id p).plugs, P q := by
  intro q hq
  obtain rfl | hq := mem_plugs_insert hq
  · exact hp
  · exact hs q hq

end Substitution

namespace Kore

open Conversion

-- Terms are converted to patterns of `P` and axioms to those of `Q`, of which `I` says that they are stored.
structure Converter.Upholds (I : Converter → Prop) (P : Pattern → Prop) (Q : MatchingLogic.Axiom → Prop) : Prop
    extends Converter.Steady I where
  convert : ∀ t : Term, Keeps I P t.convert
  transition : ∀ {name l r}, P l → P r → Q ⟨.transition, .transition (.symbol name) l r, ∅⟩
  equation : ∀ {name l r s}, P l → P r → (∀ q ∈ s.plugs, P q) →
    Q ⟨.equation, .equation (.symbol name) l r, s⟩
  unclassified : ∀ {p}, P p → Q ⟨.unclassified, p, ∅⟩
  stored : ∀ {c}, I c → ∀ entry ∈ c.converted, Q entry.2
  addAxiom : ∀ {c a b}, I c → Q b → I { c with converted := (a, b) :: c.converted }

namespace Converter.Upholds

variable {I : Converter → Prop} {P : Pattern → Prop} {Q : MatchingLogic.Axiom → Prop} (h : Upholds I P Q)
include h

omit h in
theorem sort (name : SortName) : Keeps I (fun p => ∃ n, p = .symbol n) (sort name) :=
  keeps_get.bind fun _ _ => keeps_pure ⟨_, rfl⟩

theorem requirements (condition : Term) : Keeps I (fun s => ∀ q ∈ s.plugs, P q) condition.requirements := by
  refine keeps_foldlM Substitution.forall_plugs_empty fun (name, t) _ s hs => ?_
  refine (h.metavarId name).bind fun _ _ => (h.convert t).bind fun p hp => ?_
  exact keeps_pure (Substitution.forall_plugs_insert hs hp)

theorem classify (t : Term) : Keeps I Q t.classify := by
  have hother (t : Term) : Keeps I Q (do return ⟨.unclassified, ← t.convert, ∅⟩) :=
    (h.convert t).bind fun _ hp => keeps_pure (h.unclassified hp)
  rw [Term.classify.eq_def]
  simp only [node_transition, node_equation, pure_bind]
  split
  case h_1 s _ l _ _ r _ =>
    refine (sort s).bind fun _ hs => ?_
    obtain ⟨name, rfl⟩ := hs
    refine (h.convert l).bind fun _ hl => (h.convert r).bind fun _ hr => ?_
    exact keeps_pure (h.transition hl hr)
  case h_2 condition conclusion =>
    split
    case h_1 s _ l r _ =>
      refine (sort s).bind fun _ hs => ?_
      obtain ⟨name, rfl⟩ := hs
      refine (h.convert l).bind fun _ hl => (h.convert r.stripped).bind fun _ hr => ?_
      exact (h.requirements condition).bind fun _ hs => keeps_pure (h.equation hl hr hs)
    case h_2 => exact hother _
  case h_3 => exact hother t

theorem convertAxiom (a : Axiom) : Keeps I Q a.convert := by
  refine keeps_get.bind fun c hc => ?_
  split
  case h_1 b hb => exact keeps_pure (h.stored hc _ (mem_of_lookup hb))
  case h_2 =>
    refine (h.classify a.term).bind fun b hb => ?_
    exact (keeps_modify fun c hc => h.addAxiom hc hb).bind fun _ _ => keeps_pure hb

theorem rule (ordinal : UInt64) : Keeps I Q (rule ordinal) := by
  refine keeps_get.bind fun c _ => ?_
  split
  case h_1 a _ => exact h.convertAxiom a
  case h_2 => exact keeps_throw

theorem bindings (bs : List (String × Term)) : Keeps I (fun s => ∀ q ∈ s.plugs, P q) (bindings bs) := by
  refine keeps_foldlM Substitution.forall_plugs_empty fun (name, t) _ s hs => ?_
  refine keeps_get.bind fun _ _ => (keeps_lift _).bind fun _ _ => ?_
  exact (h.convert t).bind fun p hp => keeps_pure (Substitution.forall_plugs_insert hs hp)

theorem hint (t : Hint) :
    Keeps I (fun step => P step.configuration ∧ ∀ q ∈ step.substitution.plugs, P q) t.convert := by
  refine (h.rule t.ordinal).bind fun _ _ => (h.convert t.configuration).bind fun _ hp => ?_
  refine (h.bindings t.bindings).bind fun _ hs => ?_
  exact (keeps_mapM fun e _ => h.event e).bind fun _ _ => keeps_pure ⟨hp, hs⟩

theorem hints (ts : List Hint) :
    Keeps I (fun trace => ∀ step ∈ trace.steps, P step.configuration ∧ ∀ q ∈ step.substitution.plugs, P q)
      (Hint.convertAll ts) :=
  (keeps_mapM fun t _ => h.hint t).bind fun _ hsteps => keeps_pure hsteps

theorem act {c : Converter} (hc : I c) (a : Action) : I (c.act a) := by
  cases a with
  | term t => exact (h.convert t).state hc
  | law a => exact (h.convertAxiom a).state hc
  | rule ordinal => exact (h.rule ordinal).state hc
  | bindings bs => exact (h.bindings bs).state hc
  | hint t => exact (h.hint t).state hc
  | hints ts => exact (h.hints ts).state hc
  | sideAxioms => exact hc

theorem run {c : Converter} (hc : I c) (actions : List Action) : I (c.run actions) := by
  induction actions generalizing c with
  | nil => exact hc
  | cons a actions ih => exact ih (h.act hc a)

end Converter.Upholds

end Kore
end MatchingLogic
