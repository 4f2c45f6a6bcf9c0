import MatchingLogic.Certificate.Basic
import MatchingLogic.Proofs.Certificate.Machine
import MatchingLogic.Proofs.Notation.Unfolding

namespace MatchingLogic

namespace Machine

variable {phase : Phase} {theory : List Pattern}

-- Whatever else is there, `code` puts `e` on the stack and turns the memory `μ` into `μ'`.
def Pushes (phase : Phase) (theory : List Pattern) (code : Code) (e : Entry) (μ μ' : List Entry) :
    Prop :=
  ∀ stack published,
    exec phase theory ⟨stack, μ, published⟩ code = some ⟨e :: stack, μ', published⟩

theorem pushes_load {μ : List Entry} {slot : Nat} {e : Entry} (h : μ[slot]? = some e) :
    Pushes phase theory [.load slot] e μ μ := by
  intro stack published
  simp [exec, step, push, h]

namespace Pushes

variable {code code' : Code} {μ μ₁ μ₂ : List Entry} {e e' f : Entry} {i : Instruction}

theorem save (h : Pushes phase theory code e μ μ₁) :
    Pushes phase theory (code ++ [.save]) e μ (μ₁ ++ [e]) := by
  intro stack published
  rw [exec_append, h]
  rfl

-- An instruction that takes one entry, after the code for it.
theorem then_one (h : Pushes phase theory code e μ μ₁)
    (hi : ∀ stack memory published,
      step phase theory ⟨e :: stack, memory, published⟩ i = some ⟨f :: stack, memory, published⟩) :
    Pushes phase theory (code ++ [i]) f μ μ₁ := by
  intro stack published
  rw [exec_append, h]
  simpa [exec] using hi stack μ₁ published

-- An instruction that takes two entries, after the code for both.
theorem then_two (h : Pushes phase theory code e μ μ₁) (h' : Pushes phase theory code' e' μ₁ μ₂)
    (hi : ∀ stack memory published,
      step phase theory ⟨e' :: e :: stack, memory, published⟩ i =
        some ⟨f :: stack, memory, published⟩) :
    Pushes phase theory (code ++ code' ++ [i]) f μ μ₂ := by
  intro stack published
  rw [exec_append, exec_append, h]
  simp only [bind, Option.bind_some]
  rw [h']
  simpa [exec] using hi stack μ₂ published

end Pushes
end Machine

-- What the writer notes under a key is in the slot, according to what the key means.
def Recorded {α : Type} (entry : Pattern → Entry) (Means : α → Pattern → Prop) (μ : List Entry)
    (table : List (α × Nat)) : Prop :=
  ∀ a slot, (a, slot) ∈ table → ∃ q, μ[slot]? = some (entry q) ∧ Means a q

namespace Recorded

variable {α : Type} {entry : Pattern → Entry} {Means : α → Pattern → Prop} {μ : List Entry}
  {table : List (α × Nat)}

theorem lookup [BEq α] [LawfulBEq α] (h : Recorded entry Means μ table) {a : α} {slot : Nat}
    (ha : table.lookup a = some slot) : ∃ q, μ[slot]? = some (entry q) ∧ Means a q := by
  obtain ⟨before, after, heq, -⟩ := List.lookup_eq_some_iff.mp ha
  exact h a slot (by simp [heq])

theorem append (h : Recorded entry Means μ table) (e : Entry) :
    Recorded entry Means (μ ++ [e]) table := by
  intro a slot ha
  have ⟨q, hq, hmeans⟩ := h a slot ha
  have hlt : slot < μ.length := (List.getElem?_eq_some_iff.mp hq).1
  exact ⟨q, by rwa [List.getElem?_append_left hlt], hmeans⟩

theorem cons (h : Recorded entry Means μ table) {n : Nat} (hn : n = μ.length) {a : α} {q : Pattern}
    (ha : Means a q) : Recorded entry Means (μ ++ [entry q]) ((a, n) :: table) := by
  intro b slot hb
  cases hb
  case head => exact ⟨q, by simp [hn], ha⟩
  case tail hb => exact h.append _ b slot hb

end Recorded

namespace Memory

structure Represents (ns : Notations) (m : Memory) (μ : List Entry) : Prop where
  size : m.size = μ.length
  patterns : Recorded .pattern ns.Unfolds μ m.patterns
  proofs : Recorded .proved (fun d => ns.Unfolds d.conclusion) μ m.proofs
  lemmas : Recorded .proved ns.Unfolds μ m.lemmas

namespace Represents

variable {ns : Notations} {m : Memory} {μ : List Entry} {q : Pattern}

theorem empty (ns : Notations) : Represents ns ∅ [] where
  size := rfl
  patterns := nofun
  proofs := nofun
  lemmas := nofun

theorem savePattern (h : m.Represents ns μ) {p : Pattern} (hp : ns.Unfolds p q) :
    (m.savePattern p).Represents ns (μ ++ [.pattern q]) where
  size := by simp [Memory.savePattern, h.size]
  patterns := h.patterns.cons h.size hp
  proofs := h.proofs.append _
  lemmas := h.lemmas.append _

theorem saveProof (h : m.Represents ns μ) {d : Derivation} (hd : ns.Unfolds d.conclusion q) :
    (m.saveProof d).Represents ns (μ ++ [.proved q]) where
  size := by simp [Memory.saveProof, h.size]
  patterns := h.patterns.append _
  proofs := h.proofs.cons h.size hd
  lemmas := h.lemmas.append _

theorem saveLemma (h : m.Represents ns μ) {p : Pattern} (hp : ns.Unfolds p q) :
    (m.saveLemma p).Represents ns (μ ++ [.proved q]) where
  size := by simp [Memory.saveLemma, h.size]
  patterns := h.patterns.append _
  proofs := h.proofs.append _
  lemmas := h.lemmas.cons h.size hp

end Represents
end Memory

namespace Writer

open Machine Memory

variable {ns : Notations} {phase : Phase} {theory : List Pattern}

theorem bind_eq_ok {α β : Type} {w : Writer α} {f : α → Writer β} {m : Memory} {r : β × Memory} :
    (w >>= f).run m = .ok r ↔ ∃ a m₁, w.run m = .ok (a, m₁) ∧ (f a).run m₁ = .ok r := by
  rw [StateT.run_bind, MatchingLogic.bind_eq_ok, Prod.exists]

theorem pure_eq_ok {α : Type} {a : α} {m : Memory} {r : α × Memory} :
    (pure a : Writer α).run m = .ok r ↔ (a, m) = r :=
  ⟨fun h => by cases h; rfl, fun h => by cases h; rfl⟩

theorem mapM_nil_eq_ok {α β : Type} {f : α → Writer β} {m : Memory} {r : List β × Memory} :
    ([].mapM f).run m = .ok r ↔ ([], m) = r := by
  rw [List.mapM_nil, pure_eq_ok]

theorem mapM_cons_eq_ok {α β : Type} {f : α → Writer β} {a : α} {as : List α} {m : Memory}
    {r : List β × Memory} :
    ((a :: as).mapM f).run m = .ok r ↔
      ∃ b m₁ bs m₂, (f a).run m = .ok (b, m₁) ∧ (as.mapM f).run m₁ = .ok (bs, m₂) ∧
        (b :: bs, m₂) = r := by
  simp only [List.mapM_cons, bind_eq_ok, pure_eq_ok]
  grind

-- From an account of the memory, the writer gives code that pushes an entry of this kind with this meaning,
-- and an account of the memory after it, unless it fails.
def Writes (ns : Notations) (phase : Phase) (theory : List Pattern) (w : Writer Code)
    (entry : Pattern → Entry) (Means : Pattern → Prop) : Prop :=
  ∀ ⦃m μ code m'⦄, m.Represents ns μ → w.run m = .ok (code, m') →
    ∃ q μ', Means q ∧ m'.Represents ns μ' ∧ Pushes phase theory code (entry q) μ μ'

theorem shared_eq_ok {p : Pattern} {keep : Bool} {body : Writer Code} {m m' : Memory} {code : Code}
    (h : (shared p keep body).run m = .ok (code, m')) :
    (∃ slot, m.patterns.lookup p = some slot ∧ code = [.load slot] ∧ m' = m) ∨
    m.patterns.lookup p = none ∧ ∃ code₁ m₁, body.run m = .ok (code₁, m₁) ∧
      code = code₁ ++ (if keep then [.save] else []) ∧ m' = if keep then m₁.savePattern p else m₁ := by
  obtain ⟨_, _, hget, h⟩ := bind_eq_ok.mp h
  cases hget
  split at h
  case h_1 slot hslot =>
    cases pure_eq_ok.mp h
    exact .inl ⟨slot, hslot, rfl, rfl⟩
  case h_2 hnone =>
    obtain ⟨code₁, m₁, hbody, h⟩ := bind_eq_ok.mp h
    refine .inr ⟨hnone, code₁, m₁, hbody, ?_⟩
    cases keep
    case false =>
      cases pure_eq_ok.mp h
      exact ⟨(List.append_nil _).symm, rfl⟩
    case true =>
      obtain ⟨_, _, hsave, h⟩ := bind_eq_ok.mp h
      cases hsave
      cases pure_eq_ok.mp h
      exact ⟨rfl, rfl⟩

theorem writes_pure {i : Instruction} {entry : Pattern → Entry} {Means : Pattern → Prop} {q : Pattern}
    (hq : Means q) (hi : ∀ μ, Pushes phase theory [i] (entry q) μ μ) :
    Writes ns phase theory (return [i]) entry Means := by
  intro m μ code m' hm h
  cases pure_eq_ok.mp h
  exact ⟨q, μ, hq, hm, hi μ⟩

theorem writes_throw {e : Error} {entry : Pattern → Entry} {Means : Pattern → Prop} :
    Writes ns phase theory (throw e) entry Means := by
  intro m μ code m' _ h
  cases h

-- A pattern that is saved is loaded, and another is saved under what it unfolds to.
theorem Writes.shared {p : Pattern} {keep : Bool} {body : Writer Code}
    (hbody : Writes ns phase theory body .pattern (ns.Unfolds p)) :
    Writes ns phase theory (Writer.shared p keep body) .pattern (ns.Unfolds p) := by
  intro m μ code m' hm h
  obtain ⟨slot, hslot, rfl, rfl⟩ | ⟨-, code₁, m₁, h₁, rfl, rfl⟩ := shared_eq_ok h
  · have ⟨q, hget, hq⟩ := hm.patterns.lookup hslot
    exact ⟨q, μ, hq, hm, pushes_load hget⟩
  · have ⟨q, μ₁, hq, hm₁, hpush⟩ := hbody hm h₁
    cases keep
    case true =>
      simp only [if_true]
      exact ⟨q, μ₁ ++ [.pattern q], hq, hm₁.savePattern hq, hpush.save⟩
    case false =>
      simp only [Bool.false_eq_true, if_false, List.append_nil]
      exact ⟨q, μ₁, hq, hm₁, hpush⟩

section Instructions

variable {w w' : Writer Code} {entry entry' entry₁ : Pattern → Entry}
  {Means Means' Means₁ : Pattern → Prop} {i : Instruction}

theorem Writes.imp (h : Writes ns phase theory w entry Means) (hi : ∀ q, Means q → Means₁ q) :
    Writes ns phase theory w entry Means₁ := by
  intro m μ code m' hm hrun
  have ⟨q, μ', hq, hm', hpush⟩ := h hm hrun
  exact ⟨q, μ', hi q hq, hm', hpush⟩

theorem Writes.then_one (h : Writes ns phase theory w entry Means)
    (hi : ∀ q, Means q → ∃ q₁, Means₁ q₁ ∧ ∀ stack memory published,
      step phase theory ⟨entry q :: stack, memory, published⟩ i =
        some ⟨entry₁ q₁ :: stack, memory, published⟩) :
    Writes ns phase theory (do return (← w) ++ [i]) entry₁ Means₁ := by
  intro m μ code m' hm hrun
  obtain ⟨code, m₁, hw, hrun⟩ := bind_eq_ok.mp hrun
  cases pure_eq_ok.mp hrun
  have ⟨q, μ₁, hq, hm₁, hpush⟩ := h hm hw
  have ⟨q₁, hq₁, hstep⟩ := hi q hq
  exact ⟨q₁, μ₁, hq₁, hm₁, hpush.then_one hstep⟩

theorem Writes.then_two (h : Writes ns phase theory w entry Means)
    (h' : Writes ns phase theory w' entry' Means')
    (hi : ∀ q q', Means q → Means' q' → ∃ q₁, Means₁ q₁ ∧ ∀ stack memory published,
      step phase theory ⟨entry' q' :: entry q :: stack, memory, published⟩ i =
        some ⟨entry₁ q₁ :: stack, memory, published⟩) :
    Writes ns phase theory (do return (← w) ++ (← w') ++ [i]) entry₁ Means₁ := by
  intro m μ code m' hm hrun
  obtain ⟨code, m₁, hw, hrun⟩ := bind_eq_ok.mp hrun
  obtain ⟨code', m₂, hw', hrun⟩ := bind_eq_ok.mp hrun
  cases pure_eq_ok.mp hrun
  have ⟨q, μ₁, hq, hm₁, hpush⟩ := h hm hw
  have ⟨q', μ₂, hq', hm₂, hpush'⟩ := h' hm₁ hw'
  have ⟨q₁, hq₁, hstep⟩ := hi q q' hq hq'
  exact ⟨q₁, μ₂, hq₁, hm₂, hpush.then_two hpush' hstep⟩

end Instructions

-- Several patterns one after the other: the last one is on top.
theorem mapM_pushes {α : Type} {f : α → Writer Code} {Means : α → Pattern → Prop} {as : List α}
    (hf : ∀ a ∈ as, Writes ns phase theory (f a) .pattern (Means a)) {m m' : Memory} {μ : List Entry}
    {codes : List Code} (hm : m.Represents ns μ) (h : (as.mapM f).run m = .ok (codes, m')) :
    ∃ qs μ', List.Forall₂ Means as qs ∧ m'.Represents ns μ' ∧
      ∀ stack published, exec phase theory ⟨stack, μ, published⟩ codes.flatten =
        some ⟨(qs.map Entry.pattern).reverse ++ stack, μ', published⟩ := by
  induction as generalizing m μ codes with
  | nil =>
    cases mapM_nil_eq_ok.mp h
    exact ⟨[], μ, .nil, hm, fun _ _ => rfl⟩
  | cons a as ih =>
    obtain ⟨code, m₁, codes, m₂, hcode, hcodes, heq⟩ := mapM_cons_eq_ok.mp h
    cases heq
    have ⟨q, μ₁, hq, hm₁, hpush⟩ := hf a (by simp) hm hcode
    have ⟨qs, μ', hqs, hm', hexec⟩ := ih (fun b hb => hf b (by simp [hb])) hm₁ hcodes
    refine ⟨q :: qs, μ', .cons hq hqs, hm', fun stack published => ?_⟩
    rw [List.flatten_cons, exec_append, hpush]
    simpa using hexec (.pattern q :: stack) published

end Writer

open Writer

variable {ns : Notations} {phase : Phase} {theory : List Pattern}

theorem Unfolding.writes {u : Unfolding} (h : u.Faithful ns) (uses : Uses) :
    Writes ns phase theory (u.write uses) .pattern (ns.Unfolds u.folded) := by
  induction u with
  | symbol name => exact writes_pure (.symbol name) fun _ _ _ => rfl
  | elementVar id => exact writes_pure (.elementVar id) fun _ _ _ => rfl
  | setVar id => exact writes_pure (.setVar id) fun _ _ _ => rfl
  | metavar id => exact writes_pure (.metavar id) fun _ _ _ => rfl
  | app l r ihl ihr =>
    refine Writes.shared (.then_two (ihl h.1) (ihr h.2) fun q q' hq hq' => ?_)
    exact ⟨.app q q', .app hq hq', fun _ _ _ => rfl⟩
  | imp a c iha ihc =>
    refine Writes.shared (.then_two (iha h.1) (ihc h.2) fun q q' hq hq' => ?_)
    exact ⟨.imp q q', .imp hq hq', fun _ _ _ => rfl⟩
  | ex v b ih =>
    refine Writes.shared (.then_one (ih h) fun q hq => ?_)
    exact ⟨.ex v q, .ex hq, fun _ _ _ => rfl⟩
  | mu v b ih =>
    refine Writes.shared (.then_one (ih h) fun q hq => ?_)
    exact ⟨.mu v q, .mu hq, fun _ _ _ => rfl⟩
  | sugar name args body ih =>
    exact Writes.shared ((ih () h.2).imp fun _ hq => .sugar h.1 hq)
  | stuck name args reason => exact Writes.shared writes_throw

theorem Notations.writes_unfolding (p : Pattern) (uses : Uses) :
    Writes ns phase theory ((ns.unfolding p).write uses) .pattern (ns.Unfolds p) := by
  have h : Writes ns phase theory ((ns.unfolding p).write uses) .pattern _ :=
    Unfolding.writes (ns.faithful_unfolding p) uses
  rwa [ns.folded_unfolding] at h

namespace Certificate

open Machine

-- Every term of a stream leaves the stack as it was and adds to what is published.
theorem mapM_publishes {α : Type} {write : α → Writer Code} {Means : α → Pattern → Prop}
    {terms : List α} (hw : ∀ a ∈ terms, Writes ns phase theory (write a) phase.entry (Means a))
    {m m' : Memory} {μ : List Entry} {codes : List Code} (hm : m.Represents ns μ)
    (h : (terms.mapM (publish write)).run m = .ok (codes, m')) :
    ∃ qs μ', List.Forall₂ Means terms qs ∧ m'.Represents ns μ' ∧
      ∀ stack published, exec phase theory ⟨stack, μ, published⟩ codes.flatten =
        some ⟨stack, μ', published ++ qs⟩ := by
  induction terms generalizing m μ codes with
  | nil =>
    cases mapM_nil_eq_ok.mp h
    exact ⟨[], μ, .nil, hm, fun _ _ => by simp [exec]⟩
  | cons a terms ih =>
    obtain ⟨code, m₁, codes, m₂, hcode, hcodes, heq⟩ := mapM_cons_eq_ok.mp h
    cases heq
    obtain ⟨code, m₁, hcode, hpublish⟩ := Writer.bind_eq_ok.mp hcode
    cases pure_eq_ok.mp hpublish
    obtain ⟨q, μ₁, hq, hm₁, hpush⟩ := hw a (by simp) hm hcode
    obtain ⟨qs, μ', hqs, hm', hexec⟩ := ih (fun b hb => hw b (by simp [hb])) hm₁ hcodes
    refine ⟨q :: qs, μ', .cons hq hqs, hm', fun stack published => ?_⟩
    have hone : step phase theory ⟨phase.entry q :: stack, μ₁, published⟩ .publish =
        some ⟨stack, μ₁, published ++ [q]⟩ := by
      cases phase <;> rfl
    rw [List.flatten_cons, exec_append, exec_append, hpush]
    simpa [exec, hone] using hexec stack (published ++ [q])

-- A stream publishes what its terms mean.
theorem replay_publishAll {α : Type} {write : α → Writer Code} {Means : α → Pattern → Prop}
    {terms : List α} {code : Code}
    (hw : ∀ a ∈ terms, Writes ns phase theory (write a) phase.entry (Means a))
    (h : publishAll write terms = .ok code) (hfits : ∀ i ∈ code, i.Fits) :
    ∃ qs, List.Forall₂ Means terms qs ∧ replay phase theory code.encode = some qs := by
  obtain ⟨codes, hcodes, h⟩ := MatchingLogic.bind_eq_ok.mp h
  cases h
  rw [StateT.run'_eq] at hcodes
  obtain ⟨⟨codes, m'⟩, hrun, rfl⟩ := map_eq_ok.mp hcodes
  have ⟨qs, μ', hqs, _, hexec⟩ := mapM_publishes hw (.empty ns) hrun
  refine ⟨qs, hqs, ?_⟩
  rw [replay, run_encode hfits, hexec [] []]
  rfl

end Certificate
end MatchingLogic
