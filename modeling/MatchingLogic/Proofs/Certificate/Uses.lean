import MatchingLogic.Proofs.Certificate.Packaging
import MatchingLogic.Proofs.Notation.Acyclic

namespace MatchingLogic

-- The patterns from which a pattern is written, if there are any.
def Notations.parts? (ns : Notations) : Pattern → Option (List Pattern)
  | .app l r | .imp l r => some [l, r]
  | .ex _ b | .mu _ b => some [b]
  | .sugar name args => (ns.expand name args).toOption.map ([·])
  | _ => some []

theorem Notations.parts?_sugar {ns : Notations} {name : String} {args ps : List Pattern} :
    ns.parts? (.sugar name args) = some ps ↔ ∃ p, ns.expand name args = .ok p ∧ ps = [p] := by
  rw [parts?]
  cases ns.expand name args <;> simp [Except.toOption, eq_comm]

-- The plugs of the last rule.
def Derivation.lastPlugs : Derivation → List Pattern
  | instantiate _ s => s.plugs
  | _ => []

namespace Uses

variable {ns : Notations} {u u' u'' : Uses} {p : Pattern} {d : Derivation}

def Covers (ns : Notations) (u : Uses) (p : Pattern) : Prop :=
  p ∈ u.patterns ∨ ns.parts? p = some []

def CoversProof (u : Uses) (d : Derivation) : Prop :=
  d ∈ u.proofs ∨ d.premises = []

-- All that is needed to write the pattern is noted.
def Settles (ns : Notations) (u : Uses) (p : Pattern) : Prop :=
  ∃ ps, ns.parts? p = some ps ∧ ∀ q ∈ ps, u.Covers ns q

def SettlesProof (ns : Notations) (u : Uses) (d : Derivation) : Prop :=
  (∀ e ∈ d.premises, u.CoversProof e) ∧ ∀ p ∈ d.lastPlugs, u.Covers ns p

-- What is noted in between is settled in the end.
structure Advances (ns : Notations) (u u' : Uses) : Prop where
  patterns : u.patterns ⊆ u'.patterns
  proofs : u.proofs ⊆ u'.proofs
  settles : ∀ p ∈ u'.patterns, p ∈ u.patterns ∨ u'.Settles ns p
  settlesProof : ∀ d ∈ u'.proofs, d ∈ u.proofs ∨ u'.SettlesProof ns d

namespace Advances

theorem refl (ns : Notations) (u : Uses) : u.Advances ns u :=
  ⟨List.Subset.refl _, List.Subset.refl _, fun _ => .inl, fun _ => .inl⟩

theorem covers (h : u.Advances ns u') (hp : u.Covers ns p) : u'.Covers ns p :=
  hp.imp_left fun hp => h.patterns hp

theorem coversProof (h : u.Advances ns u') (hd : u.CoversProof d) : u'.CoversProof d :=
  hd.imp_left fun hd => h.proofs hd

theorem trans (h : u.Advances ns u') (h' : u'.Advances ns u'') : u.Advances ns u'' where
  patterns := List.Subset.trans h.patterns h'.patterns
  proofs := List.Subset.trans h.proofs h'.proofs
  settles p hp := by
    obtain hp | hp := h'.settles p hp
    · refine (h.settles p hp).imp_right ?_
      rintro ⟨ps, hps, hcovers⟩
      exact ⟨ps, hps, fun q hq => h'.covers (hcovers q hq)⟩
    · exact .inr hp
  settlesProof d hd := by
    obtain hd | hd := h'.settlesProof d hd
    · refine (h.settlesProof d hd).imp_right ?_
      rintro ⟨hpremises, hplugs⟩
      exact ⟨fun e he => h'.coversProof (hpremises e he), fun p hp => h'.covers (hplugs p hp)⟩
    · exact .inr hd

end Advances

-- A pattern is noted first, then its parts.
theorem advances_note {parts : Uses → Except ConversionError Uses}
    (hparts : ∀ {v v'}, parts v = .ok v' → v.Advances ns v' ∧ v'.Settles ns p)
    (h : Uses.note p parts u = .ok u') : u.Advances ns u' ∧ u'.Covers ns p := by
  simp only [note] at h
  split at h
  case isTrue hp =>
    cases h
    refine ⟨⟨List.subset_cons_self .., List.Subset.refl _, fun q hq => ?_, fun _ => .inl⟩, .inl (by simp)⟩
    obtain rfl | hq := List.mem_cons.mp hq
    · exact .inl hp
    · exact .inl hq
  case isFalse =>
    obtain ⟨hadvances, hsettles⟩ := hparts h
    refine ⟨⟨fun q hq => hadvances.patterns (by simp [hq]), hadvances.proofs, fun q hq => ?_,
      hadvances.settlesProof⟩, .inl (hadvances.patterns (by simp))⟩
    obtain hq | hq := hadvances.settles q hq
    · obtain rfl | hq := List.mem_cons.mp hq
      · exact .inr hsettles
      · exact .inl hq
    · exact .inr hq

end Uses

open Uses

theorem Unfolding.advances_countUses {ns : Notations} {v : Unfolding} (hv : v.Faithful ns) {u u' : Uses}
    (h : v.countUses u = .ok u') : u.Advances ns u' ∧ u'.Covers ns v.folded := by
  induction v generalizing u u' with
  | symbol | elementVar | setVar | metavar =>
    cases h
    exact ⟨.refl ns u, .inr rfl⟩
  | app l r ihl ihr | imp l r ihl ihr =>
    refine advances_note (fun {w w'} h => ?_) h
    obtain ⟨w₁, h₁, h₂⟩ := bind_eq_ok.mp h
    obtain ⟨hleft, hl⟩ := ihl hv.1 h₁
    obtain ⟨hright, hr⟩ := ihr hv.2 h₂
    exact ⟨hleft.trans hright, _, rfl, by simpa using ⟨hright.covers hl, hr⟩⟩
  | ex x b ih | mu x b ih =>
    refine advances_note (fun {w w'} h => ?_) h
    obtain ⟨hbody, hb⟩ := ih hv h
    exact ⟨hbody, _, rfl, by simpa using hb⟩
  | sugar name args body ih =>
    refine advances_note (fun {w w'} h => ?_) h
    obtain ⟨hbody, hb⟩ := ih () hv.2 h
    exact ⟨hbody, [(body ()).folded], Notations.parts?_sugar.mpr ⟨_, hv.1, rfl⟩, by simpa using hb⟩
  | stuck name args reason => exact advances_note (fun h => by cases h) h

theorem Notations.advances_countUses {ns : Notations} {ps : List Pattern} {u u' : Uses}
    (h : ns.countUses ps u = .ok u') : u.Advances ns u' ∧ ∀ p ∈ ps, u'.Covers ns p := by
  induction ps generalizing u with
  | nil =>
    cases h
    exact ⟨.refl ns _, by simp⟩
  | cons p ps ih =>
    obtain ⟨u₁, h₁, h₂⟩ := bind_eq_ok.mp h
    obtain ⟨hfirst, hp⟩ := Unfolding.advances_countUses (ns.faithful_unfolding p) h₁
    obtain ⟨hrest, hps⟩ := ih h₂
    rw [ns.folded_unfolding] at hp
    exact ⟨hfirst.trans hrest, List.forall_mem_cons.mpr ⟨hrest.covers hp, hps⟩⟩

namespace Derivation

variable {ns : Notations} {d : Derivation} {u u' : Uses}

-- A derivation is noted first, then its premises.
theorem advances_noted (hadvances : Uses.Advances ns { u with proofs := d :: u.proofs } u')
    (hsettles : u'.SettlesProof ns d) : u.Advances ns u' ∧ u'.CoversProof d := by
  refine ⟨⟨hadvances.patterns, fun e he => hadvances.proofs (by simp [he]), hadvances.settles,
    fun e he => ?_⟩, .inl (hadvances.proofs (by simp))⟩
  obtain he | he := hadvances.settlesProof e he
  · obtain rfl | he := List.mem_cons.mp he
    · exact .inr hsettles
    · exact .inl he
  · exact .inr he

theorem advances_again (hd : d ∈ u.proofs) :
    u.Advances ns { u with proofs := d :: u.proofs } ∧
      CoversProof { u with proofs := d :: u.proofs } d := by
  refine ⟨⟨List.Subset.refl _, List.subset_cons_self .., fun _ => .inl, fun e he => ?_⟩, .inl (by simp)⟩
  obtain rfl | he := List.mem_cons.mp he
  · exact .inl hd
  · exact .inl he

theorem advances_countUses (h : d.countUses ns u = .ok u') : u.Advances ns u' ∧ u'.CoversProof d := by
  induction d generalizing u u' with
  | prop1 | prop2 | prop3 | assumed =>
    cases h
    exact ⟨.refl ns u, .inr rfl⟩
  | modusPonens left right ihl ihr =>
    simp only [countUses] at h
    split at h
    case isTrue hd =>
      cases h
      exact advances_again hd
    case isFalse =>
      obtain ⟨u₁, h₁, h₂⟩ := bind_eq_ok.mp h
      obtain ⟨hleft, hl⟩ := ihl h₁
      obtain ⟨hright, hr⟩ := ihr h₂
      refine advances_noted (hleft.trans hright) ⟨?_, by simp [lastPlugs]⟩
      simpa [premises] using ⟨hright.coversProof hl, hr⟩
  | instantiate inner s ih =>
    simp only [countUses] at h
    split at h
    case isTrue hd =>
      cases h
      exact advances_again hd
    case isFalse =>
      obtain ⟨u₁, h₁, h₂⟩ := bind_eq_ok.mp h
      obtain ⟨hplugs, hs⟩ := Notations.advances_countUses h₁
      obtain ⟨hinner, hi⟩ := ih h₂
      refine advances_noted (hplugs.trans hinner) ⟨by simpa [premises] using hi, fun p hp => ?_⟩
      exact hinner.covers (hs p hp)

end Derivation

theorem Notations.advances_countProofUses {ns : Notations} {ds : List Derivation} {u u' : Uses}
    (h : ns.countProofUses ds u = .ok u') : u.Advances ns u' ∧ ∀ d ∈ ds, u'.CoversProof d := by
  induction ds generalizing u with
  | nil =>
    cases h
    exact ⟨.refl ns _, by simp⟩
  | cons d ds ih =>
    obtain ⟨u₁, h₁, h₂⟩ := bind_eq_ok.mp h
    obtain ⟨hfirst, hd⟩ := Derivation.advances_countUses h₁
    obtain ⟨hrest, hds⟩ := ih h₂
    exact ⟨hfirst.trans hrest, List.forall_mem_cons.mpr ⟨hrest.coversProof hd, hds⟩⟩

section Complete

variable {ns : Notations} {u : Uses}

-- Down from what is noted, there is nothing that was not noted.
theorem Unfolding.stuckOnly_of_covers (hu : (∅ : Uses).Advances ns u) {v : Unfolding}
    (hfaithful : v.Faithful ns) (hexhaustive : v.Exhaustive ns) (hv : u.Covers ns v.folded) :
    v.StuckOnly fun _ => False := by
  have hsettles {p : Pattern} (hp : u.Covers ns p) : u.Settles ns p := by
    obtain hp | hp := hp
    · exact (hu.settles p hp).elim (fun h => by cases h) id
    · exact ⟨[], hp, by simp⟩
  induction v with
  | symbol | elementVar | setVar | metavar => trivial
  | app l r ihl ihr | imp l r ihl ihr =>
    obtain ⟨_, hps, hcovers⟩ := hsettles hv
    cases hps
    exact ⟨ihl hfaithful.1 hexhaustive.1 (hcovers _ (by simp)),
      ihr hfaithful.2 hexhaustive.2 (hcovers _ (by simp))⟩
  | ex x b ih | mu x b ih =>
    obtain ⟨_, hps, hcovers⟩ := hsettles hv
    cases hps
    exact ih hfaithful hexhaustive (hcovers _ (by simp))
  | sugar name args body ih =>
    obtain ⟨_, hps, hcovers⟩ := hsettles hv
    obtain ⟨p, hp, rfl⟩ := Notations.parts?_sugar.mp hps
    cases hfaithful.1.symm.trans hp
    exact ih () hfaithful.2 hexhaustive (hcovers _ (by simp))
  | stuck name args reason =>
    obtain ⟨_, hps, -⟩ := hsettles hv
    obtain ⟨p, hp, -⟩ := Notations.parts?_sugar.mp hps
    exact hexhaustive p hp

theorem Derivation.covers_of_mem_plugs (hu : (∅ : Uses).Advances ns u) {d : Derivation}
    (hd : u.CoversProof d) {p : Pattern} (hp : p ∈ d.plugs) : u.Covers ns p := by
  have hsettles {e : Derivation} (he : u.CoversProof e) (hpremises : e.premises ≠ []) :
      u.SettlesProof ns e := by
    obtain he | he := he
    · exact (hu.settlesProof e he).elim (fun h => by cases h) id
    · exact absurd he hpremises
  induction d with
  | prop1 | prop2 | prop3 | assumed => cases hp
  | modusPonens left right ihl ihr =>
    obtain ⟨hpremises, -⟩ := hsettles hd (by simp [premises])
    obtain hp | hp := List.mem_append.mp hp
    · exact ihl (hpremises left (by simp [premises])) hp
    · exact ihr (hpremises right (by simp [premises])) hp
  | instantiate inner s ih =>
    obtain ⟨hpremises, hplugs⟩ := hsettles hd (by simp [premises])
    obtain hp | hp := List.mem_append.mp hp
    · exact hplugs p hp
    · exact ih (hpremises inner (by simp [premises])) hp

theorem Notations.stuckOnly_of_countProofUses (hns : ns.Acyclic) {ds : List Derivation}
    (h : ns.countProofUses ds ∅ = .ok u) {d : Derivation} (hd : d ∈ ds) {p : Pattern} (hp : p ∈ d.plugs) :
    (ns.unfolding p).StuckOnly fun _ => False := by
  obtain ⟨hu, hds⟩ := advances_countProofUses h
  refine Unfolding.stuckOnly_of_covers hu (ns.faithful_unfolding p) (exhaustive_unfolding hns p) ?_
  rw [ns.folded_unfolding]
  exact Derivation.covers_of_mem_plugs hu (hds d hd) hp

end Complete

end MatchingLogic
