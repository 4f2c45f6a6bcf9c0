import MatchingLogic.Proofs.Certificate.Statements
import MatchingLogic.Proofs.Certificate.Uses

namespace MatchingLogic

-- A pass over derivations turns the lemmas that are known before into those that are known after it, unless it
-- is given up.
abbrev Pass := List Pattern → Option (List Pattern)

namespace Pass

variable {f g : Pass} {lemmas known known' : List Pattern} {conclusion : Pattern}

-- A composite derivation is passed over if its conclusion is known, and makes it known if it is a lemma.
def reuse (lemmas : List Pattern) (conclusion : Pattern) (f : Pass) : Pass := fun known =>
  if conclusion ∈ known then some known
  else (f known).map fun known => if conclusion ∈ lemmas then conclusion :: known else known

theorem reuse_eq_some : reuse lemmas conclusion f known = some known' ↔
    conclusion ∈ known ∧ known' = known ∨
    conclusion ∉ known ∧ ∃ k, f known = some k ∧
      known' = if conclusion ∈ lemmas then conclusion :: k else k := by
  rw [reuse]
  split
  case isTrue h => simp [h, eq_comm]
  case isFalse h => simp [h, eq_comm]

-- A pass adds lemmas. A second one has nothing left to do, whatever else is known by then.
structure Stable (f : Pass) : Prop where
  grows : ∀ {known known'}, f known = some known' → known <:+ known'
  mono : ∀ {known known'}, f known = some known → known ⊆ known' → f known' = some known'
  again : ∀ {known known'}, f known = some known' → f known' = some known'

theorem stable_some : Stable some where
  grows h := by
    cases h
    exact List.suffix_rfl
  mono _ _ := rfl
  again _ := rfl

theorem Stable.bind (hf : f.Stable) (hg : g.Stable) : Stable fun known => f known >>= g where
  grows h := by
    obtain ⟨k, hk, h⟩ := Option.bind_eq_some_iff.mp h
    exact (hf.grows hk).trans (hg.grows h)
  mono h hknown := by
    obtain ⟨k, hk, h⟩ := Option.bind_eq_some_iff.mp h
    -- Nothing is added on the way if nothing is added in the end.
    cases (hf.grows hk).eq_of_length_le (hg.grows h).length_le
    exact Option.bind_eq_some_iff.mpr ⟨_, hf.mono hk hknown, hg.mono h hknown⟩
  again h := by
    obtain ⟨k, hk, h⟩ := Option.bind_eq_some_iff.mp h
    exact Option.bind_eq_some_iff.mpr ⟨_, hf.mono (hf.again hk) (hg.grows h).subset, hg.again h⟩

theorem Stable.reuse (hf : f.Stable) : Stable (reuse lemmas conclusion f) where
  grows h := by
    obtain ⟨-, rfl⟩ | ⟨-, k, hk, rfl⟩ := reuse_eq_some.mp h
    · exact List.suffix_rfl
    · split
      case isTrue => exact (hf.grows hk).trans (List.suffix_cons ..)
      case isFalse => exact hf.grows hk
  mono {known known'} h hknown := by
    by_cases hconclusion : conclusion ∈ known'
    · exact reuse_eq_some.mpr (.inl ⟨hconclusion, rfl⟩)
    · obtain ⟨hmem, -⟩ | ⟨-, k, hk, heq⟩ := reuse_eq_some.mp h
      · exact absurd (hknown hmem) hconclusion
      · have hlength := (hf.grows hk).length_le
        split at heq
        case isTrue =>
          rw [heq, List.length_cons] at hlength
          omega
        case isFalse hlemma =>
          refine reuse_eq_some.mpr (.inr ⟨hconclusion, known', ?_, by rw [if_neg hlemma]⟩)
          exact hf.mono (heq ▸ hk) hknown
  again {known known'} h := by
    by_cases hconclusion : conclusion ∈ known'
    · exact reuse_eq_some.mpr (.inl ⟨hconclusion, rfl⟩)
    · obtain ⟨hmem, rfl⟩ | ⟨-, k, hk, heq⟩ := reuse_eq_some.mp h
      · exact absurd hmem hconclusion
      · split at heq
        case isTrue => exact absurd (by simp [heq]) hconclusion
        case isFalse hlemma =>
          refine reuse_eq_some.mpr (.inr ⟨hconclusion, known', ?_, by rw [if_neg hlemma]⟩)
          exact hf.again (heq ▸ hk)

end Pass

namespace Derivation

variable {axioms lemmas known known' : List Pattern} {d : Derivation} {p : Pattern}

-- Which lemmas are known after a derivation, if all that it assumes is an axiom where it is looked up.
def vet (axioms lemmas : List Pattern) : Derivation → Pass
  | assumed p => fun known => if p ∈ known ∨ p ∈ axioms then some known else none
  | modusPonens left right =>
    .reuse lemmas (modusPonens left right).conclusion fun known =>
      left.vet axioms lemmas known >>= right.vet axioms lemmas
  | instantiate inner s => .reuse lemmas (instantiate inner s).conclusion (inner.vet axioms lemmas)
  | _ => some

theorem vet_assumed_eq_some : (assumed p).vet axioms lemmas known = some known' ↔
    (p ∈ known ∨ p ∈ axioms) ∧ known' = known := by
  simp only [vet]
  split_ifs with h <;> simp [h, eq_comm]

theorem stable_vet (d : Derivation) : Pass.Stable (d.vet axioms lemmas) := by
  induction d with
  | prop1 | prop2 | prop3 => exact Pass.stable_some
  | assumed p =>
    constructor
    case grows =>
      intro known known' h
      rw [(vet_assumed_eq_some.mp h).2]
    case mono =>
      intro known known' h hknown
      obtain ⟨hp, -⟩ := vet_assumed_eq_some.mp h
      exact vet_assumed_eq_some.mpr ⟨hp.imp_left fun hp => hknown hp, rfl⟩
    case again =>
      intro known known' h
      obtain ⟨hp, rfl⟩ := vet_assumed_eq_some.mp h
      exact h
  | modusPonens left right ihl ihr => exact (ihl.bind ihr).reuse
  | instantiate inner s ih => exact ih.reuse

-- Where all that is assumed is an axiom, it does not matter what is looked up.
theorem exists_vet (h : ∀ p ∈ d.leaves, p ∈ axioms) (known : List Pattern) :
    ∃ known', d.vet axioms lemmas known = some known' := by
  induction d generalizing known with
  | prop1 | prop2 | prop3 => exact ⟨known, rfl⟩
  | assumed p => exact ⟨known, vet_assumed_eq_some.mpr ⟨.inr (h p (by simp [leaves])), rfl⟩⟩
  | modusPonens left right ihl ihr =>
    obtain ⟨k, hk⟩ := ihl (fun p hp => h p (List.mem_append_left _ hp)) known
    obtain ⟨k', hk'⟩ := ihr (fun p hp => h p (List.mem_append_right _ hp)) k
    simp only [vet, Pass.reuse, hk, Option.bind_eq_bind, Option.bind_some, hk', Option.map_some]
    exact ⟨_, (apply_ite some ..).symm⟩
  | instantiate inner s ih =>
    obtain ⟨k, hk⟩ := ih h known
    simp only [vet, Pass.reuse, hk, Option.map_some]
    exact ⟨_, (apply_ite some ..).symm⟩

-- Without lemmas, all that is assumed is looked up.
theorem vet_nil (h : d.vet axioms [] [] = some known) : known = [] ∧ ∀ p ∈ d.leaves, p ∈ axioms := by
  induction d generalizing known with
  | prop1 | prop2 | prop3 =>
    cases h
    exact ⟨rfl, by simp [leaves]⟩
  | assumed p =>
    obtain ⟨hp, rfl⟩ := vet_assumed_eq_some.mp h
    simpa [leaves] using hp
  | modusPonens left right ihl ihr =>
    obtain ⟨hmem, -⟩ | ⟨-, k', hparts, rfl⟩ := Pass.reuse_eq_some.mp h
    · cases hmem
    · obtain ⟨k, hleft, hright⟩ := Option.bind_eq_some_iff.mp hparts
      obtain ⟨rfl, hl⟩ := ihl hleft
      obtain ⟨rfl, hr⟩ := ihr hright
      exact ⟨rfl, fun p hp => (List.mem_append.mp hp).elim (hl p) (hr p)⟩
  | instantiate inner s ih =>
    obtain ⟨hmem, -⟩ | ⟨-, k, hinner, rfl⟩ := Pass.reuse_eq_some.mp h
    · cases hmem
    · obtain ⟨rfl, hi⟩ := ih hinner
      exact ⟨rfl, hi⟩

end Derivation

-- The lemmas of which a derivation is saved.
def Memory.known (m : Memory) : List Pattern :=
  m.lemmas.map Prod.fst

theorem Memory.mem_known {m : Memory} {p : Pattern} {slot : Nat} (h : m.lemmas.lookup p = some slot) :
    p ∈ m.known :=
  List.mem_map_of_mem (mem_of_lookup h)

theorem Memory.not_mem_known {m : Memory} {p : Pattern} (h : m.lemmas.lookup p = none) : p ∉ m.known := by
  intro hp
  obtain ⟨⟨q, slot⟩, hentry, rfl⟩ := List.mem_map.mp hp
  simpa using List.lookup_eq_none_iff.mp h _ hentry

-- What is saved for its own sake would not be looked through with another result.
def Memory.Vetted (t : Theory) (m : Memory) : Prop :=
  ∀ entry ∈ m.proofs, entry.1.vet t.axioms t.lemmas m.known = some m.known

namespace Writer

variable {α β : Type} {t : Theory} {f g : Pass}

-- The writer succeeds where the pass does, and then both know the same lemmas.
inductive Agrees (t : Theory) : Except Error (α × Memory) → Option (List Pattern) → Prop
  | ok {a : α} {m : Memory} (hm : m.Vetted t) : Agrees t (.ok (a, m)) (some m.known)
  | error {e : Error} : Agrees t (.error e) none

theorem Agrees.known {a : α} {m : Memory} {o : Option (List Pattern)} (h : Agrees t (.ok (a, m)) o) :
    o = some m.known ∧ m.Vetted t := by
  cases h with
  | ok hm => exact ⟨rfl, hm⟩

def Follows (t : Theory) (w : Writer α) (f : Pass) : Prop :=
  ∀ m, m.Vetted t → Agrees t (w.run m) (f m.known)

theorem follows_pure (a : α) : Follows t (pure a) some :=
  fun _ hm => .ok hm

theorem follows_get {v : Memory → Writer α}
    (h : ∀ m, m.Vetted t → Agrees t ((v m).run m) (f m.known)) : Follows t (get >>= v) f :=
  h

theorem Follows.bind {w : Writer α} {v : α → Writer β} (hw : w.Follows t f)
    (hv : ∀ a, (v a).Follows t g) : (w >>= v).Follows t fun known => f known >>= g := by
  intro m hm
  have hfirst := hw m hm
  simp only [StateT.run_bind]
  generalize w.run m = x, f m.known = o at hfirst
  cases hfirst with
  | ok hm₁ => exact hv _ _ hm₁
  | error => exact .error

-- What comes after may leave the lemmas as they are.
theorem Follows.keep {w : Writer α} {v : α → Writer β} (hw : w.Follows t f)
    (hv : ∀ a, (v a).Follows t some) : (w >>= v).Follows t f := by
  simpa using hw.bind hv

theorem follows_modify {save : Memory → Memory} (hknown : ∀ m, (save m).known = m.known)
    (hproofs : ∀ m, (save m).proofs = m.proofs) : Follows t (modify save) some := by
  intro m hm
  have hsaved : (save m).Vetted t := by
    rw [Memory.Vetted, hknown, hproofs]
    exact hm
  have hagrees : Agrees t (.ok (PUnit.unit, save m)) (some (save m).known) := .ok hsaved
  rwa [hknown] at hagrees

-- Which patterns are saved does not matter.
theorem Follows.shared {p : Pattern} {keep : Bool} {body : Writer Code} (h : body.Follows t some) :
    (shared p keep body).Follows t some := by
  refine follows_get fun m hm => ?_
  split
  case h_1 => exact .ok hm
  case h_2 =>
    refine h.keep (fun code => ?_) m hm
    split
    case isTrue =>
      have hsave : Follows t (modify (·.savePattern p)) some := follows_modify (fun _ => rfl) fun _ => rfl
      exact hsave.keep fun _ => follows_pure _
    case isFalse => exact follows_pure _

end Writer

open Writer

theorem Unfolding.follows_write {t : Theory} {u : Unfolding} (h : u.StuckOnly fun _ => False) (uses : Uses) :
    (u.write uses).Follows t some := by
  induction u with
  | symbol | elementVar | setVar | metavar => exact follows_pure _
  | app l r ihl ihr | imp l r ihl ihr =>
    exact .shared ((ihl h.1).keep fun _ => (ihr h.2).keep fun _ => follows_pure _)
  | ex v b ih | mu v b ih => exact .shared ((ih h).keep fun _ => follows_pure _)
  | sugar name args body ih => exact .shared (ih () h)
  | stuck => cases h

theorem follows_plugs {t : Theory} (uses : Uses) {ps : List Pattern}
    (h : ∀ p ∈ ps, (t.notations.unfolding p).StuckOnly fun _ => False) :
    Follows t (ps.mapM fun p => (t.notations.unfolding p).write uses) some := by
  induction ps with
  | nil =>
    rw [List.mapM_nil]
    exact follows_pure _
  | cons p ps ih =>
    rw [List.mapM_cons]
    refine (Unfolding.follows_write (h p (by simp)) uses).keep fun _ => ?_
    exact (ih fun q hq => h q (by simp [hq])).keep fun _ => follows_pure _

namespace Derivation

variable {t : Theory} {uses : Uses} {d : Derivation} {f : Pass} {body : Writer Code} {known : List Pattern}

-- Whether and how a derivation is saved after it is written.
theorem agrees_saved {m m₁ : Memory} {code : Code} (hm₁ : m₁.Vetted t)
    (hvet : d.vet t.axioms t.lemmas m.known =
      some (if d.conclusion ∈ t.lemmas then d.conclusion :: m₁.known else m₁.known)) :
    Agrees t (StateT.run (if d.conclusion ∈ t.lemmas then do
        modify (·.saveLemma d.conclusion)
        return code ++ [.save]
      else if uses.repeatsProof d then do
        modify (·.saveProof d)
        return code ++ [.save]
      else return code : Writer Code) m₁)
      (some (if d.conclusion ∈ t.lemmas then d.conclusion :: m₁.known else m₁.known)) := by
  split_ifs at hvet ⊢ with hlemma hrepeats
  · refine .ok (m := m₁.saveLemma d.conclusion) fun entry hentry => ?_
    exact (stable_vet entry.1).mono (hm₁ entry hentry) (List.subset_cons_self ..)
  · refine .ok (m := m₁.saveProof d) fun entry hentry => ?_
    obtain rfl | hentry := List.mem_cons.mp hentry
    · exact (stable_vet d).again hvet
    · exact hm₁ entry hentry
  · exact .ok hm₁

theorem follows_shared (hd : d.vet t.axioms t.lemmas = .reuse t.lemmas d.conclusion f)
    (hbody : body.Follows t f) : (shared t uses d body).Follows t (d.vet t.axioms t.lemmas) := by
  refine follows_get fun m hm => ?_
  split
  case h_1 slot hslot =>
    have hvet : d.vet t.axioms t.lemmas m.known = some m.known := by
      obtain hslot | ⟨-, hslot⟩ := Option.or_eq_some_iff.mp hslot
      · exact hm _ (mem_of_lookup hslot)
      · rw [hd]
        exact Pass.reuse_eq_some.mpr (.inl ⟨Memory.mem_known hslot, rfl⟩)
    rw [hvet]
    exact .ok hm
  case h_2 hnone =>
    have hunknown : d.conclusion ∉ m.known := by
      exact Memory.not_mem_known (Option.or_eq_none_iff.mp hnone).2
    have hagrees := hbody m hm
    rw [StateT.run_bind]
    rcases hrun : body.run m with e | ⟨code, m₁⟩
    all_goals rw [hrun] at hagrees
    · have hvet : d.vet t.axioms t.lemmas m.known = none := by
        cases hf : f m.known with
        | none => rw [hd, Pass.reuse, if_neg hunknown, hf, Option.map_none]
        | some k =>
          rw [hf] at hagrees
          cases hagrees
      rw [hvet]
      exact .error
    · obtain ⟨hf, hm₁⟩ := hagrees.known
      have hvet : d.vet t.axioms t.lemmas m.known =
          some (if d.conclusion ∈ t.lemmas then d.conclusion :: m₁.known else m₁.known) := by
        rw [hd]
        exact Pass.reuse_eq_some.mpr (.inr ⟨hunknown, _, hf, rfl⟩)
      rw [hvet]
      exact agrees_saved hm₁ hvet

theorem follows_leaf
    (hd : ∀ known, d.conclusion ∈ known → d.vet t.axioms t.lemmas known = some known)
    (hbody : ∀ m, m.Vetted t → d.conclusion ∉ m.known →
      Agrees t (body.run m) (d.vet t.axioms t.lemmas m.known)) :
    (leaf d body).Follows t (d.vet t.axioms t.lemmas) := by
  refine follows_get fun m hm => ?_
  split
  case h_1 hslot =>
    rw [hd m.known (Memory.mem_known hslot)]
    exact .ok hm
  case h_2 hnone => exact hbody m hm (Memory.not_mem_known hnone)

theorem follows_write (hplugs : ∀ p ∈ d.plugs, (t.notations.unfolding p).StuckOnly fun _ => False) :
    (d.write t uses).Follows t (d.vet t.axioms t.lemmas) := by
  induction d with
  | prop1 | prop2 | prop3 => exact follows_leaf (fun _ _ => rfl) fun _ hm _ => .ok hm
  | assumed p =>
    refine follows_leaf (fun known hp => vet_assumed_eq_some.mpr ⟨.inl hp, rfl⟩) fun m hm hp => ?_
    split
    case h_1 index hindex =>
      have haxiom : p ∈ t.axioms := List.isSome_idxOf?.mp (by rw [hindex]; rfl)
      rw [vet_assumed_eq_some.mpr ⟨.inr haxiom, rfl⟩]
      exact .ok hm
    case h_2 hnone =>
      have hvet : (assumed p).vet t.axioms t.lemmas m.known = none :=
        if_neg (not_or.mpr ⟨hp, List.idxOf?_eq_none_iff.mp hnone⟩)
      rw [hvet]
      exact .error
  | modusPonens left right ihl ihr =>
    have hleft := ihl fun p hp => hplugs p (List.mem_append_left _ hp)
    have hright := ihr fun p hp => hplugs p (List.mem_append_right _ hp)
    exact follows_shared rfl (hleft.bind fun _ => hright.keep fun _ => follows_pure _)
  | instantiate inner s ih =>
    have hinner := ih fun p hp => hplugs p (List.mem_append_right _ hp)
    have hs := follows_plugs uses fun p hp => hplugs p (List.mem_append_left _ hp)
    exact follows_shared rfl (hinner.keep fun _ => hs.keep fun _ => follows_pure _)

-- The derivations of a stream, one after the other.
def vetAll (axioms lemmas : List Pattern) (ds : List Derivation) (known : List Pattern) :
    Option (List Pattern) :=
  ds.foldlM (fun known d => d.vet axioms lemmas known) known

theorem exists_vetAll {axioms lemmas : List Pattern} {ds : List Derivation}
    (h : ∀ d ∈ ds, ∀ p ∈ d.leaves, p ∈ axioms) (known : List Pattern) :
    ∃ known', vetAll axioms lemmas ds known = some known' := by
  induction ds generalizing known with
  | nil => exact ⟨known, rfl⟩
  | cons d ds ih =>
    obtain ⟨k, hk⟩ := exists_vet (h d (by simp)) known
    obtain ⟨known', hknown'⟩ := ih (fun e he => h e (by simp [he])) k
    exact ⟨known', Option.bind_eq_some_iff.mpr ⟨k, hk, hknown'⟩⟩

theorem vetAll_nil {axioms : List Pattern} {ds : List Derivation} (h : vetAll axioms [] ds [] = some known) :
    ∀ d ∈ ds, ∀ p ∈ d.leaves, p ∈ axioms := by
  induction ds with
  | nil => simp
  | cons d ds ih =>
    obtain ⟨k, hk, h⟩ := Option.bind_eq_some_iff.mp h
    obtain ⟨rfl, hd⟩ := vet_nil hk
    exact List.forall_mem_cons.mpr ⟨hd, ih h⟩

theorem follows_publish {ds : List Derivation}
    (hplugs : ∀ d ∈ ds, ∀ p ∈ d.plugs, (t.notations.unfolding p).StuckOnly fun _ => False) :
    Follows t (ds.mapM (Certificate.publish (·.write t uses))) (vetAll t.axioms t.lemmas ds) := by
  induction ds with
  | nil =>
    rw [List.mapM_nil]
    exact follows_pure _
  | cons d ds ih =>
    rw [List.mapM_cons]
    have hd : (d.write t uses).Follows t (d.vet t.axioms t.lemmas) := follows_write (hplugs d (by simp))
    refine (hd.keep fun _ => follows_pure _).bind fun _ => ?_
    exact (ih fun d hd => hplugs d (by simp [hd])).keep fun _ => follows_pure _

end Derivation

namespace Certificate

variable {t : Theory} {claims : List Pattern} {proofs : List Proof}

-- What is asked for whatever the lemmas are.
structure Presentable (ns : Notations) (axioms claims : List Pattern) (proofs : List Proof) : Prop where
  paired : proofs.map (·.conclusion) = claims
  theory : ∃ code, patternCode ns axioms axioms = .ok code
  claims : ∃ code, patternCode ns claims claims.reverse = .ok code
  counted : ∃ uses, ns.countProofUses (proofs.map (·.derivation)) ∅ = .ok uses

theorem exists_publishAll_iff {α : Type} {write : α → Writer Code} {terms : List α} :
    (∃ code, publishAll write terms = .ok code) ↔
      ∃ r, (terms.mapM (publish write)).run ∅ = .ok r := by
  simp only [publishAll, StateT.run'_eq]
  cases (terms.mapM (publish write)).run ∅ <;> simp

theorem exists_proofCode_iff (hns : t.notations.Acyclic) : (∃ code, proofCode t proofs = .ok code) ↔
    (∃ uses, t.notations.countProofUses (proofs.map (·.derivation)) ∅ = .ok uses) ∧
    ∃ known, Derivation.vetAll t.axioms t.lemmas (proofs.map (·.derivation)) [] = some known := by
  have hfollows (uses : Uses)
      (hcount : t.notations.countProofUses (proofs.map (·.derivation)) ∅ = .ok uses) :
      Writer.Agrees t (StateT.run ((proofs.map (·.derivation)).mapM (publish (·.write t uses))) ∅)
        (Derivation.vetAll t.axioms t.lemmas (proofs.map (·.derivation)) []) := by
    refine Derivation.follows_publish (fun d hd p hp => ?_) ∅ (fun _ hentry => by cases hentry)
    exact Notations.stuckOnly_of_countProofUses hns hcount hd hp
  constructor
  case mp =>
    rintro ⟨code, h⟩
    obtain ⟨uses, hcount, hcode⟩ := bind_eq_ok.mp h
    have hcount := mapError_eq_ok.mp hcount
    obtain ⟨⟨codes, m⟩, hrun⟩ := exists_publishAll_iff.mp ⟨code, hcode⟩
    have hagrees := hfollows uses hcount
    rw [hrun] at hagrees
    exact ⟨⟨uses, hcount⟩, m.known, hagrees.known.1⟩
  case mpr =>
    rintro ⟨⟨uses, hcount⟩, known, hknown⟩
    have hagrees := hfollows uses hcount
    rw [hknown] at hagrees
    rcases hrun : ((proofs.map (·.derivation)).mapM (publish (·.write t uses))).run ∅ with e | r
    · rw [hrun] at hagrees
      cases hagrees
    · obtain ⟨code, hcode⟩ := exists_publishAll_iff.mpr ⟨r, hrun⟩
      exact ⟨code, bind_eq_ok.mpr ⟨uses, mapError_eq_ok.mpr hcount, hcode⟩⟩

theorem exists_write_iff (hns : t.notations.Acyclic) : (∃ c, write t claims proofs = .ok c) ↔
    Presentable t.notations t.axioms claims proofs ∧
    ∃ known, Derivation.vetAll t.axioms t.lemmas (proofs.map (·.derivation)) [] = some known := by
  constructor
  case mp =>
    rintro ⟨c, h⟩
    obtain ⟨hpairs, theory, statements, code, htheory, hstatements, hcode, -⟩ := writer_steps h
    obtain ⟨hcounted, hvetted⟩ := (exists_proofCode_iff hns).mp ⟨code, hcode⟩
    exact ⟨⟨checkPairs_eq_ok.mp hpairs, ⟨theory, htheory⟩, ⟨statements, hstatements⟩, hcounted⟩, hvetted⟩
  case mpr =>
    rintro ⟨⟨hpaired, ⟨theory, htheory⟩, ⟨statements, hstatements⟩, hcounted⟩, hvetted⟩
    obtain ⟨code, hcode⟩ := (exists_proofCode_iff hns).mpr ⟨hcounted, hvetted⟩
    refine ⟨⟨theory.encode, statements.encode, code.encode⟩, ?_⟩
    refine bind_eq_ok.mpr ⟨(), mapError_eq_ok.mpr (checkPairs_eq_ok.mpr hpaired), ?_⟩
    refine bind_eq_ok.mpr ⟨theory, htheory, bind_eq_ok.mpr ⟨statements, hstatements, ?_⟩⟩
    exact bind_eq_ok.mpr ⟨code, hcode, rfl⟩

-- Lemmas do not spoil anything, and what is accepted with them is accepted without them if nothing but axioms
-- is assumed. With lemmas, an assumption may also be a lemma that is known where the assumption is met, or
-- stand in a derivation that is passed over.
theorem accepted_iff {ns : Notations} (hns : ns.Acyclic) (axioms lemmas claims : List Pattern)
    (proofs : List Proof) :
    let accepted (lemmas : List Pattern) := ∃ c, write ⟨ns, axioms, lemmas⟩ claims proofs = .ok c
    (accepted [] ↔ accepted lemmas ∧ ∀ p ∈ proofs, ∀ a ∈ p.assumptions, a ∈ axioms) ∧
    (accepted lemmas ↔ Presentable ns axioms claims proofs ∧
      ∃ known, Derivation.vetAll axioms lemmas (proofs.map (·.derivation)) [] = some known) := by
  intro accepted
  have hiff (lemmas : List Pattern) : accepted lemmas ↔ Presentable ns axioms claims proofs ∧
      ∃ known, Derivation.vetAll axioms lemmas (proofs.map (·.derivation)) [] = some known :=
    exists_write_iff (t := ⟨ns, axioms, lemmas⟩) hns
  have hleaves : (∀ p ∈ proofs, ∀ a ∈ p.assumptions, a ∈ axioms) ↔
      ∀ d ∈ proofs.map (·.derivation), ∀ a ∈ d.leaves, a ∈ axioms := by
    simp [Proof.assumptions, Derivation.mem_assumptions]
  refine ⟨?_, hiff lemmas⟩
  rw [hiff [], hiff lemmas, hleaves]
  constructor
  case mp =>
    rintro ⟨hpresentable, known, hknown⟩
    have hassumed := Derivation.vetAll_nil hknown
    exact ⟨⟨hpresentable, Derivation.exists_vetAll hassumed []⟩, hassumed⟩
  case mpr =>
    rintro ⟨⟨hpresentable, -⟩, hassumed⟩
    exact ⟨hpresentable, Derivation.exists_vetAll hassumed []⟩

namespace Shortcut

-- From `a` and `a → b` to `b`.
def a : Pattern := .symbol "a"

def b : Pattern := .symbol "b"

def axioms : List Pattern := [a, .imp a b]

def derived : Proof :=
  ⟨.modusPonens (.assumed a) (.assumed (.imp a b)), trivial, trivial, b, rfl⟩

end Shortcut

open Shortcut in
theorem accepted_iff_shortcut :
    Notations.builtin.Acyclic ∧
    (∃ c, write ⟨.builtin, axioms, [b]⟩ [b, b] [derived, derived] = .ok c) ∧
    ∃ c, write ⟨.builtin, axioms, []⟩ [b, b] [derived, derived] = .ok c := by
  have hacyclic := Notations.grounded_builtin.acyclic
  have haccepted : ∃ c, write ⟨.builtin, axioms, [b]⟩ [b, b] [derived, derived] = .ok c :=
    isOk_iff.mp (by decide +kernel)
  have hiff := (accepted_iff hacyclic axioms [b] [b, b] [derived, derived]).1
  exact ⟨hacyclic, haccepted, hiff.mpr ⟨haccepted, by decide +kernel⟩⟩

-- The second proof assumes what it claims. This is no axiom, but it is derived as a lemma before.
open Shortcut in
theorem unknown_axiom_accepted :
    (∃ c, write ⟨.builtin, axioms, [b]⟩ [b, b] [derived, .assumed b] = .ok c) ∧
    write ⟨.builtin, axioms, []⟩ [b, b] [derived, .assumed b] = .error (.packaging (.unknownAxiom "b")) ∧
    b ∈ (Proof.assumed b).assumptions ∧ b ∉ axioms := by
  refine ⟨isOk_iff.mp (by decide +kernel), rfl, by decide +kernel, by decide +kernel⟩

end Certificate
end MatchingLogic
