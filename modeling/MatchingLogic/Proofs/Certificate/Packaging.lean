import MatchingLogic.Certificate.Basic
import MatchingLogic.Proofs.Notation.Arity
import MatchingLogic.Proofs.Proof.Basic

namespace MatchingLogic

-- `x` does not fail for a reason of packaging.
def Packs {α : Type} (x : Except Error α) : Prop :=
  ∀ e, x ≠ .error (.packaging e)

namespace Writer

variable {α β : Type} {E : Error → Prop}

def FailsOnly (E : Error → Prop) (w : Writer α) : Prop :=
  ∀ m, MatchingLogic.FailsOnly E (w.run m)

theorem failsOnly_pure (a : α) : FailsOnly E (pure a) :=
  fun _ => .ok _

theorem failsOnly_throw {e : Error} (h : E e) : FailsOnly E (throw e : Writer α) :=
  fun _ => .error h

theorem failsOnly_get : FailsOnly E get :=
  fun _ => .ok _

theorem failsOnly_modify (f : Memory → Memory) : FailsOnly E (modify f) :=
  fun _ => .ok _

theorem FailsOnly.bind {w : Writer α} {f : α → Writer β} (hw : w.FailsOnly E)
    (hf : ∀ a, (f a).FailsOnly E) : (w >>= f).FailsOnly E :=
  fun m => (hw m).bind fun (a, m') => hf a m'

theorem failsOnly_mapM {f : α → Writer β} {as : List α} (h : ∀ a ∈ as, (f a).FailsOnly E) :
    FailsOnly E (as.mapM f) := by
  induction as with
  | nil => rw [List.mapM_nil]; exact failsOnly_pure _
  | cons a as ih =>
    rw [List.mapM_cons]
    refine (h a (by simp)).bind fun b => ?_
    exact (ih fun a ha => h a (by simp [ha])).bind fun bs => failsOnly_pure _

theorem FailsOnly.shared {p : Pattern} {keep : Bool} {body : Writer Code} (h : body.FailsOnly E) :
    (shared p keep body).FailsOnly E := by
  refine failsOnly_get.bind fun memory => ?_
  split
  case h_1 => exact failsOnly_pure _
  case h_2 =>
    refine h.bind fun code => ?_
    split
    case isTrue => exact (failsOnly_modify _).bind fun _ => failsOnly_pure _
    case isFalse => exact failsOnly_pure _

end Writer

open Writer

section Patterns

variable {E : Error → Prop} {E' : ConversionError → Prop}

theorem Unfolding.failsOnly_write {u : Unfolding} (h : u.StuckOnly fun e => E (.conversion e))
    (uses : Uses) : (u.write uses).FailsOnly E := by
  induction u with
  | symbol | elementVar | setVar | metavar => exact failsOnly_pure _
  | app l r ihl ihr | imp l r ihl ihr =>
    exact .shared ((ihl h.1).bind fun _ => (ihr h.2).bind fun _ => failsOnly_pure _)
  | ex v b ih | mu v b ih => exact .shared ((ih h).bind fun _ => failsOnly_pure _)
  | sugar name args body ih => exact .shared (ih () h)
  | stuck name args reason => exact .shared (failsOnly_throw h)

theorem Uses.failsOnly_note {p : Pattern} {parts : Uses → Except ConversionError Uses}
    (h : ∀ u, FailsOnly E' (parts u)) (u : Uses) : FailsOnly E' (Uses.note p parts u) := by
  simp only [Uses.note]
  split
  case isTrue => exact .ok _
  case isFalse => exact h _

theorem Unfolding.failsOnly_countUses {u : Unfolding} (h : u.StuckOnly E') (uses : Uses) :
    FailsOnly E' (u.countUses uses) := by
  induction u generalizing uses with
  | symbol | elementVar | setVar | metavar => exact .ok _
  | app l r ihl ihr | imp l r ihl ihr =>
    exact Uses.failsOnly_note (fun u => (ihl h.1 u).bind (ihr h.2)) uses
  | ex v b ih | mu v b ih => exact Uses.failsOnly_note (ih h) uses
  | sugar name args body ih => exact Uses.failsOnly_note (ih () h) uses
  | stuck name args reason => exact Uses.failsOnly_note (fun _ => .error h) uses

theorem Notations.failsOnly_countUses {ns : Notations} {ps : List Pattern}
    (h : ∀ p ∈ ps, (ns.unfolding p).StuckOnly E') (uses : Uses) : FailsOnly E' (ns.countUses ps uses) :=
  .foldlM (fun p hp => Unfolding.failsOnly_countUses (h p hp)) uses

end Patterns

namespace Derivation

variable {E : Error → Prop} {E' : ConversionError → Prop} {t : Theory} {uses : Uses} {d : Derivation}
  {body : Writer Code}

theorem failsOnly_shared (h : body.FailsOnly E) : (shared t uses d body).FailsOnly E := by
  refine failsOnly_get.bind fun memory => ?_
  split
  case h_1 => exact failsOnly_pure _
  case h_2 =>
    refine h.bind fun code => ?_
    split
    case isTrue => exact (failsOnly_modify _).bind fun _ => failsOnly_pure _
    case isFalse =>
      split
      case isTrue => exact (failsOnly_modify _).bind fun _ => failsOnly_pure _
      case isFalse => exact failsOnly_pure _

theorem failsOnly_leaf (h : body.FailsOnly E) : (leaf d body).FailsOnly E := by
  refine failsOnly_get.bind fun memory => ?_
  split
  case h_1 => exact failsOnly_pure _
  case h_2 => exact h

theorem failsOnly_write (hleaves : ∀ p ∈ d.leaves, p ∈ t.axioms)
    (hplugs : ∀ p ∈ d.plugs, (t.notations.unfolding p).StuckOnly fun e => E (.conversion e)) :
    (d.write t uses).FailsOnly E := by
  induction d with
  | prop1 | prop2 | prop3 => exact failsOnly_leaf (failsOnly_pure _)
  | assumed p =>
    refine failsOnly_leaf ?_
    split
    case h_1 => exact failsOnly_pure _
    case h_2 hnone => exact absurd (hleaves p (by simp [leaves])) (List.idxOf?_eq_none_iff.mp hnone)
  | modusPonens left right ihl ihr =>
    have hleft := ihl (fun p hp => hleaves p (List.mem_append_left _ hp))
      fun p hp => hplugs p (List.mem_append_left _ hp)
    have hright := ihr (fun p hp => hleaves p (List.mem_append_right _ hp))
      fun p hp => hplugs p (List.mem_append_right _ hp)
    exact failsOnly_shared (hleft.bind fun _ => hright.bind fun _ => failsOnly_pure _)
  | instantiate inner s ih =>
    have hinner := ih hleaves fun p hp => hplugs p (List.mem_append_right _ hp)
    refine failsOnly_shared (hinner.bind fun _ => .bind ?_ fun _ => failsOnly_pure _)
    refine failsOnly_mapM fun p hp => Unfolding.failsOnly_write ?_ uses
    exact hplugs p (List.mem_append_left _ hp)

theorem failsOnly_countUses {ns : Notations} (h : ∀ p ∈ d.plugs, (ns.unfolding p).StuckOnly E')
    (uses : Uses) : FailsOnly E' (d.countUses ns uses) := by
  induction d generalizing uses with
  | prop1 | prop2 | prop3 | assumed => exact .ok _
  | modusPonens left right ihl ihr =>
    simp only [countUses]
    split
    case isTrue => exact .ok _
    case isFalse =>
      refine (ihl (fun p hp => h p (List.mem_append_left _ hp)) _).bind fun uses' => ?_
      exact ihr (fun p hp => h p (List.mem_append_right _ hp)) uses'
  | instantiate inner s ih =>
    simp only [countUses]
    split
    case isTrue => exact .ok _
    case isFalse =>
      have hplugs := fun p hp => h p (List.mem_append_left inner.plugs hp)
      refine (Notations.failsOnly_countUses hplugs _).bind fun uses' => ?_
      exact ih (fun p hp => h p (List.mem_append_right _ hp)) uses'

end Derivation

namespace Certificate

variable {E : Error → Prop} {t : Theory} {claims : List Pattern} {proofs : List Proof}

theorem checkPairs_eq_ok {index : Nat} :
    checkPairs index claims proofs = .ok () ↔ proofs.map (·.conclusion) = claims := by
  induction claims generalizing index proofs with
  | nil => cases proofs <;> simp [checkPairs]
  | cons claim claims ih =>
    cases proofs with
    | nil => simp [checkPairs]
    | cons p proofs =>
      simp only [checkPairs, List.map_cons, List.cons.injEq]
      split
      case isTrue hp => simp [hp, ih]
      case isFalse hp => simp [hp]

theorem failsOnly_publishAll {α : Type} {write : α → Writer Code} {terms : List α}
    (h : ∀ a ∈ terms, (write a).FailsOnly E) : FailsOnly E (publishAll write terms) := by
  have hcodes : Writer.FailsOnly E (terms.mapM (publish write)) :=
    failsOnly_mapM fun a ha => (h a ha).bind fun _ => failsOnly_pure _
  refine FailsOnly.bind ?_ fun _ => .ok _
  rw [StateT.run'_eq]
  exact (hcodes ∅).bind fun r => .ok r.1

theorem failsOnly_patternCode {ns : Notations} {ps order : List Pattern}
    (h : ∀ p ∈ ps, (ns.unfolding p).StuckOnly fun e => E (.conversion e))
    (horder : ∀ p ∈ order, p ∈ ps) : FailsOnly E (patternCode ns ps order) := by
  refine (FailsOnly.mapError (Notations.failsOnly_countUses h ∅)).bind fun uses => ?_
  exact failsOnly_publishAll fun p hp => Unfolding.failsOnly_write (h p (horder p hp)) uses

theorem failsOnly_proofCode (hassumed : ∀ p ∈ proofs, ∀ a ∈ p.assumptions, a ∈ t.axioms)
    (hplugs : ∀ p ∈ proofs, ∀ q ∈ p.derivation.plugs,
      (t.notations.unfolding q).StuckOnly fun e => E (.conversion e)) :
    FailsOnly E (proofCode t proofs) := by
  have hcount (d : Derivation) (hd : d ∈ proofs.map (·.derivation)) (uses : Uses) :
      FailsOnly (fun e => E (.conversion e)) (d.countUses t.notations uses) := by
    obtain ⟨p, hp, rfl⟩ := List.mem_map.mp hd
    exact Derivation.failsOnly_countUses (hplugs p hp) uses
  refine (FailsOnly.mapError (.foldlM hcount ∅)).bind fun uses => failsOnly_publishAll fun d hd => ?_
  obtain ⟨p, hp, rfl⟩ := List.mem_map.mp hd
  refine Derivation.failsOnly_write (fun a ha => ?_) (hplugs p hp)
  exact hassumed p hp a (Derivation.mem_assumptions.mpr ha)

-- Where claims and proofs pair up and all that is assumed is an axiom, only notations may be a reason.
theorem failsOnly_write (hpairs : proofs.map (·.conclusion) = claims)
    (hassumed : ∀ p ∈ proofs, ∀ a ∈ p.assumptions, a ∈ t.axioms)
    (hunfolds : ∀ q ∈ t.axioms ++ claims ++ proofs.flatMap (·.derivation.plugs),
      (t.notations.unfolding q).StuckOnly fun e => E (.conversion e)) :
    FailsOnly E (write t claims proofs) := by
  simp only [List.mem_append, List.mem_flatMap] at hunfolds
  rw [write, checkPairs_eq_ok.mpr hpairs]
  refine (failsOnly_patternCode (fun q hq => hunfolds q (.inl (.inl hq))) fun q hq => hq).bind
    fun _ => ?_
  refine (failsOnly_patternCode (fun q hq => hunfolds q (.inl (.inr hq))) fun q hq => ?_).bind
    fun _ => ?_
  · exact List.mem_reverse.mp hq
  · refine (failsOnly_proofCode hassumed fun p hp q hq => ?_).bind fun _ => .ok _
    exact hunfolds q (.inr ⟨p, hp, hq⟩)

theorem packs_write (hpairs : proofs.map (·.conclusion) = claims)
    (hassumed : ∀ p ∈ proofs, ∀ a ∈ p.assumptions, a ∈ t.axioms) : Packs (write t claims proofs) := by
  have h : FailsOnly (fun e => ∀ e', e ≠ .packaging e') (write t claims proofs) :=
    failsOnly_write hpairs hassumed fun q _ => Unfolding.stuckOnly_any (fun _ => nofun) _
  exact fun e he => h _ he e rfl

theorem exists_write {rank : String → Nat} (hground : t.notations.Grounded rank)
    (hpairs : proofs.map (·.conclusion) = claims)
    (hassumed : ∀ p ∈ proofs, ∀ a ∈ p.assumptions, a ∈ t.axioms)
    (hfits : ∀ q ∈ t.axioms ++ claims ++ proofs.flatMap (·.derivation.plugs),
      q.Within t.notations.Fits) : ∃ c, write t claims proofs = .ok c :=
  (failsOnly_write hpairs hassumed fun q hq =>
    Notations.stuckOnly_unfolding hground (hfits q hq)).exists_ok

end Certificate
end MatchingLogic
