import MatchingLogic.Proofs.Kore.Answers
import MatchingLogic.Proofs.Notation.Arity

namespace MatchingLogic

namespace Notations

open Pattern

-- A conversion uses notations of fixed names, with as many arguments as these take.
theorem within_builtin {name : String} {args : List Pattern}
    (h : (builtin.get? name).map (·.arity) = some args.length) (hargs : ∀ a ∈ args, a.Within builtin.Fits) :
    (sugar name args).Within builtin.Fits :=
  within_sugar.mpr ⟨fits_of_arity h, hargs⟩

end Notations

namespace Kore

open Conversion Notations Pattern

-- All that a converter has stored and may answer with again.
structure Converter.Fits (c : Converter) : Prop where
  cells : ∀ entry ∈ c.cells, entry.2.Within builtin.Fits
  converted : ∀ entry ∈ c.converted, entry.2.pattern.Within builtin.Fits

def Conversion.Fits (act : Conversion Pattern) : Prop :=
  Keeps Converter.Fits (fun p => p.Within builtin.Fits) act

namespace Conversion

theorem fits_sort (name : SortName) : (sort name).Fits :=
  keeps_get.bind fun _ _ => keeps_pure within_symbol

theorem fits_symbol (name : String) : (symbol name).Fits :=
  keeps_modifyGet fun _ hc => ⟨⟨hc.cells, hc.converted⟩, within_symbol⟩

theorem keeps_metavarId (name : String) : Keeps Converter.Fits (fun _ => True) (metavarId name) :=
  keeps_modifyGet fun _ hc => ⟨⟨hc.cells, hc.converted⟩, trivial⟩

theorem fits_cellHead (symbol : String) : (cellHead symbol).Fits := by
  refine keeps_get.bind fun c hc => ?_
  split
  case h_1 head hhead => exact keeps_pure (hc.cells _ (mem_of_lookup hhead))
  case h_2 =>
    split
    case h_1 => exact keeps_throw
    case h_2 name _ =>
      refine (keeps_set ⟨fun entry hentry => ?_, hc.converted⟩).bind fun _ _ => keeps_pure within_symbol
      obtain rfl | hentry := List.mem_cons.mp hentry
      · exact within_symbol
      · exact hc.cells entry hentry

end Conversion

namespace Term

theorem fits_convertAll {inCell : Bool} {ts : List Term} (h : ∀ t ∈ ts, (t.convertIn inCell).Fits) :
    Keeps Converter.Fits (fun ps => ∀ p ∈ ps, p.Within builtin.Fits) (convertAll inCell ts) := by
  induction ts with
  | nil =>
    rw [convertAll]
    exact keeps_pure (by simp)
  | cons t ts ih =>
    rw [convertAll]
    refine (h t (by simp)).bind fun p hp => ?_
    refine (ih fun u hu => h u (by simp [hu])).bind fun ps hps => keeps_pure ?_
    simpa using ⟨hp, hps⟩

theorem fits_relation {relation : Pattern → Pattern → Pattern → Pattern} {s : SortName}
    {left right : Conversion Pattern} (hl : left.Fits) (hr : right.Fits)
    (h : ∀ sort l r : Pattern, sort.Within builtin.Fits → l.Within builtin.Fits →
      r.Within builtin.Fits → (relation sort l r).Within builtin.Fits) :
    Conversion.Fits do return relation (← sort s) (← left) (← right) :=
  (fits_sort s).bind fun _ hs => hl.bind fun _ hl => hr.bind fun _ hr => keeps_pure (h _ _ _ hs hl hr)

theorem fits_convertIn (inCell : Bool) (t : Term) : (t.convertIn inCell).Fits := by
  induction t generalizing inCell with
  | elementVar name s =>
    rw [convertIn]
    exact (keeps_metavarId name).bind fun _ _ => keeps_pure within_metavar
  | app symbol sorts args ih =>
    rw [convertIn_app]
    refine keeps_get.bind fun c hc => ?_
    split
    case isTrue =>
      refine (fits_cellHead symbol).bind fun head hhead => ?_
      split
      case isTrue => exact keeps_pure hhead
      case isFalse =>
        refine (fits_convertAll fun t ht => ih t ht true).bind fun ps hps => keeps_pure ?_
        have hcontent := hhead.chain hps
        split
        case isTrue => exact within_builtin rfl (by simpa using hcontent)
        case isFalse => exact within_builtin rfl (by simpa using hcontent)
    case isFalse =>
      refine (fits_symbol symbol).bind fun head hhead => ?_
      refine (fits_convertAll fun t ht => ih t ht false).bind fun ps hps => ?_
      refine (keeps_mapM fun s _ => fits_sort s).bind fun ss hss => keeps_pure ?_
      have hsorts : ((chain? ss).getD .top).Within builtin.Fits := by
        cases ss with
        | nil => exact within_builtin rfl (by simp)
        | cons s ss => exact (hss s (by simp)).chain fun s hs => hss s (by simp [hs])
      exact within_builtin rfl (by simpa using ⟨hsorts, hhead.chain hps⟩)
  | top s =>
    rw [convertIn_top]
    exact (fits_sort s).bind fun _ hs => keeps_pure (within_builtin rfl (by simpa using hs))
  | value s text =>
    rw [convertIn_value]
    refine (fits_sort s).bind fun _ hs => (fits_symbol text).bind fun _ ht => keeps_pure ?_
    exact within_builtin rfl (by simpa using ⟨hs, ht⟩)
  | and s l r ihl ihr | or s l r ihl ihr | transition s l r ihl ihr =>
    simp only [convertIn_and, convertIn_or, convertIn_transition]
    refine fits_relation (ihl false) (ihr false) fun _ _ _ hs hl hr => ?_
    exact within_builtin rfl (by simpa using ⟨hs, hl, hr⟩)
  | _ =>
    rw [convertIn]
    exact keeps_throw
    all_goals simp

theorem fits_convert (t : Term) : t.convert.Fits :=
  t.fits_convertIn false

end Term

theorem Converter.upholds_fits :
    Upholds Converter.Fits (·.Within builtin.Fits) fun a => a.pattern.Within builtin.Fits where
  addSymbol hc _ := ⟨hc.cells, hc.converted⟩
  addMetavar hc _ := ⟨hc.cells, hc.converted⟩
  addCell hc _ _ := ⟨List.forall_mem_cons.mpr ⟨within_symbol, hc.cells⟩, hc.converted⟩
  convert := Term.fits_convert
  transition hl hr := within_builtin rfl (by simpa using ⟨hl, hr⟩)
  equation hl hr _ := within_builtin rfl (by simpa using ⟨hl, hr⟩)
  unclassified hp := hp
  stored hc := hc.converted
  addAxiom hc hb := ⟨hc.cells, List.forall_mem_cons.mpr ⟨hb, hc.converted⟩⟩

theorem Conversion.fits_rule (ordinal : UInt64) :
    Keeps Converter.Fits (fun r => r.pattern.Within builtin.Fits) (rule ordinal) :=
  Converter.upholds_fits.rule ordinal

theorem Hint.fits_convertAll (hints : List Hint) :
    Keeps Converter.Fits
      (fun trace => ∀ step ∈ trace.steps, ∀ q ∈ step.substitution.plugs, q.Within builtin.Fits)
      (Hint.convertAll hints) :=
  (Converter.upholds_fits.hints hints).mono fun _ hsteps step hstep => (hsteps step hstep).2

end Kore
end MatchingLogic
