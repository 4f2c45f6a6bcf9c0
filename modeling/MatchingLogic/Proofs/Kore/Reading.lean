import MatchingLogic.Proofs.Kore.Run

namespace MatchingLogic.Kore

open Converter

namespace Conversion

variable {α β : Type} {act : Conversion α} {c c' : Converter} {a : α} {E : ConversionError → Prop}
  {Q : α → Converter → Prop} {R : β → Converter → Prop}

-- From `c`, the conversion answers as `Q` says and has only added records, or it fails as `E` says.
def Leads (E : ConversionError → Prop) (act : Conversion α) (c : Converter) (Q : α → Converter → Prop) : Prop :=
  Ends act c (fun a c' => c.Extends c' ∧ Q a c') fun e _ => E e

theorem leads_pure (h : Q a c) : Leads E (pure a) c Q :=
  ends_pure ⟨.refl c, h⟩

theorem leads_get {f : Converter → Conversion α} (h : Leads E (f c) c Q) : Leads E (get >>= f) c Q :=
  h

theorem Leads.bind {f : α → Conversion β} (h : Leads E act c Q)
    (hf : ∀ a c', c.Extends c' → Q a c' → Leads E (f a) c' R) : Leads E (act >>= f) c R :=
  Ends.bind h fun a c' ⟨hc', ha⟩ =>
    (hf a c' hc' ha).mono fun _ _ ⟨hc'', hb⟩ => ⟨hc'.trans hc'', hb⟩

theorem Leads.answer (h : Leads E act c Q) (hrun : act.run c = (.ok a, c')) : c.Extends c' ∧ Q a c' := by
  have hok := (ends_run.mp h).1 a (congrArg Prod.fst hrun)
  rwa [hrun] at hok

theorem Leads.succeeds (h : Leads (fun _ => False) act c Q) :
    ∃ a c', act.run c = (.ok a, c') ∧ c.Extends c' ∧ Q a c' :=
  Ends.succeeds h

theorem leads_sort {name : SortName} {f : Pattern → Conversion α}
    (h : Leads E (f (c.vocabulary.sort name)) c Q) : Leads E (sort name >>= f) c Q :=
  h

theorem leads_symbol (name : String) : Leads E (symbol name) c fun p c' => p = c'.vocabulary.symbol name ∧
    (name ∈ c'.functionalNames → p ∈ c'.functional) := by
  have hextends : c.Extends (c.addSymbol name) := (lasting_extends c).addSymbol (.refl c) name
  refine ends_modifyGet ⟨hextends, (hextends.symbol name).symm, fun hname => ?_⟩
  exact mem_record.mpr (.inr ⟨hname, rfl⟩)

theorem leads_metavarId (name : String) : Leads E (metavarId name) c fun id c' =>
    name ∈ c'.names ∧ id = c'.vocabulary.metavars.id name := by
  refine ends_modifyGet ⟨(lasting_extends c).addMetavar (.refl c) name, ?_, NameTable.id_declare.symm⟩
  exact NameTable.mem_names_declare.mpr (.inr rfl)

theorem leads_cellHead {symbol : String}
    (h : c.cells.lookup symbol = none → c.cellName.capture? symbol = none → E (.notACell symbol)) :
    Leads E (cellHead symbol) c fun p c' => c'.cells.lookup symbol = some p := by
  refine leads_get ?_
  split
  case h_1 head hhead => exact leads_pure hhead
  case h_2 hnew =>
    split
    case h_1 hname => exact ends_throw (h hnew hname)
    case h_2 name hname =>
      have hextends : c.Extends (c.addCell symbol name) := (lasting_extends c).addCell (.refl c) hnew hname
      have hhead : (c.addCell symbol name).cells.lookup symbol = some (c.vocabulary.symbol name) := by
        rw [lookup_addCell, if_pos rfl]
      exact Ends.bind (ends_set (Q := fun _ c' => c' = c.addCell symbol name) rfl) fun _ _ hc' =>
        ends_pure (hc' ▸ ⟨hextends, hhead⟩)

theorem leads_sorts {names : List SortName} {f : List Pattern → Conversion α}
    (h : Leads E (f (names.map c.vocabulary.sort)) c Q) : Leads E (names.mapM sort >>= f) c Q := by
  induction names generalizing f with
  | nil =>
    rw [List.mapM_nil, pure_bind]
    exact h
  | cons name names ih =>
    rw [List.mapM_cons, bind_assoc]
    refine leads_sort ?_
    rw [bind_assoc]
    refine ih ?_
    rw [pure_bind]
    exact h

end Conversion

open Conversion

namespace Term

variable {c c' : Converter} {t : Term} {ts : List Term} {p : Pattern} {inCell : Bool}
  {known known' : String → Bool} {E : ConversionError → Prop}

-- By the records of `c`, the term reads as the pattern. An application may be read as a cell if it is recorded
-- as one. At the root this is not required unless the symbol is `known`.
inductive Reads (c : Converter) (known : String → Bool) : Bool → Term → Pattern → Prop
  | elementVar {inCell : Bool} {name : String} {s : SortName} (hname : name ∈ c.names) :
    Reads c known inCell (elementVar name s) (.metavar (c.vocabulary.metavars.id name))
  | emptyCell {inCell : Bool} {f : String} {ss : List SortName} {head : Pattern}
    (hhead : c.cells.lookup f = some head) : Reads c known inCell (app f ss []) head
  | cell {inCell : Bool} {f : String} {ss : List SortName} {ts : List Term} {head : Pattern}
    {ps : List Pattern} (hhead : c.cells.lookup f = some head) (hts : ts ≠ [])
    (hps : List.Forall₂ (Reads c known true) ts ps) :
    Reads c known inCell (app f ss ts)
      (if holdsCells c.cellName ts then .nestedCells (.chain head ps) else .cell (.chain head ps))
  | plain {inCell : Bool} {f : String} {ss : List SortName} {ts : List Term} {ps : List Pattern}
    (hplain : ¬known f) (hname : inCell → ¬c.cellName.accepts f)
    (hfunctional : f ∈ c.functionalNames → c.vocabulary.symbol f ∈ c.functional)
    (hps : List.Forall₂ (Reads c known false) ts ps) :
    Reads c known inCell (app f ss ts)
      (.sortedApp ((Pattern.chain? (ss.map c.vocabulary.sort)).getD .top)
        (.chain (c.vocabulary.symbol f) ps))
  | top {inCell : Bool} {s : SortName} :
    Reads c known inCell (top s) (.sortedTop (c.vocabulary.sort s))
  | value {inCell : Bool} {s : SortName} {text : String} :
    Reads c known inCell (value s text) (.domainValue (c.vocabulary.sort s) (c.vocabulary.symbol text))
  | and {inCell : Bool} {s : SortName} {l r : Term} {p q : Pattern} (hp : Reads c known false l p)
    (hq : Reads c known false r q) :
    Reads c known inCell (and s l r) (.sortedAnd (c.vocabulary.sort s) p q)
  | or {inCell : Bool} {s : SortName} {l r : Term} {p q : Pattern} (hp : Reads c known false l p)
    (hq : Reads c known false r q) :
    Reads c known inCell (or s l r) (.sortedOr (c.vocabulary.sort s) p q)
  | transition {inCell : Bool} {s : SortName} {l r : Term} {p q : Pattern} (hp : Reads c known false l p)
    (hq : Reads c known false r q) :
    Reads c known inCell (transition s l r) (.transition (c.vocabulary.sort s) p q)

-- A reading stays one when records are added, and when less has to be a cell.
theorem Reads.mono (h : t.Reads c known inCell p) (hc : c.Extends c') (hknown : ∀ f, known' f → known f) :
    t.Reads c' known' inCell p := by
  have hsort : c.vocabulary.sort = c'.vocabulary.sort := (funext hc.sort).symm
  induction t generalizing inCell p with
  | elementVar name s =>
    cases h with
    | elementVar hname =>
      rw [← hc.id hname]
      exact .elementVar (hc.names.subset hname)
  | app f ss ts ih =>
    cases h with
    | emptyCell hhead => exact .emptyCell (hc.cells f _ hhead)
    | cell hhead hts hps =>
      rw [← hc.cellName]
      exact .cell (hc.cells f _ hhead) hts (forall₂_imp_mem hps fun t ht _ _ => ih t ht)
    | plain hplain hname hfunctional hps =>
      rw [← hc.symbol, hsort]
      have hps := forall₂_imp_mem hps fun t ht _ _ => ih t ht
      refine .plain (fun hf => hplain (hknown f hf)) ?_ (fun hf => ?_) hps
      · rwa [hc.cellName]
      · rw [hc.symbol]
        exact hc.functional (hfunctional (hc.functionalNames ▸ hf))
  | top s =>
    cases h
    rw [hsort]
    exact .top
  | value s text =>
    cases h
    rw [hsort, ← hc.symbol]
    exact .value
  | and s l r ihl ihr | or s l r ihl ihr | transition s l r ihl ihr =>
    cases h
    rename_i hp hq
    rw [hsort]
    constructor
    · exact ihl hp
    · exact ihr hq
  | _ => cases h

theorem leads_convertAll (h : ∀ t ∈ ts, ∀ c', c.Extends c' →
      Leads E (t.convertIn inCell) c' fun p c'' => t.Reads c'' c'.isCell inCell p) :
    Leads E (convertAll inCell ts) c fun ps c' => List.Forall₂ (Reads c' c.isCell inCell) ts ps := by
  induction ts generalizing c with
  | nil =>
    rw [convertAll]
    exact leads_pure .nil
  | cons t ts ih =>
    rw [convertAll]
    refine (h t (by simp) c (.refl c)).bind fun p c₁ h₁ hp => ?_
    have hrest := ih fun u hu c' hc' => h u (by simp [hu]) c' (h₁.trans hc')
    refine hrest.bind fun ps c₂ h₂ hps => leads_pure (.cons (hp.mono h₂ fun _ hf => hf) ?_)
    exact hps.imp fun _ _ hq => hq.mono (.refl c₂) fun _ => h₁.isCell

-- A cell that is not recorded yet is the outermost one or follows the naming convention.
theorem follows_of_new {f : String} (hcell : c.isCell f || inCell && c.cellName.accepts f)
    (hnew : c.cells.lookup f = none) : f = c.config.topCell ∨ c.cellName.accepts f := by
  simp only [Converter.isCell, hnew, Option.isSome_none, Bool.or_false, Bool.or_eq_true, beq_iff_eq] at hcell
  exact hcell.imp_right fun h => (Bool.and_eq_true_iff.mp h).2

-- What a conversion answers is a reading by the records that it leaves behind, in which all that was a cell
-- before is read as a cell. It fails at terms that have no pattern, and at cells that carry no name.
theorem leads_convertIn (hunsupported : ∀ u ∈ t.nodes, ¬u.convertible → E (.unsupported "pattern" u.kind))
    (hunnamed : ∀ f, f = c.config.topCell ∨ c.cellName.accepts f → c.cellName.capture? f = none →
      E (.notACell f)) :
    Leads E (t.convertIn inCell) c fun p c' => t.Reads c' c.isCell inCell p := by
  induction t generalizing inCell c with
  | elementVar name s =>
    rw [convertIn]
    refine (leads_metavarId name).bind fun id c₁ _ hid => leads_pure ?_
    rw [hid.2]
    exact .elementVar hid.1
  | app f ss ts ih =>
    have hargs (inCell : Bool) (c' : Converter) (hc' : c.Extends c') :
        Leads E (convertAll inCell ts) c' fun ps c'' => List.Forall₂ (Reads c'' c'.isCell inCell) ts ps := by
      refine leads_convertAll fun t ht c'' hc'' => ih t ht (fun u hu => ?_) ?_
      · exact hunsupported u (mem_nodes.mpr (.inr ⟨t, ht, hu⟩))
      · have h := hc'.trans hc''
        rwa [h.config, h.cellName]
    rw [convertIn_app]
    refine leads_get ?_
    split
    case isTrue hcell =>
      have hfails (hnew : c.cells.lookup f = none) := hunnamed f (follows_of_new hcell hnew)
      refine (leads_cellHead hfails).bind fun head c₁ h₁ hhead => ?_
      split
      case isTrue hempty =>
        obtain rfl := List.isEmpty_iff.mp hempty
        exact leads_pure (.emptyCell hhead)
      case isFalse hempty =>
        refine (hargs true c₁ h₁).bind fun ps c₂ h₂ hps => leads_pure ?_
        rw [← (h₁.trans h₂).cellName]
        refine .cell (h₂.cells f head hhead) (by simpa using hempty) (hps.imp fun _ _ hp => ?_)
        exact hp.mono (.refl c₂) fun _ => h₁.isCell
    case isFalse hcell =>
      obtain ⟨hplain, hname⟩ : ¬c.isCell f ∧ (inCell → ¬c.cellName.accepts f) := by simpa using hcell
      refine (leads_symbol f).bind fun head c₁ h₁ hhead => ?_
      obtain ⟨hhead, hfunctional⟩ := hhead
      refine (hargs false c₁ h₁).bind fun ps c₂ h₂ hps => leads_sorts (leads_pure ?_)
      rw [hhead, ← h₂.symbol]
      refine .plain hplain ?_ (fun hf => ?_) (hps.imp fun _ _ hp => hp.mono (.refl _) fun _ => h₁.isCell)
      · rwa [(h₁.trans h₂).cellName]
      · rw [h₂.symbol, ← hhead]
        exact h₂.functional (hfunctional (h₂.functionalNames ▸ hf))
  | top s =>
    rw [convertIn_top]
    exact leads_sort (leads_pure .top)
  | value s text =>
    rw [convertIn_value]
    refine leads_sort ((leads_symbol text).bind fun p c₁ h₁ hp => leads_pure ?_)
    rw [hp.1, ← h₁.sort]
    exact .value
  | and s l r ihl ihr | or s l r ihl ihr | transition s l r ihl ihr =>
    have hl : Leads E (l.convertIn false) c fun p c' => l.Reads c' c.isCell false p :=
      ihl (fun u hu => hunsupported u (mem_nodes.mpr (.inr ⟨l, by simp [children], hu⟩))) hunnamed
    have hr (c' : Converter) (hc' : c.Extends c') :
        Leads E (r.convertIn false) c' fun p c'' => r.Reads c'' c'.isCell false p :=
      ihr (fun u hu => hunsupported u (mem_nodes.mpr (.inr ⟨r, by simp [children], hu⟩)))
        (by rwa [hc'.config, hc'.cellName])
    simp only [convertIn_and, convertIn_or, convertIn_transition]
    refine leads_sort (hl.bind fun p c₁ h₁ hp => (hr c₁ h₁).bind fun p' c₂ h₂ hp' => leads_pure ?_)
    have hp := hp.mono h₂ fun _ hf => hf
    have hp' := hp'.mono (.refl c₂) fun _ => h₁.isCell
    rw [← (h₁.trans h₂).sort]
    constructor
    · exact hp
    · exact hp'
  | _ =>
    rw [convertIn]
    refine ends_throw (hunsupported _ (mem_nodes.mpr (.inl rfl)) (by simp [convertible]))
    all_goals simp

theorem leads_convert (hc : c.Usual) (ht : ∀ u ∈ t.nodes, u.convertible) :
    Leads (fun _ => False) t.convert c fun p c' => t.Reads c' c.isCell false p := by
  exact leads_convertIn (fun u hu hnot => hnot (ht u hu)) fun f hf hunnamed => hc.capture_ne_none hf hunnamed

theorem reads_of_convertIn (h : (t.convertIn inCell).run c = (.ok p, c')) :
    c.Extends c' ∧ t.Reads c' c.isCell inCell p := by
  have hleads : Leads (fun _ => True) (t.convertIn inCell) c fun p c' => t.Reads c' c.isCell inCell p :=
    leads_convertIn (fun _ _ _ => trivial) fun _ _ _ => trivial
  exact hleads.answer h

theorem reads_of_convert (h : t.convert.run c = (.ok p, c')) :
    c.Extends c' ∧ t.Reads c' c.isCell false p :=
  reads_of_convertIn h

end Term
end MatchingLogic.Kore
