import MatchingLogic.Proofs.Kore.Packaging
import MatchingLogic.Proofs.Kore.Reading

namespace MatchingLogic

namespace Pattern

-- The head of a sorted application.
def appliedHead? : Pattern → Option Pattern
  | sugar "kore-app" [_, applied] => some applied.head
  | _ => none

-- The heads of all sorted applications in the pattern.
def applied (p : Pattern) : List Pattern :=
  p.nodes.filterMap appliedHead?

theorem applied_eq (p : Pattern) : p.applied = p.appliedHead?.toList ++ p.children.flatMap applied := by
  rw [applied, nodes_eq, List.filterMap_cons, List.filterMap_flatMap]
  cases p.appliedHead? <;> rfl

@[simp] theorem applied_symbol (name : String) : (symbol name).applied = [] := rfl

@[simp] theorem applied_metavar (id : UInt32) : (metavar id).applied = [] := rfl

@[simp] theorem applied_chain (head : Pattern) (args : List Pattern) :
    (chain head args).applied = head.applied ++ args.flatMap applied := by
  induction args generalizing head with
  | nil => simp [chain]
  | cons a args ih =>
    have happ : (app head a).applied = head.applied ++ a.applied := by
      simp [applied_eq (app head a), appliedHead?, children]
    rw [List.flatMap_cons, ← List.append_assoc, ← happ]
    exact ih (app head a)

@[simp] theorem applied_sugar (name : String) (args : List Pattern) :
    (sugar name args).applied = (sugar name args).appliedHead?.toList ++ args.flatMap applied :=
  applied_eq (sugar name args)

end Pattern

namespace Kore

open Conversion Converter

theorem Converter.applied_plain (c : Converter) (f : String) (ss : List SortName) (ps : List Pattern) :
    (Pattern.sortedApp ((Pattern.chain? (ss.map c.vocabulary.sort)).getD .top)
      (.chain (c.vocabulary.symbol f) ps)).applied = c.vocabulary.symbol f :: ps.flatMap Pattern.applied := by
  have hsorts : ((Pattern.chain? (ss.map c.vocabulary.sort)).getD .top).applied = [] := by
    cases ss with
    | nil => rfl
    | cons s ss => simp [Pattern.chain?, Vocabulary.sort]
  have hhead : (c.vocabulary.symbol f).head = c.vocabulary.symbol f := rfl
  have hsymbol : (c.vocabulary.symbol f).applied = [] := rfl
  simp [Pattern.sortedApp, Pattern.appliedHead?, Pattern.head_chain, hhead, hsorts, hsymbol]

theorem Converter.applied_cell (nested : Bool) (head : Pattern) (ps : List Pattern) :
    (if nested then Pattern.nestedCells (.chain head ps) else .cell (.chain head ps)).applied =
      head.applied ++ ps.flatMap Pattern.applied := by
  cases nested <;> simp [Pattern.cell, Pattern.nestedCells, Pattern.appliedHead?]

namespace Conversion

variable {α β : Type} {c : Converter} {act : Conversion α} {a : α} {b : β}

-- Whatever else is known: while the cells are those of `c`, the conversion answers `a` and finds no new one.
def Repeats (c : Converter) (act : Conversion α) (a : α) : Prop :=
  ∀ c', c.Extends c' → c'.cells = c.cells →
    Ends act c' (fun b c'' => b = a ∧ c.Extends c'' ∧ c''.cells = c.cells) fun _ _ => False

theorem repeats_pure (c : Converter) (a : α) : Repeats c (pure a) a :=
  fun _ hc hcells => ends_pure ⟨rfl, hc, hcells⟩

theorem repeats_get {f : Converter → Conversion α}
    (h : ∀ c', c.Extends c' → c'.cells = c.cells → Repeats c (f c') a) : Repeats c (get >>= f) a :=
  fun c' hc hcells => ends_get_bind (h c' hc hcells c' hc hcells)

theorem Repeats.bind {f : α → Conversion β} (h : Repeats c act a) (hf : Repeats c (f a) b) :
    Repeats c (act >>= f) b :=
  fun c' hc hcells => Ends.bind (h c' hc hcells) fun _ c'' ⟨ha, hc', hcells'⟩ => ha ▸ hf c'' hc' hcells'

theorem Repeats.answer (h : Repeats c act a) : (act.run c).1 = .ok a := by
  have ⟨b, c', hrun, hb, _⟩ := (h c (.refl c) rfl).succeeds
  rw [hrun, hb]

theorem repeats_sort (c : Converter) (name : SortName) : Repeats c (sort name) (c.vocabulary.sort name) :=
  repeats_get fun _ hc _ => hc.sort name ▸ repeats_pure c _

theorem repeats_symbol (c : Converter) (name : String) :
    Repeats c (symbol name) (c.vocabulary.symbol name) :=
  fun _ hc hcells => ends_modifyGet ⟨hc.symbol name, (lasting_extends c).addSymbol hc name, hcells⟩

theorem repeats_metavarId {name : String} (hname : name ∈ c.names) :
    Repeats c (metavarId name) (c.vocabulary.metavars.id name) :=
  fun _ hc hcells => ends_modifyGet ⟨hc.id hname, (lasting_extends c).addMetavar hc name, hcells⟩

theorem repeats_cellHead {f : String} {head : Pattern} (hhead : c.cells.lookup f = some head) :
    Repeats c (cellHead f) head := by
  refine repeats_get fun c' _ hcells => ?_
  rw [hcells, hhead]
  exact repeats_pure c head

theorem repeats_mapM {f : β → Conversion α} {g : β → α} (h : ∀ b, Repeats c (f b) (g b)) (bs : List β) :
    Repeats c (bs.mapM f) (bs.map g) := by
  induction bs with
  | nil =>
    rw [List.mapM_nil]
    exact repeats_pure c _
  | cons b bs ih =>
    rw [List.mapM_cons]
    exact (h b).bind (ih.bind (repeats_pure c _))

end Conversion

namespace Term

variable {c c' : Converter} {t : Term} {ts : List Term} {p : Pattern} {ps : List Pattern} {inCell : Bool}
  {known known' : String → Bool}

-- What is applied in a reading are symbols that do not have to be cells.
theorem Reads.mem_applied (h : t.Reads c known inCell p) (hc : c.Orderly) {q : Pattern}
    (hq : q ∈ p.applied) : ∃ f, ¬known f ∧ q = c.vocabulary.symbol f := by
  have hhead {g : String} {head : Pattern} (hlookup : c.cells.lookup g = some head) : head.applied = [] := by
    obtain ⟨name, -, rfl⟩ := hc.cells g head hlookup
    rfl
  induction t generalizing inCell p with
  | app g ss ts ih =>
    have hargs {inCell : Bool} {ps : List Pattern} (hps : List.Forall₂ (Reads c known inCell) ts ps)
        (hq : q ∈ ps.flatMap Pattern.applied) : ∃ f, ¬known f ∧ q = c.vocabulary.symbol f := by
      obtain ⟨p, hp, hq⟩ := List.mem_flatMap.mp hq
      obtain ⟨t, ht, hread⟩ := exists_mem_left hps hp
      exact ih t ht hread hq
    cases h with
    | emptyCell hlookup => simp [hhead hlookup] at hq
    | cell hlookup _ hps =>
      rw [applied_cell, hhead hlookup] at hq
      exact hargs hps hq
    | plain hplain _ _ hps =>
      rw [applied_plain] at hq
      obtain rfl | hq := List.mem_cons.mp hq
      · exact ⟨g, hplain, rfl⟩
      · exact hargs hps hq
  | elementVar | top | value =>
    cases h
    simp [Pattern.sortedTop, Pattern.domainValue, Pattern.appliedHead?, Vocabulary.sort,
      Vocabulary.symbol] at hq
  | and s l r ihl ihr | or s l r ihl ihr | transition s l r ihl ihr =>
    cases h
    rename_i p₁ p₂ hp₁ hp₂
    have hq : q ∈ p₁.applied ∨ q ∈ p₂.applied := by
      simpa [Pattern.sortedAnd, Pattern.sortedOr, Pattern.transition, Pattern.appliedHead?,
        Vocabulary.sort] using hq
    exact hq.elim (ihl hp₁) (ihr hp₂)
  | _ => cases h

-- Symbols that have to be cells are not applied as plain ones.
theorem Reads.not_applied (h : t.Reads c known inCell p) (hc : c.Orderly) {f : String} (hf : known f) :
    c.vocabulary.symbol f ∉ p.applied := by
  intro hmem
  obtain ⟨g, hplain, heq⟩ := h.mem_applied hc hmem
  exact hplain (c.vocabulary.symbol_inj.mp heq ▸ hf)

-- A term can be read in the same way if more symbols have to be cells, as long as they are not applied.
theorem Reads.recognise (h : t.Reads c known inCell p)
    (hknown : ∀ f, known' f → c.vocabulary.symbol f ∉ p.applied) : t.Reads c known' inCell p := by
  induction t generalizing inCell p with
  | app g ss ts ih =>
    have hargs {inCell : Bool} {ps : List Pattern} (hps : List.Forall₂ (Reads c known inCell) ts ps)
        (hknown : ∀ f, known' f → c.vocabulary.symbol f ∉ ps.flatMap Pattern.applied) :
        List.Forall₂ (Reads c known' inCell) ts ps := by
      refine forall₂_imp_mem hps fun t ht p hp hread => ih t ht hread fun f hf hmem => ?_
      exact hknown f hf (List.mem_flatMap.mpr ⟨p, hp, hmem⟩)
    cases h with
    | emptyCell hlookup => exact .emptyCell hlookup
    | cell hlookup hts hps =>
      refine .cell hlookup hts (hargs hps fun f hf hmem => hknown f hf ?_)
      rw [applied_cell]
      exact List.mem_append_right _ hmem
    | plain hplain hname hfunctional hps =>
      rw [applied_plain] at hknown
      refine .plain (fun hg => hknown g hg List.mem_cons_self) hname hfunctional ?_
      exact hargs hps fun f hf hmem => hknown f hf (List.mem_cons_of_mem _ hmem)
  | elementVar =>
    cases h with
    | elementVar hname => exact .elementVar hname
  | top | value =>
    cases h
    constructor
  | and s l r ihl ihr | or s l r ihl ihr | transition s l r ihl ihr =>
    cases h
    rename_i hp hq
    have hsides (f : String) (hf : known' f) := by
      simpa [Pattern.sortedAnd, Pattern.sortedOr, Pattern.transition, Pattern.appliedHead?,
        Vocabulary.sort] using hknown f hf
    constructor
    · exact ihl hp fun f hf => (hsides f hf).1
    · exact ihr hq fun f hf => (hsides f hf).2
  | _ => cases h

theorem repeats_convertAll (h : List.Forall₂ (fun t p => Repeats c (t.convertIn inCell) p) ts ps) :
    Repeats c (convertAll inCell ts) ps := by
  induction h with
  | nil =>
    rw [convertAll]
    exact repeats_pure c _
  | cons hp _ ih =>
    rw [convertAll]
    exact hp.bind (ih.bind (repeats_pure c _))

-- A term that can be read with the known cells is converted to its reading.
theorem Reads.repeats (h : t.Reads c c.isCell inCell p) : Repeats c (t.convertIn inCell) p := by
  induction t generalizing inCell p with
  | elementVar name s =>
    rw [convertIn]
    cases h with
    | elementVar hname => exact (repeats_metavarId hname).bind (repeats_pure c _)
  | app f ss ts ih =>
    have hargs {inCell : Bool} {ps : List Pattern} (hps : List.Forall₂ (Reads c c.isCell inCell) ts ps) :
        Repeats c (convertAll inCell ts) ps :=
      repeats_convertAll (forall₂_imp_mem hps fun t ht _ _ => ih t ht)
    rw [convertIn_app]
    refine repeats_get fun c' hc hcells => ?_
    have hisCell : c'.isCell = c.isCell := by
      funext symbol
      simp only [Converter.isCell, hc.config, hcells]
    rw [hisCell, hc.cellName]
    cases h with
    | emptyCell hhead =>
      rw [if_pos (by simp [Converter.isCell, hhead])]
      exact (repeats_cellHead hhead).bind (repeats_pure c _)
    | cell hhead hts hps =>
      rw [if_pos (by simp [Converter.isCell, hhead])]
      refine (repeats_cellHead hhead).bind ?_
      rw [if_neg (by simpa using hts)]
      exact (hargs hps).bind (repeats_pure c _)
    | plain hplain hname _ hps =>
      rw [if_neg (by simpa using And.intro hplain hname)]
      refine (repeats_symbol c f).bind ((hargs hps).bind ?_)
      exact (repeats_mapM (repeats_sort c) ss).bind (repeats_pure c _)
  | top s =>
    rw [convertIn_top]
    cases h
    exact (repeats_sort c s).bind (repeats_pure c _)
  | value s text =>
    rw [convertIn_value]
    cases h
    exact (repeats_sort c s).bind ((repeats_symbol c text).bind (repeats_pure c _))
  | and s l r ihl ihr | or s l r ihl ihr | transition s l r ihl ihr =>
    simp only [convertIn_and, convertIn_or, convertIn_transition]
    cases h
    rename_i hp hq
    exact (repeats_sort c s).bind ((ihl hp).bind ((ihr hq).bind (repeats_pure c _)))
  | _ => cases h

end Term

section Stability

variable {c c' : Converter} {d : Definition} {config : Config} {engine : Engine} {k : Term} {p : Pattern}

-- A term that was converted once is converted to the same pattern later, unless a symbol that is applied in the
-- pattern has become known as a cell. An answer in which no such symbol is applied is final.
theorem convert_stable_iff (hc : ofDefinition d config engine = .ok c) (before after : List Action)
    (hp : k.convert.run (c.run before) = (.ok p, c')) :
    let later := c'.run after
    ((k.convert.run later).1 = .ok p ↔ ∀ f, later.isCell f → later.vocabulary.symbol f ∉ p.applied) ∧
    ((∀ f, c.cellName.accepts f → c.vocabulary.symbol f ∉ p.applied) → (k.convert.run later).1 = .ok p) := by
  intro later
  obtain ⟨hconverted, hreads⟩ := Term.reads_of_convert hp
  have hreads : k.Reads later (c.run before).isCell false p := hreads.mono (extends_run c' after) fun _ hf => hf
  have hextends : c.Extends later := ((extends_run c before).trans hconverted).trans (extends_run c' after)
  have horderly : later.Orderly := lasting_orderly.run ((orderly_run hc before).convert hp) after
  have hagain : (k.convert.run later).1 = .ok p ↔
      ∀ f, later.isCell f → later.vocabulary.symbol f ∉ p.applied := by
    constructor
    case mp =>
      intro hanswer f hf
      rcases hrun : k.convert.run later with ⟨answer, c''⟩
      obtain rfl : answer = .ok p := by rw [← hanswer, hrun]
      obtain ⟨hextends', hreads'⟩ := Term.reads_of_convert hrun
      rw [← hextends'.symbol]
      exact hreads'.not_applied (horderly.convert hrun) hf
    case mpr => exact fun hplain => (hreads.recognise hplain).repeats.answer
  refine ⟨hagain, fun hplain => hagain.mpr fun f hf => ?_⟩
  obtain htop | hhead := Bool.or_eq_true_iff.mp hf
  · refine hreads.not_applied horderly ?_
    rw [hextends.config, ← (extends_run c before).config] at htop
    simp only [isCell, htop, Bool.true_or]
  · obtain ⟨head, hhead⟩ := Option.isSome_iff_exists.mp hhead
    obtain ⟨name, hname, -⟩ := horderly.cells f head hhead
    rw [hextends.symbol]
    rw [hextends.cellName] at hname
    exact hplain f (Matcher.accepts_of_capture hname)

open Counting in
theorem convert_stable_iff_counting :
    let k := next zero
    let after := [Action.term (state k)]
    ∃ c p c', ofDefinition definition {} = .ok c ∧ k.convert.run c = (.ok p, c') ∧
      (k.convert.run (c'.run after)).1 = .ok p ∧
      ∀ f, (c'.run after).isCell f → (c'.run after).vocabulary.symbol f ∉ p.applied := by
  intro k after
  have hkept : (ofDefinition definition {}).toOption.any fun c =>
      (k.convert.run c).1.toOption.any fun p =>
        (k.convert.run ((k.convert.run c).2.run after)).1.toOption.any (· = p) := by
    decide +kernel
  have ⟨c, hc, hkept⟩ := exists_of_any hkept
  have ⟨p, hanswer, hkept⟩ := exists_of_any hkept
  have ⟨q, hlater, heq⟩ := exists_of_any hkept
  obtain rfl : q = p := of_decide_eq_true heq
  have hp : k.convert.run c = (.ok q, (k.convert.run c).2) := Prod.ext hanswer rfl
  have ⟨hiff, _⟩ := convert_stable_iff hc [] after hp
  exact ⟨c, q, _, hc, hp, hlater, hiff.mp hlater⟩

-- A cell that is converted before it is known.
open Counting in
theorem unstable_cell :
    let k := Term.app "Lbl'-LT-'k'-GT-'" [] []
    let after := [Action.term (.app "Lbl'-LT-'generatedTop'-GT-'" [] [k])]
    ∃ c p c' q, ofDefinition definition {} = .ok c ∧ k.convert.run c = (.ok p, c') ∧
      (k.convert.run (c'.run after)).1 = .ok q ∧ q ≠ p := by
  intro k after
  have hchanged : (ofDefinition definition {}).toOption.any fun c =>
      (k.convert.run c).1.toOption.any fun p =>
        (k.convert.run ((k.convert.run c).2.run after)).1.toOption.any (· ≠ p) := by
    decide +kernel
  have ⟨c, hc, hchanged⟩ := exists_of_any hchanged
  have ⟨p, hanswer, hchanged⟩ := exists_of_any hchanged
  have ⟨q, hlater, hne⟩ := exists_of_any hchanged
  exact ⟨c, p, _, q, hc, Prod.ext hanswer rfl, hlater, of_decide_eq_true hne⟩

end Stability
end Kore
end MatchingLogic
