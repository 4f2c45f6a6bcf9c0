import MatchingLogic.Proofs.Kore.Reading
import MatchingLogic.Proofs.Kore.Replay

namespace MatchingLogic.Kore

open Conversion Converter

namespace Term

variable {c c' : Converter} {t : Term} {p : Pattern} {bs : List (String × Term)} {known : String → Bool}
  {inCell : Bool}

-- The term has a pattern, and all that it applies by the name of a cell is known to be one.
structure Recognised (c : Converter) (t : Term) : Prop where
  supported : ∀ u ∈ t.nodes, u.convertible
  cells : ∀ u ∈ t.nodes, u.isCell c.cellName.accepts → u.isCell c.isCell

instance (c : Converter) (t : Term) : Decidable (t.Recognised c) :=
  decidable_of_iff (_ ∧ _) ⟨fun ⟨h₁, h₂⟩ => ⟨h₁, h₂⟩, fun h => ⟨h.supported, h.cells⟩⟩

theorem Recognised.extend (h : t.Recognised c) (hc : c.Extends c') : t.Recognised c' where
  supported := h.supported
  cells u hu hcell := by
    rw [hc.cellName] at hcell
    obtain ⟨f, hf, hcell⟩ := (Option.any_eq_true _ _).mp (h.cells u hu hcell)
    exact (Option.any_eq_true _ _).mpr ⟨f, hf, hc.isCell hcell⟩

theorem Recognised.subst (ht : t.Recognised c) (hbs : ∀ b ∈ bs, b.2.Recognised c) :
    (t.subst bs).Recognised c where
  supported := by
    refine forall_nodes_subst (fun u bs' hu h => ?_) ht.supported fun b hb => (hbs b hb).supported
    rwa [(root_subst hu).2]
  cells := by
    refine forall_nodes_subst (fun u bs' hu h => ?_) ht.cells fun b hb => (hbs b hb).cells
    rwa [isCell, isCell, (root_subst hu).1]

-- Where all cells are known, a reading is the image.
theorem Reads.shown (h : t.Reads c known inCell p) (hc : c.Orderly)
    (hknown : ∀ u ∈ t.nodes, u.isCell c.cellName.accepts → u.isCell known) : t.Shown c p := by
  have hhead {f : String} {head : Pattern} (hlookup : c.cells.lookup f = some head) :
      c.cellName.accepts f ∧ head = c.cellSymbol f := by
    obtain ⟨name, hname, rfl⟩ := hc.cells f head hlookup
    exact ⟨Matcher.accepts_of_capture hname, by rw [cellSymbol, hname, Option.getD_some]⟩
  induction t generalizing inCell p with
  | elementVar name s =>
    cases h with
    | elementVar hname =>
      refine ⟨fun n hn => ?_, by rw [image], fun _ hf => by cases hf⟩
      obtain hn | ⟨u, hu, -⟩ := mem_vars.mp hn
      · cases hn
        exact hname
      · cases hu
  | app f ss ts ih =>
    have hargs {inCell : Bool} {ps : List Pattern} (hps : List.Forall₂ (Reads c known inCell) ts ps) :
        List.Forall₂ (Shown c) ts ps := by
      refine forall₂_imp_mem hps fun t ht p _ hread => ih t ht hread fun u hu => ?_
      exact hknown u (mem_nodes.mpr (.inr ⟨t, ht, hu⟩))
    cases h with
    | emptyCell hlookup =>
      obtain ⟨haccepts, rfl⟩ := hhead hlookup
      exact shown_cell ss haccepts .nil
    | cell hlookup hts hps =>
      obtain ⟨haccepts, rfl⟩ := hhead hlookup
      have hshown := shown_cell ss haccepts (hargs hps)
      rwa [if_neg (by simpa using hts)] at hshown
    | plain hplain _ hfunctional hps =>
      have haccepts : ¬c.cellName.accepts f := fun h => hplain (hknown _ (mem_nodes.mpr (.inl rfl)) h)
      exact shown_app ss haccepts hfunctional (hargs hps)
  | top | value =>
    cases h
    exact shown_of_children rfl rfl (by simp [children]) (by rw [image])
  | and s l r ihl ihr | or s l r ihl ihr | transition s l r ihl ihr =>
    cases h
    rename_i hp hq
    have hl := ihl hp fun u hu => hknown u (mem_nodes.mpr (.inr ⟨l, by simp [children], hu⟩))
    have hr := ihr hq fun u hu => hknown u (mem_nodes.mpr (.inr ⟨r, by simp [children], hu⟩))
    refine shown_of_children rfl rfl ?_ ?_
    · simpa [children] using ⟨hl.known, hr.known⟩
    · rw [image, hl.eq_image, hr.eq_image]
  | _ => cases h

theorem leads_shown (hc : c.Usual) (ht : t.Recognised c) :
    Leads (fun _ => False) t.convert c fun p c' => c'.Usual ∧ t.Shown c' p := by
  have horderly := lasting_orderly.convert t c hc.toOrderly
  refine (((leads_convert hc ht.supported).and horderly).mono ?_).weaken fun _ _ h => h.1
  rintro p c' ⟨⟨hextends, hread⟩, hc', -⟩
  refine ⟨hextends, hc.extend hextends hc', hread.shown hc' ?_⟩
  rw [hextends.cellName]
  exact ht.cells

theorem leads_bindings (hc : c.Usual) (hnames : ∀ b ∈ bs, b.1 ∈ c.names)
    (hvalues : ∀ b ∈ bs, b.2.Recognised c) :
    Leads (fun _ => False) (bindings bs) c fun s c' => s = c'.substitution bs := by
  have hbindings := ends_bindings (I := fun c' => c'.Usual ∧ c.Extends c') ⟨hc, .refl c⟩ hnames
    fun b hb c' hc' _ => ?value
  case value =>
    refine (leads_shown hc'.1 ((hvalues b hb).extend hc'.2)).mono ?_
    rintro p c'' ⟨hextends, husual, hshown⟩
    exact ⟨⟨husual, hc'.2.trans hextends⟩, hextends.toGrows, hshown⟩
  refine hbindings.mono ?_
  rintro s c' ⟨⟨-, hextends⟩, -, hs, -⟩
  exact ⟨hextends, hs⟩

end Term

section Substitution

variable {d : Definition} {engine : Engine} {c : Converter} {k : Term} {bs : List (String × Term)}

-- A term, an instance of it and the bindings are converted, with anything in between. The instance of the
-- pattern is the pattern of the instance exactly if no cell of the term gets its first cells by the bindings. For
-- this each variable needs an id of its own, and there are no more ids than numbers of 32 bits.
theorem convert_subst_iff (hengine : engine.Usual) (hc : ofDefinition d {} engine = .ok c)
    (before between after : List Action) (hk : k.Recognised (c.run before))
    (hbs : ∀ b ∈ bs, b.1 ∈ k.vars ∧ b.2.Recognised (c.run before)) :
    ∃ p c₁ q c₂ s c₃, k.convert.run (c.run before) = (.ok p, c₁) ∧
      (k.subst bs).convert.run (c₁.run between) = (.ok q, c₂) ∧
      (Conversion.bindings bs).run (c₂.run after) = (.ok s, c₃) ∧
      (c₃.names.length ≤ UInt32.size → (p.instantiate s = q ↔ k.Settled c.cellName.accepts bs)) := by
  have husual := (usual_ofDefinition hengine hc).run before
  obtain ⟨p, c₁, hp, h₁, hc₁, hk₁⟩ := (Term.leads_shown husual hk).succeeds
  have hbetween := extends_run c₁ between
  have hinstance := (hk.subst fun b hb => (hbs b hb).2).extend (h₁.trans hbetween)
  obtain ⟨q, c₂, hq, h₂, hc₂, hq₂⟩ := (Term.leads_shown (hc₁.run between) hinstance).succeeds
  have hafter := extends_run c₂ after
  have hlater : c₁.Extends (c₂.run after) := (hbetween.trans h₂).trans hafter
  have hvars (n : String) (hn : n ∈ k.vars) : n ∈ (c₂.run after).names :=
    hlater.names.subset (hk₁.known n hn)
  have hbindings := Term.leads_bindings (hc₂.run after) (fun b hb => hvars b.1 (hbs b hb).1)
    fun b hb => (hbs b hb).2.extend (h₁.trans hlater)
  obtain ⟨s, c₃, hs, h₃, rfl⟩ := hbindings.succeeds
  refine ⟨p, c₁, q, c₂, _, c₃, hp, hq, hs, fun hsize => ?_⟩
  have hextends : c₁.Extends c₃ := hlater.trans h₃
  have hcellName : c₃.cellName = c.cellName := (((extends_run c before).trans h₁).trans hextends).cellName
  have hp₃ : p = k.image c₃ := (hk₁.grow hextends.toGrows).eq_image
  have hq₃ : q = (k.subst bs).image c₃ := (hq₂.grow (hafter.trans h₃).toGrows).eq_image
  have hplugs (n : String) (hn : n ∈ k.vars) := get?_substitution hsize
    (fun b hb => h₃.names.subset (hvars b.1 (hbs b hb).1)) (h₃.names.subset (hvars n hn))
  rw [hp₃, hq₃, ← hcellName]
  exact Term.instantiate_image_iff hk.supported hplugs

open Counting in
theorem convert_subst_iff_counting :
    let k := state count
    let bs := [("N", next zero)]
    let before := [Action.term (state zero)]
    let after := [Action.term (next count)]
    ∃ c p c₁ q c₂ s c₃, ofDefinition definition {} = .ok c ∧ k.Recognised (c.run before) ∧
      (∀ b ∈ bs, b.1 ∈ k.vars ∧ b.2.Recognised (c.run before)) ∧
      k.convert.run (c.run before) = (.ok p, c₁) ∧ (k.subst bs).convert.run c₁ = (.ok q, c₂) ∧
      (Conversion.bindings bs).run (c₂.run after) = (.ok s, c₃) ∧ p.instantiate s = q := by
  intro k bs before after
  let size (c : Converter) := ((Conversion.bindings bs).run
    (((k.subst bs).convert.run (k.convert.run (c.run before)).2).2.run after)).2.names.length
  have hfacts : (ofDefinition definition {}).toOption.any fun c => k.Recognised (c.run before) ∧
      (∀ b ∈ bs, b.1 ∈ k.vars ∧ b.2.Recognised (c.run before)) ∧
      size c ≤ UInt32.size ∧ k.Settled c.cellName.accepts bs := by
    decide +kernel
  have ⟨c, hc, hfacts⟩ := exists_of_any hfacts
  have ⟨hk, hbs, hsize, hsettled⟩ := of_decide_eq_true hfacts
  have ⟨p, c₁, q, c₂, s, c₃, hp, hq, hs, hiff⟩ :=
    convert_subst_iff Regex.engine_usual hc before [] after hk hbs
  have hnames : size c = c₃.names.length := by
    have hq : (k.subst bs).convert.run c₁ = (.ok q, c₂) := hq
    simp only [size, hp, hq, hs]
  exact ⟨c, p, c₁, q, c₂, s, c₃, hc, hk, hbs, hp, hq, hs, (hiff (hnames ▸ hsize)).mpr hsettled⟩

-- The outermost cell of a term gets its first cell by a binding.
open Counting in
theorem unsettled_cell :
    let k := Term.app "Lbl'-LT-'generatedTop'-GT-'" [] [.elementVar "X" "SortCell"]
    let bs := [("X", Term.app "Lbl'-LT-'k'-GT-'" [] [zero])]
    let before := [Action.term (state zero)]
    ∃ c p c₁ q c₂ s c₃, ofDefinition definition {} = .ok c ∧ k.Recognised (c.run before) ∧
      (∀ b ∈ bs, b.1 ∈ k.vars ∧ b.2.Recognised (c.run before)) ∧
      k.Regular c.cellName.accepts ∧ (k.subst bs).Regular c.cellName.accepts ∧
      k.convert.run (c.run before) = (.ok p, c₁) ∧ (k.subst bs).convert.run c₁ = (.ok q, c₂) ∧
      (Conversion.bindings bs).run c₂ = (.ok s, c₃) ∧ p.instantiate s ≠ q := by
  intro k bs before
  have hfacts : (ofDefinition definition {}).toOption.any fun c =>
      (k.Recognised (c.run before) ∧ (∀ b ∈ bs, b.1 ∈ k.vars ∧ b.2.Recognised (c.run before)) ∧
        k.Regular c.cellName.accepts ∧ (k.subst bs).Regular c.cellName.accepts) ∧
      (k.convert.run (c.run before)).1.toOption.any fun p =>
        let c₁ := (k.convert.run (c.run before)).2
        ((k.subst bs).convert.run c₁).1.toOption.any fun q =>
          let c₂ := ((k.subst bs).convert.run c₁).2
          ((Conversion.bindings bs).run c₂).1.toOption.any fun s => p.instantiate s ≠ q := by
    decide +kernel
  have ⟨c, hc, hfacts⟩ := exists_of_any hfacts
  have ⟨⟨hk, hbs, hregular, hinstance⟩, hruns⟩ := of_decide_eq_true hfacts
  have ⟨p, hp, hruns⟩ := exists_of_any hruns
  have ⟨q, hq, hruns⟩ := exists_of_any hruns
  have ⟨s, hs, hne⟩ := exists_of_any hruns
  exact ⟨c, p, _, q, _, s, _, hc, hk, hbs, hregular, hinstance, Prod.ext hp rfl, Prod.ext hq rfl,
    Prod.ext hs rfl, of_decide_eq_true hne⟩

end Substitution
end MatchingLogic.Kore
