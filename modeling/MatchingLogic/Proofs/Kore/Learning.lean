import MatchingLogic.Proofs.Kore.Image

namespace MatchingLogic.Kore

open Converter

namespace Conversion

variable {α β : Type} {act : Conversion α} {c c' : Converter} {a : α} {ns : List String}
  {Q : α → Converter → Prop} {R : β → Converter → Prop}

-- From `c`, the conversion succeeds with an answer that satisfies `Q`, and meets only these variables.
def Learns (ns : List String) (act : Conversion α) (c : Converter) (Q : α → Converter → Prop) : Prop :=
  Ends act c (fun a c' => c'.Sound ns ∧ c.Grows c' ∧ Q a c') fun _ _ => False

theorem learns_pure (hc : c.Sound ns) (h : Q a c) : Learns ns (pure a) c Q :=
  ends_pure ⟨hc, .refl c, h⟩

theorem learns_get {f : Converter → Conversion α} (h : Learns ns (f c) c Q) : Learns ns (get >>= f) c Q :=
  h

theorem Learns.bind {f : α → Conversion β} (h : Learns ns act c Q)
    (hf : ∀ a c', c'.Sound ns → c.Grows c' → Q a c' → Learns ns (f a) c' R) : Learns ns (act >>= f) c R :=
  Ends.bind h fun a c' ⟨hc', hgrows, ha⟩ =>
    (hf a c' hc' hgrows ha).mono fun _ _ ⟨hc'', hgrows', hb⟩ => ⟨hc'', hgrows.trans hgrows', hb⟩

theorem Learns.run (h : Learns ns act c Q) :
    ∃ a c', act.run c = (.ok a, c') ∧ c'.Sound ns ∧ c.Grows c' ∧ Q a c' :=
  Ends.succeeds h

theorem learns_set (hc : c'.Sound ns) (h : c.Grows c') : Learns ns (set c') c fun _ c'' => c'' = c' :=
  ends_set ⟨hc, h, rfl⟩

theorem learns_modify {f : Converter → Converter} (hc : (f c).Sound ns) (h : c.Grows (f c)) :
    Learns ns (modify f) c fun _ c' => c' = f c :=
  ends_modifyGet ⟨hc, h, rfl⟩

theorem learns_sort (hc : c.Sound ns) (name : SortName) :
    Learns ns (sort name) c fun p c' => p = c'.vocabulary.sort name :=
  learns_get (learns_pure hc rfl)

theorem learns_symbol (hc : c.Sound ns) (name : String) :
    Learns ns (symbol name) c fun p c' => p = c'.vocabulary.symbol name ∧
      (name ∈ c'.functionalNames → p ∈ c'.functional) := by
  have hgrows := c.grows_addSymbol name
  refine ends_modifyGet ⟨?sound, hgrows, (hgrows.symbol name).symm, ?functional⟩
  case sound =>
    exact hc.grow hgrows (fun _ => .inl) (by simpa using hc.nodup) (by simpa using hc.names) fun _ => .inl
  case functional =>
    intro h
    simp only [addSymbol] at h ⊢
    rw [if_pos h]
    exact List.mem_insert_self

theorem learns_metavarId (hc : c.Sound ns) {name : String} (hname : name ∈ ns) :
    Learns ns (metavarId name) c fun id c' => name ∈ c'.names ∧ id = c'.vocabulary.metavars.id name := by
  have hgrows := c.grows_addMetavar name
  refine ends_modifyGet ⟨?sound, hgrows, ?known, NameTable.id_declare.symm⟩
  case sound =>
    refine hc.grow hgrows (fun _ => .inl) (NameTable.nodup_declare hc.nodup) (fun n hn => ?_) fun _ => .inl
    obtain hn | rfl := NameTable.mem_names_declare.mp hn
    · exact hc.names n hn
    · exact hname
  case known => exact NameTable.mem_names_declare.mpr (.inr rfl)

theorem learns_cellHead (hc : c.Sound ns) {symbol : String} (h : c.cellName.accepts symbol) :
    Learns ns (cellHead symbol) c fun p c' => p = c'.cellSymbol symbol := by
  refine learns_get ?_
  split
  case h_1 head hhead => exact learns_pure hc (hc.cells _ (mem_of_lookup hhead)).2
  case h_2 =>
    have ⟨name, hname⟩ := hc.captures h
    have hsymbol : c.vocabulary.symbol name = c.cellSymbol symbol := by simp [cellSymbol, hname]
    have hgrows := c.grows_addCell symbol name
    have hsound : (c.addCell symbol name).Sound ns := by
      refine hc.grow hgrows (fun entry hentry => ?_) (by simpa using hc.nodup) (by simpa using hc.names)
        fun _ => .inl
      obtain rfl | hentry := List.mem_cons.mp hentry
      · exact .inr ⟨h, hsymbol⟩
      · exact .inl hentry
    rw [hname]
    refine (learns_set hsound hgrows).bind fun _ c₁ hc₁ _ heq => learns_pure hc₁ ?_
    rw [heq, hgrows.cellSymbol, hsymbol]

theorem learns_sorts (hc : c.Sound ns) (names : List SortName) :
    Learns ns (names.mapM sort) c fun ps c' => ps = names.map c'.vocabulary.sort := by
  induction names generalizing c with
  | nil =>
    rw [List.mapM_nil]
    exact learns_pure hc rfl
  | cons name names ih =>
    rw [List.mapM_cons]
    refine (learns_sort hc name).bind fun p c₁ hc₁ _ hp => ?_
    refine (ih hc₁).bind fun ps c₂ hc₂ h₂ hps => learns_pure hc₂ ?_
    rw [hp, hps, List.map_cons, h₂.sort]

end Conversion

open Conversion

namespace Term

variable {c c' : Converter} {t : Term} {p : Pattern} {ns : List String} {inCell : Bool}

-- `p` is the pattern of the term, and all that was to be recorded of it is recorded.
structure Shown (c : Converter) (t : Term) (p : Pattern) : Prop where
  known : ∀ n ∈ t.vars, n ∈ c.names
  eq_image : p = t.image c
  functional : ∀ f, t.symbol? = some f → ¬c.cellName.accepts f → f ∈ c.functionalNames →
    c.vocabulary.symbol f ∈ c.functional

theorem Shown.grow (h : t.Shown c p) (hgrows : c.Grows c') : t.Shown c' p where
  known n hn := hgrows.names.subset (h.known n hn)
  eq_image := h.eq_image.trans (hgrows.image h.known).symm
  functional f hf hcell hname := by
    rw [hgrows.cellName] at hcell
    rw [hgrows.functionalNames] at hname
    exact hgrows.symbol f ▸ hgrows.functional (h.functional f hf hcell hname)

-- What remains to be shown of a term that is neither a variable nor an application.
theorem shown_of_children (hvar : t.var? = none) (hsymbol : t.symbol? = none)
    (hknown : ∀ u ∈ t.children, ∀ n ∈ u.vars, n ∈ c.names) (hp : p = t.image c) : t.Shown c p where
  known := vars_of_children hvar hknown
  eq_image := hp
  functional f hf := by
    rw [hsymbol] at hf
    cases hf

theorem learns_convertAll {ts : List Term} (hc : c.Sound ns)
    (h : ∀ t ∈ ts, ∀ c', c'.Sound ns → c.Grows c' →
      Learns ns (t.convertIn inCell) c' fun p c'' => t.Shown c'' p) :
    Learns ns (convertAll inCell ts) c fun ps c' => List.Forall₂ (Shown c') ts ps := by
  induction ts generalizing c with
  | nil =>
    rw [convertAll]
    exact learns_pure hc .nil
  | cons t ts ih =>
    rw [convertAll]
    refine (h t (by simp) c hc (.refl c)).bind fun p c₁ hc₁ h₁ hp => ?_
    have hrest := ih hc₁ fun u hu c' hc' hgrows => h u (by simp [hu]) c' hc' (h₁.trans hgrows)
    exact hrest.bind fun ps c₂ hc₂ h₂ hps => learns_pure hc₂ (.cons (hp.grow h₂) hps)

section Composition

variable {f : String} {ss : List SortName} {ts : List Term} {ps : List Pattern}

theorem known_of_args (h : List.Forall₂ (Shown c) ts ps) : ∀ n ∈ (app f ss ts).vars, n ∈ c.names := by
  refine vars_of_children rfl fun t ht => ?_
  obtain ⟨p, -, hp⟩ := exists_mem_right h ht
  exact hp.known

theorem images_of_args (h : List.Forall₂ (Shown c) ts ps) : imageAll c ts = ps := by
  induction h with
  | nil => rfl
  | cons hp _ ih => rw [imageAll, ih, hp.eq_image]

theorem shown_cell (ss : List SortName) (hcell : c.cellName.accepts f) (h : List.Forall₂ (Shown c) ts ps) :
    (app f ss ts).Shown c (if ts.isEmpty then c.cellSymbol f else
      if holdsCells c.cellName ts then .nestedCells (.chain (c.cellSymbol f) ps)
      else .cell (.chain (c.cellSymbol f) ps)) where
  known := known_of_args h
  eq_image := by rw [image, if_pos hcell, images_of_args h]
  functional g hg hnot := by
    cases hg
    exact absurd hcell hnot

theorem shown_app (ss : List SortName) (hcell : ¬c.cellName.accepts f)
    (hfunctional : f ∈ c.functionalNames → c.vocabulary.symbol f ∈ c.functional)
    (h : List.Forall₂ (Shown c) ts ps) :
    (app f ss ts).Shown c (.sortedApp ((Pattern.chain? (ss.map c.vocabulary.sort)).getD .top)
      (.chain (c.vocabulary.symbol f) ps)) where
  known := known_of_args h
  eq_image := by rw [image, if_neg hcell, images_of_args h]
  functional g hg _ := by
    cases hg
    exact hfunctional

end Composition

-- The term has no variables but these, and its cells stand at their places. Outside of cells, only the root
-- may be one.
structure Placed (ns : List String) (c : Converter) (inCell : Bool) (t : Term) : Prop where
  vars : ∀ n ∈ t.vars, n ∈ ns
  regular : t.Regular c.cellName.accepts
  root : t.isCell c.cellName.accepts → inCell ∨ t.symbol? = some c.config.topCell

namespace Placed

variable {u : Term}

theorem grow (h : t.Placed ns c inCell) (hgrows : c.Grows c') : t.Placed ns c' inCell where
  vars := h.vars
  regular := hgrows.cellName ▸ h.regular
  root := by rw [hgrows.cellName, hgrows.config]; exact h.root

theorem inside (h : t.Placed ns c inCell) (hu : u ∈ t.children) : u.Placed ns c true where
  vars n hn := h.vars n (mem_vars_of_child hu hn)
  regular := (regular_iff.mp h.regular).2.2 u hu
  root _ := .inl rfl

theorem outside (h : t.Placed ns c inCell) (ht : ¬t.isCell c.cellName.accepts) (hu : u ∈ t.children) :
    u.Placed ns c false where
  vars n hn := h.vars n (mem_vars_of_child hu hn)
  regular := (regular_iff.mp h.regular).2.2 u hu
  root hcell := absurd hcell ((regular_iff.mp h.regular).2.1 ht u hu)

end Placed

theorem learns_convertIn (hc : c.Sound ns) (ht : t.Placed ns c inCell) :
    Learns ns (t.convertIn inCell) c fun p c' => t.Shown c' p := by
  induction t generalizing inCell c with
  | elementVar name s =>
    rw [convertIn]
    have hname := ht.vars name (mem_vars.mpr (.inl rfl))
    refine (learns_metavarId hc hname).bind fun id c₁ hc₁ _ hid => learns_pure hc₁ ?_
    obtain ⟨hknown, hid⟩ := hid
    refine ⟨fun n hn => ?_, by rw [hid, image], fun _ hf => by cases hf⟩
    obtain hn | ⟨u, hu, -⟩ := mem_vars.mp hn
    · cases hn
      exact hknown
    · cases hu
  | app f ss ts ih =>
    have hcell : c.cellName.accepts f → inCell ∨ f = c.config.topCell := by
      simpa [isCell, symbol?] using ht.root
    rw [convertIn_app]
    refine learns_get ?_
    rw [hc.isCell_eq hcell]
    split
    case isTrue haccepts =>
      refine (learns_cellHead hc haccepts).bind fun head c₁ hc₁ h₁ hhead => ?_
      split
      case isTrue hempty =>
        obtain rfl := List.isEmpty_iff.mp hempty
        rw [hhead]
        exact learns_pure hc₁ (shown_cell ss (h₁.cellName ▸ haccepts) .nil)
      case isFalse hempty =>
        have hargs : Learns ns (convertAll true ts) c₁ fun ps c' => List.Forall₂ (Shown c') ts ps :=
          learns_convertAll hc₁ fun t hmem _ hc' h' => ih t hmem hc' ((ht.inside hmem).grow (h₁.trans h'))
        refine hargs.bind fun ps c₂ hc₂ h₂ hps => learns_pure hc₂ ?_
        have hcellName := (h₁.trans h₂).cellName
        have hshown := shown_cell ss (hcellName ▸ haccepts) hps
        rwa [if_neg hempty, hcellName, h₂.cellSymbol, ← hhead] at hshown
    case isFalse haccepts =>
      refine (learns_symbol hc f).bind fun head c₁ hc₁ h₁ hhead => ?_
      obtain ⟨hhead, hfunctional⟩ := hhead
      have hargs : Learns ns (convertAll false ts) c₁ fun ps c' => List.Forall₂ (Shown c') ts ps :=
        learns_convertAll hc₁ fun t hmem _ hc' h' =>
          ih t hmem hc' ((ht.outside haccepts hmem).grow (h₁.trans h'))
      refine hargs.bind fun ps c₂ hc₂ h₂ hps => ?_
      refine (learns_sorts hc₂ ss).bind fun sorts c₃ hc₃ h₃ hsorts => learns_pure hc₃ ?_
      have hgrows := h₂.trans h₃
      have hshown := shown_app ss ((h₁.trans hgrows).cellName ▸ haccepts) (fun hf => ?functional)
        (hps.imp fun _ _ h => h.grow h₃)
      case functional =>
        rw [hgrows.symbol, ← hhead]
        exact hgrows.functional (hfunctional (hgrows.functionalNames ▸ hf))
      rwa [← hsorts, hgrows.symbol, ← hhead] at hshown
  | top s =>
    rw [convertIn_top]
    refine (learns_sort hc s).bind fun q c₁ hc₁ _ hq => learns_pure hc₁ ?_
    exact shown_of_children rfl rfl (by simp [children]) (by rw [image, hq])
  | value s text =>
    rw [convertIn_value]
    refine (learns_sort hc s).bind fun q c₁ hc₁ h₁ hq => ?_
    refine (learns_symbol hc₁ text).bind fun p c₂ hc₂ h₂ hp => learns_pure hc₂ ?_
    exact shown_of_children rfl rfl (by simp [children]) (by rw [image, hq, hp.1, h₂.sort])
  | and s l r ihl ihr | or s l r ihl ihr | transition s l r ihl ihr =>
    have hl := ht.outside (by simp [isCell, symbol?]) (List.mem_cons_self : l ∈ [l, r])
    have hr := ht.outside (by simp [isCell, symbol?]) (by simp [children] : r ∈ children _)
    simp only [convertIn_and, convertIn_or, convertIn_transition]
    refine (learns_sort hc s).bind fun q c₁ hc₁ h₁ hq => ?_
    refine (ihl hc₁ (hl.grow h₁)).bind fun p c₂ hc₂ h₂ hp => ?_
    refine (ihr hc₂ (hr.grow (h₁.trans h₂))).bind fun p' c₃ hc₃ h₃ hp' => learns_pure hc₃ ?_
    have hp := hp.grow h₃
    refine shown_of_children rfl rfl ?_ ?_
    · simpa [children] using ⟨hp.known, hp'.known⟩
    · rw [image, hq, hp.eq_image, hp'.eq_image, (h₂.trans h₃).sort]
  | _ => simpa [convertible] using (regular_iff.mp ht.regular).1

theorem rule?_eq_some {r : Rule} (h : t.rule? = some r) :
    ∃ s left s' right, t = transition r.sort (and s r.left left) (and s' r.right right) := by
  simp only [rule?] at h
  split at h
  case h_1 =>
    cases h
    exact ⟨_, _, _, _, rfl⟩
  case h_2 => cases h

end Term

section Rules

variable {c c' : Converter} {r : Rule} {ns : List String}

structure Rule.Placed (ns : List String) (c : Converter) (r : Rule) : Prop where
  left : r.left.Placed ns c false
  right : r.right.Placed ns c false

theorem Rule.Placed.grow (h : r.Placed ns c) (hgrows : c.Grows c') : r.Placed ns c' :=
  ⟨h.left.grow hgrows, h.right.grow hgrows⟩

theorem Term.learns_classify {t : Term} (hc : c.Sound ns) (ht : t.rule? = some r) (hr : r.Placed ns c) :
    Learns ns t.classify c fun a c' => r.Shown c' a := by
  obtain ⟨_, _, _, _, rfl⟩ := rule?_eq_some ht
  simp only [classify, node_transition, pure_bind]
  refine (learns_sort hc r.sort).bind fun q c₁ hc₁ h₁ hq => ?_
  refine (learns_convertIn hc₁ (hr.left.grow h₁)).bind fun p c₂ hc₂ h₂ hp => ?_
  refine (learns_convertIn hc₂ (hr.right.grow (h₁.trans h₂))).bind fun p' c₃ hc₃ h₃ hp' => learns_pure hc₃ ?_
  have hp := hp.grow h₃
  constructor
  case known => exact fun n hn => (List.mem_append.mp hn).elim (hp.known n) (hp'.known n)
  case eq_image => rw [hq, hp.eq_image, hp'.eq_image, Rule.image, (h₂.trans h₃).sort]

-- The axiom is converted, now or before, and will be found.
theorem Axiom.learns_convert {a : Axiom} (hc : c.Sound ns) (ha : a.term.rule? = some r) (hr : r.Placed ns c) :
    Learns ns a.convert c fun b c' => r.Shown c' b ∧ (a, b) ∈ c'.converted := by
  refine learns_get ?_
  split
  case h_1 b hb =>
    obtain ⟨r', hr', hshown⟩ := hc.converted _ (mem_of_lookup hb)
    obtain rfl : r = r' := Option.some.inj (ha.symm.trans hr')
    exact learns_pure hc ⟨hshown, mem_of_lookup hb⟩
  case h_2 =>
    refine (Term.learns_classify hc ha hr).bind fun b c₁ hc₁ _ hb => ?_
    have hgrows : c₁.Grows { c₁ with converted := (a, b) :: c₁.converted } :=
      { Grows.refl c₁ with converted := List.subset_cons_self .. }
    have hsound := hc₁.grow hgrows (fun _ => .inl) hc₁.nodup hc₁.names fun entry hentry => ?_
    case refine_1 =>
      obtain rfl | hentry := List.mem_cons.mp hentry
      · exact .inr ⟨r, ha, hgrows.rule hb⟩
      · exact .inl hentry
    refine (learns_modify hsound hgrows).bind fun _ c₂ hc₂ h₂ heq => learns_pure hc₂ ?_
    exact ⟨h₂.rule hb, heq ▸ List.mem_cons_self⟩

theorem Conversion.learns_rule {ordinal : UInt64} {a : Axiom} (hc : c.Sound ns)
    (hordinal : c.axioms[ordinal.toNat]? = some a) (ha : a.term.rule? = some r) (hr : r.Placed ns c) :
    Learns ns (rule ordinal) c fun b c' => r.Shown c' b ∧ (a, b) ∈ c'.converted := by
  refine learns_get ?_
  rw [hordinal]
  exact a.learns_convert hc ha hr

end Rules

section Bindings

variable {c c' : Converter} {ns : List String} {bs : List (String × Term)}

-- The bindings of names to terms as bindings of ids to patterns.
def Converter.substitution (c : Converter) (bs : List (String × Term)) : Substitution :=
  .ofList (bs.map fun b => (c.vocabulary.metavars.id b.1, b.2.image c))

theorem Conversion.ends_metavar {name : String} (hname : name ∈ c.names) :
    Ends (liftM (c.vocabulary.metavarId name)) c
      (fun id c' => id = c.vocabulary.metavars.id name ∧ c' = c) fun _ _ => False := by
  have hid : c.vocabulary.metavarId name = .ok (c.vocabulary.metavars.id name) := by
    rw [Vocabulary.metavarId, NameTable.id?_eq_some hname]
  rw [hid]
  exact ends_pure ⟨rfl, rfl⟩

-- Bindings of declared names are converted one after the other, and each one stays right.
theorem Conversion.ends_bindings {I : Converter → Prop} (hc : I c) (hnames : ∀ b ∈ bs, b.1 ∈ c.names)
    (hvalues : ∀ b ∈ bs, ∀ c', I c' → c.Grows c' →
      Ends b.2.convert c' (fun p c'' => I c'' ∧ c'.Grows c'' ∧ b.2.Shown c'' p) fun _ _ => False) :
    Ends (bindings bs) c (fun s c' => I c' ∧ c.Grows c' ∧
      s = c'.substitution bs ∧ ∀ b ∈ bs, b.2.Shown c' (b.2.image c')) fun _ _ => False := by
  simp only [bindings, substitution, Substitution.ofList]
  generalize (∅ : Substitution) = s
  induction bs generalizing c s with
  | nil =>
    rw [List.foldlM_nil]
    exact ends_pure ⟨hc, .refl c, rfl, by simp⟩
  | cons b bs ih =>
    obtain ⟨hname, hnames⟩ := List.forall_mem_cons.mp hnames
    obtain ⟨hvalue, hvalues⟩ := List.forall_mem_cons.mp hvalues
    rw [List.foldlM_cons, bind_assoc]
    refine ends_get_bind ?_
    rw [bind_assoc]
    refine Ends.bind (ends_metavar hname) fun id c₁ hid => ?_
    obtain ⟨hid, rfl⟩ := hid
    rw [bind_assoc]
    refine Ends.bind (hvalue c₁ hc (.refl c₁)) fun p c₂ hp => ?_
    obtain ⟨hc₂, hgrows, hp⟩ := hp
    rw [pure_bind]
    have hrest := ih hc₂ (fun b hb => hgrows.names.subset (hnames b hb))
      (fun b hb c' hc' hgrows' => hvalues b hb c' hc' (hgrows.trans hgrows')) (s.insert id p)
    refine hrest.mono fun s' c₃ hend => ?_
    obtain ⟨hc₃, hgrows', hs', hshown⟩ := hend
    refine ⟨hc₃, hgrows.trans hgrows', ?_, ?_⟩
    case refine_1 =>
      have hid : id = c₃.vocabulary.metavars.id b.1 := hid.trans ((hgrows.trans hgrows').id hname).symm
      rw [hs', hid, (hp.grow hgrows').eq_image, List.map_cons, List.foldl_cons]
    case refine_2 =>
      have hp := hp.grow hgrows'
      exact List.forall_mem_cons.mpr ⟨hp.eq_image ▸ hp, hshown⟩

theorem Conversion.learns_bindings (hc : c.Sound ns) (hnames : ∀ b ∈ bs, b.1 ∈ c.names)
    (hvalues : ∀ b ∈ bs, b.2.Placed ns c false) :
    Learns ns (bindings bs) c fun s c' =>
      s = c'.substitution bs ∧ ∀ b ∈ bs, b.2.Shown c' (b.2.image c') :=
  ends_bindings hc hnames fun b hb _ hc' hgrows => Term.learns_convertIn hc' ((hvalues b hb).grow hgrows)

end Bindings
end MatchingLogic.Kore
