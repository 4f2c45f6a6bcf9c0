import MatchingLogic.Proofs.Notation.Unfolding

namespace MatchingLogic

namespace Pattern

variable {R R' : String → Nat → Prop} {p : Pattern} {s : Substitution}

-- The names of all notation nodes and the numbers of their arguments are related by `R`.
def Within (R : String → Nat → Prop) (p : Pattern) : Prop :=
  ∀ name args, sugar name args ∈ p.nodes → R name args.length

@[simp] theorem within_symbol {name : String} : (symbol name).Within R := by
  simp [Within, nodes]

@[simp] theorem within_elementVar {id : UInt32} : (elementVar id).Within R := by
  simp [Within, nodes]

@[simp] theorem within_setVar {id : UInt32} : (setVar id).Within R := by
  simp [Within, nodes]

@[simp] theorem within_metavar {id : UInt32} : (metavar id).Within R := by
  simp [Within, nodes]

@[simp] theorem within_app {l r : Pattern} : (app l r).Within R ↔ l.Within R ∧ r.Within R := by
  simp [Within, nodes, or_imp, forall_and]

@[simp] theorem within_imp {a c : Pattern} : (imp a c).Within R ↔ a.Within R ∧ c.Within R := by
  simp [Within, nodes, or_imp, forall_and]

@[simp] theorem within_ex {v : UInt32} {b : Pattern} : (ex v b).Within R ↔ b.Within R := by
  simp [Within, nodes]

@[simp] theorem within_mu {v : UInt32} {b : Pattern} : (mu v b).Within R ↔ b.Within R := by
  simp [Within, nodes]

@[simp] theorem within_sugar {n : String} {args : List Pattern} :
    (sugar n args).Within R ↔ R n args.length ∧ ∀ a ∈ args, a.Within R := by
  simp only [Within, nodes, nodesAll_eq, List.mem_cons, List.mem_flatMap]
  constructor
  case mp => exact fun h => ⟨h n args (.inl rfl), fun a ha m bs hm => h m bs (.inr ⟨a, ha, hm⟩)⟩
  case mpr =>
    rintro ⟨hn, hargs⟩ m bs (heq | ⟨a, ha, hm⟩)
    · cases heq
      exact hn
    · exact hargs a ha m bs hm

theorem Within.mono (h : p.Within R) (hR : ∀ {name count}, R name count → R' name count) :
    p.Within R' :=
  fun name args hmem => hR (h name args hmem)

theorem within_of_unsugared (h : p.Unsugared) : p.Within R :=
  fun _ _ hmem => absurd (h _ hmem) (by simp [sugar?])

theorem Within.chain {args : List Pattern} (hp : p.Within R) (hargs : ∀ a ∈ args, a.Within R) :
    (p.chain args).Within R := by
  induction args generalizing p with
  | nil => exact hp
  | cons a args ih =>
    have happ := within_app.mpr ⟨hp, hargs a (by simp)⟩
    exact ih happ fun b hb => hargs b (by simp [hb])

theorem Within.instantiate (hp : p.Within R) (hs : ∀ id q, s.get? id = some q → q.Within R) :
    (p.instantiate s).Within R := by
  induction p with
  | symbol | elementVar | setVar => simp
  | metavar id =>
    rw [instantiate_metavar]
    cases hget : s.get? id with
    | none => simp
    | some q => exact hs id q hget
  | app l r ihl ihr =>
    obtain ⟨hl, hr⟩ := within_app.mp hp
    simpa using ⟨ihl hl, ihr hr⟩
  | imp a c iha ihc =>
    obtain ⟨ha, hc⟩ := within_imp.mp hp
    simpa using ⟨iha ha, ihc hc⟩
  | ex v b ih => simpa using ih (within_ex.mp hp)
  | mu v b ih => simpa using ih (within_mu.mp hp)
  | sugar n args ih =>
    obtain ⟨hn, hargs⟩ := within_sugar.mp hp
    rw [instantiate_sugar, within_sugar, List.length_map]
    refine ⟨hn, fun b hb => ?_⟩
    obtain ⟨a, ha, rfl⟩ := List.mem_map.mp hb
    exact ih a ha (hargs a ha)

end Pattern

namespace Notations

open Pattern

variable {ns : Notations} {rank : String → Nat} {R : String → Nat → Prop}

-- A registered notation of this name takes so many arguments.
def Fits (ns : Notations) (name : String) (count : Nat) : Prop :=
  ∀ n, ns.get? name = some n → count = n.arity

theorem fits_of_arity {name : String} {count : Nat}
    (h : (ns.get? name).map (·.arity) = some count) : ns.Fits name count := by
  intro n hn
  simpa [hn, eq_comm] using h

-- Templates use notations as they are registered, and only those of lower rank.
structure Grounded (ns : Notations) (rank : String → Nat) : Prop where
  template : ∀ n ∈ ns.entries,
    n.template.Within fun name count => ns.Fits name count ∧ rank name < rank n.name
  bounded : ∀ name, rank name ≤ ns.size

theorem Grounded.template_of_get? (h : ns.Grounded rank) {name : String} {n : Notation}
    (hget : ns.get? name = some n) :
    n.template.Within fun other count => ns.Fits other count ∧ rank other < rank name := by
  have hname : n.name = name := by simpa using List.find?_some hget
  exact hname ▸ h.template n (List.mem_of_find?_eq_some hget)

theorem fits_bounded (h : ns.Grounded rank) {name : String} {count : Nat} (hfits : ns.Fits name count) :
    ns.Fits name count ∧ rank name < ns.size + 1 :=
  ⟨hfits, Nat.lt_succ_of_le (h.bounded name)⟩

-- What `R` admits at some depth takes its number of arguments, and its template is admitted one level below.
structure Descends (ns : Notations) (R : Nat → String → Nat → Prop) : Prop where
  bottom : ∀ {name count}, ¬R 0 name count
  fits : ∀ {depth name count}, R depth name count → ns.Fits name count
  template : ∀ {depth name count n}, R (depth + 1) name count → ns.get? name = some n →
    n.template.Within (R depth)

theorem Grounded.descends (h : ns.Grounded rank) :
    ns.Descends fun depth name count => ns.Fits name count ∧ rank name < depth where
  bottom hname := Nat.not_lt_zero _ hname.2
  fits hname := hname.1
  template hname hget := (h.template_of_get? hget).mono fun hn => ⟨hn.1, by have hlt := hn.2; omega⟩

section Expansion

variable {unfold : String → List Pattern → Except ConversionError Pattern}

theorem exists_expandWith (hplain : ∀ {name args q}, unfold name args = .ok q → q.Unsugared)
    (hunfold : ∀ {name args}, R name args.length → (∀ a ∈ args, a.Unsugared) →
      ∃ q, unfold name args = .ok q)
    {p : Pattern} (hp : p.Within R) : ∃ q, expandWith unfold p = .ok q := by
  induction p with
  | app l r ihl ihr =>
    obtain ⟨hl, hr⟩ := within_app.mp hp
    obtain ⟨l', hl⟩ := ihl hl
    obtain ⟨r', hr⟩ := ihr hr
    exact ⟨.app l' r', by simp only [expandWith, hl, hr]; rfl⟩
  | imp a c iha ihc =>
    obtain ⟨ha, hc⟩ := within_imp.mp hp
    obtain ⟨a', ha⟩ := iha ha
    obtain ⟨c', hc⟩ := ihc hc
    exact ⟨.imp a' c', by simp only [expandWith, ha, hc]; rfl⟩
  | ex v b ih =>
    obtain ⟨b', hb⟩ := ih (within_ex.mp hp)
    exact ⟨.ex v b', by simp only [expandWith, hb]; rfl⟩
  | mu v b ih =>
    obtain ⟨b', hb⟩ := ih (within_mu.mp hp)
    exact ⟨.mu v b', by simp only [expandWith, hb]; rfl⟩
  | sugar n args ih =>
    obtain ⟨hn, hargs⟩ := within_sugar.mp hp
    obtain ⟨args', hargs'⟩ := exists_mapM fun a ha => ih a ha (hargs a ha)
    have hlen := (mapM_eq_ok.mp hargs').length_eq
    have hunsugared (a' : Pattern) (ha' : a' ∈ args') : a'.Unsugared := by
      obtain ⟨a, _, ha⟩ := exists_mem_left (mapM_eq_ok.mp hargs') ha'
      exact unsugared_expandWith hplain ha
    obtain ⟨q, hq⟩ := hunfold (hlen ▸ hn) hunsugared
    exact ⟨q, by rw [expandWith, expandAllWith_eq, hargs']; exact hq⟩
  | _ => exact ⟨_, expandWith_unsugared (unsugared_leaf rfl)⟩

theorem exists_expandTemplate {D : Nat → String → Nat → Prop} (h : ns.Descends D) {depth : Nat} {name : String}
    {args : List Pattern} (hname : D depth name args.length) (hargs : ∀ a ∈ args, a.Unsugared) :
    ∃ q, ns.expandTemplate depth name args = .ok q := by
  induction depth generalizing name args with
  | zero => exact absurd hname h.bottom
  | succ depth ih =>
    cases hget : ns.get? name with
    | none =>
      have hexpand : ns.expand name args = .ok (chain (.symbol name) args) :=
        expand_eq_ok.mpr (.inl ⟨hget, rfl⟩)
      have hplain : (chain (.symbol name) args).Unsugared := unsugared_chain (unsugared_leaf rfl) hargs
      exact ⟨_, by rw [expandTemplate, hexpand]; exact expandWith_unsugared hplain⟩
    | some n =>
      have hexpand : ns.expand name args = .ok (n.template.instantiate (.positional args)) :=
        expand_eq_ok.mpr (.inr ⟨n, hget, h.fits hname n hget, rfl⟩)
      have hbody : (n.template.instantiate (.positional args)).Within (D depth) := by
        refine (h.template hname hget).instantiate fun id a ha => ?_
        exact within_of_unsugared (hargs a (Substitution.mem_of_get?_positional ha))
      obtain ⟨q, hq⟩ := exists_expandWith unsugared_expandTemplate ih hbody
      exact ⟨q, by rw [expandTemplate, hexpand]; exact hq⟩

-- A pattern whose notations fit expands fully, and no notation is left.
theorem exists_expandFully (h : ns.Grounded rank) {p : Pattern} (hp : p.Within ns.Fits) :
    ∃ q, ns.expandFully p = .ok q ∧ q.Unsugared := by
  obtain ⟨q, hq⟩ := exists_expandWith unsugared_expandTemplate (exists_expandTemplate h.descends)
    (hp.mono (fits_bounded h))
  exact ⟨q, hq, unsugared_expandWith unsugared_expandTemplate hq⟩

end Expansion

end Notations

namespace Unfolding

open Pattern

variable {E : ConversionError → Prop} {R : String → Nat → Prop}
  {unfold : String → List Unfolding → Unfolding} {env : List (UInt32 × Unfolding)} {us : List Unfolding}

-- Where the unfolding is stuck, it is so for a reason of `E`.
def StuckOnly (E : ConversionError → Prop) : Unfolding → Prop
  | app l r => l.StuckOnly E ∧ r.StuckOnly E
  | imp a c => a.StuckOnly E ∧ c.StuckOnly E
  | ex _ b => b.StuckOnly E
  | mu _ b => b.StuckOnly E
  | sugar _ _ body => (body ()).StuckOnly E
  | stuck _ _ reason => E reason
  | _ => True

theorem stuckOnly_any (hE : ∀ e, E e) (u : Unfolding) : u.StuckOnly E := by
  induction u with
  | app l r ihl ihr | imp l r ihl ihr => exact ⟨ihl, ihr⟩
  | ex v b ih | mu v b ih => exact ih
  | sugar name args body ih => exact ih ()
  | stuck name args reason => exact hE reason
  | _ => trivial

theorem modular_stuckOnly : Modular (StuckOnly E) :=
  ⟨trivial, trivial, trivial, trivial, And.intro, And.intro, id, id⟩

-- It is enough to unfold what `R` admits.
theorem Modular.ofPattern_within {P : Unfolding → Prop} (hP : Modular P)
    (hunfold : ∀ {name us}, R name us.length → (∀ u ∈ us, P u) → P (unfold name us))
    (henv : ∀ id u, env.lookup id = some u → P u) {p : Pattern} (hp : p.Within R) :
    P (Unfolding.ofPattern unfold env p) :=
  hP.ofPattern (fun name args hmem _ hlength => hunfold (hlength ▸ hp name args hmem)) henv

end Unfolding

namespace Notations

open Pattern Unfolding

variable {ns : Notations} {rank : String → Nat} {E : ConversionError → Prop}

theorem stuckOnly_unfoldNode {D : Nat → String → Nat → Prop} (h : ns.Descends D) {depth : Nat} {name : String}
    {us : List Unfolding} (hname : D depth name us.length) (hus : ∀ u ∈ us, u.StuckOnly E) :
    (ns.unfoldNode depth name us).StuckOnly E := by
  induction depth generalizing name us with
  | zero => exact absurd hname h.bottom
  | succ depth ih =>
    simp only [unfoldNode]
    split
    case h_1 => exact modular_stuckOnly.foldl_app trivial hus
    case h_2 n hget =>
      have harity : n.checkArity (us.map folded) = .ok () := by
        simp [Notation.checkArity, h.fits hname n hget]
      simp only [harity]
      exact modular_stuckOnly.ofPattern_within ih
        (fun id u hu => hus u (Substitution.mem_of_lookup_numbered hu)) (h.template hname hget)

-- The unfolding of a pattern whose notations fit is nowhere stuck.
theorem stuckOnly_unfolding (h : ns.Grounded rank) {p : Pattern} (hp : p.Within ns.Fits) :
    (ns.unfolding p).StuckOnly E :=
  modular_stuckOnly.ofPattern_within (stuckOnly_unfoldNode h.descends) (fun _ _ hu => by cases hu)
    (hp.mono (fits_bounded h))

-- `⊤`, `∧` and `∨` are built from `¬`, and `¬` from `⊥`; all other templates have no notations in them.
def builtinRank (name : String) : Nat :=
  if name ∈ ["\\top", "\\and", "\\or"] then 2 else if name = "\\neg" then 1 else 0

theorem within_headed {R : String → Nat → Prop} (name : String) (arity : Nat) :
    (headed name arity).Within R :=
  within_of_unsugared fun _ hq => (mem_nodes_headed hq).1

theorem entries_builtin : builtin.entries = [.bot, .neg, .top, .and, .or] ++
    [("kore-rewrites", 3), ("kore-equals", 3), ("kore-and", 3), ("kore-or", 3), ("kore-top", 1),
      ("kore-dv", 2), ("kore-app", 2), ("cell", 1), ("nested-cells", 1)].map
      fun (name, arity) => Notation.plain name arity :=
  rfl

theorem fits_bot : builtin.Fits "\\bot" 0 := fits_of_arity rfl

theorem fits_neg : builtin.Fits "\\neg" 1 := fits_of_arity rfl

theorem grounded_builtin : builtin.Grounded builtinRank where
  template n hn := by
    rw [entries_builtin, List.mem_append, List.mem_map] at hn
    obtain hn | ⟨⟨name, arity⟩, -, rfl⟩ := hn
    · simp only [List.mem_cons, List.not_mem_nil, or_false] at hn
      rcases hn with rfl | rfl | rfl | rfl | rfl
      all_goals simp [Notation.bot, Notation.neg, Notation.top, Notation.and, Notation.or,
        Notation.ofTemplate, Pattern.bot, Pattern.neg, fits_bot, fits_neg, builtinRank]
    · exact within_headed name arity
  bounded name := by
    simp only [builtinRank]
    split_ifs <;> decide

end Notations
end MatchingLogic
