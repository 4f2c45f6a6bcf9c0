import MatchingLogic.Metamath.Theory
import MatchingLogic.Proofs.Names
import MatchingLogic.Proofs.Notation.Registration

namespace MatchingLogic

theorem Notations.resolve_instantiate {ns : Notations} {name : String} {args : List Pattern} {p : Pattern}
    (h : ns.resolve name args = .ok p) (s : Substitution) :
    ns.resolve name (args.map (·.instantiate s)) = .ok (p.instantiate s) := by
  simp only [resolve, Notation.checkArity, List.length_map] at h ⊢
  split at h
  case h_1 n hn =>
    split_ifs at h with hlength
    · cases h
      simp [hlength, bind, Except.bind, pure, Except.pure]
    · cases h
  case h_2 =>
    cases h
    simp [pure, Except.pure]

namespace Metamath

variable {ns : Notations} {scope inner : Scope} {p : Pattern} {name : String}

theorem Connective.join_instantiate {c : Connective} {l r : Pattern} (h : c.join l r = .ok p)
    (s : Substitution) : c.join (l.instantiate s) (r.instantiate s) = .ok (p.instantiate s) := by
  simp only [join] at h
  split at h
  all_goals cases h
  all_goals simp [join]

namespace Term

theorem convertAll_eq (ts : List Term) : convertAll ns scope ts = ts.mapM (convert ns scope) := by
  induction ts with
  | nil => rfl
  | cons t ts ih => simp [convertAll, ih]

-- The applications that can be converted, with their patterns.
inductive Applies (ns : Notations) (scope : Scope) : String → List Term → Pattern → Prop
  | connective {symbol : String} {c : Connective} {l r : Term} {l' r' p : Pattern}
      (hc : Connective.ofName? symbol = some c) (hl : l.convert ns scope = .ok l')
      (hr : r.convert ns scope = .ok r') (hp : c.join l' r' = .ok p) : Applies ns scope symbol [l, r] p
  | shorthand {symbol : String} {args : List Term} {ps : List Pattern} {p : Pattern}
      (hc : Connective.ofName? symbol = none) (hname : ns.contains symbol)
      (hargs : args.mapM (convert ns scope) = .ok ps) (hp : ns.resolve symbol ps = .ok p) :
      Applies ns scope symbol args p
  | constant {symbol : String} (hc : Connective.ofName? symbol = none) (hname : ¬ns.contains symbol)
      (hsymbol : scope.isSymbol symbol) : Applies ns scope symbol [] (.symbol symbol)

theorem convert_app_iff {symbol : String} {args : List Term} :
    (app symbol args).convert ns scope = .ok p ↔ Applies ns scope symbol args p := by
  constructor
  case mp =>
    intro h
    rw [convert.eq_def] at h
    simp only at h
    split at h
    case h_1 c l r hc =>
      obtain ⟨l', hl, h⟩ := bind_eq_ok.mp h
      obtain ⟨r', hr, h⟩ := bind_eq_ok.mp h
      exact .connective hc hl hr h
    case h_2 => cases h
    case h_3 hc =>
      split_ifs at h with hname hsymbol hargs
      · obtain ⟨ps, hps, h⟩ := bind_eq_ok.mp h
        rw [convertAll_eq] at hps
        exact .shorthand hc hname hps h
      · cases h
        obtain rfl := List.isEmpty_iff.mp hargs
        exact .constant hc hname hsymbol
  case mpr =>
    rintro (⟨hc, hl, hr, hp⟩ | ⟨hc, hname, hargs, hp⟩ | ⟨hc, hname, hsymbol⟩)
    all_goals rw [convert.eq_def]
    · simp [hc, hl, hr, hp, bind, Except.bind]
    · simp [hc, hname, convertAll_eq, hargs, hp, bind, Except.bind]
    · simp [hc, hname, hsymbol]

mutual

-- Replaces variables by name.
def replace (f : String → Option Term) : Term → Term
  | app symbol args => app symbol (replaceAll f args)
  | var name => (f name).getD (var name)

def replaceAll (f : String → Option Term) : List Term → List Term
  | [] => []
  | t :: ts => t.replace f :: replaceAll f ts

end

theorem replaceAll_eq (f : String → Option Term) (ts : List Term) : replaceAll f ts = ts.map (replace f) := by
  induction ts with
  | nil => rfl
  | cons t ts ih => rw [replaceAll, ih, List.map_cons]

-- What a name stands for in `inner` becomes under `s` what is put in its place by `f` stands for in `scope`.
structure Relates (ns : Notations) (f : String → Option Term) (s : Substitution) (inner scope : Scope) : Prop where
  symbols : ∀ name, inner.isSymbol name = scope.isSymbol name
  names : ∀ name p, inner.resolve name = .ok p → ((var name).replace f).convert ns scope = .ok (p.instantiate s)

-- Binders need no care: what is bound is no placeholder, so nothing is put in its place.
theorem convert_replace {f : String → Option Term} {s : Substitution} {t : Term}
    (h : Relates ns f s inner scope) (ht : t.convert ns inner = .ok p) :
    (t.replace f).convert ns scope = .ok (p.instantiate s) := by
  induction t generalizing p with
  | var name => exact h.names name p ht
  | app symbol args ih =>
    rw [replace, replaceAll_eq, convert_app_iff]
    cases convert_app_iff.mp ht with
    | connective hc hl hr hp =>
      exact .connective hc (ih _ (by simp) hl) (ih _ (by simp) hr) (Connective.join_instantiate hp s)
    | shorthand hc hname hargs hp =>
      refine .shorthand hc hname ?_ (Notations.resolve_instantiate hp s)
      rw [mapM_eq_ok] at hargs ⊢
      rw [List.forall₂_map_left_iff, List.forall₂_map_right_iff]
      exact forall₂_imp_mem hargs fun t ht q _ hq => ih t ht hq
    | constant hc hname hsymbol => exact .constant hc hname (h.symbols symbol ▸ hsymbol)

end Term

namespace Scope

variable {formals : List String}

-- A metavariable has no second role. That other names have two does not matter.
def Apart (s : Scope) : Prop :=
  ∀ name ∈ s.metavars.names, name ∉ s.elementVars.names ∧ name ∉ s.setVars.names ∧ ¬s.isSymbol name

instance : DecidablePred Apart := fun s => inferInstanceAs (Decidable (∀ name ∈ s.metavars.names, _))

theorem withFormals_eq_ok (h : scope.withFormals formals = .ok inner) :
    inner = { scope with metavars := ⟨formals⟩ } := by
  simp only [withFormals] at h
  split at h
  all_goals cases h
  rfl

theorem varNamed?_eq_some (h : scope.varNamed? name = some p) :
    (∃ id, scope.metavars.id? name = some id ∧ p = .metavar id) ∨ (∃ id, p = .elementVar id) ∨
      ∃ id, p = .setVar id := by
  simp only [varNamed?, Option.orElse_eq_orElse, Option.orElse_eq_or, Option.or_eq_some_iff,
    Option.map_eq_some_iff] at h
  obtain ⟨id, hid, rfl⟩ | ⟨-, ⟨id, -, rfl⟩ | ⟨-, id, -, rfl⟩⟩ := h
  · exact .inl ⟨id, hid, rfl⟩
  · exact .inr (.inl ⟨id, rfl⟩)
  · exact .inr (.inr ⟨id, rfl⟩)

theorem resolve_eq_ok (h : scope.resolve name = .ok p) : scope.varNamed? name = some p ∨ p = .symbol name := by
  simp only [resolve] at h
  split at h
  case h_1 q hvar =>
    cases h
    exact .inl hvar
  case h_2 =>
    split at h
    all_goals cases h
    exact .inr rfl

-- A name that is no metavariable stands for something into which nothing can be put.
theorem instantiate_of_resolve (hname : scope.metavars.id? name = none) (h : scope.resolve name = .ok p)
    (s : Substitution) : p.instantiate s = p := by
  obtain hvar | rfl := resolve_eq_ok h
  · obtain ⟨id, hid, -⟩ | ⟨id, rfl⟩ | ⟨id, rfl⟩ := varNamed?_eq_some hvar
    · simp [hname] at hid
    all_goals rfl
  · rfl

-- A name that is not one of the formal arguments stands for what it stands for outside.
theorem resolve_of_withFormals (hscope : scope.Apart) (hinner : scope.withFormals formals = .ok inner)
    (hname : name ∉ formals) (h : inner.resolve name = .ok p) :
    scope.resolve name = .ok p ∧ ∀ s, p.instantiate s = p := by
  obtain rfl := withFormals_eq_ok hinner
  have hformal : (⟨formals⟩ : NameTable).id? name = none := NameTable.id?_eq_none.mpr hname
  have hsymbols : { scope with metavars := ⟨formals⟩ }.isSymbol name = scope.isSymbol name := rfl
  have hmetavar : scope.metavars.id? name = none := by
    rw [NameTable.id?_eq_none]
    intro hmem
    obtain ⟨helement, hset, hsymbol⟩ := hscope name hmem
    simp [resolve, varNamed?, hformal, NameTable.id?_eq_none.mpr helement, NameTable.id?_eq_none.mpr hset,
      hsymbols, hsymbol] at h
  have hvar : scope.varNamed? name = { scope with metavars := ⟨formals⟩ }.varNamed? name := by
    simp [varNamed?, hformal, hmetavar]
  refine ⟨?_, instantiate_of_resolve hformal h⟩
  rwa [resolve, hvar, ← hsymbols]

end Scope

namespace Term

open Substitution (numbered positional)

variable {formals : List String} {args : List Term} {ps : List Pattern}

-- The argument that the number of a formal one selects.
def selected (formals : List String) (args : List Term) (name : String) : Option Term :=
  (⟨formals⟩ : NameTable).id? name >>= fun id => (numbered args).reverse.lookup id

theorem lookup_zip (hname : name ∈ formals) (hlength : args.length = formals.length) :
    (formals.zip args).lookup name = args[formals.idxOf name]? := by
  induction formals generalizing args with
  | nil => cases hname
  | cons formal formals ih =>
    obtain ⟨t, args, rfl⟩ := List.exists_cons_of_length_eq_add_one hlength
    rw [List.zip_cons_cons, List.lookup_cons, List.idxOf_cons]
    by_cases heq : name = formal
    case pos => simp [heq]
    case neg =>
      have hname : name ∈ formals := (List.mem_cons.mp hname).resolve_left heq
      simp [beq_false_of_ne heq, beq_false_of_ne (Ne.symm heq), ih hname (Nat.succ.inj hlength)]

-- As long as numbers do not run out, this is the argument at the first place of the formal one.
theorem selected_eq (hlength : args.length = formals.length) (hsize : formals.length ≤ UInt32.size)
    (name : String) : selected formals args name = (formals.zip args).lookup name := by
  by_cases hname : name ∈ formals
  case pos =>
    have hi : formals.idxOf name < args.length := hlength ▸ List.idxOf_lt_length_of_mem hname
    rw [lookup_zip hname hlength, selected, NameTable.id?_eq_some hname, NameTable.id_eq]
    exact (Substitution.lookup_numbered_ofNat (hlength ▸ hsize) hi).trans (List.getElem?_eq_getElem hi).symm
  case neg =>
    have hnone : (formals.zip args).lookup name = none := by
      refine List.lookup_eq_none_iff.mpr fun b hb => bne_iff_ne.mpr fun heq => hname ?_
      exact heq ▸ (List.of_mem_zip hb).1
    rw [hnone, selected, NameTable.id?_eq_none.mpr hname]
    rfl

-- The placeholders in the scope of a body.
theorem relates_withFormals (hscope : scope.Apart) (hinner : scope.withFormals formals = .ok inner)
    (hlength : args.length = formals.length)
    (hargs : List.Forall₂ (fun t p => t.convert ns scope = .ok p) args ps) :
    Relates ns (selected formals args) (positional ps) inner scope where
  symbols name := by rw [Scope.withFormals_eq_ok hinner]; rfl
  names name p h := by
    by_cases hname : name ∈ formals
    case pos =>
      let id := (⟨formals⟩ : NameTable).id name
      have hid : (⟨formals⟩ : NameTable).id? name = some id := NameTable.id?_eq_some hname
      have hp : p = .metavar id := by
        rw [Scope.withFormals_eq_ok hinner] at h
        simpa [Scope.resolve, Scope.varNamed?, hid, eq_comm] using h
      have hlt : id.toNat < args.length := hlength ▸ NameTable.toNat_id_lt hname
      obtain ⟨t, ht⟩ := Option.isSome_iff_exists.mp (Substitution.lookup_numbered_isSome hlt)
      have hrel := Substitution.rel_lookup_numbered hargs id
      rw [ht] at hrel
      generalize hq : (numbered ps).reverse.lookup id = q at hrel
      cases hrel with
      | some hconvert =>
        rw [hp, Pattern.instantiate_metavar, Substitution.get?_positional, hq, replace, selected, hid]
        simpa [ht] using hconvert
    case neg =>
      obtain ⟨hresolve, hp⟩ := Scope.resolve_of_withFormals hscope hinner hname h
      rw [hp, replace, selected, NameTable.id?_eq_none.mpr hname]
      exact hresolve

-- The notation that is defined by a body, filled with the patterns of terms, is the body with these terms in the
-- places of the formal arguments.
theorem instantiate_body {body : Term} {template : Pattern} {n : Notation} (hscope : scope.Apart)
    (hinner : scope.withFormals formals = .ok inner) (hbody : body.convert ns inner = .ok template)
    (hn : Notation.define name formals.length template = .ok n) (hlength : args.length = formals.length)
    (hargs : args.mapM (convert ns scope) = .ok ps) :
    (∃ p, n.instantiate ps = .ok p ∧ (body.replace (selected formals args)).convert ns scope = .ok p) ∧
    (formals.length ≤ UInt32.size → ∃ p, n.instantiate ps = .ok p ∧
      (body.replace fun name => (formals.zip args).lookup name).convert ns scope = .ok p) := by
  rw [mapM_eq_ok] at hargs
  obtain ⟨-, harity, rfl⟩ := Notation.define_eq_ok hn
  have hfilled : n.instantiate ps = .ok (n.template.instantiate (positional ps)) := by
    simp [Notation.instantiate, Notation.checkArity, harity, ← hargs.length_eq, hlength, bind, Except.bind, pure,
      Except.pure]
  have hreplaced := convert_replace (relates_withFormals hscope hinner hlength hargs) hbody
  refine ⟨⟨_, hfilled, hreplaced⟩, fun hsize => ⟨_, hfilled, ?_⟩⟩
  rwa [← funext (selected_eq hlength hsize)]

-- The third argument is not used, and what is put in the place of `φ` is bound by `y`.
theorem instantiate_body_paired :
    let scope : Scope := ⟨⟨["φ"]⟩, ⟨["x", "y"]⟩, ⟨["X"]⟩, ["s"], ["\"1\""]⟩
    let formals := ["x", "φ", "x"]
    let body := app "\\exists" [var "y", app "\\and" [app "\\app" [var "x", var "y"],
      app "\\app" [var "φ", constant "\"1\""]]]
    let args := [constant "s", var "y", var "X"]
    let p := Pattern.ex 1 (.sugar "\\and" [.app (.symbol "s") (.elementVar 1),
      .app (.elementVar 1) (.symbol "\"1\"")])
    ∃ inner template n ps, scope.Apart ∧ scope.withFormals formals = .ok inner ∧
      body.convert .builtin inner = .ok template ∧ Notation.define "\\pair" formals.length template = .ok n ∧
      args.mapM (convert .builtin scope) = .ok ps ∧ n.instantiate ps = .ok p ∧
      (body.replace fun name => (formals.zip args).lookup name).convert .builtin scope = .ok p := by
  intro scope formals body args p
  have hscope : scope.Apart := by decide
  have hinner : scope.withFormals formals = .ok { scope with metavars := ⟨formals⟩ } := by decide +kernel
  let template := Pattern.ex 1 (.sugar "\\and" [.app (.metavar 0) (.elementVar 1),
    .app (.metavar 1) (.symbol "\"1\"")])
  have hbody : body.convert .builtin { scope with metavars := ⟨formals⟩ } = .ok template := by decide +kernel
  have hargs : args.mapM (convert .builtin scope) = .ok [.symbol "s", .elementVar 1, .setVar 0] := by
    decide +kernel
  have hreplaced : (body.replace fun name => (formals.zip args).lookup name).convert .builtin scope = .ok p := by
    decide +kernel
  have hdefined : (Notation.define "\\pair" formals.length template).isOk := by decide +kernel
  obtain ⟨n, hn⟩ := isOk_iff.mp hdefined
  obtain ⟨-, h⟩ := instantiate_body hscope hinner hbody hn rfl hargs
  obtain ⟨q, hq, hconvert⟩ := h (by decide)
  obtain rfl : q = p := Except.ok.inj (hconvert.symm.trans hreplaced)
  exact ⟨_, template, n, _, hscope, hinner, hbody, hn, hargs, hq, hconvert⟩

end Term
end Metamath
end MatchingLogic
