import MatchingLogic.Metamath.Theory
import MatchingLogic.Proofs.Names
import MatchingLogic.Proofs.Success

namespace MatchingLogic

namespace NameTable

variable {t u : NameTable}

theorem truncate_of_prefix (h : t.names <+: u.names) : u.truncate t.size = t := by
  obtain ⟨rest, hrest⟩ := h
  simp [truncate, size, ← hrest]

theorem idxOf?_of_prefix {name : String} {i : Nat} (h : t.names <+: u.names)
    (hi : t.names.idxOf? name = some i) : u.names.idxOf? name = some i := by
  obtain ⟨rest, hrest⟩ := h
  rw [← hrest, List.idxOf?, List.findIdx?_append, ← List.idxOf?, hi, Option.some_or]

end NameTable

namespace Metamath

namespace Scope

variable {s s' s'' : Scope}

-- The tables of variables, one for each kind.
def tables : List (Scope → NameTable) :=
  [metavars, elementVars, setVars]

theorem forall_tables {P : (Scope → NameTable) → Prop} :
    (∀ table ∈ tables, P table) ↔ P metavars ∧ P elementVars ∧ P setVars := by
  simp [tables]

theorem varNamed?_congr (h : ∀ table ∈ tables, table s' = table s) (name : String) :
    s'.varNamed? name = s.varNamed? name := by
  obtain ⟨hmetavars, helements, hsets⟩ := forall_tables.mp h
  rw [varNamed?, hmetavars, helements, hsets, varNamed?]

-- Nothing of `s` is lost in `s'`, and its variables have kept their places.
structure Extends (s s' : Scope) : Prop where
  tables : ∀ table ∈ tables, (table s).names <+: (table s').names
  symbols : s.symbols ⊆ s'.symbols
  domainValues : s.domainValues ⊆ s'.domainValues

namespace Extends

theorem refl (s : Scope) : s.Extends s :=
  ⟨fun _ _ => List.prefix_rfl, List.Subset.refl _, List.Subset.refl _⟩

theorem trans (h : s.Extends s') (h' : s'.Extends s'') : s.Extends s'' where
  tables table htable := (h.tables table htable).trans (h'.tables table htable)
  symbols := List.Subset.trans h.symbols h'.symbols
  domainValues := List.Subset.trans h.domainValues h'.domainValues

-- Cutting the tables to the lengths that they had takes them back to what they were.
theorem tables_truncate (h : s.Extends s') :
    ∀ table ∈ Scope.tables, table (s'.truncate s.mark) = table s := by
  obtain ⟨hmetavars, helements, hsets⟩ := forall_tables.mp h.tables
  rw [forall_tables]
  exact ⟨NameTable.truncate_of_prefix hmetavars, NameTable.truncate_of_prefix helements,
    NameTable.truncate_of_prefix hsets⟩

theorem truncate (h : s.Extends s') : s.Extends (s'.truncate s.mark) where
  tables table htable := by simp [h.tables_truncate table htable]
  symbols := h.symbols
  domainValues := h.domainValues

end Extends

theorem extends_addMetavar (s : Scope) (name : String) : s.Extends (s.addMetavar name) :=
  { Extends.refl s with
    tables := forall_tables.mpr ⟨NameTable.prefix_declare, List.prefix_rfl, List.prefix_rfl⟩ }

theorem extends_addElementVar (s : Scope) (name : String) : s.Extends (s.addElementVar name) :=
  { Extends.refl s with
    tables := forall_tables.mpr ⟨List.prefix_rfl, NameTable.prefix_declare, List.prefix_rfl⟩ }

theorem extends_addSetVar (s : Scope) (name : String) : s.Extends (s.addSetVar name) :=
  { Extends.refl s with
    tables := forall_tables.mpr ⟨List.prefix_rfl, List.prefix_rfl, NameTable.prefix_declare⟩ }

theorem extends_addSymbol (s : Scope) (name : String) : s.Extends (s.addSymbol name) where
  tables := forall_tables.mpr ⟨List.prefix_rfl, List.prefix_rfl, List.prefix_rfl⟩
  symbols _ h := List.mem_insert_of_mem h
  domainValues := List.Subset.refl _

theorem extends_addDomainValue (s : Scope) (name : String) : s.Extends (s.addDomainValue name) where
  tables := forall_tables.mpr ⟨List.prefix_rfl, List.prefix_rfl, List.prefix_rfl⟩
  symbols := List.Subset.refl _
  domainValues _ h := List.mem_insert_of_mem h

end Scope

namespace Statement

-- The statements of a block.
def body : Statement → List Statement
  | block ss => ss
  | _ => []

-- The statement at a position: its place in a list, after the places of the blocks around it.
def at? (ss : List Statement) : List Nat → Option Statement
  | [] => none
  | [i] => ss[i]?
  | i :: l => ss[i]? >>= fun s => at? s.body l

theorem at?_cons {ss : List Statement} {i : Nat} {l : List Nat} (hl : l ≠ []) :
    at? ss (i :: l) = ss[i]? >>= fun s => at? s.body l := by
  cases l with
  | nil => exact absurd rfl hl
  | cons j l => rfl

end Statement

namespace Theory

variable {t t' t'' : Theory} {s : Statement} {ss : List Statement}

-- Nothing of `t` is lost in `t'`, and its variables and axioms have kept their places.
structure Extends (t t' : Theory) : Prop where
  scope : t.scope.Extends t'.scope
  constants : t.constants ⊆ t'.constants
  axioms : t.axioms <+: t'.axioms

namespace Extends

theorem refl (t : Theory) : t.Extends t :=
  ⟨.refl t.scope, List.Subset.refl _, List.prefix_rfl⟩

theorem trans (h : t.Extends t') (h' : t'.Extends t'') : t.Extends t'' where
  scope := h.scope.trans h'.scope
  constants := List.Subset.trans h.constants h'.constants
  axioms := h.axioms.trans h'.axioms

end Extends

theorem extends_addFloating (t : Theory) (typecode name : String) :
    t.Extends (t.addFloating typecode name) := by
  unfold addFloating
  split_ifs
  · split
    · exact { Extends.refl t with scope := t.scope.extends_addMetavar name }
    · exact { Extends.refl t with scope := t.scope.extends_addMetavar name }
    · exact { Extends.refl t with scope := t.scope.extends_addMetavar name }
    · exact { Extends.refl t with scope := t.scope.extends_addElementVar name }
    · exact { Extends.refl t with scope := t.scope.extends_addSetVar name }
    · exact .refl t
  · exact .refl t

theorem extends_addNotation {symbol : String} {args : List Term} {body : Term}
    (h : t.addNotation symbol args body = .ok t') : t.Extends t' := by
  obtain ⟨formals, -, h⟩ := bind_eq_ok.mp h
  obtain ⟨scope, -, h⟩ := bind_eq_ok.mp h
  obtain ⟨template, -, h⟩ := bind_eq_ok.mp h
  obtain ⟨n, -, h⟩ := bind_eq_ok.mp h
  cases h
  exact { Extends.refl t with }

theorem extends_addAxiomatic {label : String} {terms : List Term}
    (h : t.addAxiomatic label terms = .ok t') : t.Extends t' := by
  unfold addAxiomatic at h
  split at h
  case h_1 name =>
    cases h
    split
    case isTrue => exact { Extends.refl t with scope := t.scope.extends_addDomainValue name }
    case isFalse => exact .refl t
  case h_2 name =>
    cases h
    exact { Extends.refl t with scope := t.scope.extends_addSymbol name }
  case h_3 => exact extends_addNotation h
  case h_4 =>
    obtain ⟨p, -, h⟩ := bind_eq_ok.mp h
    cases h
    exact { Extends.refl t with axioms := List.prefix_append .. }
  case h_5 =>
    cases h
    exact .refl t

theorem extends_addAll_of (hadd : ∀ s ∈ ss, ∀ {t t' : Theory}, t.add s = .ok t' → t.Extends t')
    (h : t.addAll ss = .ok t') : t.Extends t' := by
  induction ss generalizing t with
  | nil =>
    cases h
    exact .refl t'
  | cons s ss ih =>
    obtain ⟨t₁, hs, h⟩ := bind_eq_ok.mp h
    exact (hadd s (by simp) hs).trans (ih (fun s hs => hadd s (by simp [hs])) h)

theorem extends_add (h : t.add s = .ok t') : t.Extends t' := by
  induction s generalizing t t' with
  | declareConstants names =>
    cases h
    exact { Extends.refl t with constants := List.subset_append_left .. }
  | declareVariables | essential | provable =>
    cases h
    exact { Extends.refl t with }
  | floating label typecode name =>
    cases h
    exact extends_addFloating t typecode name
  | axiomatic label terms => exact extends_addAxiomatic h
  | block statements ih =>
    obtain ⟨inner, hinner, h⟩ := bind_eq_ok.mp h
    cases h
    have hextends := extends_addAll_of ih hinner
    exact { hextends with scope := hextends.scope.truncate }

theorem extends_addAll (h : t.addAll ss = .ok t') : t.Extends t' :=
  extends_addAll_of (fun _ _ => extends_add) h

theorem addAll_append (t : Theory) (ss us : List Statement) :
    t.addAll (ss ++ us) = t.addAll ss >>= fun t' => t'.addAll us := by
  induction ss generalizing t with
  | nil => rfl
  | cons s ss ih => simp only [List.cons_append, addAll, ih, bind_assoc]

-- Up to any place and from there on.
theorem addAll_take (h : t.addAll ss = .ok t') (i : Nat) :
    ∃ u, t.addAll (ss.take i) = .ok u ∧ u.addAll (ss.drop i) = .ok t' := by
  rw [← List.take_append_drop i ss, addAll_append] at h
  exact bind_eq_ok.mp h

theorem add_of_addAll {i : Nat} (h : t.addAll ss = .ok t') (hs : ss[i]? = some s) :
    ∃ u u', t.addAll (ss.take i) = .ok u ∧ u.add s = .ok u' ∧ t.addAll (ss.take (i + 1)) = .ok u' := by
  obtain ⟨u, hu, h⟩ := addAll_take h i
  obtain ⟨hi, rfl⟩ := List.getElem?_eq_some_iff.mp hs
  rw [List.drop_eq_getElem_cons hi] at h
  obtain ⟨u', hu', -⟩ := bind_eq_ok.mp h
  refine ⟨u, u', hu, hu', ?_⟩
  rw [List.take_succ_eq_append_getElem hi, addAll_append, hu]
  simp [addAll, hu', bind, Except.bind]

theorem add_block {inner : List Statement} : t.add (.block inner) = .ok t' ↔
    ∃ u, t.addAll inner = .ok u ∧ t' = { u with scope := u.scope.truncate t.scope.mark } := by
  rw [add, bind_eq_ok]
  simp [pure, Except.pure, eq_comm]

-- The theory with which the addition of `ss` comes to a position. The place after the last statement of a
-- block is its end.
def moment (t : Theory) (ss : List Statement) : List Nat → Except ConversionError Theory
  | [] => .ok t
  | i :: l => do (← t.addAll (ss.take i)).moment (ss[i]?.elim [] Statement.body) l

theorem moment_cons {u : Theory} {i : Nat} (hu : t.addAll (ss.take i) = .ok u) (hs : ss[i]? = some s)
    (l : List Nat) : t.moment ss (i :: l) = u.moment s.body l := by
  rw [moment, hu, hs]
  rfl

theorem addAll_body (h : t.add s = .ok t') : ∃ u, t.addAll s.body = .ok u := by
  cases s with
  | block inner =>
    obtain ⟨u, hu, -⟩ := add_block.mp h
    exact ⟨u, hu⟩
  | _ => exact ⟨t, rfl⟩

-- All moments come, and nothing is lost until then.
theorem extends_moment (h : t.addAll ss = .ok t') (l : List Nat) :
    ∃ u, t.moment ss l = .ok u ∧ t.Extends u := by
  induction l generalizing t t' ss with
  | nil => exact ⟨t, rfl, .refl t⟩
  | cons i l ih =>
    cases hs : ss[i]? with
    | none =>
      obtain ⟨u, hu, -⟩ := addAll_take h i
      have hend : u.addAll [] = .ok u := rfl
      obtain ⟨v, hv, hextends⟩ := ih hend
      refine ⟨v, ?_, (extends_addAll hu).trans hextends⟩
      rw [moment, hu, hs]
      exact hv
    | some s =>
      obtain ⟨u, u', hu, hs', -⟩ := add_of_addAll h hs
      obtain ⟨v, hv⟩ := addAll_body hs'
      obtain ⟨w, hw, hextends⟩ := ih hv
      exact ⟨w, (moment_cons hu hs l).trans hw, (extends_addAll hu).trans hextends⟩

-- What comes right before a statement, inside of it and right after it.
theorem moment_at {l : List Nat} {i : Nat} (h : t.addAll ss = .ok t')
    (hs : Statement.at? ss (l ++ [i]) = some s) :
    ∃ before after, t.moment ss (l ++ [i]) = .ok before ∧ before.add s = .ok after ∧
      t.moment ss (l ++ [i + 1]) = .ok after ∧ ∀ m, t.moment ss (l ++ i :: m) = before.moment s.body m := by
  induction l generalizing t t' ss with
  | nil =>
    obtain ⟨before, after, hbefore, hadd, hafter⟩ := add_of_addAll h hs
    refine ⟨before, after, moment_cons hbefore hs [], hadd, ?_, moment_cons hbefore hs⟩
    rw [List.nil_append, moment, hafter]
    rfl
  | cons j l ih =>
    rw [List.cons_append, Statement.at?_cons (by simp)] at hs
    obtain ⟨b, hb, hs⟩ := Option.bind_eq_some_iff.mp hs
    obtain ⟨u, u', hu, hb', -⟩ := add_of_addAll h hb
    obtain ⟨v, hv⟩ := addAll_body hb'
    obtain ⟨before, after, hbefore, hadd, hafter, hinside⟩ := ih hv hs
    refine ⟨before, after, ?_, hadd, ?_, fun m => ?_⟩
    all_goals rw [List.cons_append, moment_cons hu hb]
    · exact hbefore
    · exact hafter
    · exact hinside m

-- Every block, at any depth: its variables are gone with it and have not moved any other, and all that it has
-- declared or stated besides stays.
theorem block_scoped {l : List Nat} {i : Nat} {inner : List Statement} (h : t.addAll ss = .ok t')
    (hblock : Statement.at? ss (l ++ [i]) = some (.block inner)) :
    ∃ before after, t.moment ss (l ++ [i]) = .ok before ∧ t.moment ss (l ++ [i + 1]) = .ok after ∧
      (∀ table ∈ Scope.tables, table after.scope = table before.scope) ∧
      (∀ name, after.scope.varNamed? name = before.scope.varNamed? name) ∧
      (∀ m, ∃ during, t.moment ss (l ++ i :: m) = .ok during ∧
        ∀ table ∈ Scope.tables, ∀ name k, (table before.scope).names.idxOf? name = some k →
          (table during.scope).names.idxOf? name = some k) ∧
      before.scope.symbols ⊆ after.scope.symbols ∧ before.scope.domainValues ⊆ after.scope.domainValues ∧
      before.constants ⊆ after.constants ∧ before.axioms <+: after.axioms := by
  obtain ⟨before, after, hbefore, hadd, hafter, hinside⟩ := moment_at h hblock
  have hextends := extends_add hadd
  obtain ⟨last, hlast, rfl⟩ := add_block.mp hadd
  have htables := (extends_addAll hlast).scope.tables_truncate
  refine ⟨before, _, hbefore, hafter, htables, Scope.varNamed?_congr htables, fun m => ?_,
    hextends.scope.symbols, hextends.scope.domainValues, hextends.constants, hextends.axioms⟩
  obtain ⟨during, hduring, hextends⟩ := extends_moment hlast m
  refine ⟨during, (hinside m).trans hduring, fun table htable name k hk => ?_⟩
  exact NameTable.idxOf?_of_prefix (hextends.scope.tables table htable) hk

-- In the outer block `x` is a set variable, too, and in the inner one `y` is declared and used.
def shadowing : List Statement := [
  .declareVariables ["x", "y"],
  .floating "x-is-pattern" "#Pattern" "x",
  .block [
    .floating "x-is-set-var" "#SetVariable" "x",
    .block [
      .floating "y-is-element-var" "#ElementVariable" "y",
      .axiomatic "s-is-symbol" [.constant "#Symbol", .constant "s"],
      .axiomatic "s-applied" [.constant "|-", .app "\\app" [.constant "s", .var "y"]]],
    .axiomatic "x-implied" [.constant "|-", .app "\\imp" [.var "x", .var "x"]]]]

theorem block_scoped_shadowing :
    ∃ t inside before after, addAll {} shadowing = .ok t ∧ t.axioms.length = 2 ∧
      moment {} shadowing [2, 1, 2] = .ok inside ∧ inside.scope.varNamed? "y" = some (.elementVar 0) ∧
      moment {} shadowing [2, 1] = .ok before ∧ moment {} shadowing [2, 2] = .ok after ∧
      after.scope.varNamed? "y" = none ∧ after.scope.setVars = before.scope.setVars ∧
      before.axioms <+: after.axioms := by
  obtain ⟨t, ht, haxioms⟩ := exists_of_any (x := addAll {} shadowing)
    (P := fun t => t.axioms.length = 2) (by decide +kernel)
  obtain ⟨inside, hinside, hy⟩ := exists_of_any (x := moment {} shadowing [2, 1, 2])
    (P := fun t => t.scope.varNamed? "y" = some (.elementVar 0)) (by decide +kernel)
  have hbefore : (moment {} shadowing [2, 1]).toOption.any fun t => t.scope.varNamed? "y" = none := by
    decide +kernel
  obtain ⟨before, after, hb, ha, htables, hvars, -, -, -, -, hprefix⟩ := block_scoped ht
    (show Statement.at? shadowing ([2] ++ [1]) = some (.block _) from rfl)
  have hb : moment {} shadowing [2, 1] = .ok before := hb
  rw [hb] at hbefore
  refine ⟨t, inside, before, after, ht, by simpa using haxioms, hinside, by simpa using hy, hb, ha, ?_,
    htables _ (by simp [Scope.tables]), hprefix⟩
  rw [hvars]
  exact of_decide_eq_true hbefore

end Theory
end Metamath
end MatchingLogic
