import MatchingLogic.Proofs.Execution.Confinement
import MatchingLogic.Proofs.Metamath.Meaning
import MatchingLogic.Proofs.Notation.Acyclic

namespace MatchingLogic.Metamath

open Pattern

variable {ns : Notations} {scope : Scope} {p : Pattern}

theorem Scope.isLeaf_of_resolve {name : String} (h : scope.resolve name = .ok p) :
    p.isLeaf = true := by
  obtain hvar | rfl := resolve_eq_ok h
  · obtain ⟨id, -, rfl⟩ | ⟨id, rfl⟩ | ⟨id, rfl⟩ := varNamed?_eq_some hvar
    all_goals rfl
  · rfl

theorem Connective.within_join {R : String → Nat → Prop} {c : Connective} {l r : Pattern}
    (h : c.join l r = .ok p) (hl : l.Within R) (hr : r.Within R) : p.Within R := by
  simp only [join] at h
  split at h
  all_goals cases h
  all_goals simp [hl, hr]

namespace Term

-- A converted term uses notations as they are registered.
theorem within_convert {t : Term} (h : t.convert ns scope = .ok p) : p.Within ns.Registers := by
  induction t generalizing p with
  | var name => exact within_of_unsugared (unsugared_leaf (Scope.isLeaf_of_resolve h))
  | app symbol args ih =>
    cases convert_app_iff.mp h with
    | connective hc hl hr hp => exact Connective.within_join hp (ih _ (by simp) hl) (ih _ (by simp) hr)
    | shorthand hc hname hargs hp =>
      obtain ⟨rfl, hregisters⟩ := Notations.registers_of_resolve hname hp
      refine within_sugar.mpr ⟨hregisters, fun q hq => ?_⟩
      obtain ⟨t, ht, hconvert⟩ := exists_mem_left (mapM_eq_ok.mp hargs) hq
      exact ih t ht hconvert
    | constant => exact within_symbol

end Term

-- The symbol of a definition of a notation.
def definedBy : List Term → List String
  | .app "#Notation" _ :: [.app name _, _] => [name]
  | _ => []

mutual

-- The names that are given to notations, at any depth, in the order of the statements.
def Statement.defined : Statement → List String
  | .axiomatic _ terms => definedBy terms
  | .block statements => Statement.definedAll statements
  | _ => []

def Statement.definedAll : List Statement → List String
  | [] => []
  | s :: ss => s.defined ++ Statement.definedAll ss

end

def Database.defined (d : Database) : List String :=
  Statement.definedAll d.statements

namespace Theory

variable {t t' t'' : Theory} {new new' : List String}

structure SelfContained (t : Theory) : Prop where
  ordered : t.notations.Ordered
  axioms : ∀ entry ∈ t.axioms, entry.2.Within t.notations.Registers

theorem selfContained_empty : SelfContained {} where
  ordered := Notations.ordered_builtin
  axioms _ h := by cases h

-- As long as the names are new, they are registered in this order and the theory stays self-contained.
def Adds (t : Theory) (new : List String) (t' : Theory) : Prop :=
  t.SelfContained → (t.notations.names ++ new).Nodup →
    t'.SelfContained ∧ t'.notations.names = t.notations.names ++ new

theorem Adds.trans (h : t.Adds new t') (h' : t'.Adds new' t'') : t.Adds (new ++ new') t'' := by
  intro ht hnew
  rw [← List.append_assoc] at hnew
  obtain ⟨ht', hnames⟩ := h ht hnew.of_append_left
  obtain ⟨ht'', hnames'⟩ := h' ht' (hnames ▸ hnew)
  exact ⟨ht'', by rw [hnames', hnames, List.append_assoc]⟩

theorem adds_nil (hnotations : t'.notations = t.notations) (haxioms : t'.axioms = t.axioms) :
    t.Adds [] t' := by
  intro ht _
  refine ⟨⟨hnotations ▸ ht.ordered, ?_⟩, by rw [hnotations, List.append_nil]⟩
  rw [hnotations, haxioms]
  exact ht.axioms

theorem adds_addFloating (typecode name : String) : t.Adds [] (t.addFloating typecode name) := by
  unfold addFloating
  split_ifs
  · split
    all_goals exact adds_nil rfl rfl
  · exact adds_nil rfl rfl

theorem adds_addNotation {symbol : String} {args : List Term} {body : Term}
    (h : t.addNotation symbol args body = .ok t') : t.Adds [symbol] t' := by
  intro ht hnew
  obtain ⟨formals, -, h⟩ := bind_eq_ok.mp h
  obtain ⟨scope, -, h⟩ := bind_eq_ok.mp h
  obtain ⟨template, htemplate, h⟩ := bind_eq_ok.mp h
  obtain ⟨n, hn, h⟩ := bind_eq_ok.mp h
  cases h
  obtain ⟨rfl, -, rfl⟩ := Notation.define_eq_ok hn
  have hname : n.name ∉ t.notations.names := by
    exact fun hmem => (List.nodup_append.mp hnew).2.2 _ hmem _ (List.mem_singleton_self _) rfl
  refine ⟨⟨?ordered, ?axioms⟩, Notations.names_register hname⟩
  case ordered => exact ht.ordered.register hname (Term.within_convert htemplate)
  case axioms => exact fun entry hentry => (ht.axioms entry hentry).mono fun hr => hr.register hname

theorem adds_addAxiom {label : String} {statement : Term} (h : t.addAxiom label statement = .ok t') :
    t.Adds [] t' := by
  intro ht _
  obtain ⟨p, hp, h⟩ := bind_eq_ok.mp h
  cases h
  refine ⟨⟨ht.ordered, fun entry hentry => ?_⟩, (List.append_nil _).symm⟩
  obtain hentry | hentry := List.mem_append.mp hentry
  · exact ht.axioms entry hentry
  · cases List.mem_singleton.mp hentry
    exact Term.within_convert hp

theorem adds_addAxiomatic {label : String} {terms : List Term}
    (h : t.addAxiomatic label terms = .ok t') : t.Adds (definedBy terms) t' := by
  unfold addAxiomatic at h
  split at h
  case h_1 =>
    cases h
    split
    all_goals exact adds_nil rfl rfl
  case h_2 =>
    cases h
    exact adds_nil rfl rfl
  case h_3 => exact adds_addNotation h
  case h_4 => exact adds_addAxiom h
  case h_5 hother _ =>
    cases h
    unfold definedBy
    split
    · exact (hother _ _ _ _ rfl).elim
    · exact adds_nil rfl rfl

theorem adds_addAll {ss : List Statement}
    (hadd : ∀ s ∈ ss, ∀ {t t' : Theory}, t.add s = .ok t' → t.Adds s.defined t')
    (h : t.addAll ss = .ok t') : t.Adds (Statement.definedAll ss) t' := by
  induction ss generalizing t with
  | nil =>
    cases h
    exact adds_nil rfl rfl
  | cons s ss ih =>
    obtain ⟨t₁, hs, h⟩ := bind_eq_ok.mp h
    exact (hadd s (by simp) hs).trans (ih (fun s hs => hadd s (by simp [hs])) h)

theorem adds_add {s : Statement} (h : t.add s = .ok t') : t.Adds s.defined t' := by
  induction s generalizing t t' with
  | declareConstants | declareVariables | essential | provable =>
    cases h
    exact adds_nil rfl rfl
  | floating label typecode name =>
    cases h
    exact adds_addFloating typecode name
  | axiomatic label terms => exact adds_addAxiomatic h
  | block statements ih =>
    obtain ⟨inner, hinner, h⟩ := bind_eq_ok.mp h
    cases h
    -- Leaving the block changes the scope only.
    exact List.append_nil (Statement.defined _) ▸ (adds_addAll ih hinner).trans (adds_nil rfl rfl)

theorem adds_ofDatabase {d : Database} (h : ofDatabase d = .ok t) : Adds {} d.defined t :=
  adds_addAll (fun _ _ => adds_add) h

-- What is registered is what is built in and then what the database defines. A template goes back in this
-- order, so whatever is converted unfolds to the end, and the axioms can be written down.
theorem selfContained_ofDatabase {d : Database} (h : ofDatabase d = .ok t)
    (hnew : (Notations.builtin.names ++ d.defined).Nodup) :
    t.notations.names = Notations.builtin.names ++ d.defined ∧
    (∀ (i : Nat) (n : Notation), t.notations.entries[i]? = some n →
      (∀ id ∈ n.template.metavars, id.toNat < n.arity) ∧
      ∀ name args, .sugar name args ∈ n.template.nodes →
        ∃ j < i, ∃ m, t.notations.entries[j]? = some m ∧ m.name = name ∧ args.length = m.arity) ∧
    t.notations.Acyclic ∧
    (∀ p, p ∈ t.axioms.map (·.2) ∨ (∃ term, t.convert term = .ok p) →
      ∃ q, t.notations.expandFully p = .ok q ∧ q.Unsugared) ∧
    ∃ c, (t.assert ∅).certificate t.notations = .ok c := by
  obtain ⟨ht, hnames⟩ := adds_ofDatabase h selfContained_empty hnew
  have hgrounded := ht.ordered.grounded
  have haxioms (p : Pattern) (hp : p ∈ t.axioms.map (·.2)) : p.Within t.notations.Fits := by
    obtain ⟨entry, hentry, rfl⟩ := List.mem_map.mp hp
    exact (ht.axioms entry hentry).mono Notations.Registers.fits
  refine ⟨hnames, fun i n hn => ⟨n.placeholders, ht.ordered i n hn⟩, hgrounded.acyclic, ?expand, ?write⟩
  case expand =>
    rintro p (hp | ⟨term, hterm⟩)
    · exact Notations.exists_expandFully hgrounded (haxioms p hp)
    · have hp := (Term.within_convert hterm).mono Notations.Registers.fits
      exact Notations.exists_expandFully hgrounded hp
  case write =>
    have hdischarged : (t.assert ∅).Discharged := Bundle.discharged_empty.assertAll _
    refine Certificate.exists_write hgrounded hdischarged.conclusions hdischarged.assumed fun p hp => ?_
    obtain hp | hp := Bundle.mem_patterns_assertAll.mp hp
    · cases hp
    · exact haxioms p hp

-- A notation, and in a block a second one built from it, with an axiom about the second.
def layered : Database where
  statements := [
    .declareVariables ["x", "y"],
    .floating "x-is-pattern" "#Pattern" "x",
    .axiomatic "twice-is" [.constant "#Notation", .app "\\twice" [.var "x"],
      .app "\\and" [.var "x", .var "x"]],
    .block [
      .floating "y-is-pattern" "#Pattern" "y",
      .axiomatic "never-is" [.constant "#Notation", .app "\\never" [.var "y"],
        .app "\\neg" [.app "\\twice" [.var "y"]]],
      .axiomatic "never-twice" [.constant "|-",
        .app "\\imp" [.app "\\never" [.var "y"], .app "\\neg" [.var "y"]]]]]

theorem selfContained_ofDatabase_layered :
    ∃ t, ofDatabase layered = .ok t ∧ t.axioms.length = 1 ∧
      t.notations.names = Notations.builtin.names ++ ["\\twice", "\\never"] ∧ t.notations.Acyclic ∧
      (∀ p ∈ t.axioms.map (·.2), ∃ q, t.notations.expandFully p = .ok q ∧ q.Unsugared) ∧
      ∃ c, (t.assert ∅).certificate t.notations = .ok c := by
  obtain ⟨t, ht, haxioms⟩ := exists_of_any (x := ofDatabase layered)
    (P := fun t => t.axioms.length = 1) (by decide +kernel)
  obtain ⟨hnames, -, hacyclic, hexpand, hwrite⟩ := selfContained_ofDatabase ht (by decide +kernel)
  exact ⟨t, ht, by simpa using haxioms, hnames, hacyclic, fun p hp => hexpand p (.inl hp), hwrite⟩

end Theory
end MatchingLogic.Metamath
