import MatchingLogic.Kore.Converter
import MatchingLogic.Proofs.Success

namespace MatchingLogic.Kore

namespace Conversion

variable {α β : Type} {act : Conversion α} {c c' : Converter} {a : α} {e : ConversionError}
  {Q Q' : α → Converter → Prop} {R : β → Converter → Prop} {E E' : ConversionError → Converter → Prop}

-- From `c`, the conversion answers as `Q` says or fails as `E` says.
def Ends (act : Conversion α) (c : Converter) (Q : α → Converter → Prop)
    (E : ConversionError → Converter → Prop) : Prop :=
  match StateT.run (ExceptT.run act) c with
  | (.ok a, c') => Q a c'
  | (.error e, c') => E e c'

theorem ends_pure (h : Q a c) : Ends (pure a) c Q E :=
  h

theorem ends_throw (h : E e c) : Ends (throw e) c Q E :=
  h

theorem Ends.bind {f : α → Conversion β} (h : Ends act c Q E)
    (hf : ∀ a c', Q a c' → Ends (f a) c' R E) : Ends (act >>= f) c R E := by
  simp only [Ends, ExceptT.run_bind, StateT.run_bind] at h ⊢
  rcases hrun : StateT.run (ExceptT.run act) c with ⟨_ | a, c'⟩
  all_goals rw [hrun] at h
  case error => exact h
  case ok => exact hf a c' h

theorem ends_true : Ends act c (fun _ _ => True) fun _ _ => True := by
  simp only [Ends]
  split <;> trivial

theorem Ends.mono (h : Ends act c Q E) (hQ : ∀ a c', Q a c' → Q' a c') : Ends act c Q' E := by
  simp only [Ends] at h ⊢
  split
  case h_1 a c' hrun => exact hQ a c' (by simpa [hrun] using h)
  case h_2 e c' hrun => simpa [hrun] using h

theorem Ends.weaken (h : Ends act c Q E) (hE : ∀ e c', E e c' → E' e c') : Ends act c Q E' := by
  simp only [Ends] at h ⊢
  split
  case h_1 a c' hrun => simpa [hrun] using h
  case h_2 e c' hrun => exact hE e c' (by simpa [hrun] using h)

-- Only the answer matters.
theorem Ends.answer (h : Ends act c Q E) (hQ : ∀ a c', Q a c' → Q' a c') : Ends act c Q' fun _ _ => True :=
  (h.mono hQ).weaken fun _ _ _ => trivial

theorem Ends.and (h : Ends act c Q E) (h' : Ends act c Q' E') :
    Ends act c (fun a c' => Q a c' ∧ Q' a c') fun e c' => E e c' ∧ E' e c' := by
  simp only [Ends] at h h' ⊢
  split
  case h_1 a c' hrun => exact ⟨by simpa [hrun] using h, by simpa [hrun] using h'⟩
  case h_2 e c' hrun => exact ⟨by simpa [hrun] using h, by simpa [hrun] using h'⟩

theorem ends_get {Q : Converter → Converter → Prop} (h : Q c c) : Ends get c Q E :=
  h

theorem ends_get_bind {f : Converter → Conversion α} (h : Ends (f c) c Q E) : Ends (get >>= f) c Q E :=
  h

theorem ends_set {Q : PUnit → Converter → Prop} (h : Q ⟨⟩ c') : Ends (set c') c Q E :=
  h

theorem ends_modifyGet {f : Converter → α × Converter} (h : Q (f c).1 (f c).2) :
    Ends (modifyGet f) c Q E :=
  h

theorem ends_lift {x : Except ConversionError α} (h : ∀ a, x = .ok a → Q a c)
    (he : ∀ e, x = .error e → E e c) : Ends (liftM x) c Q E := by
  cases x with
  | ok a => exact h a rfl
  | error e => exact he e rfl

theorem ends_run : Ends act c Q E ↔
    (∀ a, (act.run c).1 = .ok a → Q a (act.run c).2) ∧
      ∀ e, (act.run c).1 = .error e → ∃ e', e = .conversion e' ∧ E e' (act.run c).2 := by
  simp only [Ends, run]
  split
  case h_1 a c' hrun => simp [hrun, Except.mapError]
  case h_2 e c' hrun => simp [hrun, Except.mapError]

-- A conversion for which no failure is admitted succeeds.
theorem Ends.succeeds (h : Ends act c Q fun _ _ => False) : ∃ a c', act.run c = (.ok a, c') ∧ Q a c' := by
  simp only [Ends] at h
  split at h
  case h_1 a c' hrun => exact ⟨a, c', by rw [run, hrun]; rfl, h⟩
  case h_2 => exact h.elim

theorem run_get {f : Converter → Conversion α} : run (get >>= f) c = run (f c) c :=
  rfl

section Invariants

variable {I : Converter → Prop} {P : α → Prop} {P' : β → Prop}

-- The conversion keeps `I` in any case, and what it answers satisfies `P`.
def Keeps (I : Converter → Prop) (P : α → Prop) (act : Conversion α) : Prop :=
  ∀ c, I c → Ends act c (fun a c' => I c' ∧ P a) fun _ c' => I c'

-- From `c`, the conversion leaves a converter of `I` behind in any case.
abbrev Leaves (I : Converter → Prop) (act : Conversion α) (c : Converter) : Prop :=
  Ends act c (fun _ c' => I c') fun _ c' => I c'

theorem Leaves.state (h : Leaves I act c) : I (act.run c).2 := by
  obtain ⟨hok, herror⟩ := ends_run.mp h
  cases hrun : (act.run c).1 with
  | ok a => exact hok a hrun
  | error e =>
    obtain ⟨_, _, hc'⟩ := herror e hrun
    exact hc'

theorem Leaves.bind {f : α → Conversion β} (h : Leaves I act c) (hf : ∀ a, Keeps I (fun _ => True) (f a)) :
    Leaves I (act >>= f) c :=
  Ends.bind h fun a c' hc' => (hf a c' hc').mono fun _ _ h => h.1

theorem keeps_pure (h : P a) : Keeps I P (pure a) :=
  fun _ hc => ends_pure ⟨hc, h⟩

theorem keeps_throw : Keeps I P (throw e) :=
  fun _ hc => ends_throw hc

theorem keeps_get : Keeps I I get :=
  fun _ hc => ends_get ⟨hc, hc⟩

theorem keeps_set (h : I c) : Keeps I (fun _ => True) (set c) :=
  fun _ _ => ends_set ⟨h, trivial⟩

theorem keeps_modifyGet {f : Converter → α × Converter} (h : ∀ c, I c → I (f c).2 ∧ P (f c).1) :
    Keeps I P (modifyGet f) :=
  fun c hc => ends_modifyGet (h c hc)

theorem keeps_modify {f : Converter → Converter} (h : ∀ c, I c → I (f c)) :
    Keeps I (fun _ => True) (modify f) :=
  fun c hc => ends_modifyGet ⟨h c hc, trivial⟩

theorem keeps_lift (x : Except ConversionError α) : Keeps I (fun _ => True) (liftM x : Conversion α) :=
  fun _ hc => ends_lift (fun _ _ => ⟨hc, trivial⟩) fun _ _ => hc

theorem Keeps.bind {f : α → Conversion β} (h : Keeps I P act) (hf : ∀ a, P a → Keeps I P' (f a)) :
    Keeps I P' (act >>= f) :=
  fun c hc => (h c hc).bind fun a c' ⟨hc', ha⟩ => hf a ha c' hc'

theorem Keeps.mono {P' : α → Prop} (h : Keeps I P act) (hP : ∀ a, P a → P' a) : Keeps I P' act :=
  fun c hc => (h c hc).mono fun a _ ⟨hc', ha⟩ => ⟨hc', hP a ha⟩

theorem Keeps.state (h : Keeps I P act) (hc : I c) : I (act.run c).2 :=
  Leaves.state ((h c hc).mono fun _ _ hc' => hc'.1)

theorem keeps_mapM {f : α → Conversion β} {as : List α} (h : ∀ a ∈ as, Keeps I P' (f a)) :
    Keeps I (fun bs => ∀ b ∈ bs, P' b) (as.mapM f) := by
  induction as with
  | nil =>
    rw [List.mapM_nil]
    exact keeps_pure (by simp)
  | cons a as ih =>
    rw [List.mapM_cons]
    refine (h a (by simp)).bind fun b hb => ?_
    refine (ih fun a ha => h a (by simp [ha])).bind fun bs hbs => keeps_pure ?_
    simpa using ⟨hb, hbs⟩

theorem keeps_foldlM {f : β → α → Conversion β} {as : List α} {b : β} (hb : P' b)
    (h : ∀ a ∈ as, ∀ b, P' b → Keeps I P' (f b a)) : Keeps I P' (as.foldlM f b) := by
  induction as generalizing b with
  | nil =>
    rw [List.foldlM_nil]
    exact keeps_pure hb
  | cons a as ih =>
    rw [List.foldlM_cons]
    exact (h a (by simp) b hb).bind fun b' hb' => ih hb' fun a ha => h a (by simp [ha])

end Invariants

-- A built-in notation with as many arguments as it takes is resolved to its node.
theorem node_eq_pure {name : String} {args : List Pattern}
    (h : (Notations.builtin.get? name).map (·.arity) = some args.length) :
    node name args = pure (.sugar name args) := by
  obtain ⟨n, hn, harity⟩ := Option.map_eq_some_iff.mp h
  simp only [node, Notations.resolve, hn, Notation.checkArity, harity]
  rfl

section Nodes

variable {p q r : Pattern}

theorem node_transition : node "kore-rewrites" [p, q, r] = pure (.transition p q r) :=
  node_eq_pure rfl

theorem node_equation : node "kore-equals" [p, q, r] = pure (.equation p q r) :=
  node_eq_pure rfl

theorem node_sortedAnd : node "kore-and" [p, q, r] = pure (.sortedAnd p q r) :=
  node_eq_pure rfl

theorem node_sortedOr : node "kore-or" [p, q, r] = pure (.sortedOr p q r) :=
  node_eq_pure rfl

theorem node_sortedTop : node "kore-top" [p] = pure (.sortedTop p) :=
  node_eq_pure rfl

theorem node_domainValue : node "kore-dv" [p, q] = pure (.domainValue p q) :=
  node_eq_pure rfl

theorem node_sortedApp : node "kore-app" [p, q] = pure (.sortedApp p q) :=
  node_eq_pure rfl

theorem node_cell {nested : Bool} : node (if nested then "nested-cells" else "cell") [p] =
    pure (if nested then .nestedCells p else .cell p) := by
  cases nested <;> exact node_eq_pure rfl

end Nodes

end Conversion

-- So a conversion does not fail at the nodes that it makes.
namespace Term

open Conversion

variable {inCell : Bool} {s : SortName} {l r : Term}

theorem convertIn_app {symbol : String} {sorts : List SortName} {args : List Term} :
    (app symbol sorts args).convertIn inCell = do
      let c ← get
      if c.isCell symbol || inCell && c.cellName.accepts symbol then
        let head ← cellHead symbol
        if args.isEmpty then return head
        let content := Pattern.chain head (← convertAll true args)
        return if holdsCells c.cellName args then .nestedCells content else .cell content
      else
        let head ← Conversion.symbol symbol
        let applied := Pattern.chain head (← convertAll false args)
        let sorts ← sorts.mapM Conversion.sort
        return .sortedApp ((Pattern.chain? sorts).getD .top) applied := by
  simp only [convertIn, node_cell, node_sortedApp]

theorem convertIn_top : (top s).convertIn inCell = do return .sortedTop (← sort s) := by
  simp only [convertIn, node_sortedTop]

theorem convertIn_value {text : String} : (value s text).convertIn inCell = do
    return .domainValue (← sort s) (← Conversion.symbol text) := by
  simp only [convertIn, node_domainValue]

theorem convertIn_and : (and s l r).convertIn inCell = do
    return .sortedAnd (← sort s) (← l.convertIn false) (← r.convertIn false) := by
  simp only [convertIn, node_sortedAnd]

theorem convertIn_or : (or s l r).convertIn inCell = do
    return .sortedOr (← sort s) (← l.convertIn false) (← r.convertIn false) := by
  simp only [convertIn, node_sortedOr]

theorem convertIn_transition : (transition s l r).convertIn inCell = do
    return .transition (← sort s) (← l.convertIn false) (← r.convertIn false) := by
  simp only [convertIn, node_transition]

end Term
end MatchingLogic.Kore
