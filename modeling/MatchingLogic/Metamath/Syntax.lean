namespace MatchingLogic.Metamath

inductive Term where
  | app (symbol : String) (args : List Term)
  | var (name : String)
  deriving Inhabited

namespace Term

@[elab_as_elim, induction_eliminator]
theorem induction {motive : Term → Prop}
    (app : ∀ f ts, (∀ t ∈ ts, motive t) → motive (app f ts)) (var : ∀ n, motive (var n)) (t : Term) :
    motive t :=
  @Term.rec motive (fun ts => ∀ t ∈ ts, motive t) app var (fun _ h => nomatch h)
    (fun _ _ hd tl _ h => (List.mem_cons.mp h).elim (· ▸ hd) (tl _)) t

def constant (symbol : String) : Term :=
  app symbol []

def symbol? : Term → Option String
  | app f _ => some f
  | var _ => none

mutual

def text : Term → String
  | app f [] => f
  | app f (t :: ts) => "( " ++ f ++ " " ++ text t ++ argsText ts ++ " )"
  | var n => n

def argsText : List Term → String
  | [] => ""
  | t :: ts => " " ++ text t ++ argsText ts

end

end Term

inductive Statement where
  | declareConstants (names : List String)
  | declareVariables (names : List String)
  | floating (label typecode name : String)
  | essential (label : String) (terms : List Term)
  -- A statement that holds without proof; its first term is its type code.
  | axiomatic (label : String) (terms : List Term)
  | provable (label : String) (terms : List Term)
  -- Statements whose variables are local.
  | block (statements : List Statement)
  deriving Inhabited

@[elab_as_elim, induction_eliminator]
theorem Statement.induction {motive : Statement → Prop}
    (declareConstants : ∀ ns, motive (declareConstants ns))
    (declareVariables : ∀ ns, motive (declareVariables ns))
    (floating : ∀ l c v, motive (floating l c v)) (essential : ∀ l ts, motive (essential l ts))
    (axiomatic : ∀ l ts, motive (axiomatic l ts)) (provable : ∀ l ts, motive (provable l ts))
    (block : ∀ ss, (∀ s ∈ ss, motive s) → motive (block ss)) (s : Statement) : motive s :=
  @Statement.rec motive (fun ss => ∀ s ∈ ss, motive s) declareConstants declareVariables floating
    essential axiomatic provable block (fun _ h => nomatch h)
    (fun _ _ hd tl _ h => (List.mem_cons.mp h).elim (· ▸ hd) (tl _)) s

structure Database where
  statements : List Statement := []

end MatchingLogic.Metamath
