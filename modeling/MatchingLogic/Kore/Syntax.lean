import MatchingLogic.Pattern.Location

namespace MatchingLogic.Kore

abbrev SortName := String

inductive Term where
  | elementVar (name : String) (sort : SortName)
  | setVar (name : String) (sort : SortName)
  | app (symbol : String) (sorts : List SortName) (args : List Term)
  | top (sort : SortName)
  | bottom (sort : SortName)
  | not (sort : SortName) (term : Term)
  | and (sort : SortName) (left right : Term)
  | or (sort : SortName) (left right : Term)
  | implies (sort : SortName) (left right : Term)
  | equals (operandSort resultSort : SortName) (left right : Term)
  | mem (operandSort resultSort : SortName) (left right : Term)
  | transition (sort : SortName) (left right : Term)
  | ex (sort : SortName) (var : String) (varSort : SortName) (body : Term)
  | value (sort : SortName) (text : String)
  deriving Inhabited

namespace Term

-- Induction with one hypothesis for every argument of an application.
@[elab_as_elim, induction_eliminator]
theorem induction {motive : Term → Prop}
    (elementVar : ∀ n s, motive (elementVar n s)) (setVar : ∀ n s, motive (setVar n s))
    (app : ∀ f ss ts, (∀ t ∈ ts, motive t) → motive (app f ss ts))
    (top : ∀ s, motive (top s)) (bottom : ∀ s, motive (bottom s))
    (not : ∀ s t, motive t → motive (not s t))
    (and : ∀ s l r, motive l → motive r → motive (and s l r))
    (or : ∀ s l r, motive l → motive r → motive (or s l r))
    (implies : ∀ s l r, motive l → motive r → motive (implies s l r))
    (equals : ∀ o s l r, motive l → motive r → motive (equals o s l r))
    (mem : ∀ o s l r, motive l → motive r → motive (mem o s l r))
    (transition : ∀ s l r, motive l → motive r → motive (transition s l r))
    (ex : ∀ s v vs b, motive b → motive (ex s v vs b)) (value : ∀ s v, motive (value s v))
    (t : Term) : motive t :=
  @Term.rec motive (fun ts => ∀ t ∈ ts, motive t) elementVar setVar app top bottom not and or implies
    equals mem transition ex value (fun _ h => nomatch h)
    (fun _ _ hd tl _ h => (List.mem_cons.mp h).elim (· ▸ hd) (tl _)) t

mutual

def same : Term → Term → Bool
  | elementVar n s, elementVar n' s' => n == n' && s == s'
  | setVar n s, setVar n' s' => n == n' && s == s'
  | app f ss ts, app f' ss' ts' => f == f' && ss == ss' && sameAll ts ts'
  | top s, top s' => s == s'
  | bottom s, bottom s' => s == s'
  | not s t, not s' t' => s == s' && same t t'
  | and s l r, and s' l' r' => s == s' && same l l' && same r r'
  | or s l r, or s' l' r' => s == s' && same l l' && same r r'
  | implies s l r, implies s' l' r' => s == s' && same l l' && same r r'
  | equals o s l r, equals o' s' l' r' => o == o' && s == s' && same l l' && same r r'
  | mem o s l r, mem o' s' l' r' => o == o' && s == s' && same l l' && same r r'
  | transition s l r, transition s' l' r' => s == s' && same l l' && same r r'
  | ex s v vs b, ex s' v' vs' b' => s == s' && v == v' && vs == vs' && same b b'
  | value s v, value s' v' => s == s' && v == v'
  | _, _ => false

def sameAll : List Term → List Term → Bool
  | [], [] => true
  | t :: ts, u :: us => same t u && sameAll ts us
  | _, _ => false

end

theorem sameAll_iff_eq {ts : List Term} (h : ∀ t ∈ ts, ∀ u, same t u = true ↔ t = u) :
    ∀ us, sameAll ts us = true ↔ ts = us := by
  induction ts with
  | nil => intro us; cases us <;> simp [sameAll]
  | cons t ts ih =>
    intro us
    cases us with
    | nil => simp [sameAll]
    | cons u us => simp [sameAll, h t (by simp), ih (fun t ht => h t (by simp [ht]))]

theorem same_iff_eq (t : Term) : ∀ u, same t u = true ↔ t = u := by
  have differ {a : Bool} {p : Prop} (ha : a = false) (hp : ¬p) : a = true ↔ p := by simp [ha, hp]
  induction t with
  | app f ss ts ih =>
    intro u
    cases u
    case app => simp [same, sameAll_iff_eq ih, and_assoc]
    all_goals exact differ rfl nofun
  | _ =>
    intro u
    cases u
    all_goals try exact differ rfl nofun
    all_goals simp_all [same, and_assoc]

instance : DecidableEq Term := fun t u => decidable_of_iff _ (same_iff_eq t u)

def kind : Term → String
  | elementVar .. => "element variable"
  | setVar .. => "set variable"
  | app .. => "application"
  | top _ => "\\top"
  | bottom _ => "\\bottom"
  | not .. => "\\not"
  | and .. => "\\and"
  | or .. => "\\or"
  | implies .. => "\\implies"
  | equals .. => "\\equals"
  | mem .. => "\\in"
  | transition .. => "\\rewrites"
  | ex .. => "\\exists"
  | value .. => "\\dv"

def symbol? : Term → Option String
  | app symbol _ _ => some symbol
  | _ => none

def conjuncts : Term → List Term
  | and _ l r => l.conjuncts ++ r.conjuncts
  | t => [t]

def stripped : Term → Term
  | and _ l _ => l
  | t => t

end Term

structure Attribute where
  name : String
  args : List String := []
  deriving DecidableEq

def hasAttribute (attributes : List Attribute) (name : String) : Bool :=
  attributes.any (·.name == name)

structure SortDecl where
  name : String
  attributes : List Attribute
  deriving DecidableEq

structure SymbolDecl where
  name : String
  paramSorts : List SortName
  resultSort : SortName
  attributes : List Attribute
  deriving DecidableEq

structure Axiom where
  term : Term
  attributes : List Attribute := []
  deriving DecidableEq

structure Module where
  name : String
  sorts : List SortDecl
  symbols : List SymbolDecl
  axioms : List Axiom
  deriving DecidableEq

structure Definition where
  modules : List Module
  deriving DecidableEq

def Definition.symbols (d : Definition) : List SymbolDecl :=
  d.modules.flatMap (·.symbols)

-- The axioms in the order of declaration, which is how hints number them.
def Definition.axioms (d : Definition) : List Axiom :=
  d.modules.flatMap (·.axioms)

inductive Event where
  | function (name : String) (position : Location)
  | hook (name : String) (args : List Term) (result : Term)
  deriving DecidableEq

structure Hint where
  ordinal : UInt64
  configuration : Term
  bindings : List (String × Term)
  location : Option Location
  events : List Event
  deriving DecidableEq

structure Config where
  symbolMark : String := "kore_"
  sortMark : String := "kore_sort_"
  topCell : String := "Lbl'-LT-'generatedTop'-GT-'"
  -- A regular expression for the symbols of cells, whose first group is the name of the cell.
  cellPattern : String := "^Lbl'-LT-'(.+)'-GT-'$"
  functionalAttribute : String := "functional"
  functionAttribute : String := "function"
  hookAttribute : String := "hook"
  deriving DecidableEq

end MatchingLogic.Kore
