namespace MatchingLogic

inductive Pattern where
  | symbol (name : String)
  | elementVar (id : UInt32)
  | setVar (id : UInt32)
  | metavar (id : UInt32)
  | app (left right : Pattern)
  | imp (antecedent consequent : Pattern)
  | ex (var : UInt32) (body : Pattern)
  | mu (var : UInt32) (body : Pattern)
  -- A notation node stands for its unfolding and stays distinct from it.
  | sugar (name : String) (args : List Pattern)
  deriving Inhabited

namespace Pattern

-- Induction with one hypothesis for every argument of a notation.
@[elab_as_elim, induction_eliminator]
theorem induction {motive : Pattern → Prop}
    (symbol : ∀ name, motive (symbol name)) (elementVar : ∀ id, motive (elementVar id))
    (setVar : ∀ id, motive (setVar id)) (metavar : ∀ id, motive (metavar id))
    (app : ∀ l r, motive l → motive r → motive (app l r))
    (imp : ∀ a c, motive a → motive c → motive (imp a c))
    (ex : ∀ v b, motive b → motive (ex v b)) (mu : ∀ v b, motive b → motive (mu v b))
    (sugar : ∀ name args, (∀ a ∈ args, motive a) → motive (sugar name args)) (p : Pattern) :
    motive p :=
  @Pattern.rec motive (fun args => ∀ a ∈ args, motive a) symbol elementVar setVar metavar app imp
    ex mu sugar (fun _ h => nomatch h)
    (fun _ _ hd tl _ h => (List.mem_cons.mp h).elim (· ▸ hd) (tl _)) p

mutual

def same : Pattern → Pattern → Bool
  | symbol a, symbol b => a == b
  | elementVar i, elementVar j => i == j
  | setVar i, setVar j => i == j
  | metavar i, metavar j => i == j
  | app l r, app l' r' => same l l' && same r r'
  | imp a c, imp a' c' => same a a' && same c c'
  | ex v b, ex v' b' => v == v' && same b b'
  | mu v b, mu v' b' => v == v' && same b b'
  | sugar n ps, sugar m qs => n == m && sameAll ps qs
  | _, _ => false

def sameAll : List Pattern → List Pattern → Bool
  | [], [] => true
  | p :: ps, q :: qs => same p q && sameAll ps qs
  | _, _ => false

end

theorem sameAll_iff_eq {ps : List Pattern} (h : ∀ p ∈ ps, ∀ q, same p q = true ↔ p = q) :
    ∀ qs, sameAll ps qs = true ↔ ps = qs := by
  induction ps with
  | nil => intro qs; cases qs <;> simp [sameAll]
  | cons p ps ih =>
    intro qs
    cases qs with
    | nil => simp [sameAll]
    | cons q qs =>
      simp [sameAll, h p (by simp), ih (fun p hp => h p (by simp [hp]))]

theorem same_iff_eq (p : Pattern) : ∀ q, same p q = true ↔ p = q := by
  have differ {a : Bool} {h : Prop} (ha : a = false) (hh : ¬h) : a = true ↔ h := by simp [ha, hh]
  induction p with
  | sugar n ps ih =>
    intro q
    cases q
    case sugar => simp [same, sameAll_iff_eq ih]
    all_goals exact differ rfl nofun
  | _ =>
    intro q
    cases q
    all_goals try exact differ rfl nofun
    all_goals simp_all [same]

instance : DecidableEq Pattern := fun p q => decidable_of_iff _ (same_iff_eq p q)

-- The immediate parts, in the order in which a location counts them.
def children : Pattern → List Pattern
  | app l r => [l, r]
  | imp a c => [a, c]
  | ex _ b => [b]
  | mu _ b => [b]
  | sugar _ args => args
  | _ => []

-- Symbols and variables. A notation without arguments is not a leaf: it unfolds.
def isLeaf : Pattern → Bool
  | symbol _ | elementVar _ | setVar _ | metavar _ => true
  | _ => false

mutual

-- The pattern and all patterns below it, each once per occurrence, from the outside in.
def nodes : Pattern → List Pattern
  | app l r => app l r :: (nodes l ++ nodes r)
  | imp a c => imp a c :: (nodes a ++ nodes c)
  | ex v b => ex v b :: nodes b
  | mu v b => mu v b :: nodes b
  | sugar n args => sugar n args :: nodesAll args
  | p => [p]

def nodesAll : List Pattern → List Pattern
  | [] => []
  | p :: ps => nodes p ++ nodesAll ps

end

theorem nodesAll_eq (ps : List Pattern) : nodesAll ps = ps.flatMap nodes := by
  induction ps with
  | nil => simp [nodesAll]
  | cons p ps ih => simp [nodesAll, ih]

theorem nodes_eq (p : Pattern) : p.nodes = p :: p.children.flatMap nodes := by
  cases p <;> simp [nodes, children, nodesAll_eq]

def size (p : Pattern) : Nat :=
  p.nodes.length

def implication? : Pattern → Option (Pattern × Pattern)
  | imp a c => some (a, c)
  | _ => none

def sugar? : Pattern → Option (String × List Pattern)
  | sugar n args => some (n, args)
  | _ => none

def mentions (p : Pattern) (name : String) : Bool :=
  p.nodes.any fun q => q.sugar?.any (·.1 == name)

def insertId (id : UInt32) : List UInt32 → List UInt32
  | [] => [id]
  | j :: ids => if id < j then id :: j :: ids else if id = j then j :: ids else j :: insertId id ids

def metavar? : Pattern → Option UInt32
  | metavar id => some id
  | _ => none

def metavars (p : Pattern) : List UInt32 :=
  (p.nodes.filterMap metavar?).foldr insertId []

theorem mem_insertId {i id : UInt32} {ids : List UInt32} :
    i ∈ insertId id ids ↔ i = id ∨ i ∈ ids := by
  induction ids with
  | nil => simp [insertId]
  | cons j ids ih =>
    simp only [insertId]
    split
    · simp
    · split
      · simp_all
      · simp only [List.mem_cons, ih]
        grind

theorem mem_metavars {p : Pattern} {id : UInt32} : id ∈ p.metavars ↔ metavar id ∈ p.nodes := by
  have mem_fold (ids : List UInt32) : id ∈ ids.foldr insertId [] ↔ id ∈ ids := by
    induction ids with
    | nil => simp
    | cons j ids ih => simp [mem_insertId, ih]
  rw [metavars, mem_fold, List.mem_filterMap]
  constructor
  · rintro ⟨q, hq, h⟩
    cases q <;> simp_all [metavar?]
  · exact fun h => ⟨_, h, rfl⟩

def chain (head : Pattern) (args : List Pattern) : Pattern :=
  args.foldl app head

def chain? : List Pattern → Option Pattern
  | [] => none
  | head :: args => some (chain head args)

-- The head of an application spine and its arguments, outermost last.
def unchain : Pattern → Pattern × List Pattern
  | app l r =>
    let (head, args) := unchain l
    (head, args ++ [r])
  | p => (p, [])

def head (p : Pattern) : Pattern :=
  p.unchain.1

end Pattern
end MatchingLogic
