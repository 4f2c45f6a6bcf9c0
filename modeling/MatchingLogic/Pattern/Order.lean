import MatchingLogic.Pattern.Basic

namespace MatchingLogic.Pattern

def rank : Pattern → Nat
  | symbol _ => 0
  | elementVar _ => 1
  | setVar _ => 2
  | metavar _ => 3
  | app _ _ => 4
  | imp _ _ => 5
  | ex _ _ => 6
  | mu _ _ => 7
  | sugar _ _ => 8

mutual

-- Names compare by their code points, which is the order of their UTF-8 bytes; of two argument lists that
-- agree as far as they go the shorter is the smaller.
def compare : Pattern → Pattern → Ordering
  | symbol a, symbol b => Ord.compare a b
  | elementVar i, elementVar j => Ord.compare i j
  | setVar i, setVar j => Ord.compare i j
  | metavar i, metavar j => Ord.compare i j
  | app l r, app l' r' => (compare l l').then (compare r r')
  | imp a c, imp a' c' => (compare a a').then (compare c c')
  | ex v b, ex v' b' => (Ord.compare v v').then (compare b b')
  | mu v b, mu v' b' => (Ord.compare v v').then (compare b b')
  | sugar n ps, sugar m qs => (Ord.compare n m).then (compareAll ps qs)
  | p, q => Ord.compare p.rank q.rank

def compareAll : List Pattern → List Pattern → Ordering
  | [], [] => .eq
  | [], _ :: _ => .lt
  | _ :: _, [] => .gt
  | p :: ps, q :: qs => (compare p q).then (compareAll ps qs)

end

instance : Ord Pattern := ⟨compare⟩

def insertOrdered (p : Pattern) : List Pattern → List Pattern
  | [] => [p]
  | q :: qs =>
    match compare p q with
    | .lt => p :: q :: qs
    | .eq => q :: qs
    | .gt => q :: insertOrdered p qs

def ordered (ps : List Pattern) : List Pattern :=
  ps.foldr insertOrdered []

end MatchingLogic.Pattern
