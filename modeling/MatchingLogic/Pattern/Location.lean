import MatchingLogic.Pattern.Basic

namespace MatchingLogic

abbrev Location := List UInt64

namespace Location

def root : Location :=
  []

def child (l : Location) (i : UInt64) : Location :=
  l ++ [i]

def isRoot (l : Location) : Bool :=
  l.isEmpty

def text (l : Location) : String :=
  "[" ++ ", ".intercalate (l.map toString) ++ "]"

-- Lexicographic order, in which a location comes before those below it.
def sorted (ls : List Location) : List Location :=
  ls.mergeSort fun l m => (compare l m).isLE

end Location

namespace Pattern

def at? (p : Pattern) : Location → Option Pattern
  | [] => some p
  | i :: l => p.children[i.toNat]? >>= (at? · l)

def replaceAt? : Pattern → Location → (plug : Pattern) → Option Pattern
  | _, [], plug => some plug
  | app left right, i :: l, plug =>
    if i = 0 then (left.replaceAt? l plug).map (app · right)
    else if i = 1 then (right.replaceAt? l plug).map (app left ·)
    else none
  | imp a c, i :: l, plug =>
    if i = 0 then (a.replaceAt? l plug).map (imp · c)
    else if i = 1 then (c.replaceAt? l plug).map (imp a ·)
    else none
  | ex v b, i :: l, plug => if i = 0 then (b.replaceAt? l plug).map (ex v) else none
  | mu v b, i :: l, plug => if i = 0 then (b.replaceAt? l plug).map (mu v) else none
  | sugar n args, i :: l, plug => do
    let arg ← args[i.toNat]?
    let arg ← arg.replaceAt? l plug
    return sugar n (args.set i.toNat arg)
  | _, _ :: _, _ => none

end Pattern
end MatchingLogic
