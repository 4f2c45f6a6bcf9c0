import MatchingLogic.Pattern.Basic

namespace MatchingLogic.Pattern

mutual

def text : Pattern → String
  | symbol name => name
  | elementVar id => "x" ++ toString id
  | setVar id => "X" ++ toString id
  | metavar id => "φ" ++ toString id
  | app l r => "(" ++ text l ++ " · " ++ text r ++ ")"
  | imp a c => "(" ++ text a ++ " → " ++ text c ++ ")"
  | ex v b => "(∃x" ++ toString v ++ ". " ++ text b ++ ")"
  | mu v b => "(μX" ++ toString v ++ ". " ++ text b ++ ")"
  | sugar name args => name ++ "(" ++ ", ".intercalate (texts args) ++ ")"

def texts : List Pattern → List String
  | [] => []
  | p :: ps => text p :: texts ps

end

instance : ToString Pattern := ⟨text⟩

end MatchingLogic.Pattern
