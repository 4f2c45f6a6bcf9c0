namespace MatchingLogic

-- Puts a member at the end of a list unless it is there already.
def addNew {α : Type} [DecidableEq α] (found : List α) (a : α) : List α :=
  if a ∈ found then found else found ++ [a]

end MatchingLogic
