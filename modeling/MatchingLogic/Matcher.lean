namespace MatchingLogic

-- A naming convention. A text that follows it may carry a name.
structure Matcher where
  find : String → Option (Option String)

namespace Matcher

def accepts (m : Matcher) (text : String) : Bool :=
  (m.find text).isSome

def capture? (m : Matcher) (text : String) : Option String :=
  (m.find text).join

theorem accepts_of_capture {m : Matcher} {text name : String} (h : m.capture? text = some name) :
    m.accepts text := by
  rw [capture?, Option.join_eq_some_iff] at h
  simp [accepts, h]

end Matcher

-- Reads the conventions that are given as texts. Nothing is assumed of it here: which texts are conventions, and
-- what they say, is left to the one who brings the engine.
structure Engine where
  compile : String → Option Matcher

end MatchingLogic
