import MatchingLogic.Matcher

namespace MatchingLogic

-- Repetitions take as much as they can, `.` is any character but a newline, and the anchors are the very
-- start and the very end.
inductive Regex where
  | empty
  | char (c : Char)
  | any
  | start
  | finish
  | seq (first second : Regex)
  | alt (preferred other : Regex)
  | star (r : Regex)
  | group (number : Nat) (r : Regex)
  deriving DecidableEq

namespace Regex

-- A group that is being read: its number, the alternatives that are complete and the parts of the current
-- one, latest first.
structure Level where
  number : Nat
  alternatives : List Regex := []
  parts : List Regex := []

def Level.sequence (l : Level) : Regex :=
  l.parts.foldl (fun r part => seq part r) empty

def Level.close (l : Level) : Regex :=
  l.alternatives.foldl (fun r preferred => alt preferred r) l.sequence

structure Reading where
  level : Level := { number := 0 }
  outer : List Level := []
  groups : Nat := 0

def Reading.push (s : Reading) (r : Regex) : Reading :=
  { s with level := { s.level with parts := r :: s.level.parts } }

-- Applies a repetition to the last part, which may not be repeated already.
def Reading.repeated (s : Reading) (f : Regex → Regex) : Option Reading :=
  match s.level.parts with
  | [] | star _ :: _ | seq _ (star _) :: _ | alt _ empty :: _ => none
  | r :: parts => some { s with level := { s.level with parts := f r :: parts } }

def Reading.next (s : Reading) (c : Char) : Option Reading :=
  match c with
  | '(' =>
    some { level := { number := s.groups + 1 }, outer := s.level :: s.outer, groups := s.groups + 1 }
  | ')' =>
    match s.outer with
    | [] => none
    | level :: outer =>
      some ({ s with level, outer }.push (group s.level.number s.level.close))
  | '|' =>
    let level := s.level
    some { s with level := {
      level with alternatives := level.sequence :: level.alternatives, parts := [] } }
  | '*' => s.repeated star
  | '+' => s.repeated fun r => seq r (star r)
  | '?' => s.repeated fun r => alt r empty
  | '^' => some (s.push start)
  | '$' => some (s.push finish)
  | '.' => some (s.push any)
  | '[' | ']' | '{' | '}' | '\\' => none
  | c => some (s.push (char c))

def parse? (text : String) : Option Regex := do
  let s ← text.toList.foldlM Reading.next {}
  guard s.outer.isEmpty
  return s.level.close

structure Cursor where
  atStart : Bool
  rest : List Char
  captured : Option (List Char) := none

def Cursor.take (s : Cursor) (accept : Char → Bool) : List Cursor :=
  match s.rest with
  | [] => []
  | c :: rest => if accept c then [{ s with atStart := false, rest }] else []

-- Goes on as long as `step` takes something, at most `fuel` times, longest first.
def iterate (step : Cursor → List Cursor) : (fuel : Nat) → Cursor → List Cursor
  | 0, s => [s]
  | fuel + 1, s =>
    ((step s).filter (·.rest.length < s.rest.length)).flatMap (iterate step fuel) ++ [s]

-- The positions that a match from a position can lead to, in order of preference.
def run : Regex → Cursor → List Cursor
  | empty, s => [s]
  | char c, s => s.take (· == c)
  | any, s => s.take (· != '\n')
  | start, s => if s.atStart then [s] else []
  | finish, s => if s.rest.isEmpty then [s] else []
  | seq first second, s => (first.run s).flatMap second.run
  | alt preferred other, s => preferred.run s ++ other.run s
  | star r, s => iterate r.run s.rest.length s
  | group number r, s =>
    (r.run s).map fun t =>
      if number = 1 then
        { t with captured := some (s.rest.take (s.rest.length - t.rest.length)) }
      else t

def search (r : Regex) (atStart : Bool) : List Char → Option Cursor
  | [] => (r.run { atStart, rest := [] }).head?
  | c :: rest => (r.run { atStart, rest := c :: rest }).head?.or (r.search false rest)

-- What a match says of a text: whether there is one, and what the first group takes in it, if it takes part.
def matcher (r : Regex) : Matcher where
  find text := (r.search true text.toList).map (·.captured.map String.ofList)

-- The engine for the expressions of this syntax, which has no classes, escapes or counted repetitions.
def engine : Engine where
  compile text := (parse? text).map matcher

end Regex
end MatchingLogic
