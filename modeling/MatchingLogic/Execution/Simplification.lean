import MatchingLogic.Semantics.Basic

namespace MatchingLogic

-- Each application of an equation pushes a frame. The redexes of its result are simplified before the result
-- is put in place.
structure Frame where
  -- Where the simplified term stands in the result of the frame below.
  location : Location
  initial : Pattern
  result : Pattern
  remaining : Nat
  deriving DecidableEq

structure Simplification where
  configuration : Pattern
  -- The frames, top first.
  frames : List Frame := []
  inScope : Bool := false
  deriving DecidableEq

namespace Simplification

-- The pattern in which the next call finds its location.
def root (s : Simplification) : Pattern :=
  s.frames.head?.elim s.configuration (·.result)

def pending (s : Simplification) : Nat :=
  s.frames.length

def update (s : Simplification) (p : Pattern) : Except ScopeError Simplification :=
  if s.inScope then .error .alreadyInScope
  else if s.frames ≠ [] then .error (.pending s.pending)
  else .ok { s with configuration := p }

def enter (s : Simplification) : Except ScopeError Simplification :=
  if s.inScope then .error .alreadyInScope else .ok { s with inScope := true }

def target (s : Simplification) (l : Location) : Except Error Pattern :=
  if s.inScope then
    match s.root.at? l with
    | some p => .ok p
    | none => .error (.replay (.unresolvedLocation (Location.text l) s.root.text))
  else .error (.scope .notInScope)

end Simplification

-- The right side of an equation under its own bindings first and then under `s`.
def Axiom.simplified (a : Axiom) (ordinal : UInt64) (s : Substitution) :
    Except ReplayError Pattern :=
  if a.kind = .equation then
    match a.sides? with
    | some (_, right) => .ok ((right.instantiate a.requires).instantiate s)
    | none => .error (.malformedRule ("equation " ++ toString ordinal ++ " has no sides"))
  else .error (.notEquational ordinal a.kind.text)

namespace Simplification

variable {σ : Type} [Semantics σ]

def call (s : Simplification) (language : σ) (ordinal : UInt64) (subst : Substitution)
    (l : Location) : Outcome (Simplification × σ) Frame :=
  match s.target l with
  | .error e => (.error e, s, language)
  | .ok initial =>
    let (rule, language) := Semantics.rule ordinal language
    match rule >>= fun a => (a.simplified ordinal subst).mapError .replay with
    | .error e => (.error e, s, language)
    | .ok result =>
      let remaining := Semantics.redexes language result
      let frame : Frame := { location := l, initial, result, remaining }
      (.ok frame, { s with frames := frame :: s.frames }, language)

def splice (p : Pattern) (l : Location) (plug : Pattern) : Except ReplayError Pattern :=
  match p.replaceAt? l plug with
  | some q => .ok q
  | none => .error (.unresolvedLocation (Location.text l) p.text)

-- Drains the frame `top` and those below it into each other as long as no redex remains. The answer holds the
-- frames and the configuration that are left; what a failing drain has done so far stays done.
def drain (configuration : Pattern) (top : Frame) :
    List Frame → Except ReplayError Unit × List Frame × Pattern
  | [] =>
    if top.remaining ≠ 0 then (.ok (), [top], configuration)
    else
      match splice configuration top.location top.result with
      | .ok p => (.ok (), [], p)
      | .error e => (.error e, [], configuration)
  | parent :: below =>
    if top.remaining ≠ 0 then (.ok (), top :: parent :: below, configuration)
    else
      match splice parent.result top.location top.result with
      | .error e => (.error e, parent :: below, configuration)
      | .ok p =>
        match parent.remaining with
        | 0 =>
          (.error (.underflow (Location.text parent.location)), { parent with result := p } :: below,
            configuration)
        | n + 1 => drain configuration { parent with result := p, remaining := n } below

def exit (s : Simplification) : Except ReplayError Unit × Simplification :=
  match s.frames with
  | [] => (.ok (), { s with inScope := false })
  | top :: below =>
    let (answer, frames, configuration) := drain s.configuration top below
    (answer, { configuration, frames, inScope := false })

end Simplification
end MatchingLogic
