import MatchingLogic.Notation.Basic

namespace MatchingLogic

-- A name that is not registered still makes a notation node, which unfolds to the application of the symbol
-- of that name to the arguments.
structure Notations where
  entries : List Notation
  distinct : (entries.map (·.name)).Nodup

namespace Notations

instance : EmptyCollection Notations := ⟨[], .nil⟩

def size (ns : Notations) : Nat :=
  ns.entries.length

def get? (ns : Notations) (name : String) : Option Notation :=
  ns.entries.find? (·.name = name)

def contains (ns : Notations) (name : String) : Bool :=
  (ns.get? name).isSome

-- Puts a notation in the place of the one of the same name, or at the end.
def put (n : Notation) : List Notation → List Notation
  | [] => [n]
  | m :: ms => if m.name = n.name then n :: ms else m :: put n ms

theorem names_put (n : Notation) (ms : List Notation) :
    (put n ms).map (·.name) =
      if n.name ∈ ms.map (·.name) then ms.map (·.name) else ms.map (·.name) ++ [n.name] := by
  induction ms with
  | nil => simp [put]
  | cons m ms ih =>
    by_cases h : m.name = n.name
    · simp [put, h]
    · simp only [put, h, if_false, List.map_cons, ih, List.mem_cons, Ne.symm h, false_or]
      split <;> simp

theorem put_distinct {n : Notation} {ms : List Notation} (h : (ms.map (·.name)).Nodup) :
    ((put n ms).map (·.name)).Nodup := by
  rw [names_put]
  split
  case isTrue => exact h
  case isFalse hn =>
    refine List.nodup_append.mpr ⟨h, by simp, fun a ha b hb => ?_⟩
    rw [List.mem_singleton.mp hb]
    exact fun e => hn (e ▸ ha)

def register (ns : Notations) (n : Notation) : Notations :=
  ⟨put n ns.entries, put_distinct ns.distinct⟩

def ofList (l : List Notation) : Notations :=
  l.foldl register ∅

def resolve (ns : Notations) (name : String) (args : List Pattern) :
    Except ConversionError Pattern := do
  if let some n := ns.get? name then n.checkArity args
  return .sugar name args

def expand (ns : Notations) (name : String) (args : List Pattern) :
    Except ConversionError Pattern :=
  match ns.get? name with
  | some n => n.instantiate args
  | none => .ok (.chain (.symbol name) args)

mutual

def expandWith (unfold : String → List Pattern → Except ConversionError Pattern) :
    Pattern → Except ConversionError Pattern
  | .app l r => do return .app (← expandWith unfold l) (← expandWith unfold r)
  | .imp a c => do return .imp (← expandWith unfold a) (← expandWith unfold c)
  | .ex v b => do return .ex v (← expandWith unfold b)
  | .mu v b => do return .mu v (← expandWith unfold b)
  | .sugar name args => do unfold name (← expandAllWith unfold args)
  | p => .ok p

def expandAllWith (unfold : String → List Pattern → Except ConversionError Pattern) :
    List Pattern → Except ConversionError (List Pattern)
  | [] => .ok []
  | p :: ps => do return (← expandWith unfold p) :: (← expandAllWith unfold ps)

end

-- Unfolds `name(args)` and all that its template brings in, through at most `depth` templates.
def expandTemplate (ns : Notations) :
    (depth : Nat) → String → List Pattern → Except ConversionError Pattern
  | 0, name, _ => .error (.endless name)
  | depth + 1, name, args => do expandWith (ns.expandTemplate depth) (← ns.expand name args)

-- Removes every notation node, innermost first. Where no notation leads back to itself, a chain of templates
-- is no longer than the registry, so the depth is enough.
def expandFully (ns : Notations) (p : Pattern) : Except ConversionError Pattern :=
  expandWith (ns.expandTemplate (ns.size + 1)) p

end Notations
end MatchingLogic
