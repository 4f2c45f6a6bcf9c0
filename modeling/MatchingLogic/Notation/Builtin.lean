import MatchingLogic.Notation.Registry

namespace MatchingLogic

namespace Pattern

def bot : Pattern :=
  sugar "\\bot" []

def neg (p : Pattern) : Pattern :=
  sugar "\\neg" [p]

def top : Pattern :=
  sugar "\\top" []

def and (p q : Pattern) : Pattern :=
  sugar "\\and" [p, q]

def or (p q : Pattern) : Pattern :=
  sugar "\\or" [p, q]

def transition (sort left right : Pattern) : Pattern :=
  sugar "kore-rewrites" [sort, left, right]

def equation (sort left right : Pattern) : Pattern :=
  sugar "kore-equals" [sort, left, right]

def sortedAnd (sort left right : Pattern) : Pattern :=
  sugar "kore-and" [sort, left, right]

def sortedOr (sort left right : Pattern) : Pattern :=
  sugar "kore-or" [sort, left, right]

def sortedTop (sort : Pattern) : Pattern :=
  sugar "kore-top" [sort]

def domainValue (sort value : Pattern) : Pattern :=
  sugar "kore-dv" [sort, value]

-- An application together with the sorts at which its symbol is used.
def sortedApp (sorts applied : Pattern) : Pattern :=
  sugar "kore-app" [sorts, applied]

def cell (content : Pattern) : Pattern :=
  sugar "cell" [content]

def nestedCells (content : Pattern) : Pattern :=
  sugar "nested-cells" [content]

-- A symbol, named by a backslash and `name`, applied to the metavariables `0`, …, `arity - 1`.
def headed (name : String) : (arity : Nat) → Pattern
  | 0 => symbol ("\\" ++ name)
  | n + 1 => app (headed name n) (metavar (UInt32.ofNat n))

theorem mem_nodes_headed {name : String} {arity : Nat} {p : Pattern}
    (h : p ∈ (headed name arity).nodes) :
    p.sugar? = none ∧ ∀ id, p = metavar id → id.toNat < arity := by
  induction arity with
  | zero => simp_all [headed, nodes, sugar?]
  | succ n ih =>
    simp only [headed, nodes, List.mem_cons, List.mem_append, List.not_mem_nil, or_false] at h
    rcases h with rfl | h | rfl
    · simp [sugar?]
    · exact ⟨(ih h).1, fun id hid => Nat.lt_succ_of_lt ((ih h).2 id hid)⟩
    · refine ⟨rfl, fun id hid => ?_⟩
      cases hid
      exact Nat.lt_succ_of_le (Nat.mod_le n _)

end Pattern

namespace Notation

open Pattern

def bot : Notation :=
  ofTemplate "\\bot" 0 (.mu 0 (.setVar 0)) (by decide) (by decide)

def neg : Notation :=
  ofTemplate "\\neg" 1 (.imp (.metavar 0) .bot) (by decide) (by decide)

def top : Notation :=
  ofTemplate "\\top" 0 (.neg .bot) (by decide) (by decide)

def and : Notation :=
  ofTemplate "\\and" 2 (.neg (.imp (.metavar 0) (.neg (.metavar 1)))) (by decide) (by decide)

def or : Notation :=
  ofTemplate "\\or" 2 (.imp (.neg (.metavar 0)) (.metavar 1)) (by decide) (by decide)

def plain (name : String) (arity : Nat) : Notation where
  name := name
  arity := arity
  template := headed name arity
  placeholders id h := (mem_nodes_headed (mem_metavars.mp h)).2 id rfl
  irreflexive := by
    simp only [mentions, List.any_eq_false]
    intro p hp
    simp [(mem_nodes_headed hp).1]

end Notation

def Notations.builtin : Notations :=
  .ofList [
    .bot, .neg, .top, .and, .or,
    .plain "kore-rewrites" 3, .plain "kore-equals" 3, .plain "kore-and" 3, .plain "kore-or" 3,
    .plain "kore-top" 1, .plain "kore-dv" 2, .plain "kore-app" 2, .plain "cell" 1,
    .plain "nested-cells" 1]

end MatchingLogic
