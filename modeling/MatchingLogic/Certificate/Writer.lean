import MatchingLogic.Certificate.Instruction
import MatchingLogic.Certificate.Uses

namespace MatchingLogic

-- What is saved in which slot. A notation instance is saved when it is first written, any other composite
-- pattern or derivation if it is used again later, and a derivation of a lemma once for its conclusion.
structure Memory where
  patterns : List (Pattern × Nat) := []
  proofs : List (Derivation × Nat) := []
  lemmas : List (Pattern × Nat) := []
  size : Nat := 0

namespace Memory

instance : EmptyCollection Memory := ⟨{}⟩

def savePattern (m : Memory) (p : Pattern) : Memory :=
  { m with patterns := (p, m.size) :: m.patterns, size := m.size + 1 }

def saveProof (m : Memory) (d : Derivation) : Memory :=
  { m with proofs := (d, m.size) :: m.proofs, size := m.size + 1 }

def saveLemma (m : Memory) (p : Pattern) : Memory :=
  { m with lemmas := (p, m.size) :: m.lemmas, size := m.size + 1 }

end Memory

abbrev Writer := StateT Memory (Except Error)

namespace Writer

-- Code for a composite pattern: a `load` if it is saved, else `body`, saved if `keep` says so.
def shared (p : Pattern) (keep : Bool) (body : Writer Code) : Writer Code := do
  match (← get).patterns.lookup p with
  | some slot => return [.load slot]
  | none =>
    let code ← body
    if keep then
      modify (·.savePattern p)
      return code ++ [.save]
    else return code

end Writer

def Unfolding.write (uses : Uses) : Unfolding → Writer Code
  | symbol name => return [.symbol name]
  | elementVar id => return [.elementVar id]
  | setVar id => return [.setVar id]
  | metavar id => return [.metavar id]
  | app l r =>
    let p := .app l.folded r.folded
    Writer.shared p (uses.repeats p) do return (← l.write uses) ++ (← r.write uses) ++ [.app]
  | imp a c =>
    let p := .imp a.folded c.folded
    Writer.shared p (uses.repeats p) do return (← a.write uses) ++ (← c.write uses) ++ [.imp]
  | ex v b =>
    let p := .ex v b.folded
    Writer.shared p (uses.repeats p) do return (← b.write uses) ++ [.ex v]
  | mu v b =>
    let p := .mu v b.folded
    Writer.shared p (uses.repeats p) do return (← b.write uses) ++ [.mu v]
  | sugar name args body => Writer.shared (.sugar name args) true ((body ()).write uses)
  | stuck name args reason =>
    Writer.shared (.sugar name args) true (throw (.conversion reason))

structure Theory where
  notations : Notations
  axioms : List Pattern
  lemmas : List Pattern

namespace Derivation

-- Code for a composite derivation: a `load` if it is saved, or if it proves a lemma that is; else `body`,
-- saved as a lemma if it proves one and for its own sake if it is used again.
def shared (t : Theory) (uses : Uses) (d : Derivation) (body : Writer Code) : Writer Code := do
  let conclusion := d.conclusion
  let memory ← get
  match (memory.proofs.lookup d).or (memory.lemmas.lookup conclusion) with
  | some slot => return [.load slot]
  | none =>
    let code ← body
    if conclusion ∈ t.lemmas then
      modify (·.saveLemma conclusion)
      return code ++ [.save]
    else if uses.repeatsProof d then
      modify (·.saveProof d)
      return code ++ [.save]
    else return code

def leaf (d : Derivation) (body : Writer Code) : Writer Code := do
  match (← get).lemmas.lookup d.conclusion with
  | some slot => return [.load slot]
  | none => body

def write (t : Theory) (uses : Uses) : Derivation → Writer Code
  | prop1 => leaf prop1 (return [.prop1])
  | prop2 => leaf prop2 (return [.prop2])
  | prop3 => leaf prop3 (return [.prop3])
  | assumed p =>
    leaf (assumed p) do
      match t.axioms.idxOf? p with
      | some index => return [.assumed index]
      | none => throw (.packaging (.unknownAxiom p.text))
  | modusPonens left right =>
    shared t uses (modusPonens left right) do
      return (← left.write t uses) ++ (← right.write t uses) ++ [.modusPonens]
  | instantiate inner plugs =>
    shared t uses (instantiate inner plugs) do
      let code ← inner.write t uses
      let plugCode ← plugs.plugs.mapM fun p => (t.notations.unfolding p).write uses
      return code ++ plugCode.flatten ++ [.instantiate plugs.ids]

end Derivation
end MatchingLogic
