import MatchingLogic.Certificate.Basic
import MatchingLogic.Pattern.Order

namespace MatchingLogic

structure Bundle where
  axioms : List Pattern := []
  claims : List Pattern := []
  proofs : List Proof := []
  -- Ascending, each lemma once.
  lemmas : List Pattern := []

namespace Bundle

instance : EmptyCollection Bundle := ⟨{}⟩

def assert (b : Bundle) (p : Pattern) : Bundle :=
  { b with axioms := addNew b.axioms p }

def assertAll (b : Bundle) (ps : List Pattern) : Bundle :=
  ps.foldl assert b

def claim (b : Bundle) (p : Pattern) : Bundle :=
  { b with claims := b.claims ++ [p] }

def prove (b : Bundle) (p : Proof) : Bundle :=
  { b with proofs := b.proofs ++ [p] }

def discharge (b : Bundle) (p : Proof) : Bundle :=
  (b.claim p.conclusion).prove p

def addLemma (b : Bundle) (p : Pattern) : Bundle :=
  { b with lemmas := p.insertOrdered b.lemmas }

def isEmpty (b : Bundle) : Bool :=
  b.claims.isEmpty && b.proofs.isEmpty

def certificate (b : Bundle) (ns : Notations) : Except Error Certificate :=
  Certificate.write { notations := ns, axioms := b.axioms, lemmas := b.lemmas } b.claims b.proofs

end Bundle
end MatchingLogic
