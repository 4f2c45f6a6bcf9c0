import MatchingLogic.Notation.Unfolding
import MatchingLogic.Proof.Basic

namespace MatchingLogic

-- One entry for each use, latest first. The parts of a term are noted only at its first use, since later ones
-- refer back to it, and leaves not at all: writing one again is as short as referring to it.
structure Uses where
  patterns : List Pattern := []
  proofs : List Derivation := []

namespace Uses

instance : EmptyCollection Uses := ⟨{}⟩

def repeats (u : Uses) (p : Pattern) : Bool :=
  1 < u.patterns.count p

def repeatsProof (u : Uses) (d : Derivation) : Bool :=
  1 < u.proofs.count d

end Uses

def Uses.note (p : Pattern) (parts : Uses → Except ConversionError Uses) (u : Uses) :
    Except ConversionError Uses :=
  let noted := { u with patterns := p :: u.patterns }
  if p ∈ u.patterns then .ok noted else parts noted

def Unfolding.countUses : Unfolding → Uses → Except ConversionError Uses
  | app l r => Uses.note (.app l.folded r.folded) fun u => l.countUses u >>= r.countUses
  | imp a c => Uses.note (.imp a.folded c.folded) fun u => a.countUses u >>= c.countUses
  | ex v b => Uses.note (.ex v b.folded) b.countUses
  | mu v b => Uses.note (.mu v b.folded) b.countUses
  | sugar name args body => Uses.note (.sugar name args) (body ()).countUses
  | stuck name args reason => Uses.note (.sugar name args) fun _ => .error reason
  | _ => .ok

def Notations.countUses (ns : Notations) (ps : List Pattern) (u : Uses) :
    Except ConversionError Uses :=
  ps.foldlM (fun u p => (ns.unfolding p).countUses u) u

def Derivation.countUses (ns : Notations) : Derivation → Uses → Except ConversionError Uses
  | modusPonens left right, u => do
    let noted := { u with proofs := modusPonens left right :: u.proofs }
    if modusPonens left right ∈ u.proofs then return noted
    right.countUses ns (← left.countUses ns noted)
  | instantiate inner plugs, u => do
    let noted := { u with proofs := instantiate inner plugs :: u.proofs }
    if instantiate inner plugs ∈ u.proofs then return noted
    inner.countUses ns (← ns.countUses plugs.plugs noted)
  | _, u => .ok u

def Notations.countProofUses (ns : Notations) (ds : List Derivation) (u : Uses) :
    Except ConversionError Uses :=
  ds.foldlM (fun u d => d.countUses ns u) u

end MatchingLogic
