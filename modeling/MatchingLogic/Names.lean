import MatchingLogic.Error
import MatchingLogic.FirstOccurrence
import MatchingLogic.Pattern.Basic

namespace MatchingLogic

structure NameTable where
  names : List String
  deriving DecidableEq

namespace NameTable

instance : EmptyCollection NameTable := ⟨⟨[]⟩⟩

def size (t : NameTable) : Nat :=
  t.names.length

def id? (t : NameTable) (name : String) : Option UInt32 :=
  (t.names.idxOf? name).map UInt32.ofNat

def declare (t : NameTable) (name : String) : NameTable :=
  ⟨addNew t.names name⟩

-- The position of a name, which is the end of the table for a new one.
def id (t : NameTable) (name : String) : UInt32 :=
  (t.id? name).getD (UInt32.ofNat t.size)

def truncate (t : NameTable) (n : Nat) : NameTable :=
  ⟨t.names.take n⟩

end NameTable

structure Vocabulary where
  symbolMark : String
  sortMark : String
  symbols : List String := []
  metavars : NameTable := ∅
  elementVars : NameTable := ∅
  setVars : NameTable := ∅

namespace Vocabulary

def symbol (v : Vocabulary) (name : String) : Pattern :=
  .symbol (v.symbolMark ++ name)

def sort (v : Vocabulary) (name : String) : Pattern :=
  .symbol (v.sortMark ++ name)

def addSymbol (v : Vocabulary) (name : String) : Vocabulary :=
  { v with symbols := addNew v.symbols name }

def addMetavar (v : Vocabulary) (name : String) : Vocabulary :=
  { v with metavars := v.metavars.declare name }

def addElementVar (v : Vocabulary) (name : String) : Vocabulary :=
  { v with elementVars := v.elementVars.declare name }

def addSetVar (v : Vocabulary) (name : String) : Vocabulary :=
  { v with setVars := v.setVars.declare name }

def metavarId (v : Vocabulary) (name : String) : Except ConversionError UInt32 :=
  match v.metavars.id? name with
  | some id => .ok id
  | none => .error (.unknownVariable name)

end Vocabulary
end MatchingLogic
