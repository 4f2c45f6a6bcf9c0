import MatchingLogic.Bytes

namespace MatchingLogic

-- An instruction takes its parts from the stack and leaves its result there. `save` copies the top of the
-- stack into the next slot of a memory, `load` pushes a slot, and `publish` hands the top over.
inductive Instruction where
  | elementVar (id : UInt32)
  | setVar (id : UInt32)
  | symbol (name : String)
  | imp
  | app
  | mu (var : UInt32)
  | ex (var : UInt32)
  | metavar (id : UInt32)
  | prop1
  | prop2
  | prop3
  | modusPonens
  -- Takes one plug for each id, in order, and the proof below them.
  | instantiate (ids : List UInt32)
  | assumed (index : Nat)
  | save
  | load (slot : Nat)
  | publish
  deriving DecidableEq

abbrev Code := List Instruction

namespace Instruction

def operand (n : Nat) : Bytes :=
  Bytes.ofUInt32 (UInt32.ofNat n)

def encode : Instruction → Bytes
  | elementVar id => 2 :: Bytes.ofUInt32 id
  | setVar id => 3 :: Bytes.ofUInt32 id
  | symbol name => 4 :: (operand name.utf8ByteSize ++ Bytes.ofString name)
  | imp => [5]
  | app => [6]
  | mu v => 7 :: Bytes.ofUInt32 v
  | ex v => 8 :: Bytes.ofUInt32 v
  | metavar id => 9 :: Bytes.ofUInt32 id
  | prop1 => [12]
  | prop2 => [13]
  | prop3 => [14]
  | modusPonens => [15]
  | instantiate ids => 16 :: (operand ids.length ++ ids.flatMap Bytes.ofUInt32)
  | assumed index => 17 :: operand index
  | save => [19]
  | load slot => 20 :: operand slot
  | publish => [22]

end Instruction

def Code.encode (code : Code) : Bytes :=
  code.flatMap Instruction.encode

end MatchingLogic
