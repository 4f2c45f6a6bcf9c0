import MatchingLogic.Digest.Basic
import MatchingLogic.Pattern.Basic

namespace MatchingLogic.Pattern

mutual

-- A tag for the kind of node, little-endian ids, names and lists of arguments behind their lengths, children
-- in order.
def canonical : Pattern → Bytes
  | symbol name => 0 :: Bytes.counted name
  | elementVar id => 1 :: Bytes.ofUInt32 id
  | setVar id => 2 :: Bytes.ofUInt32 id
  | metavar id => 3 :: Bytes.ofUInt32 id
  | app l r => 4 :: (canonical l ++ canonical r)
  | imp a c => 5 :: (canonical a ++ canonical c)
  | ex v b => 6 :: (Bytes.ofUInt32 v ++ canonical b)
  | mu v b => 7 :: (Bytes.ofUInt32 v ++ canonical b)
  | sugar name args =>
    8 :: (Bytes.counted name ++ Bytes.ofUInt64 (UInt64.ofNat args.length) ++ canonicalAll args)

def canonicalAll : List Pattern → Bytes
  | [] => []
  | p :: ps => canonical p ++ canonicalAll ps

end

theorem canonicalAll_eq (ps : List Pattern) : canonicalAll ps = ps.flatMap canonical := by
  induction ps with
  | nil => simp [canonicalAll]
  | cons p ps ih => simp [canonicalAll, ih]

def fingerprint (p : Pattern) : Digest :=
  .inDomain (Bytes.ofString "PATTERN_V0") p.canonical

end MatchingLogic.Pattern
