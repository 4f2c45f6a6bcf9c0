namespace MatchingLogic

abbrev Bytes := List UInt8

namespace Bytes

def ofUInt32 (n : UInt32) : Bytes :=
  [n.toUInt8, (n >>> 8).toUInt8, (n >>> 16).toUInt8, (n >>> 24).toUInt8]

def ofUInt64 (n : UInt64) : Bytes :=
  ofUInt32 n.toUInt32 ++ ofUInt32 (n >>> 32).toUInt32

def ofString (s : String) : Bytes :=
  s.toUTF8.data.toList

theorem fromUTF8?_ofString (s : String) : String.fromUTF8? ⟨(ofString s).toArray⟩ = some s := by
  rw [String.fromUTF8?]
  exact dif_pos s.isValidUTF8

-- A text behind its length in bytes.
def counted (s : String) : Bytes :=
  ofUInt64 (UInt64.ofNat s.utf8ByteSize) ++ ofString s

def hexDigits (b : UInt8) : List Char :=
  [Nat.digitChar (b.toNat / 16), Nat.digitChar (b.toNat % 16)]

def hex (bytes : Bytes) : String :=
  String.ofList (bytes.flatMap hexDigits)

end Bytes
end MatchingLogic
