import MatchingLogic.Bytes

namespace MatchingLogic.Cbor

-- An item read from bytes may be incomplete: where reading could not go on, it holds a leaf that says why. A
-- decoder that goes through the item from left to right thus meets problems of the bytes and of the data in
-- the order in which they occur.
inductive Item where
  | uint (n : UInt64)
  -- The integer `-1 - n`.
  | negative (n : UInt64)
  | bytes (b : Bytes)
  | text (s : String)
  -- Arrays and maps hold the byte that opens them. The items of a map are keys and values in turn.
  | array (opening : UInt8) (items : List Item)
  | map (opening : UInt8) (items : List Item)
  | null
  -- Booleans, the undefined value and floating-point numbers.
  | other
  -- The input ends before the item or inside of it, or the bytes are not an item.
  | missing
  | truncated
  | malformed
  deriving Inhabited

inductive Error where
  -- The data are well-formed and of the wrong shape.
  | data
  | syntactic
  | eof
  deriving DecidableEq

def bigEndian (width : Nat) (n : UInt64) : Bytes :=
  ((Bytes.ofUInt64 n).take width).reverse

-- The first byte of an item of a major type, with the shortest form of its argument.
def head (major : UInt8) (n : UInt64) : Bytes :=
  if n < 24 then [major <<< 5 ||| n.toUInt8]
  else if n < 0x100 then (major <<< 5 ||| 24) :: bigEndian 1 n
  else if n < 0x10000 then (major <<< 5 ||| 25) :: bigEndian 2 n
  else if n < 0x100000000 then (major <<< 5 ||| 26) :: bigEndian 4 n
  else (major <<< 5 ||| 27) :: bigEndian 8 n

namespace Item

mutual

def encode : Item → Bytes
  | uint n => head 0 n
  | negative n => head 1 n
  | bytes b => head 2 (UInt64.ofNat b.length) ++ b
  | text s => head 3 (UInt64.ofNat s.utf8ByteSize) ++ Bytes.ofString s
  | array _ items => head 4 (UInt64.ofNat items.length) ++ encodeAll items
  | map _ items => head 5 (UInt64.ofNat (items.length / 2)) ++ encodeAll items
  | null => [0xf6]
  | other => [0xf7]
  | missing | truncated | malformed => []

def encodeAll : List Item → Bytes
  | [] => []
  | i :: is => encode i ++ encodeAll is

end

mutual

def depth : Item → Nat
  | array _ items => depthAll items + 1
  | map _ items => depthAll items + 1
  | _ => 0

def depthAll : List Item → Nat
  | [] => 0
  | i :: is => max (depth i) (depthAll is)

end

def list (items : List Item) : Item :=
  array ((head 4 (UInt64.ofNat items.length)).headD 0) items

def record (entries : List (String × Item)) : Item :=
  map ((head 5 (UInt64.ofNat entries.length)).headD 0) (entries.flatMap fun (k, v) => [text k, v])

-- One of several alternatives: a map from its name to its content.
def variant (name : String) (content : Item) : Item :=
  record [(name, content)]

def texts (l : List String) : Item :=
  list (l.map text)

end Item
end MatchingLogic.Cbor
