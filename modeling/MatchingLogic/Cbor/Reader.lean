import MatchingLogic.Cbor.Item

namespace MatchingLogic.Cbor

inductive Argument where
  | value (n : UInt64) (rest : Bytes)
  -- A break byte ends the item.
  | unbounded (rest : Bytes)
  | truncated
  | reserved

namespace Argument

def ofBytes (width : Nat) (input : Bytes) : Argument :=
  let digits := input.take width
  if digits.length = width then
    value (digits.foldl (fun n b => n <<< 8 ||| b.toUInt64) 0) (input.drop width)
  else truncated

def read (first : UInt8) (rest : Bytes) : Argument :=
  let low := first &&& 31
  if low < 24 then value low.toUInt64 rest
  else if low = 24 then ofBytes 1 rest
  else if low = 25 then ofBytes 2 rest
  else if low = 26 then ofBytes 4 rest
  else if low = 27 then ofBytes 8 rest
  else if low = 31 then unbounded rest
  else reserved

end Argument

-- An item, and the bytes after it unless reading had to stop in it.
abbrev Read := Item × Option Bytes

abbrev ReadMany := List Item × Option Bytes

def readMany (item : Bytes → Read) : (n : Nat) → Bytes → ReadMany
  | 0, input => ([], some input)
  | n + 1, input =>
    match item input with
    | (i, none) => ([i], none)
    | (i, some rest) =>
      let (is, rest) := readMany item n rest
      (i :: is, rest)

-- Reads groups of items up to a break byte. Each group takes at least one byte, so that the length of the
-- input is enough fuel.
def readUntilBreak (group : Bytes → ReadMany) : (fuel : Nat) → Bytes → ReadMany
  | 0, _ => ([.missing], none)
  | fuel + 1, input =>
    match input with
    | 0xff :: rest => ([], some rest)
    | input =>
      match group input with
      | (is, none) => (is, none)
      | (is, some rest) =>
        let (js, rest) := readUntilBreak group fuel rest
        (is ++ js, rest)

def readBytes (n : UInt64) (input : Bytes) : Option (Bytes × Bytes) :=
  let content := input.take n.toNat
  if content.length = n.toNat then some (content, input.drop n.toNat) else none

def readChunks (major : UInt8) : (fuel : Nat) → Bytes → Except Item (Bytes × Bytes)
  | 0, _ => .error .truncated
  | _ + 1, [] => .error .truncated
  | fuel + 1, first :: rest =>
    if first = 0xff then .ok ([], rest)
    else if first >>> 5 ≠ major then .error .malformed
    else
      match Argument.read first rest with
      | .truncated => .error .truncated
      | .reserved | .unbounded _ => .error .malformed
      | .value n rest =>
        match readBytes n rest with
        | none => .error .truncated
        | some (chunk, rest) => do
          let (chunks, rest) ← readChunks major fuel rest
          return (chunk ++ chunks, rest)

def textOfBytes? (b : Bytes) : Option String :=
  String.fromUTF8? ⟨b.toArray⟩

def stringItem (major : UInt8) (content : Bytes) : Item :=
  if major = 2 then .bytes content else (textOfBytes? content).elim .malformed .text

-- Reads a string of `n` bytes from an input of `size` bytes, of which `rest` is left. A text has to end at a
-- position below `2 ^ 64`, whether or not the input goes that far.
def readWhole (size : Nat) (major : UInt8) (n : UInt64) (rest : Bytes) : Except Item (Bytes × Bytes) :=
  if major = 3 ∧ UInt64.size ≤ size - rest.length + n.toNat then .error .malformed
  else (readBytes n rest).elim (.error .truncated) .ok

def readString (size : Nat) (major first : UInt8) (rest : Bytes) : Read :=
  let content : Except Item (Bytes × Bytes) :=
    match Argument.read first rest with
    | .truncated => .error .truncated
    | .reserved => .error .malformed
    | .unbounded rest => readChunks major (rest.length + 1) rest
    | .value n rest => readWhole size major n rest
  match content with
  | .error i => (i, none)
  | .ok (content, rest) =>
    match stringItem major content with
    | .malformed => (.malformed, none)
    | i => (i, some rest)

def readNumber (make : UInt64 → Item) (first : UInt8) (rest : Bytes) : Read :=
  match Argument.read first rest with
  | .value n rest => (make n, some rest)
  | .truncated => (.truncated, none)
  | .reserved | .unbounded _ => (.malformed, none)

-- The values without content, and numbers of 2, 4 or 8 bytes, which are passed over.
def readSimple (first : UInt8) (rest : Bytes) : Read :=
  let float (width : Nat) : Read :=
    if (rest.take width).length = width then (.other, some (rest.drop width)) else (.truncated, none)
  if first = 0xf6 then (.null, some rest)
  else if first = 0xf4 ∨ first = 0xf5 ∨ first = 0xf7 then (.other, some rest)
  else if first = 0xf9 then float 2
  else if first = 0xfa then float 4
  else if first = 0xfb then float 8
  else (.malformed, none)

-- Reads an item, in which arrays and maps are nested at most `depth` deep, at the end of an input of `size`
-- bytes.
def readItem (size depth : Nat) (input : Bytes) : Read :=
  match input with
  | [] => (.missing, none)
  | first :: rest =>
    let major := first >>> 5
    if major = 0 then readNumber .uint first rest
    else if major = 1 then readNumber .negative first rest
    else if major = 2 ∨ major = 3 then readString size major first rest
    else if major = 4 ∨ major = 5 then
      let width := if major = 4 then 1 else 2
      let make := if major = 4 then Item.array first else Item.map first
      match depth, Argument.read first rest with
      | _, .truncated => (.truncated, none)
      | _, .reserved | 0, _ => (.malformed, none)
      | depth + 1, .value n rest =>
        let (items, rest) := readMany (readItem size depth) (width * n.toNat) rest
        (make items, rest)
      | depth + 1, .unbounded rest =>
        let (items, rest) :=
          readUntilBreak (readMany (readItem size depth) width) (rest.length + 1) rest
        (make items, rest)
    else if major = 7 then readSimple first rest
    else (.malformed, none)

-- How deep arrays and maps may be nested.
def maxDepth : Nat := 127

def decode {α : Type} (ofItem : Item → Except Error α) (input : Bytes) (limit : Nat := maxDepth) :
    Except Error α := do
  let (item, rest) := readItem input.length limit input
  let a ← ofItem item
  match rest with
  | none => throw .eof
  | some [] => return a
  | some (_ :: _) => throw .syntactic

end MatchingLogic.Cbor
