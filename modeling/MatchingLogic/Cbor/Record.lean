import MatchingLogic.Cbor.Reader

namespace MatchingLogic.Cbor

namespace Item

-- Why an item is not of the expected type. Arrays and maps are refused before their content is looked at.
def mismatch : Item → Error
  | missing | truncated => .eof
  | malformed => .syntactic
  | _ => .data

mutual

-- The first problem of the bytes in an item that is passed over.
def check : Item → Except Error Unit
  | array _ items => checkAll items
  | map _ items => checkAll items
  | missing | truncated => .error .eof
  | malformed => .error .syntactic
  | _ => .ok ()

def checkAll : List Item → Except Error Unit
  | [] => .ok ()
  | i :: is => do check i; checkAll is

end

def toText : Item → Except Error String
  | text s => .ok s
  | bytes b => (textOfBytes? b).elim (.error .data) .ok
  | i => .error i.mismatch

def toUInt64 : Item → Except Error UInt64
  | uint n => .ok n
  | i => .error i.mismatch

def toByte : Item → Except Error UInt8
  | uint n => if n < 256 then .ok n.toUInt8 else .error .data
  | i => .error i.mismatch

def toList {α : Type} (element : Item → Except Error α) : Item → Except Error (List α)
  | array _ items => items.mapM element
  | i => .error i.mismatch

def toTexts : Item → Except Error (List String) :=
  toList toText

def toOption {α : Type} (content : Item → Except Error α) : Item → Except Error (Option α)
  | null => .ok none
  | i => some <$> content i

-- Nothing may be left of an array. If a break byte has to end it, the end of the input counts as such.
def nothingLeft (opening : UInt8) : List Item → Except Error Unit
  | [] => .ok ()
  | missing :: _ => .error (if opening &&& 31 = 31 then .eof else .syntactic)
  | _ :: _ => .error .syntactic

def toPair {α β : Type} (first : Item → Except Error α) (second : Item → Except Error β) :
    Item → Except Error (α × β)
  | array opening items =>
    match items with
    | [] => .error .data
    | [i] => do
      let _ ← first i
      throw .data
    | i :: j :: rest => do
      let a ← first i
      let b ← second j
      nothingLeft opening rest
      return (a, b)
  | i => .error i.mismatch

-- Which of the names a key stands for, by the name or by its place; `none` for another name.
def key (names : List String) : Item → Except Error (Option String)
  | text s => .ok (names.find? (· == s))
  | bytes b => .ok (names.find? (Bytes.ofString · == b))
  | uint n => .ok names[n.toNat]?
  | i => .error i.mismatch

-- Keys and values in turn. A key without a value is one at which reading stopped.
def pairs : List Item → List (Item × Item)
  | [] => []
  | [k] => [(k, missing)]
  | k :: v :: rest => (k, v) :: pairs rest

end Item

-- A record is a map from field names, or an array of its fields in order. Fields may come in any order and
-- unknown ones are passed over; of all problems the leftmost is reported.
structure Fields where
  entries : List (Except Error (Option String) × Item)
  positional : Bool

namespace Fields

def ofItem (names : List String) : Item → Except Error Fields
  | .map _ items => .ok ⟨(Item.pairs items).map fun (k, v) => (k.key names, v), false⟩
  | .array opening items =>
    let placed := (names.zip items).map fun (name, i) => (.ok (some name), i)
    let left := match Item.nothingLeft opening (items.drop names.length) with
      | .ok _ => []
      | .error e => [(.error e, .null)]
    .ok ⟨placed ++ left, true⟩
  | i => .error i.mismatch

def find? (f : Fields) (name : String) : Option Item :=
  (f.entries.find? fun (key, _) =>
    match key with
    | .ok (some n) => n == name
    | _ => false).map (·.2)

-- The first problem of the entries, where `problems` tells those of the known fields' values. A known field
-- may not come twice.
def check (problems : List (String × Option Error)) :
    (seen : List String) → List (Except Error (Option String) × Item) → Except Error Unit
  | _, [] => .ok ()
  | seen, (key, item) :: rest => do
    match ← key with
    | none =>
      item.check
      check problems seen rest
    | some name =>
      if name ∈ seen then throw .data
      if let some (some e) := problems.lookup name then throw e
      check problems (name :: seen) rest

end Fields

-- A way to read a value from named fields. Reading gives the problem of each field's value apart from the
-- value as a whole, so that the entries' order can decide which is reported.
structure Record (α : Type) where
  names : List String
  read : Fields → List (String × Option Error) × Except Error α

namespace Record

instance : Functor Record where
  map f r := ⟨r.names, fun fs => let (problems, a) := r.read fs; (problems, f <$> a)⟩

instance : Seq Record where
  seq f x := ⟨f.names ++ (x ()).names, fun fs =>
    let (p, g) := f.read fs
    let (q, a) := (x ()).read fs
    (p ++ q, do return (← g) (← a))⟩

-- A field; `absent` is its value if it is not there, given whether fields are given by their places.
def fieldOr {α : Type} (name : String) (content : Item → Except Error α)
    (absent : Bool → Except Error α) : Record α where
  names := [name]
  read fs :=
    match (fs.find? name).map content with
    | none => ([(name, none)], absent fs.positional)
    | some (.ok a) => ([(name, none)], .ok a)
    | some (.error e) => ([(name, some e)], .error e)

def field {α : Type} (name : String) (content : Item → Except Error α) : Record α :=
  fieldOr name content fun _ => .error .data

def optional {α : Type} (name : String) (content : Item → Except Error α) : Record (Option α) :=
  fieldOr name (Item.toOption content) fun positional =>
    if positional then .error .data else .ok none

def decode {α : Type} (r : Record α) (i : Item) : Except Error α := do
  let fields ← Fields.ofItem r.names i
  let (problems, a) := r.read fields
  Fields.check problems [] fields.entries
  a

end Record

-- The content of an alternative: an item of its own, or what is left of an array after the name.
inductive Content where
  | own (i : Item)
  | rest (opening : UInt8) (items : List Item)

namespace Content

def ofItem (names : List String) : Item → Except Error (String × Content)
  | .map 0xa1 items =>
    match Item.pairs items with
    | [] => .error .eof
    | (k, v) :: _ => do
      match ← k.key names with
      | some name => return (name, own v)
      | none => throw .data
  | .array opening items =>
    match items with
    | [] => .error .syntactic
    | k :: left => do
      match ← k.key names with
      | some name => return (name, rest opening left)
      | none => throw .data
  | i => .error i.mismatch

def single {α : Type} (content : Item → Except Error α) : Content → Except Error α
  | own i => content i
  | rest _ [] => .error .syntactic
  | rest opening (i :: left) => do
    let a ← content i
    Item.nothingLeft opening left
    return a

def fields {α : Type} (r : Record α) : Content → Except Error α :=
  single r.decode

end Content
end MatchingLogic.Cbor
