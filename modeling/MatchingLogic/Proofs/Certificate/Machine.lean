import MatchingLogic.Certificate.Instruction
import MatchingLogic.Proof.Basic

namespace MatchingLogic

namespace Instruction

-- Lowest byte first.
def readWord : Bytes → Option (UInt32 × Bytes)
  | a :: b :: c :: d :: rest =>
    some (UInt32.ofNat (a.toNat + 256 * (b.toNat + 256 * (c.toNat + 256 * d.toNat))), rest)
  | _ => none

def readWords : Nat → Bytes → Option (List UInt32 × Bytes)
  | 0, bytes => some ([], bytes)
  | n + 1, bytes => do
    let (w, bytes) ← readWord bytes
    let (ws, bytes) ← readWords n bytes
    return (w :: ws, bytes)

def readText (n : Nat) (bytes : Bytes) : Option (String × Bytes) :=
  if n ≤ bytes.length then
    (String.fromUTF8? ⟨(bytes.take n).toArray⟩).map (·, bytes.drop n)
  else none

-- The operands of an instruction, a word for `read`, made into the instruction.
def operands {α : Type} (read : UInt32 → Bytes → Option (α × Bytes)) (make : α → Instruction)
    (bytes : Bytes) : Option (Instruction × Bytes) := do
  let (w, bytes) ← readWord bytes
  let (a, bytes) ← read w bytes
  return (make a, bytes)

def word (w : UInt32) (bytes : Bytes) : Option (UInt32 × Bytes) :=
  some (w, bytes)

def decode : Bytes → Option (Instruction × Bytes)
  | [] => none
  | op :: bytes =>
    match op with
    | 2 => operands word elementVar bytes
    | 3 => operands word setVar bytes
    | 4 => operands (readText ·.toNat) symbol bytes
    | 5 => some (imp, bytes)
    | 6 => some (app, bytes)
    | 7 => operands word mu bytes
    | 8 => operands word ex bytes
    | 9 => operands word metavar bytes
    | 12 => some (prop1, bytes)
    | 13 => some (prop2, bytes)
    | 14 => some (prop3, bytes)
    | 15 => some (modusPonens, bytes)
    | 16 => operands (readWords ·.toNat) instantiate bytes
    | 17 => operands word (assumed ·.toNat) bytes
    | 19 => some (save, bytes)
    | 20 => operands word (load ·.toNat) bytes
    | 22 => some (publish, bytes)
    | _ => none

section Length

variable {bytes rest : Bytes}

theorem length_readWord {w : UInt32} (h : readWord bytes = some (w, rest)) :
    rest.length ≤ bytes.length := by
  unfold readWord at h
  split at h
  · cases h
    simp only [List.length_cons]
    omega
  · cases h

theorem length_readWords {n : Nat} {ws : List UInt32} (h : readWords n bytes = some (ws, rest)) :
    rest.length ≤ bytes.length := by
  induction n generalizing bytes ws with
  | zero =>
    cases h
    exact Nat.le_refl _
  | succ n ih =>
    simp only [readWords, bind, Option.bind_eq_some_iff] at h
    obtain ⟨⟨w, bytes'⟩, hw, ⟨ws', rest'⟩, hws, h⟩ := h
    cases h
    exact Nat.le_trans (ih hws) (length_readWord hw)

theorem length_readText {n : Nat} {text : String} (h : readText n bytes = some (text, rest)) :
    rest.length ≤ bytes.length := by
  unfold readText at h
  split at h
  · obtain ⟨_, -, h⟩ := Option.map_eq_some_iff.mp h
    cases h
    simp
  · cases h

theorem length_word {w a : UInt32} (h : word w bytes = some (a, rest)) :
    rest.length ≤ bytes.length := by
  cases h
  exact Nat.le_refl _

theorem length_operands {α : Type} {read : UInt32 → Bytes → Option (α × Bytes)}
    {make : α → Instruction} {i : Instruction}
    (hread : ∀ {w a bytes rest}, read w bytes = some (a, rest) → rest.length ≤ bytes.length)
    (h : operands read make bytes = some (i, rest)) : rest.length ≤ bytes.length := by
  simp only [operands, bind, Option.bind_eq_some_iff] at h
  obtain ⟨⟨w, bytes'⟩, hw, ⟨a, rest'⟩, ha, h⟩ := h
  cases h
  exact Nat.le_trans (hread ha) (length_readWord hw)

-- Every instruction takes at least the byte that names it.
theorem length_decode {i : Instruction} (h : decode bytes = some (i, rest)) :
    rest.length < bytes.length := by
  cases bytes with
  | nil => cases h
  | cons op bytes =>
    refine Nat.lt_succ_of_le ?_
    simp only [decode] at h
    split at h
    case h_3 => exact length_operands length_readText h
    case h_13 => exact length_operands length_readWords h
    case h_1 | h_2 | h_6 | h_7 | h_8 | h_14 | h_16 => exact length_operands length_word h
    all_goals cases h
    all_goals exact Nat.le_refl _

end Length

-- The number that stands before or as the operand of an instruction, which has to fit into a word.
def extent : Instruction → Nat
  | symbol name => name.utf8ByteSize
  | instantiate ids => ids.length
  | assumed n | load n => n
  | _ => 0

def Fits (i : Instruction) : Prop :=
  i.extent < UInt32.size

instance : DecidablePred Fits := fun i => inferInstanceAs (Decidable (i.extent < UInt32.size))

theorem readWord_ofUInt32 (n : UInt32) (rest : Bytes) :
    readWord (Bytes.ofUInt32 n ++ rest) = some (n, rest) := by
  have hlt := n.toNat_lt
  have hn : n.toNat % 256 + 256 * (n.toNat / 256 % 256 + 256 * (n.toNat / 65536 % 256 +
      256 * (n.toNat / 16777216 % 256))) = n.toNat := by
    omega
  simp only [Bytes.ofUInt32, List.cons_append, List.nil_append, readWord]
  simp only [UInt32.toNat_toUInt8, UInt32.toNat_shiftRight, Nat.shiftRight_eq_div_pow]
  simp [hn]

theorem operands_ofUInt32 {α : Type} (read : UInt32 → Bytes → Option (α × Bytes))
    (make : α → Instruction) (n : UInt32) (rest : Bytes) :
    operands read make (Bytes.ofUInt32 n ++ rest) =
      (read n rest).map fun (a, rest) => (make a, rest) := by
  simp only [operands, readWord_ofUInt32, bind, Option.bind_some]
  cases read n rest <;> rfl

theorem readWords_flatMap (ids : List UInt32) (rest : Bytes) :
    readWords ids.length (ids.flatMap Bytes.ofUInt32 ++ rest) = some (ids, rest) := by
  induction ids with
  | nil => rfl
  | cons id ids ih => simp [readWords, readWord_ofUInt32, ih]

theorem readText_ofString (name : String) (rest : Bytes) :
    readText name.utf8ByteSize (Bytes.ofString name ++ rest) = some (name, rest) := by
  have hlen : (Bytes.ofString name).length = name.utf8ByteSize := rfl
  rw [readText, ← hlen, List.take_left, List.drop_left, Bytes.fromUTF8?_ofString]
  simp

theorem decode_encode {i : Instruction} (h : i.Fits) (rest : Bytes) :
    decode (i.encode ++ rest) = some (i, rest) := by
  have hword : (UInt32.ofNat i.extent).toNat = i.extent := UInt32.toNat_ofNat_of_lt' h
  cases i with
  | symbol name =>
    simp only [extent] at hword
    simp [encode, decode, operand, operands_ofUInt32, hword, readText_ofString]
  | instantiate ids =>
    simp only [extent] at hword
    simp [encode, decode, operand, operands_ofUInt32, hword, readWords_flatMap]
  | assumed n | load n =>
    simp only [extent] at hword
    simp [encode, decode, operand, operands_ofUInt32, word, hword]
  | _ => simp [encode, decode, operands_ofUInt32, word]

end Instruction

-- A pattern that was merely built is kept apart from one that was proved.
inductive Entry where
  | pattern (p : Pattern)
  | proved (p : Pattern)
  deriving DecidableEq

-- The theory and the claims are streams of statements. What is published there is a pattern, and what the
-- stream of proofs publishes is proved.
inductive Phase where
  | statements
  | proofs
  deriving DecidableEq

def Phase.entry : Phase → Pattern → Entry
  | statements => .pattern
  | proofs => .proved

structure Machine where
  -- Top first.
  stack : List Entry := []
  memory : List Entry := []
  published : List Pattern := []
  deriving DecidableEq

namespace Machine

def push (m : Machine) (e : Entry) : Machine :=
  { m with stack := e :: m.stack }

-- Takes `n` patterns off the stack, in the order in which they were pushed.
def popPatterns : Nat → List Entry → Option (List Pattern × List Entry)
  | 0, stack => some ([], stack)
  | n + 1, .pattern p :: stack => do
    let (ps, stack) ← popPatterns n stack
    return (ps ++ [p], stack)
  | _ + 1, _ => none

-- `¬¬φ0 → φ0`, where `¬p` is `p → ⊥` and `⊥` is `μX0. X0`.
def doubleNegation : Pattern :=
  let bot := .mu 0 (.setVar 0)
  .imp (.imp (.imp (.metavar 0) bot) bot) (.metavar 0)

def step (phase : Phase) (theory : List Pattern) (m : Machine) : Instruction → Option Machine
  | .elementVar id => m.push (.pattern (.elementVar id))
  | .setVar id => m.push (.pattern (.setVar id))
  | .symbol name => m.push (.pattern (.symbol name))
  | .metavar id => m.push (.pattern (.metavar id))
  | .imp =>
    match m.stack with
    | .pattern c :: .pattern a :: stack => some { m with stack := .pattern (.imp a c) :: stack }
    | _ => none
  | .app =>
    match m.stack with
    | .pattern r :: .pattern l :: stack => some { m with stack := .pattern (.app l r) :: stack }
    | _ => none
  | .mu v =>
    match m.stack with
    | .pattern b :: stack => some { m with stack := .pattern (.mu v b) :: stack }
    | _ => none
  | .ex v =>
    match m.stack with
    | .pattern b :: stack => some { m with stack := .pattern (.ex v b) :: stack }
    | _ => none
  | .prop1 => m.push (.proved (Derivation.conclusion .prop1))
  | .prop2 => m.push (.proved (Derivation.conclusion .prop2))
  | .prop3 => m.push (.proved doubleNegation)
  | .modusPonens =>
    match m.stack with
    | .proved (.imp a c) :: .proved b :: stack =>
      if a = b then some { m with stack := .proved c :: stack } else none
    | _ => none
  | .instantiate ids =>
    match popPatterns ids.length m.stack with
    | some (plugs, .proved p :: stack) =>
      some { m with stack := .proved (p.instantiate (.ofList (ids.zip plugs))) :: stack }
    | _ => none
  | .assumed index => theory[index]?.map (m.push <| .proved ·)
  | .save => m.stack.head?.map fun e => { m with memory := m.memory ++ [e] }
  | .load slot => m.memory[slot]?.map m.push
  | .publish =>
    match phase, m.stack with
    | .statements, .pattern p :: stack | .proofs, .proved p :: stack =>
      some { m with stack, published := m.published ++ [p] }
    | _, _ => none

-- Runs a stream to its end.
def run (phase : Phase) (theory : List Pattern) (m : Machine) (bytes : Bytes) : Option Machine :=
  if bytes = [] then some m
  else
    match _h : Instruction.decode bytes with
    | none => none
    | some (i, rest) => m.step phase theory i >>= fun m => m.run phase theory rest
termination_by bytes.length
decreasing_by exact Instruction.length_decode _h

-- What a stream publishes, if it is read to its end and leaves the stack empty.
def replay (phase : Phase) (theory : List Pattern) (bytes : Bytes) : Option (List Pattern) :=
  match run phase theory {} bytes with
  | some { stack := [], published, .. } => some published
  | _ => none

-- Instructions one after the other, without their bytes.
def exec (phase : Phase) (theory : List Pattern) (m : Machine) (code : Code) : Option Machine :=
  code.foldlM (step phase theory) m

variable {phase : Phase} {theory : List Pattern}

theorem exec_append (m : Machine) (code code' : Code) :
    exec phase theory m (code ++ code') =
      exec phase theory m code >>= fun m => exec phase theory m code' :=
  List.foldlM_append

theorem encode_ne_nil (i : Instruction) : i.encode ≠ [] := by
  cases i <;> simp [Instruction.encode]

theorem run_encode {code : Code} (h : ∀ i ∈ code, i.Fits) (m : Machine) :
    run phase theory m code.encode = exec phase theory m code := by
  induction code generalizing m with
  | nil => rw [run]; rfl
  | cons i code ih =>
    have hdecode := Instruction.decode_encode (h i (by simp)) (Code.encode code)
    have hne : i.encode ++ Code.encode code ≠ [] := by simp [encode_ne_nil]
    have hcode (m : Machine) := ih (fun j hj => h j (by simp [hj])) m
    rw [Code.encode, List.flatMap_cons, ← Code.encode, run, if_neg hne]
    split
    case h_1 hnone => cases hdecode.symm.trans hnone
    case h_2 hsome =>
      cases hdecode.symm.trans hsome
      simp only [hcode, exec, List.foldlM_cons]

end Machine
end MatchingLogic
