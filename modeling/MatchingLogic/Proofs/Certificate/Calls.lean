import MatchingLogic.Proofs.Certificate.Derivation
import MatchingLogic.Proofs.Certificate.Traversal

namespace MatchingLogic

open Piece Uses

-- A call on a piece, with the code that it gave.
structure Call where
  piece : Piece
  code : Code

namespace Call

variable {log : List Call} {c : Call} {x : Piece} {front : Code} {i : Instruction}

def loads (c : Call) : Bool :=
  match c.code with
  | [.load _] => true
  | _ => false

def saves (c : Call) : Bool :=
  c.code.getLast? = some .save

-- The last instruction tells what was done.
theorem loads_append (hi : ∀ slot, i ≠ .load slot) : loads ⟨x, front ++ [i]⟩ = false := by
  rw [loads]
  split
  case h_1 slot heq =>
    have happend : front ++ [i] = [] ++ [.load slot] := heq
    obtain ⟨-, hlast⟩ := List.append_inj' happend rfl
    exact absurd (List.cons.inj hlast).1 (hi slot)
  case h_2 => rfl

theorem saves_append : saves ⟨x, front ++ [i]⟩ = decide (i = .save) := by
  simp [saves]

-- All that has been written out so far.
def opened (log : List Call) : Finset Piece :=
  ((log.filter fun c => !c.loads).map (·.piece)).toFinset

theorem mem_opened : x ∈ opened log ↔ ∃ c ∈ log, c.loads = false ∧ c.piece = x := by
  simp [opened, and_assoc]

theorem opened_append_of_loads (hc : c.loads = true) : opened (log ++ [c]) = opened log := by
  simp [opened, hc]

theorem opened_append_of_not_loads (hc : c.loads = false) : opened (log ++ [c]) = insert c.piece (opened log) := by
  simp [opened, hc]

end Call

namespace Writer

-- The memory after an action, if it does not fail.
def after (w : Writer Code) (m : Memory) : Memory :=
  match w.run m with
  | .ok r => r.2
  | .error _ => m

-- The call of an action on a piece, and those within it if the piece is written out.
def log (w : Writer Code) (x : Piece) (inner : Memory → List Call) (m : Memory) : List Call :=
  match w.run m with
  | .ok r => ⟨x, r.1⟩ :: if Call.loads ⟨x, r.1⟩ then [] else inner m
  | .error _ => []

def logAll {α : Type} (write : α → Writer Code) (calls : α → Memory → List Call) : List α → Memory → List Call
  | [], _ => []
  | a :: as, m => calls a m ++ logAll write calls as ((write a).after m)

end Writer

def Unfolding.calls (uses : Uses) : Unfolding → Memory → List Call
  | app l r =>
    ((app l r).write uses).log (.pattern (app l r).folded) fun m =>
      l.calls uses m ++ r.calls uses ((l.write uses).after m)
  | imp a c =>
    ((imp a c).write uses).log (.pattern (imp a c).folded) fun m =>
      a.calls uses m ++ c.calls uses ((a.write uses).after m)
  | ex v b => ((ex v b).write uses).log (.pattern (ex v b).folded) (b.calls uses)
  | mu v b => ((mu v b).write uses).log (.pattern (mu v b).folded) (b.calls uses)
  | sugar name args body =>
    ((sugar name args body).write uses).log (.pattern (.sugar name args)) ((body ()).calls uses)
  | stuck name args reason =>
    ((stuck name args reason).write uses).log (.pattern (.sugar name args)) fun _ => []
  | _ => fun _ => []

def Derivation.calls (t : Theory) (uses : Uses) : Derivation → Memory → List Call
  | modusPonens left right =>
    ((modusPonens left right).write t uses).log (.proof (modusPonens left right)) fun m =>
      left.calls t uses m ++ right.calls t uses ((left.write t uses).after m)
  | instantiate inner plugs =>
    ((instantiate inner plugs).write t uses).log (.proof (instantiate inner plugs)) fun m =>
      inner.calls t uses m ++
        Writer.logAll (fun p => (t.notations.unfolding p).write uses) (fun p => (t.notations.unfolding p).calls uses)
          plugs.plugs ((inner.write t uses).after m)
  | _ => fun _ => []

namespace Certificate

-- The calls for `order`, a rearrangement of `ps`.
def patternCalls (ns : Notations) (ps order : List Pattern) : List Call :=
  match ns.countUses ps ∅ with
  | .ok uses => Writer.logAll (fun p => (ns.unfolding p).write uses) (fun p => (ns.unfolding p).calls uses) order ∅
  | .error _ => []

def proofCalls (t : Theory) (proofs : List Proof) : List Call :=
  let derivations := proofs.map (·.derivation)
  match t.notations.countProofUses derivations ∅ with
  | .ok uses => Writer.logAll (·.write t uses) (·.calls t uses) derivations ∅
  | .error _ => []

end Certificate

-- The slot from which a piece is loaded.
def Memory.slot? (m : Memory) : Piece → Option Nat
  | .pattern p => m.patterns.lookup p
  | .proof d => (m.proofs.lookup d).or (m.lemmas.lookup d.conclusion)

-- A derivation of a lemma is saved for its conclusion.
def Memory.save (lemmas : List Pattern) (m : Memory) : Piece → Memory
  | .pattern p => m.savePattern p
  | .proof d => if d.conclusion ∈ lemmas then m.saveLemma d.conclusion else m.saveProof d

-- Whether a piece is saved when it has been written out.
def Piece.keeps (lemmas : List Pattern) (uses : Uses) : Piece → Bool
  | .pattern p => p.sugar?.isSome || uses.repeats p
  | .proof d => d.conclusion ∈ lemmas || uses.repeatsProof d

theorem Piece.count_le_of_not_keeps {lemmas : List Pattern} {uses : Uses} {x : Piece}
    (h : x.keeps lemmas uses = false) : uses.notes.count x ≤ 1 := by
  cases x with
  | pattern p =>
    have hrepeats : uses.repeats p = false := (Bool.or_eq_false_iff.mp h).2
    rw [count_notes_pattern]
    simpa [repeats] using hrepeats
  | proof d =>
    have hrepeats : uses.repeatsProof d = false := (Bool.or_eq_false_iff.mp h).2
    rw [count_notes_proof]
    simpa [repeatsProof] using hrepeats

namespace Memory

variable {lemmas : List Pattern} {m : Memory} {x y : Piece} {p : Pattern} {d : Derivation}

theorem isSome_lookup_cons {α : Type} [BEq α] {table : List (α × Nat)} {a b : α} {slot : Nat}
    (h : (table.lookup b).isSome) : (((a, slot) :: table).lookup b).isSome := by
  rw [List.lookup_cons]
  cases b == a
  case true => rfl
  case false => exact h

theorem isSome_lemmas_save (h : (m.lemmas.lookup p).isSome) : ((m.save lemmas x).lemmas.lookup p).isSome := by
  cases x with
  | pattern q => exact h
  | proof d =>
    rw [save]
    split
    case isTrue => exact isSome_lookup_cons h
    case isFalse => exact h

-- What is saved stays so.
theorem isSome_slot?_save (h : (m.slot? y).isSome) : ((m.save lemmas x).slot? y).isSome := by
  cases y with
  | pattern p =>
    cases x with
    | pattern q => exact isSome_lookup_cons h
    | proof d =>
      rw [save]
      split <;> exact h
  | proof e =>
    rw [slot?, Option.isSome_or, Bool.or_eq_true] at h ⊢
    refine h.imp (fun h => ?_) isSome_lemmas_save
    cases x with
    | pattern q => exact h
    | proof d =>
      rw [save]
      split
      case isTrue => exact h
      case isFalse => exact isSome_lookup_cons h

theorem isSome_slot?_save_self (lemmas : List Pattern) (m : Memory) (x : Piece) :
    ((m.save lemmas x).slot? x).isSome := by
  cases x with
  | pattern p => simp [save, slot?, savePattern]
  | proof d =>
    simp only [save]
    split <;> simp [slot?, saveLemma, saveProof]

theorem isSome_lemmas_save_self (hd : d.conclusion ∈ lemmas) :
    ((m.save lemmas (.proof d)).lemmas.lookup d.conclusion).isSome := by
  simp [save, hd, saveLemma]

theorem slot?_of_save_pattern (h : ((m.save lemmas x).slot? (.pattern p)).isSome) :
    x = .pattern p ∨ (m.slot? (.pattern p)).isSome := by
  cases x with
  | pattern q =>
    by_cases hq : p = q
    · exact .inl (congrArg _ hq.symm)
    · rw [save, savePattern, slot?, List.lookup_cons, beq_eq_false_iff_ne.mpr hq] at h
      exact .inr h
  | proof d =>
    rw [save] at h
    split at h <;> exact .inr h

end Memory

namespace Writer

variable {t : Theory} {uses : Uses} {x : Piece} {w body : Writer Code} {inner : Memory → List Call}
  {m m' : Memory} {code : Code}

-- The code ends with an instruction that makes something of what is on the stack.
def Closes (w : Writer Code) : Prop :=
  ∀ ⦃m code m'⦄, w.run m = .ok (code, m') → ∃ front i, code = front ++ [i] ∧ i ≠ .save ∧ ∀ slot, i ≠ .load slot

-- An action on a composite piece, and the one by which the piece is written out.
structure Composes (t : Theory) (uses : Uses) (x : Piece) (w body : Writer Code) : Prop where
  composite : x.isLeaf = false
  shares : ∀ ⦃m code m'⦄, w.run m = .ok (code, m') →
    (∃ slot, m.slot? x = some slot ∧ code = [.load slot] ∧ m' = m) ∨
    m.slot? x = none ∧ ∃ code₁ m₁, body.run m = .ok (code₁, m₁) ∧
      code = code₁ ++ (if x.keeps t.lemmas uses then [.save] else []) ∧
      m' = if x.keeps t.lemmas uses then m₁.save t.lemmas x else m₁
  closes : x.keeps t.lemmas uses = true ∨ body.Closes

theorem after_eq (h : w.run m = .ok (code, m')) : w.after m = m' := by
  rw [after, h]

-- What one call does.
theorem Composes.cases (h : Composes t uses x w body) (inner : Memory → List Call)
    (hrun : w.run m = .ok (code, m')) :
    (∃ slot, m.slot? x = some slot ∧ code = [.load slot] ∧ m' = m ∧ w.log x inner m = [⟨x, [.load slot]⟩]) ∨
    m.slot? x = none ∧ ∃ code₁ m₁, body.run m = .ok (code₁, m₁) ∧
      code = code₁ ++ (if x.keeps t.lemmas uses then [.save] else []) ∧
      m' = (if x.keeps t.lemmas uses then m₁.save t.lemmas x else m₁) ∧
      w.log x inner m = ⟨x, code⟩ :: inner m ∧
      Call.loads ⟨x, code⟩ = false ∧ Call.saves ⟨x, code⟩ = x.keeps t.lemmas uses := by
  have hlog : w.log x inner m = ⟨x, code⟩ :: if Call.loads ⟨x, code⟩ then [] else inner m := by rw [log, hrun]
  obtain ⟨slot, hslot, rfl, rfl⟩ | ⟨hnone, code₁, m₁, hbody, rfl, rfl⟩ := h.shares hrun
  · exact .inl ⟨slot, hslot, rfl, rfl, hlog⟩
  · refine .inr ⟨hnone, code₁, m₁, hbody, rfl, rfl, ?_⟩
    obtain ⟨front, i, hcode, hload, hsave⟩ : ∃ (front : Code) (i : Instruction),
        code₁ ++ (if x.keeps t.lemmas uses then [.save] else []) = front ++ [i] ∧ (∀ slot, i ≠ .load slot) ∧
          decide (i = .save) = x.keeps t.lemmas uses := by
      cases hkeeps : x.keeps t.lemmas uses
      case true => exact ⟨code₁, .save, rfl, by simp, rfl⟩
      case false =>
        obtain ⟨front, i, rfl, hsave, hload⟩ := h.closes.resolve_left (by simp [hkeeps]) hbody
        exact ⟨front, i, by simp, hload, by simpa using hsave⟩
    have hloads : Call.loads ⟨x, front ++ [i]⟩ = false := Call.loads_append hload
    rw [hcode] at hlog ⊢
    rw [hloads] at hlog
    exact ⟨hlog, hloads, Call.saves_append.trans hsave⟩

theorem composes_pattern {p : Pattern} {keep : Bool} (hp : p.isLeaf = false)
    (hkeep : keep = (p.sugar?.isSome || uses.repeats p)) (hcloses : keep = true ∨ body.Closes) :
    Composes t uses (.pattern p) (shared p keep body) body where
  composite := hp
  shares m code m' h := by
    rw [Piece.keeps, ← hkeep]
    exact shared_eq_ok h
  closes := by rwa [Piece.keeps, ← hkeep]

theorem composes_proof {d : Derivation} (hd : d.premises.isEmpty = false) (hcloses : body.Closes) :
    Composes t uses (.proof d) (Derivation.shared t uses d body) body where
  composite := hd
  shares m code m' h := by
    obtain hload | ⟨hnone, code₁, m₁, hbody, hcode, hm'⟩ := Derivation.shared_eq_ok h
    · exact .inl hload
    · refine .inr ⟨hnone, code₁, m₁, hbody, ?_, ?_⟩
      · simpa [Piece.keeps] using hcode
      · by_cases hlemma : d.conclusion ∈ t.lemmas <;> simpa [Piece.keeps, Memory.save, hlemma] using hm'
  closes := .inr hcloses

-- A call saves its piece or nothing, so that there are as many instructions `save` as calls that save.
theorem Composes.count_save (h : Composes t uses x w body) (hrun : w.run m = .ok (code, m'))
    (hinner : ∀ ⦃code₁ m₁⦄, body.run m = .ok (code₁, m₁) → code₁.count .save = (inner m).countP (·.saves)) :
    code.count .save = (w.log x inner m).countP (·.saves) := by
  obtain ⟨slot, -, rfl, -, hlog⟩ | ⟨-, code₁, m₁, hbody, hcode, -, hlog, -, hsaves⟩ := h.cases inner hrun
  · rw [hlog]
    rfl
  · rw [hlog, List.countP_cons, hsaves, ← hinner hbody, hcode, List.count_append]
    cases x.keeps t.lemmas uses <;> rfl

theorem count_save_mapM {α : Type} {write : α → Writer Code} {calls : α → Memory → List Call} {as : List α}
    (has : ∀ a ∈ as, ∀ ⦃m code m'⦄, (write a).run m = .ok (code, m') →
      code.count .save = (calls a m).countP (·.saves)) {codes : List Code}
    (hrun : (as.mapM write).run m = .ok (codes, m')) :
    codes.flatten.count .save = (logAll write calls as m).countP (·.saves) := by
  induction as generalizing m codes with
  | nil =>
    cases mapM_nil_eq_ok.mp hrun
    rfl
  | cons a as ih =>
    obtain ⟨code, m₁, codes, m₂, hcode, hcodes, heq⟩ := mapM_cons_eq_ok.mp hrun
    cases heq
    rw [List.flatten_cons, List.count_append, has a (by simp) hcode, ih (fun b hb => has b (by simp [hb])) hcodes,
      logAll, after_eq hcode, List.countP_append]

-- What holds of the memory at each action of several.
theorem mapM_forall {α : Type} {write : α → Writer Code} {P : α → Prop} {Inv : Memory → Prop} {as : List α}
    (has : ∀ a ∈ as, ∀ ⦃m code m'⦄, Inv m → (write a).run m = .ok (code, m') → P a ∧ Inv m') {codes : List Code}
    (hm : Inv m) (hrun : (as.mapM write).run m = .ok (codes, m')) : (∀ a ∈ as, P a) ∧ Inv m' := by
  induction as generalizing m codes with
  | nil =>
    cases mapM_nil_eq_ok.mp hrun
    exact ⟨by simp, hm⟩
  | cons a as ih =>
    obtain ⟨code, m₁, codes, m₂, hcode, hcodes, heq⟩ := mapM_cons_eq_ok.mp hrun
    cases heq
    obtain ⟨ha, hm₁⟩ := has a (by simp) hm hcode
    obtain ⟨has, hm'⟩ := ih (fun b hb => has b (by simp [hb])) hm₁ hcodes
    exact ⟨List.forall_mem_cons.mpr ⟨ha, has⟩, hm'⟩

theorem closes_bind {α : Type} {w : Writer α} {f : α → Writer Code} (hf : ∀ a, (f a).Closes) : (w >>= f).Closes := by
  intro m code m' h
  obtain ⟨a, m₁, -, h⟩ := bind_eq_ok.mp h
  exact hf a h

theorem closes_pure {front : Code} {i : Instruction} (hsave : i ≠ .save) (hload : ∀ slot, i ≠ .load slot) :
    Closes (pure (front ++ [i])) := by
  intro m code m' h
  cases pure_eq_ok.mp h
  exact ⟨front, i, rfl, hsave, hload⟩

end Writer

namespace Unfolding

open Writer

variable {t : Theory} {uses : Uses} {u : Unfolding}

-- The immediate parts, of a notation what it unfolds to.
def parts : Unfolding → List Unfolding
  | app l r => [l, r]
  | imp a c => [a, c]
  | ex _ b => [b]
  | mu _ b => [b]
  | sugar _ _ body => [body ()]
  | _ => []

theorem part_induction {motive : Unfolding → Prop} (h : ∀ u : Unfolding, (∀ v ∈ u.parts, motive v) → motive u)
    (u : Unfolding) : motive u := by
  induction u with
  | app l r ihl ihr | imp l r ihl ihr => exact h _ (by simp [parts, ihl, ihr])
  | ex v b ih | mu v b ih => exact h _ (by simp [parts, ih])
  | sugar name args body ih => exact h _ (by simp [parts, ih])
  | _ => exact h _ (by simp [parts])

theorem calls_leaf (hu : u.folded.isLeaf = true) : u.calls uses = fun _ => [] := by
  cases u <;> first | rfl | cases hu

theorem write_leaf (hu : u.folded.isLeaf = true) : ∃ i : Instruction, u.write uses = pure [i] ∧ i ≠ .save := by
  cases u <;> first | exact ⟨_, rfl, by simp⟩ | cases hu

theorem calls_composite (hu : u.folded.isLeaf = false) :
    u.calls uses = (u.write uses).log (.pattern u.folded) (logAll (write uses) (calls uses) u.parts) := by
  cases u with
  | symbol | elementVar | setVar | metavar => cases hu
  | _ => simp [calls, parts, logAll, folded]

-- The action on one node, of whatever kind: it writes out the parts in turn.
theorem composes (hu : u.folded.isLeaf = false) (hfaithful : u.Faithful t.notations) :
    ∃ body, Composes t uses (.pattern u.folded) (u.write uses) body ∧ ∀ ⦃m code m'⦄, body.run m = .ok (code, m') →
      (Piece.pattern u.folded).parts t.notations = u.parts.map (fun v => .pattern v.folded) ∧
      (∀ v ∈ u.parts, v.Faithful t.notations) ∧
      ∃ (codes : List Code) (rest : Code), (u.parts.mapM (write uses)).run m = .ok (codes, m') ∧
        code = codes.flatten ++ rest ∧ rest.count .save = 0 := by
  cases u with
  | symbol | elementVar | setVar | metavar => cases hu
  | app l r | imp l r =>
    refine ⟨_, composes_pattern rfl rfl (.inr (closes_bind fun _ => closes_bind fun _ => closes_pure ?_ ?_)), ?_⟩
    · simp
    · simp
    · intro m code m' h
      obtain ⟨code₁, m₁, hl, h⟩ := Writer.bind_eq_ok.mp h
      obtain ⟨code₂, m₂, hr, h⟩ := Writer.bind_eq_ok.mp h
      cases pure_eq_ok.mp h
      refine ⟨rfl, by simpa [parts] using ⟨hfaithful.1, hfaithful.2⟩, [code₁, code₂], _, ?_,
        by rw [List.flatten_cons, List.flatten_singleton], by simp⟩
      have hright := mapM_cons_eq_ok.mpr ⟨_, _, _, _, hr, mapM_nil_eq_ok.mpr rfl, rfl⟩
      exact mapM_cons_eq_ok.mpr ⟨_, _, _, _, hl, hright, rfl⟩
  | ex v b | mu v b =>
    refine ⟨_, composes_pattern rfl rfl (.inr (closes_bind fun _ => closes_pure ?_ ?_)), ?_⟩
    · simp
    · simp
    · intro m code m' h
      obtain ⟨code₁, m₁, hb, h⟩ := Writer.bind_eq_ok.mp h
      cases pure_eq_ok.mp h
      refine ⟨rfl, List.forall_mem_singleton.mpr hfaithful, [code₁], _, ?_, by rw [List.flatten_singleton], by simp⟩
      exact mapM_cons_eq_ok.mpr ⟨_, _, _, _, hb, mapM_nil_eq_ok.mpr rfl, rfl⟩
  | sugar name args body =>
    refine ⟨_, composes_pattern rfl rfl (.inl rfl), fun m code m' h => ?_⟩
    refine ⟨?_, List.forall_mem_singleton.mpr hfaithful.2, [code], [], ?_, by simp, rfl⟩
    · rw [folded, Piece.parts, Notations.parts?_sugar.mpr ⟨_, hfaithful.1, rfl⟩]
      rfl
    · exact mapM_cons_eq_ok.mpr ⟨_, _, _, _, h, mapM_nil_eq_ok.mpr rfl, rfl⟩
  | stuck name args reason => exact ⟨_, composes_pattern rfl rfl (.inl rfl), fun m code m' h => by cases h⟩

theorem count_save_write (hu : u.Faithful t.notations) {m m' : Memory} {code : Code}
    (hrun : (u.write uses).run m = .ok (code, m')) : code.count .save = (u.calls uses m).countP (·.saves) := by
  induction u using part_induction generalizing m code m' with
  | h u ih =>
    cases hleaf : u.folded.isLeaf with
    | true =>
      obtain ⟨i, hwrite, hi⟩ := write_leaf hleaf
      rw [hwrite] at hrun
      cases pure_eq_ok.mp hrun
      rw [calls_leaf hleaf, List.count_singleton, if_neg (by simpa using hi)]
      rfl
    | false =>
      obtain ⟨body, hcomposes, hbody⟩ := composes hleaf hu
      rw [calls_composite hleaf]
      refine hcomposes.count_save hrun fun code₁ m₁ hbodyrun => ?_
      obtain ⟨-, hfaithful, codes, rest, hcodes, rfl, hrest⟩ := hbody hbodyrun
      rw [List.count_append, hrest, Nat.add_zero]
      exact count_save_mapM (fun v hv _ _ _ => ih v hv (hfaithful v hv)) hcodes

end Unfolding

namespace Certificate

open Writer

variable {α : Type} {write : α → Writer Code} {terms : List α}

theorem mapM_publish_eq_ok {m m' : Memory} {codes : List Code}
    (h : (terms.mapM (publish write)).run m = .ok (codes, m')) :
    ∃ codes', (terms.mapM write).run m = .ok (codes', m') ∧ codes = codes'.map (· ++ [.publish]) := by
  induction terms generalizing m codes with
  | nil =>
    cases mapM_nil_eq_ok.mp h
    exact ⟨[], mapM_nil_eq_ok.mpr rfl, rfl⟩
  | cons a terms ih =>
    obtain ⟨code, m₁, codes, m₂, hcode, hcodes, heq⟩ := mapM_cons_eq_ok.mp h
    cases heq
    obtain ⟨code, m₁, hcode, hpublish⟩ := Writer.bind_eq_ok.mp hcode
    cases pure_eq_ok.mp hpublish
    obtain ⟨codes', hcodes', rfl⟩ := ih hcodes
    exact ⟨code :: codes', mapM_cons_eq_ok.mpr ⟨_, _, _, _, hcode, hcodes', rfl⟩, rfl⟩

-- A stream has the codes of its terms, with `publish` behind each.
theorem publishAll_eq_ok {code : Code} (h : publishAll write terms = .ok code) :
    ∃ codes m, (terms.mapM write).run ∅ = .ok (codes, m) ∧ code.count .save = codes.flatten.count .save := by
  obtain ⟨codes, hcodes, h⟩ := MatchingLogic.bind_eq_ok.mp h
  cases h
  rw [StateT.run'_eq] at hcodes
  obtain ⟨r, hrun, rfl⟩ := map_eq_ok.mp hcodes
  obtain ⟨codes, hrun, hcodes⟩ := mapM_publish_eq_ok hrun
  refine ⟨codes, r.2, hrun, ?_⟩
  rw [hcodes, List.count_flatten, List.count_flatten, List.map_map]
  simp [Function.comp_def]

end Certificate
end MatchingLogic
