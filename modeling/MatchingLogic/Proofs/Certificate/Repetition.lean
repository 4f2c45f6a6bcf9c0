import MatchingLogic.Proofs.Certificate.Sharing

namespace MatchingLogic

open Call Piece Relation Uses

-- Each root has a call of its own, and so has each part of what is written out. After the first call on a piece, there
-- are only loads.
structure WrittenOnce (ns : Notations) (roots : List Piece) (calls : List Call) : Prop where
  complete : Balanced ns roots (calls.map (·.piece)) (opened calls) []
  apart : Apart calls

namespace Certificate

variable {t : Theory}

-- The calls of a stream, if each of its terms keeps to what was counted.
theorem sharing_publishAll {α : Type} {write : α → Writer Code} {calls : α → Memory → List Call} {piece : α → Piece}
    {uses : Uses} {roots : List Piece} {terms : List α} {code : Code} (htallies : Tallies t.notations roots uses [])
    (horder : (terms.map piece).Perm roots) (h : publishAll write terms = .ok code)
    (hterms : ∀ a ∈ terms, ∀ {log pending m code m'}, (write a).run m = .ok (code, m') →
      Sharing t uses roots [] log (piece a :: pending) m → Sharing t uses roots [] (log ++ calls a m) pending m') :
    ∃ m, Sharing t uses roots [] (Writer.logAll write calls terms ∅) [] m := by
  obtain ⟨codes, m, hrun, -⟩ := publishAll_eq_ok h
  have hstart : Sharing t uses roots [] [] (terms.map piece ++ []) ∅ := by
    rw [List.append_nil]
    exact .start htallies horder
  exact ⟨m, hstart.all hterms hrun⟩

theorem sharing_patternCalls {ps order : List Pattern} {code : Code} (horder : order.Perm ps)
    (h : patternCode t.notations ps order = .ok code) :
    ∃ uses m, Tallies t.notations (ps.map .pattern) uses [] ∧
      Sharing t uses (ps.map .pattern) [] (patternCalls t.notations ps order) [] m ∧
      code.count .save = (patternCalls t.notations ps order).countP (·.saves) := by
  obtain ⟨uses, huses, h⟩ := bind_eq_ok.mp h
  rw [mapError_eq_ok] at huses
  have htallies : Tallies t.notations (ps.map .pattern) uses [] :=
    Notations.tallies_countUses huses (by simpa using Tallies.start ..)
  have hcalls : patternCalls t.notations ps order = Writer.logAll (fun p => (t.notations.unfolding p).write uses)
      (fun p => (t.notations.unfolding p).calls uses) order ∅ := by
    rw [patternCalls, huses]
  rw [hcalls]
  obtain ⟨m, hsharing⟩ := sharing_publishAll htallies (horder.map _) h
    fun p _ _ _ _ _ _ hrun hsharing => Notations.sharing_calls htallies p (by simp) hrun hsharing
  refine ⟨uses, m, htallies, hsharing, ?_⟩
  obtain ⟨codes, m', hrun, hcount⟩ := publishAll_eq_ok h
  rw [hcount]
  refine Writer.count_save_mapM (fun p _ _ _ _ hrun => ?_) hrun
  exact Unfolding.count_save_write (t.notations.faithful_unfolding p) hrun

theorem sharing_proofCalls {proofs : List Proof} {code : Code} (h : proofCode t proofs = .ok code) :
    ∃ uses m, Sharing t uses (proofs.map (.proof ·.derivation)) [] (proofCalls t proofs) [] m := by
  obtain ⟨uses, huses, h⟩ := bind_eq_ok.mp h
  rw [mapError_eq_ok] at huses
  have htallies : Tallies t.notations ((proofs.map (·.derivation)).map .proof) uses [] :=
    Notations.tallies_countProofUses huses (by simpa using Tallies.start ..)
  have hcalls : proofCalls t proofs =
      Writer.logAll (·.write t uses) (·.calls t uses) (proofs.map (·.derivation)) ∅ := by
    simp only [proofCalls, huses]
  obtain ⟨m, hsharing⟩ := sharing_publishAll htallies (.refl _) h
    fun d _ _ _ _ _ _ hrun hsharing => Derivation.sharing_calls htallies (by simp) hrun hsharing
  rw [hcalls]
  rw [List.map_map] at hsharing
  exact ⟨uses, m, hsharing⟩

-- What is saved: each notation that is reached, and what else is reached in two places. A place is one of the patterns
-- themselves, or a part of something that is reached, however often that is reached itself.
def SavesExactly (ns : Notations) (ps : List Pattern) (code : Code) (calls : List Call) : Prop :=
  ∃ reached : Finset Pattern, (∀ q, q ∈ reached ↔ q.isLeaf = false ∧ ∃ p ∈ ps, ns.Meets p q) ∧
    let saved := (calls.filter (·.saves)).map (·.piece)
    saved.Nodup ∧ code.count .save = saved.length ∧
    ∀ x, x ∈ saved ↔ ∃ q ∈ reached, x = .pattern q ∧
      (q.sugar?.isSome ∨ 2 ≤ ps.count q + ∑ p ∈ reached, ((ns.parts? p).getD []).count q)

section Patterns

variable {ns : Notations} {ps : List Pattern} {uses : Uses} (htallies : Tallies ns (ps.map .pattern) uses [])
include htallies

theorem notes_eq : uses.notes = uses.patterns.map .pattern := by
  have hproofs : uses.proofs = [] := by
    refine List.eq_nil_iff_forall_not_mem.mpr fun d hd => ?_
    obtain ⟨y, hy, hreach⟩ := htallies.reached (.proof d) (by simp [notes, hd])
    obtain ⟨p, -, rfl⟩ := List.mem_map.mp hy
    obtain ⟨q, hq⟩ := reaches_pattern hreach
    cases hq
  simp [notes, hproofs]

theorem mem_patterns_iff (q : Pattern) : q ∈ uses.patterns ↔ q.isLeaf = false ∧ ∃ p ∈ ps, ns.Meets p q := by
  have hmem : .pattern q ∈ uses.notes ↔ q ∈ uses.patterns := by simp [notes]
  rw [← hmem]
  constructor
  case mp =>
    intro hq
    obtain ⟨y, hy, hreach⟩ := htallies.reached (.pattern q) (by simpa using hq)
    obtain ⟨p, hp, rfl⟩ := List.mem_map.mp hy
    exact ⟨htallies.composite _ hq, p, hp, meets_iff.mpr hreach⟩
  case mpr =>
    rintro ⟨hleaf, p, hp, hmeets⟩
    have hcomposite : (Piece.pattern q).isLeaf = false := hleaf
    exact List.mem_toFinset.mp (htallies.balanced.mem_opened hcomposite (List.mem_map_of_mem hp)
      (fun z hz _ _ => List.mem_toFinset.mpr hz) (meets_iff.mp hmeets))

theorem count_patterns {q : Pattern} (hq : q.isLeaf = false) : uses.patterns.count q =
    ps.count q + ∑ p ∈ uses.patterns.toFinset, ((ns.parts? p).getD []).count q := by
  have hinjective : Function.Injective Piece.pattern := fun _ _ h => pattern.inj h
  have hset : uses.notes.toFinset = uses.patterns.toFinset.image .pattern := by
    ext x
    simp [notes_eq htallies]
  have hcount := htallies.balanced (.pattern q) hq
  rw [hset, Finset.sum_image hinjective.injOn, count_notes_pattern, List.count_nil,
    List.count_map_of_injective _ _ hinjective] at hcount
  simpa [parts, List.count_map_of_injective _ _ hinjective] using hcount

-- A pattern is kept if it is reached in two places.
theorem keeps_iff {lemmas : List Pattern} {q : Pattern} (hq : q ∈ uses.patterns) :
    (Piece.pattern q).keeps lemmas uses = true ↔ q.sugar?.isSome ∨
      2 ≤ ps.count q + ∑ p ∈ uses.patterns.toFinset, ((ns.parts? p).getD []).count q := by
  obtain ⟨hleaf, -⟩ := (mem_patterns_iff htallies q).mp hq
  rw [← count_patterns htallies hleaf, Piece.keeps, Bool.or_eq_true, repeats, decide_eq_true_iff]
  rfl

end Patterns

-- All that was counted is written out.
theorem mem_opened_iff {ps : List Pattern} {uses : Uses} {log : List Call} {m : Memory} {x : Piece}
    (htallies : Tallies t.notations (ps.map .pattern) uses [])
    (hsharing : Sharing t uses (ps.map .pattern) [] log [] m) :
    x ∈ opened log ↔ ∃ q ∈ uses.patterns, x = .pattern q := by
  constructor
  case mp =>
    intro hx
    have hnoted := hsharing.noted x hx
    rw [notes_eq htallies] at hnoted
    obtain ⟨q, hq, rfl⟩ := List.mem_map.mp hnoted
    exact ⟨q, hq, rfl⟩
  case mpr =>
    rintro ⟨q, hq, rfl⟩
    obtain ⟨hleaf, p, hp, hmeets⟩ := (mem_patterns_iff htallies q).mp hq
    have hcomposite : (Piece.pattern q).isLeaf = false := hleaf
    refine hsharing.balanced.mem_opened hcomposite (List.mem_map_of_mem hp) (fun z hz _ hreach => ?_)
      (meets_iff.mp hmeets)
    obtain ⟨r, rfl⟩ := reaches_pattern hreach
    exact hsharing.known r (.inl hz)

theorem savesExactly_patternCalls {ps order : List Pattern} {code : Code} (horder : order.Perm ps)
    (h : patternCode t.notations ps order = .ok code) :
    WrittenOnce t.notations (ps.map .pattern) (patternCalls t.notations ps order) ∧
    SavesExactly t.notations ps code (patternCalls t.notations ps order) := by
  obtain ⟨uses, m, htallies, hsharing, hcount⟩ := sharing_patternCalls horder h
  refine ⟨⟨hsharing.balanced, hsharing.apart⟩, uses.patterns.toFinset, fun q => ?_, hsharing.nodup_saved, ?_,
    fun x => ?_⟩
  · rw [List.mem_toFinset, mem_patterns_iff htallies]
  · rw [hcount, List.countP_eq_length_filter, List.length_map]
  · rw [hsharing.mem_saved_iff, mem_opened_iff htallies hsharing]
    constructor
    case mp =>
      rintro ⟨⟨q, hq, rfl⟩, hkeeps⟩
      exact ⟨q, List.mem_toFinset.mpr hq, rfl, (keeps_iff htallies hq).mp hkeeps⟩
    case mpr =>
      rintro ⟨q, hq, rfl, hoften⟩
      rw [List.mem_toFinset] at hq
      exact ⟨⟨q, hq, rfl⟩, (keeps_iff htallies hq).mpr hoften⟩

-- No composite pattern and no composite derivation is written out twice in a stream; a second call on it is a single
-- `load`. Of the derivations of a lemma, only such as are parts of one another are written out. In the streams of
-- patterns, nothing is saved but what has to be, and this once.
theorem written_once {claims : List Pattern} {proofs : List Proof} {c : Certificate}
    (h : write t claims proofs = .ok c) :
    ∃ theory statements derivations : Code,
      patternCode t.notations t.axioms t.axioms = .ok theory ∧
      patternCode t.notations claims claims.reverse = .ok statements ∧ proofCode t proofs = .ok derivations ∧
      c = ⟨theory.encode, statements.encode, derivations.encode⟩ ∧
      WrittenOnce t.notations (t.axioms.map .pattern) (patternCalls t.notations t.axioms t.axioms) ∧
      SavesExactly t.notations t.axioms theory (patternCalls t.notations t.axioms t.axioms) ∧
      WrittenOnce t.notations (claims.map .pattern) (patternCalls t.notations claims claims.reverse) ∧
      SavesExactly t.notations claims statements (patternCalls t.notations claims claims.reverse) ∧
      WrittenOnce t.notations (proofs.map (.proof ·.derivation)) (proofCalls t proofs) ∧
      LemmasNested t.lemmas (proofCalls t proofs) := by
  obtain ⟨_, -, h⟩ := bind_eq_ok.mp h
  obtain ⟨theory, htheory, h⟩ := bind_eq_ok.mp h
  obtain ⟨statements, hstatements, h⟩ := bind_eq_ok.mp h
  obtain ⟨derivations, hderivations, h⟩ := bind_eq_ok.mp h
  cases h
  obtain ⟨hfirst, hsaves⟩ := savesExactly_patternCalls (.refl _) htheory
  obtain ⟨hfirst', hsaves'⟩ := savesExactly_patternCalls (List.reverse_perm claims) hstatements
  obtain ⟨uses, m, hsharing⟩ := sharing_proofCalls hderivations
  exact ⟨theory, statements, derivations, htheory, hstatements, hderivations, rfl, hfirst, hsaves, hfirst', hsaves',
    ⟨hsharing.balanced, hsharing.apart⟩, hsharing.nested⟩

namespace Nested

def a : Pattern := .symbol "a"

-- From `a` and `a → a` to `a`, and once more.
def once : Derivation :=
  .modusPonens (.assumed a) (.assumed (.imp a a))

def twice : Derivation :=
  .modusPonens once (.assumed (.imp a a))

def derived : Proof :=
  ⟨twice, ⟨trivial, trivial, a, rfl⟩, trivial, a, rfl⟩

-- The application occurs below the implication and below the notation.
def repeating : Pattern :=
  .imp (.app a a) (.neg (.app a a))

end Nested

open Nested in
theorem written_once_nested :
    let t : Theory := ⟨.builtin, [a, .imp a a, repeating], [a]⟩
    (∃ c, write t [a] [derived] = .ok c) ∧
    WrittenOnce .builtin (t.axioms.map .pattern) (patternCalls .builtin t.axioms t.axioms) ∧
    (∃ theory, patternCode .builtin t.axioms t.axioms = .ok theory ∧
      SavesExactly .builtin t.axioms theory (patternCalls .builtin t.axioms t.axioms)) ∧
    ((patternCalls .builtin t.axioms t.axioms).filter (·.saves)).map (·.piece) =
      [.pattern (.app a a), .pattern (.neg (.app a a)), .pattern .bot] ∧
    WrittenOnce .builtin [.proof twice] (proofCalls t [derived]) ∧ LemmasNested [a] (proofCalls t [derived]) := by
  intro t
  have haccepted : ∃ c, write t [a] [derived] = .ok c := isOk_iff.mp (by decide +kernel)
  obtain ⟨c, hc⟩ := haccepted
  obtain ⟨theory, _, _, hcode, -, -, -, htheory, hsaves, -, -, hproofs, hnested⟩ := written_once hc
  exact ⟨⟨c, hc⟩, htheory, ⟨theory, hcode, hsaves⟩, by decide +kernel, hproofs, hnested⟩

-- Two derivations of one lemma are written out, one in the other.
open Nested in
theorem lemma_written_twice :
    let t : Theory := ⟨.builtin, [a, .imp a a], [a]⟩
    (∃ c, write t [a] [derived] = .ok c) ∧ twice.conclusion = a ∧ once.conclusion = a ∧ twice ≠ once ∧
    ((proofCalls t [derived]).filter (!·.loads)).map (·.piece) = [.proof twice, .proof once] := by
  intro t
  exact ⟨isOk_iff.mp (by decide +kernel), rfl, rfl, by decide +kernel, by decide +kernel⟩

end Certificate
end MatchingLogic
