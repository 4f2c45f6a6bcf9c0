import Mathlib.Data.List.Basic
import MatchingLogic.Kore.Syntax
import MatchingLogic.Regex

namespace MatchingLogic

namespace Regex

variable {r : Regex} {s t : Cursor} {cs : List Char}

theorem mem_take {accept : Char → Bool} : t ∈ s.take accept ↔
    ∃ c rest, s.rest = c :: rest ∧ accept c ∧ t = { s with atStart := false, rest } := by
  rw [Cursor.take]
  split
  case h_1 h => simp [h]
  case h_2 c rest h =>
    rw [h]
    split
    case isTrue hc => simp [hc]
    case isFalse hc => simp [hc]

theorem mem_run_any : t ∈ any.run s ↔
    ∃ c rest, s.rest = c :: rest ∧ '\n' ≠ c ∧ t = { s with atStart := false, rest } := by
  simp only [run, mem_take, bne_iff_ne, ne_comm]

def literal (cs : List Char) (r : Regex) : Regex :=
  cs.foldr (fun c r => seq (char c) r) r

theorem mem_run_literal : t ∈ (literal cs r).run s ↔
    ∃ rest, s.rest = cs ++ rest ∧ t ∈ r.run { s with atStart := s.atStart && cs.isEmpty, rest } := by
  induction cs generalizing s with
  | nil => simp [literal]
  | cons c cs ih =>
    have hrun : (literal (c :: cs) r).run s = (s.take (· == c)).flatMap (literal cs r).run := rfl
    rw [hrun, List.mem_flatMap]
    simp only [mem_take, ih]
    constructor
    · rintro ⟨u, ⟨d, rest, hs, hd, rfl⟩, rest', hrest, ht⟩
      obtain rfl := eq_of_beq hd
      obtain rfl : rest = cs ++ rest' := hrest
      exact ⟨rest', hs, by simpa using ht⟩
    · rintro ⟨rest, hs, ht⟩
      exact ⟨_, ⟨c, cs ++ rest, hs, by simp, rfl⟩, rest, rfl, by simpa using ht⟩

-- Characters but no line breaks, as many as one likes.
theorem mem_iterate_any {fuel : Nat} (hs : s.atStart = false) (hfuel : s.rest.length ≤ fuel) :
    t ∈ iterate any.run fuel s ↔ ∃ cs rest, s.rest = cs ++ rest ∧ '\n' ∉ cs ∧ t = { s with rest } := by
  induction fuel generalizing s with
  | zero =>
    have hrest : s.rest = [] := List.length_eq_zero_iff.mp (by omega)
    rw [iterate, List.mem_singleton]
    constructor
    · rintro rfl
      exact ⟨[], t.rest, rfl, by simp, rfl⟩
    · rintro ⟨cs, rest, hsplit, -, rfl⟩
      rw [hrest] at hsplit
      rw [(List.append_eq_nil_iff.mp hsplit.symm).2, ← hrest]
  | succ fuel ih =>
    simp only [iterate, List.mem_append, List.mem_flatMap, List.mem_filter, List.mem_singleton, mem_run_any]
    constructor
    · rintro (⟨u, ⟨⟨c, rest, hrest, hc, rfl⟩, -⟩, ht⟩ | rfl)
      · have hfuel : rest.length ≤ fuel := by simpa [hrest] using hfuel
        obtain ⟨cs, rest', hsplit, hcs, rfl⟩ := (ih rfl hfuel).mp ht
        obtain rfl : rest = cs ++ rest' := hsplit
        exact ⟨c :: cs, rest', hrest, by simp [hc, hcs], by simp [hs]⟩
      · exact ⟨[], t.rest, rfl, by simp, rfl⟩
    · rintro ⟨cs, rest, hsplit, hcs, rfl⟩
      cases cs with
      | nil =>
        obtain rfl : s.rest = rest := hsplit
        exact .inr rfl
      | cons c cs =>
        obtain ⟨hc, hcs⟩ := not_or.mp (List.mem_cons.not.mp hcs)
        refine .inl ⟨_, ⟨⟨c, cs ++ rest, hsplit, hc, rfl⟩, by simp [hsplit]⟩, ?_⟩
        have hfuel : (cs ++ rest).length ≤ fuel := by simpa [hsplit] using hfuel
        exact (ih rfl hfuel).mpr ⟨cs, rest, rfl, hcs, by simp [hs]⟩

-- The expression `(.+)`.
def name : Regex :=
  group 1 (seq (seq any (star any)) empty)

theorem mem_run_name : t ∈ name.run s ↔ ∃ cs rest, s.rest = cs ++ rest ∧ cs ≠ [] ∧ '\n' ∉ cs ∧
    t = { atStart := false, rest, captured := some cs } := by
  have hsome (u : Cursor) : u ∈ (seq (seq any (star any)) empty).run s ↔
      ∃ cs rest, s.rest = cs ++ rest ∧ cs ≠ [] ∧ '\n' ∉ cs ∧ u = { s with atStart := false, rest } := by
    have hrun : (seq (seq any (star any)) empty).run s =
        (any.run s).flatMap fun v => iterate any.run v.rest.length v := List.flatMap_singleton' _
    simp only [hrun, List.mem_flatMap, mem_run_any]
    constructor
    · rintro ⟨_, ⟨c, rest, hs, hc, rfl⟩, hu⟩
      obtain ⟨cs, rest', hrest, hcs, rfl⟩ := (mem_iterate_any rfl (Nat.le_refl _)).mp hu
      obtain rfl : rest = cs ++ rest' := hrest
      exact ⟨c :: cs, rest', hs, by simp, by simp [hc, hcs], rfl⟩
    · rintro ⟨cs, rest, hs, hne, hcs, rfl⟩
      obtain ⟨c, cs, rfl⟩ := List.exists_cons_of_ne_nil hne
      obtain ⟨hc, hcs⟩ := not_or.mp (List.mem_cons.not.mp hcs)
      exact ⟨_, ⟨c, cs ++ rest, hs, hc, rfl⟩, (mem_iterate_any rfl (Nat.le_refl _)).mpr ⟨cs, rest, rfl, hcs, rfl⟩⟩
  rw [name, run, List.mem_map]
  simp only [hsome, if_true]
  constructor
  · rintro ⟨_, ⟨cs, rest, hs, hne, hcs, rfl⟩, rfl⟩
    exact ⟨cs, rest, hs, hne, hcs, by simp [hs]⟩
  · rintro ⟨cs, rest, hs, hne, hcs, rfl⟩
    exact ⟨_, ⟨cs, rest, hs, hne, hcs, rfl⟩, by simp [hs]⟩

-- The expression `^before(.+)after$`.
def delimited (before after : String) : Regex :=
  seq start (literal before.toList (seq name (literal after.toList (seq finish empty))))

variable {before after : String} {text : List Char}

theorem mem_run_delimited : t ∈ (delimited before after).run s ↔ s.atStart ∧
    ∃ cs, cs ≠ [] ∧ '\n' ∉ cs ∧ s.rest = before.toList ++ cs ++ after.toList ∧
      t = { atStart := false, rest := [], captured := some cs } := by
  have hfinish (u : Cursor) : t ∈ (seq finish empty).run u ↔ u.rest = [] ∧ t = u := by
    simp only [run]
    split <;> simp_all
  cases hs : s.atStart with
  | false => simp [delimited, run, hs]
  | true =>
    have hrun : (delimited before after).run s =
        (literal before.toList (seq name (literal after.toList (seq finish empty)))).run s := by
      simp [delimited, run, hs]
    rw [hrun, mem_run_literal, eq_self, true_and]
    constructor
    · rintro ⟨rest, hrest, ht⟩
      obtain ⟨u, hu, ht⟩ := List.mem_flatMap.mp ht
      obtain ⟨cs, rest', hname, hne, hcs, rfl⟩ := mem_run_name.mp hu
      obtain ⟨rest'', hafter, ht⟩ := mem_run_literal.mp ht
      obtain ⟨hend, rfl⟩ := (hfinish _).mp ht
      obtain rfl : rest'' = [] := hend
      obtain rfl : rest' = after.toList := by simpa using hafter
      obtain rfl : rest = cs ++ after.toList := hname
      exact ⟨cs, hne, hcs, by simpa using hrest, rfl⟩
    · rintro ⟨cs, hne, hcs, hrest, rfl⟩
      refine ⟨cs ++ after.toList, by simpa using hrest, List.mem_flatMap.mpr ?_⟩
      refine ⟨_, mem_run_name.mpr ⟨cs, after.toList, by simp, hne, hcs, rfl⟩, ?_⟩
      exact mem_run_literal.mpr ⟨[], by simp, (hfinish _).mpr ⟨rfl, rfl⟩⟩

-- The marks leave no choice of the name, so all ways to match are the same.
theorem search_delimited : (delimited before after).search true text = some t ↔
    ∃ cs, cs ≠ [] ∧ '\n' ∉ cs ∧ text = before.toList ++ cs ++ after.toList ∧
      t = { atStart := false, rest := [], captured := some cs } := by
  have hlater (text : List Char) : (delimited before after).search false text = none := by
    have hrun (s : Cursor) (hs : s.atStart = false) : (delimited before after).run s = [] := by
      refine List.eq_nil_iff_forall_not_mem.mpr fun t ht => ?_
      have hstart := (mem_run_delimited.mp ht).1
      simp [hs] at hstart
    induction text with
    | nil => rw [search, hrun _ rfl]; rfl
    | cons c rest ih => rw [search, hrun _ rfl, ih]; rfl
  have hfirst : (delimited before after).search true text =
      ((delimited before after).run { atStart := true, rest := text }).head? := by
    cases text with
    | nil => rfl
    | cons c rest => rw [search, hlater, Option.or_none]
  have hmem (t : Cursor) : t ∈ (delimited before after).run { atStart := true, rest := text } ↔ _ :=
    mem_run_delimited
  rw [hfirst]
  constructor
  · intro ht
    exact ((hmem t).mp (List.mem_of_head? ht)).2
  · rintro ⟨cs, hne, hcs, htext, rfl⟩
    have hrun := List.ne_nil_of_mem ((hmem _).mpr ⟨rfl, cs, hne, hcs, htext, rfl⟩)
    obtain ⟨t, ht⟩ := Option.isSome_iff_exists.mp (List.isSome_head?.mpr hrun)
    obtain ⟨-, cs', -, -, htext', rfl⟩ := (hmem t).mp (List.mem_of_head? ht)
    obtain rfl : cs = cs' := by simpa [htext] using htext'
    exact ht

theorem find_delimited {text : String} {found : Option String} :
    (delimited before after).matcher.find text = some found ↔
      ∃ name, found = some name ∧ name ≠ "" ∧ '\n' ∉ name.toList ∧ text = before ++ name ++ after := by
  simp only [matcher, Option.map_eq_some_iff, search_delimited]
  constructor
  · rintro ⟨_, ⟨cs, hne, hcs, htext, rfl⟩, rfl⟩
    refine ⟨String.ofList cs, rfl, by simpa using hne, by simpa using hcs, ?_⟩
    exact String.toList_injective (by simpa using htext)
  · rintro ⟨name, rfl, hne, hname, rfl⟩
    exact ⟨_, ⟨name.toList, by simpa using hne, hname, by simp, rfl⟩, by simp⟩

end Regex

namespace Matcher

-- The usual convention. A cell carries its name between two marks; the name is not empty and has no line breaks.
def Usual (m : Matcher) : Prop :=
  ∀ text found, m.find text = some found ↔
    ∃ name, found = some name ∧ name ≠ "" ∧ '\n' ∉ name.toList ∧ text = "Lbl'-LT-'" ++ name ++ "'-GT-'"

-- All that follow the convention carry a name.
def Captures (m : Matcher) : Prop :=
  ∀ {text}, m.accepts text → ∃ name, m.capture? text = some name

variable {m : Matcher} (h : m.Usual)
include h

theorem Usual.captures : m.Captures := by
  intro text htext
  obtain ⟨found, hfound⟩ := Option.isSome_iff_exists.mp htext
  obtain ⟨name, rfl, -⟩ := (h text found).mp hfound
  exact ⟨name, by rw [capture?, hfound]; rfl⟩

theorem Usual.capture_inj {text other name : String} (htext : m.capture? text = some name)
    (hother : m.capture? other = some name) : text = other := by
  have hmarks {text : String} (htext : m.capture? text = some name) :
      text = "Lbl'-LT-'" ++ name ++ "'-GT-'" := by
    obtain ⟨_, heq, -, -, htext⟩ := (h text _).mp (Option.join_eq_some_iff.mp htext)
    cases heq
    exact htext
  rw [hmarks htext, hmarks hother]

theorem Usual.accepts_topCell : m.accepts ({} : Kore.Config).topCell := by
  have hfind := (h ({} : Kore.Config).topCell (some "generatedTop")).mpr
    ⟨"generatedTop", rfl, by decide, by decide, by decide +kernel⟩
  simp [accepts, hfind]

end Matcher

-- The engine reads the usual convention as it is meant.
def Engine.Usual (engine : Engine) : Prop :=
  ∃ m, engine.compile ({} : Kore.Config).cellPattern = some m ∧ m.Usual

theorem Regex.engine_usual : engine.Usual := by
  have hparse : parse? ({} : Kore.Config).cellPattern = some (delimited "Lbl'-LT-'" "'-GT-'") := by
    decide +kernel
  exact ⟨_, congrArg (Option.map matcher) hparse, fun _ _ => find_delimited⟩

end MatchingLogic
