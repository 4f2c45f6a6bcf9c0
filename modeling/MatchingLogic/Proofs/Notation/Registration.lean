import Mathlib.Data.List.Nodup
import MatchingLogic.Proofs.Notation.Arity

namespace MatchingLogic

theorem Notation.define_eq_ok {name : String} {arity : Nat} {template : Pattern} {n : Notation}
    (h : define name arity template = .ok n) :
    n.name = name ∧ n.arity = arity ∧ n.template = template := by
  simp only [define] at h
  split at h
  case h_1 => cases h
  case h_2 =>
    split at h
    case isTrue => cases h
    case isFalse =>
      cases h
      exact ⟨rfl, rfl, rfl⟩

namespace Notations

open Pattern

variable {ns : Notations} {n m : Notation} {name : String} {count : Nat}

def names (ns : Notations) : List String :=
  ns.entries.map (·.name)

theorem put_of_new {ms : List Notation} (h : n.name ∉ ms.map (·.name)) : put n ms = ms ++ [n] := by
  induction ms with
  | nil => rfl
  | cons m ms ih =>
    rw [List.map_cons, List.mem_cons, not_or] at h
    rw [put, if_neg (Ne.symm h.1), ih h.2, List.cons_append]

theorem entries_register (h : n.name ∉ ns.names) : (ns.register n).entries = ns.entries ++ [n] :=
  put_of_new h

theorem names_register (h : n.name ∉ ns.names) : (ns.register n).names = ns.names ++ [n.name] := by
  simp [names, entries_register h]

theorem get?_eq_some_iff : ns.get? name = some n ↔ n ∈ ns.entries ∧ n.name = name := by
  constructor
  case mp => exact fun h => ⟨List.mem_of_find?_eq_some h, by simpa using List.find?_some h⟩
  case mpr =>
    rintro ⟨hn, rfl⟩
    cases hget : ns.get? n.name with
    | none => simpa using List.find?_eq_none.mp hget n hn
    | some m =>
      have hname : m.name = n.name := by simpa using List.find?_some hget
      rw [List.inj_on_of_nodup_map ns.distinct (List.mem_of_find?_eq_some hget) hn hname]

theorem idxOf_names {i : Nat} (h : ns.entries[i]? = some n) : ns.names.idxOf n.name = i := by
  have hname : ns.names[i]? = some n.name := by simp [names, h]
  have hnodup : ns.names.Nodup := ns.distinct
  obtain ⟨hi, hname⟩ := List.getElem?_eq_some_iff.mp hname
  rw [← hname, hnodup.idxOf_getElem]

-- A notation of this name is registered, and it takes so many arguments.
def Registers (ns : Notations) (name : String) (count : Nat) : Prop :=
  ∃ n, ns.get? name = some n ∧ count = n.arity

theorem Registers.fits (h : ns.Registers name count) : ns.Fits name count := by
  obtain ⟨n, hget, hcount⟩ := h
  intro m hm
  cases hget.symm.trans hm
  exact hcount

theorem registers_of_resolve {args : List Pattern} {p : Pattern} (hname : ns.contains name)
    (h : ns.resolve name args = .ok p) : p = .sugar name args ∧ ns.Registers name args.length := by
  obtain ⟨n, hget⟩ := Option.isSome_iff_exists.mp hname
  simp only [resolve, hget, Notation.checkArity] at h
  split_ifs at h with hlength
  · cases h
    exact ⟨rfl, n, hget, hlength⟩
  · cases h

theorem Registers.register (h : ns.Registers name count) (hnew : n.name ∉ ns.names) :
    (ns.register n).Registers name count := by
  obtain ⟨m, hget, hcount⟩ := h
  obtain ⟨hm, hname⟩ := get?_eq_some_iff.mp hget
  refine ⟨m, get?_eq_some_iff.mpr ⟨?_, hname⟩, hcount⟩
  rw [entries_register hnew]
  exact List.mem_append_left _ hm

-- One of the first `i` notations has this name and takes so many arguments.
def RegistersBefore (ns : Notations) (i : Nat) (name : String) (count : Nat) : Prop :=
  ∃ j < i, ∃ m, ns.entries[j]? = some m ∧ m.name = name ∧ count = m.arity

theorem RegistersBefore.registers {i : Nat} (h : ns.RegistersBefore i name count) :
    ns.Registers name count ∧ ns.names.idxOf name < i := by
  obtain ⟨j, hj, m, hm, rfl, hcount⟩ := h
  exact ⟨⟨m, get?_eq_some_iff.mpr ⟨List.mem_of_getElem? hm, rfl⟩, hcount⟩, by rwa [idxOf_names hm]⟩

theorem Registers.before (h : ns.Registers name count) : ns.RegistersBefore ns.size name count := by
  obtain ⟨m, hget, hcount⟩ := h
  obtain ⟨hm, hname⟩ := get?_eq_some_iff.mp hget
  obtain ⟨j, hj, hm⟩ := List.getElem_of_mem hm
  exact ⟨j, hj, m, List.getElem?_eq_some_iff.mpr ⟨hj, hm⟩, hname, hcount⟩

theorem RegistersBefore.register {i : Nat} (h : ns.RegistersBefore i name count)
    (hnew : n.name ∉ ns.names) : (ns.register n).RegistersBefore i name count := by
  obtain ⟨j, hj, m, hm, hused⟩ := h
  refine ⟨j, hj, m, ?_, hused⟩
  rw [entries_register hnew, List.getElem?_append_left (List.getElem?_eq_some_iff.mp hm).1, hm]

-- Templates use only notations that are registered before their own, as these are registered.
def Ordered (ns : Notations) : Prop :=
  ∀ (i : Nat) (n : Notation), ns.entries[i]? = some n → n.template.Within (ns.RegistersBefore i)

theorem Ordered.register (h : ns.Ordered) (hnew : n.name ∉ ns.names)
    (htemplate : n.template.Within ns.Registers) : (ns.register n).Ordered := by
  intro i m hm
  rw [entries_register hnew] at hm
  by_cases hi : i < ns.size
  · rw [List.getElem?_append_left hi] at hm
    exact (h i m hm).mono fun hbefore => hbefore.register hnew
  · rw [List.getElem?_append_right (Nat.le_of_not_lt hi)] at hm
    cases List.mem_singleton.mp (List.mem_of_getElem? hm)
    refine htemplate.mono fun hregisters => ?_
    obtain ⟨j, hj, hused⟩ := (hregisters.before).register hnew
    exact ⟨j, by omega, hused⟩

-- The place in the registry is a rank.
theorem Ordered.grounded (h : ns.Ordered) : ns.Grounded ns.names.idxOf where
  template n hn := by
    obtain ⟨i, hi, hn⟩ := List.getElem_of_mem hn
    have hget : ns.entries[i]? = some n := List.getElem?_eq_some_iff.mpr ⟨hi, hn⟩
    refine (h i n hget).mono fun hbefore => ?_
    rw [idxOf_names hget]
    exact ⟨hbefore.registers.1.fits, hbefore.registers.2⟩
  bounded name := by
    have hlength : ns.names.length = ns.size := List.length_map _
    exact hlength ▸ List.idxOf_le_length

theorem ordered_builtin : builtin.Ordered := by
  have hbot {i : Nat} (hi : 0 < i) : builtin.RegistersBefore i "\\bot" 0 := ⟨0, hi, .bot, rfl, rfl, rfl⟩
  have hneg {i : Nat} (hi : 1 < i) : builtin.RegistersBefore i "\\neg" 1 := ⟨1, hi, .neg, rfl, rfl, rfl⟩
  intro i n hn
  rw [entries_builtin] at hn
  rcases i with _ | _ | _ | _ | _ | i
  case succ.succ.succ.succ.succ =>
    obtain ⟨⟨name, arity⟩, -, rfl⟩ := List.mem_map.mp (List.mem_of_getElem? hn)
    exact within_headed name arity
  all_goals
    cases hn
    simp [Notation.bot, Notation.neg, Notation.top, Notation.and, Notation.or, Notation.ofTemplate,
      Pattern.bot, Pattern.neg, hbot, hneg]

end Notations
end MatchingLogic
