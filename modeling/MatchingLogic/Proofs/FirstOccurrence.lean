import Mathlib.Data.List.Induction
import MatchingLogic.FirstOccurrence

namespace MatchingLogic

variable {α : Type} [DecidableEq α] {xs ys : List α} {x y : α}

theorem addNew_of_mem (h : x ∈ xs) : addNew xs x = xs := by
  rw [addNew, if_pos h]

theorem mem_addNew : y ∈ addNew xs x ↔ y ∈ xs ∨ y = x := by
  simp only [addNew]
  split
  case isTrue h => exact ⟨.inl, fun h' => h'.elim id (· ▸ h)⟩
  case isFalse => simp

theorem prefix_addNew : xs <+: addNew xs x := by
  simp only [addNew]
  split
  case isTrue => exact List.prefix_rfl
  case isFalse => exact List.prefix_append ..

theorem nodup_addNew (h : xs.Nodup) : (addNew xs x).Nodup := by
  simp only [addNew]
  split
  case isTrue => exact h
  case isFalse hx => exact List.nodup_append.mpr ⟨h, by simp, by grind⟩

theorem mem_foldl_addNew : y ∈ ys.foldl addNew xs ↔ y ∈ xs ∨ y ∈ ys := by
  induction ys generalizing xs with
  | nil => simp
  | cons x ys ih => simp [ih, mem_addNew, or_assoc]

theorem eraseDups_concat (xs : List α) (x : α) :
    (xs ++ [x]).eraseDups = if x ∈ xs then xs.eraseDups else xs.eraseDups ++ [x] := by
  rw [List.eraseDups_append]
  by_cases hx : x ∈ xs <;> simp [List.removeAll, List.eraseDups_cons, hx]

theorem addNew_eraseDups (xs : List α) (x : α) : addNew xs.eraseDups x = (xs ++ [x]).eraseDups := by
  rw [addNew, eraseDups_concat]
  simp only [List.mem_eraseDups]

theorem foldl_addNew_eraseDups (xs ys : List α) : ys.foldl addNew xs.eraseDups = (xs ++ ys).eraseDups := by
  induction ys generalizing xs with
  | nil => simp
  | cons y ys ih =>
    rw [List.foldl_cons, addNew_eraseDups, ih, List.append_assoc, List.singleton_append]

theorem eraseDups_filter (P : α → Bool) (xs : List α) : (xs.filter P).eraseDups = xs.eraseDups.filter P := by
  induction xs using List.reverseRecOn with
  | nil => rfl
  | append_singleton xs x ih =>
    by_cases hP : P x
    case neg =>
      rw [List.filter_append, List.filter_cons_of_neg hP, List.filter_nil, List.append_nil, eraseDups_concat, ih]
      by_cases hx : x ∈ xs <;> simp [hP, hx]
    case pos =>
      rw [List.filter_append, List.filter_cons_of_pos hP, List.filter_nil, eraseDups_concat, eraseDups_concat, ih]
      by_cases hx : x ∈ xs <;> simp [hP, hx]

-- What is met later adds what has not been met before.
theorem eraseDups_append_filter (xs ys : List α) :
    (xs ++ ys).eraseDups = xs.eraseDups ++ ys.eraseDups.filter (· ∉ xs) := by
  rw [List.eraseDups_append, List.removeAll, eraseDups_filter]
  simp

theorem eraseDups_append_of_subset (h : ys ⊆ xs) : (xs ++ ys).eraseDups = xs.eraseDups := by
  rw [eraseDups_append_filter, List.filter_eq_nil_iff.mpr, List.append_nil]
  intro y hy
  simpa using h (List.mem_eraseDups.mp hy)

theorem eraseDups_eraseDups (xs : List α) : xs.eraseDups.eraseDups = xs.eraseDups := by
  induction xs using List.reverseRecOn with
  | nil => rfl
  | append_singleton xs x ih =>
    rw [eraseDups_concat]
    split
    case isTrue => exact ih
    case isFalse hx => rw [eraseDups_concat, if_neg (by simpa using hx), ih]

end MatchingLogic
