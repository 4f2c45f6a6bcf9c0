import MatchingLogic.Proofs.Pattern.Substitution

namespace MatchingLogic.Pattern

open Substitution

variable {p : Pattern} {s t : Substitution}

mutual

-- Builds every node anew, with each metavariable replaced.
def rebuild (f : UInt32 → Pattern) : Pattern → Pattern
  | symbol n => symbol n
  | elementVar i => elementVar i
  | setVar i => setVar i
  | metavar i => f i
  | app l r => app (l.rebuild f) (r.rebuild f)
  | imp a c => imp (a.rebuild f) (c.rebuild f)
  | ex v b => ex v (b.rebuild f)
  | mu v b => mu v (b.rebuild f)
  | sugar n args => sugar n (rebuildAll f args)

def rebuildAll (f : UInt32 → Pattern) : List Pattern → List Pattern
  | [] => []
  | p :: ps => p.rebuild f :: rebuildAll f ps

end

theorem rebuildAll_eq (f : UInt32 → Pattern) (ps : List Pattern) : rebuildAll f ps = ps.map (rebuild f) := by
  induction ps with
  | nil => rfl
  | cons p ps ih => rw [rebuildAll, ih, List.map_cons]

theorem instantiate_eq_rebuild (p : Pattern) (s : Substitution) :
    p.instantiate s = p.rebuild fun id => (s.get? id).getD (metavar id) := by
  induction p with
  | symbol | elementVar | setVar | metavar => simp [rebuild]
  | app l r ihl ihr | imp l r ihl ihr => simp [rebuild, ihl, ihr]
  | ex v b ih | mu v b ih => simp [rebuild, ih]
  | sugar n args ih =>
    rw [instantiate_sugar, rebuild, rebuildAll_eq]
    exact congrArg (sugar n) (List.map_congr_left ih)

-- Arguments are shared as a whole if nothing changes in any of them.
theorem pluggedAll?_eq_none_iff {ps : List Pattern} :
    pluggedAll? s ps = none ↔ ∀ p ∈ ps, plugged? s p = none := by
  induction ps with
  | nil => simp [pluggedAll?]
  | cons p ps ih =>
    rw [List.forall_mem_cons, ← ih, pluggedAll?]
    cases plugged? s p <;> cases pluggedAll? s ps <;> simp

theorem plugged?_eq_none_iff : plugged? s p = none ↔ ∀ id ∈ p.metavars, s.get? id = none := by
  induction p with
  | symbol | elementVar | setVar => simp [plugged?, mem_metavars, nodes]
  | metavar id => simp [plugged?]
  | app l r ihl ihr | imp l r ihl ihr =>
    have hpair : plugged? s l = none ∧ plugged? s r = none ↔
        ∀ id, id ∈ l.metavars ∨ id ∈ r.metavars → s.get? id = none := by
      simp only [ihl, ihr, or_imp, forall_and]
    simp only [mem_metavars_app, mem_metavars_imp, ← hpair, plugged?]
    cases plugged? s l <;> cases plugged? s r <;> simp
  | ex v b ih | mu v b ih => simp [plugged?, ih]
  | sugar n args ih =>
    simp only [plugged?, Option.map_eq_none_iff, pluggedAll?_eq_none_iff, mem_metavars_sugar]
    constructor
    case mp =>
      rintro h id ⟨a, ha, hid⟩
      exact (ih a ha).mp (h a ha) id hid
    case mpr => exact fun h a ha => (ih a ha).mpr fun id hid => h id ⟨a, ha, hid⟩

-- What is not shared is the rebuilt pattern.
theorem eq_rebuild_of_plugged? {q : Pattern} (h : plugged? s p = some q) :
    q = p.rebuild fun id => (s.get? id).getD (metavar id) := by
  rw [← instantiate_eq_rebuild, instantiate, h, Option.getD_some]

theorem instantiate_eq_iff : p.instantiate s = p.instantiate t ↔
    ∀ id ∈ p.metavars, (metavar id).instantiate s = (metavar id).instantiate t := by
  induction p with
  | symbol | elementVar | setVar => simp [mem_metavars, nodes]
  | metavar id => simp
  | app l r ihl ihr | imp l r ihl ihr =>
    simp only [instantiate_app, instantiate_imp, app.injEq, imp.injEq, ihl, ihr, mem_metavars_app,
      mem_metavars_imp, or_imp, forall_and]
  | ex v b ih | mu v b ih =>
    simp only [instantiate_ex, instantiate_mu, ex.injEq, mu.injEq, true_and, ih, mem_metavars_ex, mem_metavars_mu]
  | sugar n args ih =>
    simp only [instantiate_sugar, sugar.injEq, true_and, List.map_inj_left, mem_metavars_sugar]
    constructor
    case mp =>
      rintro h id ⟨a, ha, hid⟩
      exact (ih a ha).mp (h a ha) id hid
    case mpr => exact fun h a ha => (ih a ha).mpr fun id hid => h id ⟨a, ha, hid⟩

-- Ids stand in ascending order, so that a list of them is known by its members.
theorem ascending_insertId {ids : List UInt32} (id : UInt32) (h : ids.Pairwise (· < ·)) :
    (insertId id ids).Pairwise (· < ·) := by
  induction ids with
  | nil => simp [insertId]
  | cons j ids ih =>
    obtain ⟨hj, hids⟩ := List.pairwise_cons.mp h
    simp only [insertId]
    split_ifs with hlt heq
    · refine List.pairwise_cons.mpr ⟨fun i hi => ?_, h⟩
      obtain rfl | hi := List.mem_cons.mp hi
      · exact hlt
      · exact UInt32.lt_trans hlt (hj i hi)
    · exact h
    · refine List.pairwise_cons.mpr ⟨fun i hi => ?_, ih hids⟩
      obtain rfl | hi := mem_insertId.mp hi
      · exact UInt32.lt_of_le_of_ne (UInt32.not_lt.mp hlt) (Ne.symm heq)
      · exact hj i hi

theorem ascending_metavars (p : Pattern) : p.metavars.Pairwise (· < ·) := by
  rw [metavars]
  induction p.nodes.filterMap metavar? with
  | nil => exact .nil
  | cons id ids ih => exact ascending_insertId id ih

-- Instantiation, with all that it shares, is plain replacement. Two in a row are one, by plugs that take the second
-- one and by what is left to it. Two outcomes are the same if each metavariable of the pattern is replaced by the
-- same, and the metavariables of an outcome are those that are left and those of the plugs that are put in.
theorem instantiate_laws (p : Pattern) (s t : Substitution) :
    let replaced (s : Substitution) (id : UInt32) := (s.get? id).getD (metavar id)
    p.instantiate s = p.rebuild (replaced s) ∧
    (if s.isEmpty then p else (plugged? s p).getD p) = p.rebuild (replaced s) ∧
    (plugged? s p = none ↔ ∀ id ∈ p.metavars, s.get? id = none) ∧
    (∀ q, plugged? s p = some q → q = p.rebuild (replaced s)) ∧
    (p.instantiate s).instantiate t = p.instantiate (s.comp t) ∧
    (∀ id, (s.comp t).get? id = ((s.get? id).map (·.instantiate t)).or (t.get? id)) ∧
    (p.instantiate s = p.instantiate t ↔ ∀ id ∈ p.metavars, replaced s id = replaced t id) ∧
    (p.instantiate s).metavars.Pairwise (· < ·) ∧
    ∀ id, id ∈ (p.instantiate s).metavars ↔
      (id ∈ p.metavars ∧ s.get? id = none) ∨ ∃ i ∈ p.metavars, ∃ q, s.get? i = some q ∧ id ∈ q.metavars := by
  intro replaced
  have hrebuild : p.instantiate s = p.rebuild (replaced s) := instantiate_eq_rebuild p s
  refine ⟨hrebuild, ?shortcut, plugged?_eq_none_iff, fun q => eq_rebuild_of_plugged?, instantiate_comp p s t,
    get?_comp s t, instantiate_eq_iff, ascending_metavars _, fun id => ?metavars⟩
  case shortcut =>
    rw [← hrebuild]
    split
    case isTrue h => rw [isEmpty_iff.mp h, instantiate_empty]
    case isFalse => rfl
  case metavars =>
    have hplug (i : UInt32) : id ∈ ((metavar i).instantiate s).metavars ↔
        (id = i ∧ s.get? i = none) ∨ ∃ q, s.get? i = some q ∧ id ∈ q.metavars := by
      rw [instantiate_metavar]
      cases s.get? i <;> simp
    simp only [mem_metavars_instantiate, hplug, and_or_left, exists_or]
    refine or_congr_left ⟨?_, fun h => ⟨id, h.1, rfl, h.2⟩⟩
    rintro ⟨i, hi, rfl, hnone⟩
    exact ⟨hi, hnone⟩

end MatchingLogic.Pattern
