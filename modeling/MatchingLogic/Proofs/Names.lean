import Mathlib.Data.List.Nodup
import MatchingLogic.Names
import MatchingLogic.Proofs.FirstOccurrence

namespace MatchingLogic

namespace NameTable

variable {t u : NameTable} {name other : String} {id : UInt32}

theorem id_eq (t : NameTable) (name : String) : t.id name = UInt32.ofNat (t.names.idxOf name) := by
  rw [id, id?, List.idxOf_eq_getD_idxOf?]
  cases t.names.idxOf? name <;> rfl

theorem id?_eq_some (h : name ∈ t.names) : t.id? name = some (t.id name) := by
  have ⟨i, hi⟩ := Option.isSome_iff_exists.mp (List.isSome_idxOf?.mpr h)
  simp [id, id?, hi]

theorem id?_eq_none : t.id? name = none ↔ name ∉ t.names := by
  rw [id?, Option.map_eq_none_iff, List.idxOf?_eq_none_iff]

theorem mem_names_declare : other ∈ (t.declare name).names ↔ other ∈ t.names ∨ other = name :=
  mem_addNew

theorem prefix_declare : t.names <+: (t.declare name).names :=
  prefix_addNew

theorem nodup_declare (h : t.names.Nodup) : (t.declare name).names.Nodup :=
  nodup_addNew h

-- A new name gets the id that it was promised.
theorem id_declare : (t.declare name).id name = t.id name := by
  rw [id_eq, id_eq, declare, addNew]
  split
  case isTrue => rfl
  case isFalse hname =>
    rw [List.idxOf_append_of_notMem hname, List.idxOf_of_notMem hname, List.idxOf_cons_self, Nat.add_zero]

-- Names that are declared later do not change the id of a name.
theorem id_of_prefix (h : t.names <+: u.names) (hname : name ∈ t.names) : u.id name = t.id name := by
  obtain ⟨rest, hrest⟩ := h
  rw [id_eq, id_eq, ← hrest, List.idxOf_append_of_mem hname]

-- As long as ids do not run out, they are as good as names.
theorem id_inj (hsize : t.names.length ≤ UInt32.size) (hname : name ∈ t.names) (hother : other ∈ t.names)
    (h : t.id name = t.id other) : name = other := by
  have hlt {n : String} (hn : n ∈ t.names) : t.names.idxOf n < UInt32.size :=
    Nat.lt_of_lt_of_le (List.idxOf_lt_length_of_mem hn) hsize
  rw [id_eq, id_eq, ← UInt32.toNat_inj, UInt32.toNat_ofNat_of_lt' (hlt hname),
    UInt32.toNat_ofNat_of_lt' (hlt hother)] at h
  exact (List.idxOf_inj hname).mp h

theorem id?_eq_some_iff : t.id? name = some id ↔ name ∈ t.names ∧ t.id name = id := by
  constructor
  case mp =>
    intro h
    obtain ⟨i, hi, -⟩ := Option.map_eq_some_iff.mp h
    have hname : name ∈ t.names := List.isSome_idxOf?.mp (by rw [hi]; rfl)
    exact ⟨hname, Option.some.inj ((id?_eq_some hname).symm.trans h)⟩
  case mpr =>
    rintro ⟨hname, rfl⟩
    exact id?_eq_some hname

theorem id_getElem (h : t.names.Nodup) {i : Nat} (hi : i < t.size) : t.id t.names[i] = UInt32.ofNat i := by
  rw [id_eq, h.idxOf_getElem i hi]

theorem toNat_id_lt (h : name ∈ t.names) : (t.id name).toNat < t.size := by
  rw [id_eq, UInt32.toNat_ofNat']
  exact Nat.lt_of_le_of_lt (Nat.mod_le ..) (List.idxOf_lt_length_of_mem h)

theorem exists_id?_iff (h : t.names.Nodup) : (∃ name, t.id? name = some id) ↔ id.toNat < t.size := by
  constructor
  case mp =>
    rintro ⟨name, hid⟩
    obtain ⟨hname, rfl⟩ := id?_eq_some_iff.mp hid
    exact toNat_id_lt hname
  case mpr =>
    intro hid
    refine ⟨t.names[id.toNat], id?_eq_some_iff.mpr ⟨List.getElem_mem hid, ?_⟩⟩
    rw [id_getElem h hid, UInt32.ofNat_toNat]

-- Ids start over when they have run out.
theorem id?_inj_iff (h : t.names.Nodup) :
    (∀ name other id, t.id? name = some id → t.id? other = some id → name = other) ↔
      t.size ≤ UInt32.size := by
  constructor
  case mp =>
    intro hinj
    by_contra hsize
    have hfirst : 0 < t.size := by omega
    have hagain : UInt32.size < t.size := by omega
    have heq : t.names[0] = t.names[UInt32.size] := by
      refine hinj _ _ 0 (id?_eq_some_iff.mpr ⟨List.getElem_mem hfirst, id_getElem h hfirst⟩) ?_
      exact id?_eq_some_iff.mpr ⟨List.getElem_mem hagain, id_getElem h hagain⟩
    exact absurd ((List.Nodup.getElem_inj_iff h).mp heq) (by decide)
  case mpr =>
    intro hsize name other id hname hother
    obtain ⟨hname, hid⟩ := id?_eq_some_iff.mp hname
    obtain ⟨hother, hid'⟩ := id?_eq_some_iff.mp hother
    exact id_inj hsize hname hother (hid.trans hid'.symm)

end NameTable

namespace Vocabulary

variable (v : Vocabulary)

theorem symbol_inj {name other : String} : v.symbol name = v.symbol other ↔ name = other := by
  simp [symbol]

theorem sort_inj {name other : String} : v.sort name = v.sort other ↔ name = other := by
  simp [sort]

end Vocabulary

end MatchingLogic
