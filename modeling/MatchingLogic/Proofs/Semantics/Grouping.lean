import MatchingLogic.Proofs.Execution.Obligations
import MatchingLogic.Proofs.FirstOccurrence

namespace MatchingLogic

theorem AxiomKind.rank_inj {kind kind' : AxiomKind} : kind.rank = kind'.rank ↔ kind = kind' := by
  cases kind <;> cases kind' <;> simp [rank]

namespace AxiomGroups

variable {groups groups' : AxiomGroups} {a : Axiom} {axioms more : List Axiom} {kind : AxiomKind}

def Ascending (groups : AxiomGroups) : Prop :=
  groups.Pairwise (·.1.rank < ·.1.rank)

theorem lookup_of_below (h : ∀ entry ∈ groups, kind.rank < entry.1.rank) : groups.lookup kind = none := by
  refine List.lookup_eq_none_iff.mpr fun entry hentry => bne_iff_ne.mpr fun heq => ?_
  exact Nat.lt_irrefl _ (heq ▸ h entry hentry)

theorem add_cons (k : AxiomKind) (group : List Axiom) (rest : AxiomGroups) (a : Axiom) :
    add ((k, group) :: rest) a =
      if a.kind = k then (k, addNew group a) :: rest
      else if a.kind.rank < k.rank then (a.kind, [a]) :: (k, group) :: rest
      else (k, group) :: add rest a :=
  rfl

theorem mem_add {entry : AxiomKind × List Axiom} (h : entry ∈ groups.add a) :
    entry.1 = a.kind ∨ entry ∈ groups := by
  induction groups with
  | nil =>
    obtain rfl := List.mem_singleton.mp h
    exact .inl rfl
  | cons first rest ih =>
    obtain ⟨k, group⟩ := first
    rw [add_cons] at h
    split_ifs at h <;> grind

theorem ascending_add (h : groups.Ascending) (a : Axiom) : (groups.add a).Ascending := by
  induction groups with
  | nil => exact List.pairwise_singleton ..
  | cons first rest ih =>
    obtain ⟨k, group⟩ := first
    obtain ⟨hfirst, hrest⟩ := List.pairwise_cons.mp h
    rw [add_cons]
    split_ifs with heq hlt
    · exact List.pairwise_cons.mpr ⟨hfirst, hrest⟩
    · refine List.pairwise_cons.mpr ⟨fun entry hentry => ?_, h⟩
      obtain rfl | hentry := List.mem_cons.mp hentry
      · exact hlt
      · exact Nat.lt_trans hlt (hfirst entry hentry)
    · refine List.pairwise_cons.mpr ⟨fun entry hentry => ?_, ih hrest⟩
      obtain hkind | hentry := mem_add hentry
      · rw [hkind]
        exact Nat.lt_of_le_of_ne (Nat.not_lt.mp hlt) fun h => heq (AxiomKind.rank_inj.mp h.symm)
      · exact hfirst entry hentry

-- Only the group of the axiom's kind changes.
theorem lookup_add (h : groups.Ascending) (a : Axiom) (kind : AxiomKind) : (groups.add a).lookup kind =
    if kind = a.kind then some (addNew ((groups.lookup kind).getD []) a) else groups.lookup kind := by
  induction groups with
  | nil => exact lookup_cons_if kind a.kind [a] []
  | cons first rest ih =>
    obtain ⟨k, group⟩ := first
    obtain ⟨hfirst, hrest⟩ := List.pairwise_cons.mp h
    rw [add_cons]
    split
    case isTrue heq =>
      rw [lookup_cons_if, lookup_cons_if, heq]
      by_cases hkind : kind = k <;> simp [hkind]
    case isFalse hne =>
      split
      case isTrue hlt =>
        have hnew : List.lookup a.kind ((k, group) :: rest) = none := by
          refine lookup_of_below (List.forall_mem_cons.mpr ⟨hlt, fun entry hentry => ?_⟩)
          exact Nat.lt_trans hlt (hfirst entry hentry)
        rw [lookup_cons_if]
        by_cases hkind : kind = a.kind
        · rw [if_pos hkind, if_pos hkind, hkind, hnew]
          rfl
        · rw [if_neg hkind, if_neg hkind]
      case isFalse =>
        rw [lookup_cons_if, lookup_cons_if, ih hrest]
        by_cases hkind : kind = k
        · have hother : kind ≠ a.kind := fun h => hne (h.symm.trans hkind)
          rw [if_pos hkind, if_neg hother, if_pos hkind]
        · simp [hkind]

theorem organize_concat (axioms : List Axiom) (a : Axiom) :
    organize (axioms ++ [a]) = (organize axioms).add a :=
  List.foldl_concat ..

theorem ascending_organize (axioms : List Axiom) : (organize axioms).Ascending := by
  induction axioms using List.reverseRecOn with
  | nil => exact .nil
  | append_singleton axioms a ih =>
    rw [organize_concat]
    exact ascending_add ih a

-- The distinct axioms of a kind, in the order in which they occur first.
def ofKind (axioms : List Axiom) (kind : AxiomKind) : List Axiom :=
  (axioms.filter (·.kind = kind)).eraseDups

theorem mem_ofKind : a ∈ ofKind axioms kind ↔ a ∈ axioms ∧ a.kind = kind := by
  simp [ofKind]

theorem ofKind_concat (axioms : List Axiom) (a : Axiom) (kind : AxiomKind) : ofKind (axioms ++ [a]) kind =
    if kind = a.kind then addNew (ofKind axioms kind) a else ofKind axioms kind := by
  rw [ofKind, List.filter_append]
  split
  case isTrue h =>
    rw [List.filter_cons_of_pos (by simp [h]), List.filter_nil, eraseDups_concat, addNew]
    simp only [ofKind, List.mem_eraseDups]
  case isFalse h =>
    rw [List.filter_cons_of_neg (by simpa using Ne.symm h), List.filter_nil, List.append_nil, ofKind]

theorem lookup_organize (axioms : List Axiom) (kind : AxiomKind) :
    (organize axioms).lookup kind = if ofKind axioms kind = [] then none else some (ofKind axioms kind) := by
  induction axioms using List.reverseRecOn with
  | nil => rfl
  | append_singleton axioms a ih =>
    have hgroup : ((organize axioms).lookup kind).getD [] = ofKind axioms kind := by
      rw [ih]
      split
      case isTrue h => exact h.symm
      case isFalse => rfl
    have hne : addNew (ofKind axioms kind) a ≠ [] := by
      rw [addNew]
      split
      case isTrue h => exact List.ne_nil_of_mem h
      case isFalse => simp
    rw [organize_concat, lookup_add (ascending_organize axioms), hgroup, ofKind_concat, ih]
    by_cases hkind : kind = a.kind
    case pos => simp only [if_pos hkind, if_neg hne]
    case neg => simp only [if_neg hkind]

theorem ofKind_eq_nil : ofKind axioms kind = [] ↔ ¬ ∃ a ∈ axioms, a.kind = kind := by
  simp [List.eq_nil_iff_forall_not_mem, mem_ofKind]

theorem lookup_organize_eq_some {group : List Axiom} : (organize axioms).lookup kind = some group ↔
    (∃ a ∈ axioms, a.kind = kind) ∧ group = ofKind axioms kind := by
  rw [lookup_organize]
  split
  case isTrue h => simpa using fun a ha hkind => absurd ⟨a, ha, hkind⟩ (ofKind_eq_nil.mp h)
  case isFalse h =>
    rw [Option.some_inj, eq_comm]
    exact (and_iff_right (not_not.mp (mt ofKind_eq_nil.mpr h))).symm

theorem lookup_eq_some_iff (h : groups.Ascending) {group : List Axiom} :
    groups.lookup kind = some group ↔ (kind, group) ∈ groups := by
  induction groups with
  | nil => simp
  | cons first rest ih =>
    obtain ⟨k, group'⟩ := first
    obtain ⟨hfirst, hrest⟩ := List.pairwise_cons.mp h
    rw [lookup_cons_if, List.mem_cons, ← ih hrest]
    split
    case isTrue hkind => simp [hkind, lookup_of_below hfirst, eq_comm]
    case isFalse hkind => simp [hkind]

theorem eq_of_lookup (h : groups.Ascending) (h' : groups'.Ascending)
    (heq : ∀ kind, groups.lookup kind = groups'.lookup kind) : groups = groups' := by
  have hnodup {groups : AxiomGroups} (h : groups.Ascending) : groups.Nodup := by
    refine List.Pairwise.imp ?_ h
    rintro entry _ hlt rfl
    exact Nat.lt_irrefl _ hlt
  have hperm : groups.Perm groups' := by
    refine (List.perm_ext_iff_of_nodup (hnodup h) (hnodup h')).mpr ?_
    rintro ⟨kind, group⟩
    rw [← lookup_eq_some_iff h, ← lookup_eq_some_iff h', heq]
  exact hperm.eq_of_pairwise (fun _ _ _ _ hlt hgt => absurd hgt (Nat.lt_asymm hlt)) h h'

-- The groups depend on nothing but the distinct axioms of each kind.
theorem organize_congr (h : ∀ kind, ofKind axioms kind = ofKind more kind) : organize axioms = organize more :=
  eq_of_lookup (ascending_organize axioms) (ascending_organize more) fun kind => by
    rw [lookup_organize, lookup_organize, h]

theorem ofKind_append_of_subset (h : more ⊆ axioms) (kind : AxiomKind) :
    ofKind (axioms ++ more) kind = ofKind axioms kind := by
  rw [ofKind, List.filter_append, eraseDups_append_of_subset (List.filter_subset _ h), ofKind]

-- All axioms of the groups in order.
def members (groups : AxiomGroups) : List Axiom :=
  groups.flatMap (·.2)

theorem patterns_eq (groups : AxiomGroups) : groups.patterns = groups.members.map (·.pattern) := by
  rw [patterns, members, List.map_flatMap]

theorem filter_members (h : groups.Ascending) (hkinds : ∀ entry ∈ groups, ∀ a ∈ entry.2, a.kind = entry.1)
    (kind : AxiomKind) : groups.members.filter (·.kind = kind) = (groups.lookup kind).getD [] := by
  induction groups with
  | nil => rfl
  | cons first rest ih =>
    obtain ⟨k, group⟩ := first
    obtain ⟨hfirst, hrest⟩ := List.pairwise_cons.mp h
    obtain ⟨hgroup, hkinds⟩ := List.forall_mem_cons.mp hkinds
    have hmembers : members ((k, group) :: rest) = group ++ members rest := rfl
    rw [hmembers, List.filter_append, ih hrest hkinds, lookup_cons_if]
    by_cases hkind : kind = k
    case pos =>
      have hall : group.filter (·.kind = kind) = group := List.filter_eq_self.mpr (by simpa [hkind] using hgroup)
      rw [hall, lookup_of_below (hkind ▸ hfirst), if_pos hkind]
      simp
    case neg =>
      have hnone : group.filter (·.kind = kind) = [] :=
        List.filter_eq_nil_iff.mpr fun a ha => by simpa [hgroup a ha] using Ne.symm hkind
      rw [hnone, if_neg hkind, List.nil_append]

theorem kind_of_mem_organize {entry : AxiomKind × List Axiom} (h : entry ∈ organize axioms) (ha : a ∈ entry.2) :
    a ∈ axioms ∧ a.kind = entry.1 := by
  have hlookup := (lookup_eq_some_iff (ascending_organize axioms)).mpr h
  rw [(lookup_organize_eq_some.mp hlookup).2] at ha
  exact mem_ofKind.mp ha

theorem mem_patterns_organize {p : Pattern} (h : p ∈ (organize axioms).patterns) :
    ∃ a ∈ axioms, p = a.pattern := by
  rw [patterns_eq] at h
  obtain ⟨a, ha, rfl⟩ := List.mem_map.mp h
  obtain ⟨entry, hentry, ha⟩ := List.mem_flatMap.mp ha
  exact ⟨a, (kind_of_mem_organize hentry ha).1, rfl⟩

theorem ofKind_members (axioms : List Axiom) (kind : AxiomKind) :
    ofKind (organize axioms).members kind = ofKind axioms kind := by
  have hfilter := filter_members (ascending_organize axioms) (fun _ h _ ha => (kind_of_mem_organize h ha).2) kind
  rw [ofKind, hfilter, lookup_organize]
  split
  case isTrue h => rw [h]; rfl
  case isFalse => exact eraseDups_eraseDups _

end AxiomGroups

namespace Bundle

theorem assertAll_eq (b : Bundle) (ps : List Pattern) :
    b.assertAll ps = { b with axioms := ps.foldl addNew b.axioms } := by
  induction ps generalizing b with
  | nil => rfl
  | cons p ps ih =>
    have hstep : b.assertAll (p :: ps) = (b.assert p).assertAll ps := rfl
    rw [hstep, ih, assert, List.foldl_cons]

-- One step: what is new is put after what was asserted before.
theorem assertAll_eraseDups (asserted ps : List Pattern) :
    assertAll { axioms := asserted.eraseDups } ps = { axioms := (asserted ++ ps).eraseDups } := by
  have h : ps.foldl addNew asserted.eraseDups = (asserted ++ ps).eraseDups :=
    foldl_addNew_eraseDups asserted ps
  rw [assertAll_eq, h]

-- A run: only the patterns count that all steps assert together, in their order.
theorem foldl_assertAll (steps : List (List Pattern)) (asserted : List Pattern) :
    steps.foldl assertAll { axioms := asserted.eraseDups } = { axioms := (asserted ++ steps.flatten).eraseDups } := by
  induction steps generalizing asserted with
  | nil => simp
  | cons ps steps ih => rw [List.foldl_cons, assertAll_eraseDups, ih, List.flatten_cons, List.append_assoc]

end Bundle

namespace AxiomGroups

theorem organize_exactly (axioms : List Axiom) :
    (∀ kind group, (organize axioms).lookup kind = some group ↔
      (∃ a ∈ axioms, a.kind = kind) ∧ group = (axioms.filter (·.kind = kind)).eraseDups) ∧
    (organize axioms).Pairwise (·.1.rank < ·.1.rank) ∧
    (∀ more, more ⊆ axioms → organize (axioms ++ more) = organize axioms) ∧
    organize ((organize axioms).flatMap (·.2)) = organize axioms ∧
    ∀ steps : List (List Axiom),
      steps.foldl (fun b step => b.assertAll (organize step).patterns) (∅ : Bundle) =
        { axioms := (steps.flatMap fun step => (organize step).patterns).eraseDups } := by
  refine ⟨fun kind group => lookup_organize_eq_some, ascending_organize axioms, fun more h => ?_, ?_, fun steps => ?_⟩
  · exact organize_congr (ofKind_append_of_subset h)
  · exact organize_congr (ofKind_members axioms)
  · have hrun := Bundle.foldl_assertAll (steps.map fun step => (organize step).patterns) []
    rw [List.foldl_map] at hrun
    exact hrun

end AxiomGroups
end MatchingLogic
