import Mathlib.Algebra.Order.BigOperators.Group.Finset
import MatchingLogic.Proofs.Certificate.Acceptance

namespace MatchingLogic

open Relation

-- What streams are written from.
inductive Piece where
  | pattern (p : Pattern)
  | proof (d : Derivation)
  deriving DecidableEq

namespace Piece

variable {ns : Notations} {p q : Pattern} {x y : Piece}

def isLeaf : Piece → Bool
  | pattern p => p.isLeaf
  | proof d => d.premises.isEmpty

def parts (ns : Notations) : Piece → List Piece
  | pattern p => ((ns.parts? p).getD []).map pattern
  | proof d => d.premises.map proof ++ d.lastPlugs.map pattern

def PartOf (ns : Notations) (x y : Piece) : Prop :=
  x ∈ y.parts ns

theorem parts_leaf (h : x.isLeaf = true) : x.parts ns = [] := by
  cases x with
  | pattern p => cases p <;> first | rfl | cases h
  | proof d => cases d <;> first | rfl | cases h

theorem not_isLeaf_of_partOf (h : PartOf ns x y) : y.isLeaf = false := by
  by_contra hy
  rw [PartOf, parts_leaf (by simpa using hy)] at h
  cases h

theorem partOf_pattern (h : PartOf ns x (pattern p)) : ∃ q, x = pattern q := by
  obtain ⟨q, -, rfl⟩ := List.mem_map.mp h
  exact ⟨q, rfl⟩

theorem partOf_of_children (hp : p.sugar? = none) : PartOf ns (pattern q) (pattern p) ↔ q ∈ p.children := by
  cases p with
  | sugar => cases hp
  | _ => simp [PartOf, parts, Notations.parts?, Pattern.children]

theorem partOf_sugar {name : String} {args : List Pattern} :
    PartOf ns (pattern q) (pattern (.sugar name args)) ↔ ns.expand name args = .ok q := by
  simp only [PartOf, parts, List.mem_map_of_injective fun _ _ h => pattern.inj h]
  cases hexpand : ns.expand name args <;> simp [Notations.parts?, hexpand, Except.toOption, eq_comm]

theorem reaches_pattern (h : ReflTransGen (PartOf ns) x (pattern p)) : ∃ q, x = pattern q := by
  generalize hy : pattern p = y at h
  induction h generalizing p with
  | refl => exact ⟨p, hy.symm⟩
  | tail _ hpart ih =>
    cases hy
    obtain ⟨q, rfl⟩ := partOf_pattern hpart
    exact ih rfl

-- What is met when a pattern is unfolded are its parts, and their parts in turn.
theorem meets_iff : ns.Meets p q ↔ ReflTransGen (PartOf ns) (pattern q) (pattern p) := by
  constructor
  case mp =>
    intro h
    induction h with
    | self => exact .refl
    | part hp hq _ ih => exact ih.tail ((partOf_of_children hp).mpr hq)
    | body hq _ ih => exact ih.tail (partOf_sugar.mpr hq)
  case mpr =>
    intro h
    generalize hx : pattern p = x at h
    induction h generalizing p with
    | refl =>
      cases hx
      exact .self
    | tail hreach hpart ih =>
      cases hx
      obtain ⟨r, rfl⟩ := partOf_pattern hpart
      obtain ⟨name, args, rfl⟩ | hp := p.sugar_or_plain
      · exact .body (partOf_sugar.mp hpart) (ih rfl)
      · exact .part hp ((partOf_of_children hp).mp hpart) (ih rfl)

end Piece

open Piece

-- At some time of a traversal from these roots: what was noted until then, what was opened, and what is to come.
def Balanced (ns : Notations) (roots noted : List Piece) (opened : Finset Piece) (pending : List Piece) : Prop :=
  ∀ x, x.isLeaf = false → noted.count x + pending.count x = roots.count x + ∑ y ∈ opened, (y.parts ns).count x

namespace Balanced

variable {ns : Notations} {roots noted noted' pending pending' : List Piece} {opened : Finset Piece} {x y : Piece}

theorem start (h : pending.Perm roots) : Balanced ns roots [] ∅ pending := by
  intro x _
  simp [h.count_eq]

theorem perm (h : Balanced ns roots noted opened pending) (hpending : pending'.Perm pending) :
    Balanced ns roots noted opened pending' := by
  intro x hx
  rw [hpending.count_eq, h x hx]

theorem skip (h : Balanced ns roots noted opened (x :: pending)) (hx : x.isLeaf = true) :
    Balanced ns roots noted opened pending := by
  intro y hy
  have hne : x ≠ y := by
    rintro rfl
    cases hx.symm.trans hy
  rw [← h y hy, List.count_cons_of_ne hne]

theorem note (h : Balanced ns roots noted opened (x :: pending)) (hnoted : noted'.Perm (x :: noted)) :
    Balanced ns roots noted' opened pending := by
  intro y hy
  rw [← h y hy, hnoted.count_eq, List.count_cons, List.count_cons]
  omega

theorem enter (h : Balanced ns roots noted opened (x :: pending)) (hnoted : noted'.Perm (x :: noted))
    (hx : x ∉ opened) : Balanced ns roots noted' (insert x opened) (x.parts ns ++ pending) := by
  intro y hy
  have hnote := h.note hnoted y hy
  rw [Finset.sum_insert hx, List.count_append]
  omega

section End

variable (h : Balanced ns roots noted opened []) (hx : x.isLeaf = false)
include h hx

theorem mem_of_root (hroot : x ∈ roots) : x ∈ noted := by
  have hcount := h x hx
  have hpos : 0 < roots.count x := List.count_pos_iff.mpr hroot
  rw [List.count_nil] at hcount
  exact List.count_pos_iff.mp (by omega)

theorem mem_of_part (hy : y ∈ opened) (hpart : PartOf ns x y) : x ∈ noted := by
  have hcount := h x hx
  have hpos : 0 < (y.parts ns).count x := List.count_pos_iff.mpr hpart
  have hle : (y.parts ns).count x ≤ ∑ z ∈ opened, (z.parts ns).count x :=
    Finset.single_le_sum (f := fun z => (z.parts ns).count x) (fun _ _ => Nat.zero_le _) hy
  rw [List.count_nil] at hcount
  exact List.count_pos_iff.mp (by omega)

-- If all that is noted is opened, then so is all that is reached.
theorem mem_opened (hy : y ∈ roots)
    (hopened : ∀ z ∈ noted, z.isLeaf = false → ReflTransGen (PartOf ns) z y → z ∈ opened)
    (hreach : ReflTransGen (PartOf ns) x y) : x ∈ opened := by
  induction hreach using ReflTransGen.head_induction_on with
  | refl => exact hopened y (h.mem_of_root hx hy) hx .refl
  | head hpart hreach ih =>
    have hz := ih (not_isLeaf_of_partOf hpart)
    exact hopened _ (h.mem_of_part hx hz hpart) hx (.head hpart hreach)

end End

end Balanced

namespace Uses

def notes (u : Uses) : List Piece :=
  u.patterns.map .pattern ++ u.proofs.map .proof

theorem count_notes_pattern (u : Uses) (p : Pattern) : u.notes.count (.pattern p) = u.patterns.count p := by
  have hproofs : (u.proofs.map Piece.proof).count (.pattern p) = 0 := List.count_eq_zero_of_not_mem (by simp)
  rw [notes, List.count_append, List.count_map_of_injective _ _ fun _ _ h => pattern.inj h, hproofs, Nat.add_zero]

theorem count_notes_proof (u : Uses) (d : Derivation) : u.notes.count (.proof d) = u.proofs.count d := by
  have hpatterns : (u.patterns.map Piece.pattern).count (.proof d) = 0 := List.count_eq_zero_of_not_mem (by simp)
  rw [notes, List.count_append, hpatterns, List.count_map_of_injective _ _ fun _ _ h => proof.inj h, Nat.zero_add]

-- The counting of uses, with these pieces to come.
structure Tallies (ns : Notations) (roots : List Piece) (u : Uses) (pending : List Piece) : Prop where
  balanced : Balanced ns roots u.notes u.notes.toFinset pending
  composite : ∀ x ∈ u.notes, x.isLeaf = false
  reached : ∀ x ∈ u.notes ++ pending, ∃ y ∈ roots, ReflTransGen (PartOf ns) x y

namespace Tallies

variable {ns : Notations} {roots pending pending' : List Piece} {u u' : Uses} {x : Piece}

theorem start (ns : Notations) (roots : List Piece) : Tallies ns roots ∅ roots where
  balanced := .start (.refl roots)
  composite x hx := by cases hx
  reached x hx := ⟨x, hx, .refl⟩

theorem perm (h : Tallies ns roots u pending) (hpending : pending'.Perm pending) : Tallies ns roots u pending' where
  balanced := h.balanced.perm hpending
  composite := h.composite
  reached x hx := h.reached x (((List.Perm.refl _).append hpending).mem_iff.mp hx)

theorem skip (h : Tallies ns roots u (x :: pending)) (hx : x.isLeaf = true) : Tallies ns roots u pending where
  balanced := h.balanced.skip hx
  composite := h.composite
  reached y hy := h.reached y (by grind)

variable (hnotes : u'.notes.Perm (x :: u.notes))
include hnotes

theorem again (h : Tallies ns roots u (x :: pending)) (hx : x ∈ u.notes) : Tallies ns roots u' pending where
  balanced := by
    have hset : u'.notes.toFinset = u.notes.toFinset := by
      rw [List.toFinset_eq_of_perm _ _ hnotes, List.toFinset_cons, Finset.insert_eq_of_mem (by simpa using hx)]
    rw [hset]
    exact h.balanced.note hnotes
  composite y hy := h.composite y (by grind [hnotes.mem_iff])
  reached y hy := h.reached y (by grind [hnotes.mem_iff])

theorem enter (h : Tallies ns roots u (x :: pending)) (hleaf : x.isLeaf = false) (hx : x ∉ u.notes) :
    Tallies ns roots u' (x.parts ns ++ pending) where
  balanced := by
    rw [List.toFinset_eq_of_perm _ _ hnotes, List.toFinset_cons]
    exact h.balanced.enter hnotes (by simpa using hx)
  composite y hy := by
    obtain rfl | hy := List.mem_cons.mp (hnotes.mem_iff.mp hy)
    · exact hleaf
    · exact h.composite y hy
  reached y hy := by
    have hcases : y ∈ x.parts ns ∨ y ∈ u.notes ++ x :: pending := by grind [hnotes.mem_iff]
    obtain hpart | hy := hcases
    · obtain ⟨z, hz, hreach⟩ := h.reached x (by simp)
      exact ⟨z, hz, .head hpart hreach⟩
    · exact h.reached y hy

end Tallies

theorem tallies_note {ns : Notations} {roots pending : List Piece} {u u' : Uses} {p : Pattern}
    {parts : Uses → Except ConversionError Uses} (hp : p.isLeaf = false)
    (hparts : ∀ {v v'}, parts v = .ok v' → Tallies ns roots v ((Piece.pattern p).parts ns ++ pending) →
      Tallies ns roots v' pending)
    (hrun : Uses.note p parts u = .ok u') (h : Tallies ns roots u (.pattern p :: pending)) :
    Tallies ns roots u' pending := by
  have hmem : Piece.pattern p ∈ u.notes ↔ p ∈ u.patterns := by simp [notes]
  simp only [note] at hrun
  split at hrun
  case isTrue hnoted =>
    cases hrun
    exact h.again (.refl _) (hmem.mpr hnoted)
  case isFalse hnew => exact hparts hrun (h.enter (.refl _) hp fun hnoted => hnew (hmem.mp hnoted))

end Uses

open Uses

theorem Unfolding.tallies_countUses {ns : Notations} {v : Unfolding} (hv : v.Faithful ns) {u u' : Uses}
    {roots pending : List Piece} (hrun : v.countUses u = .ok u')
    (h : Tallies ns roots u (.pattern v.folded :: pending)) : Tallies ns roots u' pending := by
  induction v generalizing u u' pending with
  | symbol | elementVar | setVar | metavar =>
    cases hrun
    exact h.skip rfl
  | app l r ihl ihr | imp l r ihl ihr =>
    refine tallies_note rfl (fun hparts h => ?_) hrun h
    obtain ⟨u₁, h₁, h₂⟩ := bind_eq_ok.mp hparts
    exact ihr hv.2 h₂ (ihl hv.1 h₁ h)
  | ex x b ih | mu x b ih => exact tallies_note rfl (fun hparts h => ih hv hparts h) hrun h
  | sugar name args body ih =>
    refine tallies_note rfl (fun hparts h => ih () hv.2 hparts ?_) hrun h
    have hbody : (Piece.pattern (.sugar name args)).parts ns = [.pattern (body ()).folded] := by
      rw [parts, Notations.parts?_sugar.mpr ⟨_, hv.1, rfl⟩]
      rfl
    rwa [hbody] at h
  | stuck name args reason => exact tallies_note rfl (fun hparts => by cases hparts) hrun h

theorem Notations.tallies_countUses {ns : Notations} {ps : List Pattern} {u u' : Uses} {roots pending : List Piece}
    (hrun : ns.countUses ps u = .ok u') (h : Tallies ns roots u (ps.map .pattern ++ pending)) :
    Tallies ns roots u' pending := by
  induction ps generalizing u with
  | nil =>
    cases hrun
    exact h
  | cons p ps ih =>
    obtain ⟨u₁, h₁, h₂⟩ := bind_eq_ok.mp hrun
    refine ih h₂ (Unfolding.tallies_countUses (ns.faithful_unfolding p) h₁ ?_)
    rwa [ns.folded_unfolding]

theorem Derivation.tallies_countUses {ns : Notations} {d : Derivation} {u u' : Uses} {roots pending : List Piece}
    (hrun : d.countUses ns u = .ok u') (h : Tallies ns roots u (.proof d :: pending)) :
    Tallies ns roots u' pending := by
  have hmem {d : Derivation} {u : Uses} : Piece.proof d ∈ u.notes ↔ d ∈ u.proofs := by simp [notes]
  have hperm (d : Derivation) (u : Uses) : (notes { u with proofs := d :: u.proofs }).Perm (.proof d :: u.notes) :=
    List.perm_middle
  induction d generalizing u u' pending with
  | prop1 | prop2 | prop3 | assumed =>
    cases hrun
    exact h.skip rfl
  | modusPonens left right ihl ihr =>
    simp only [countUses] at hrun
    split at hrun
    case isTrue hnoted =>
      cases hrun
      exact h.again (hperm ..) (hmem.mpr hnoted)
    case isFalse hnew =>
      obtain ⟨u₁, h₁, h₂⟩ := bind_eq_ok.mp hrun
      exact ihr h₂ (ihl h₁ (h.enter (hperm ..) rfl fun hnoted => hnew (hmem.mp hnoted)))
  | instantiate inner s ih =>
    simp only [countUses] at hrun
    split at hrun
    case isTrue hnoted =>
      cases hrun
      exact h.again (hperm ..) (hmem.mpr hnoted)
    case isFalse hnew =>
      obtain ⟨u₁, h₁, h₂⟩ := bind_eq_ok.mp hrun
      -- The plugs are counted before the premise.
      have hparts := h.enter (hperm ..) rfl fun hnoted => hnew (hmem.mp hnoted)
      exact ih h₂ (Notations.tallies_countUses h₁ (hparts.perm List.perm_middle))

theorem Notations.tallies_countProofUses {ns : Notations} {ds : List Derivation} {u u' : Uses}
    {roots pending : List Piece} (hrun : ns.countProofUses ds u = .ok u')
    (h : Tallies ns roots u (ds.map .proof ++ pending)) : Tallies ns roots u' pending := by
  induction ds generalizing u with
  | nil =>
    cases hrun
    exact h
  | cons d ds ih =>
    obtain ⟨u₁, h₁, h₂⟩ := bind_eq_ok.mp hrun
    exact ih h₂ (Derivation.tallies_countUses h₁ h)

end MatchingLogic
