import Mathlib.Data.Finset.Card
import Mathlib.Logic.Relation
import MatchingLogic.Proofs.Notation.Arity

namespace MatchingLogic

namespace Notations

variable {ns : Notations} {name other : String}

-- The template of the one notation has the other in it.
def Refers (ns : Notations) (name other : String) : Prop :=
  ns.contains other ∧ ∃ n args, ns.get? name = some n ∧ .sugar other args ∈ n.template.nodes

def Acyclic (ns : Notations) : Prop :=
  ∀ name, ¬Relation.TransGen ns.Refers name name

theorem mem_names_of_contains (h : ns.contains name) : name ∈ ns.entries.map (·.name) := by
  obtain ⟨n, hget⟩ := Option.isSome_iff_exists.mp h
  exact List.mem_map.mpr ⟨n, List.mem_of_find?_eq_some hget, by simpa using List.find?_some hget⟩

open Classical in
-- All to which a notation leads.
noncomputable def below (ns : Notations) (name : String) : Finset String :=
  (ns.entries.map (·.name)).toFinset.filter (Relation.TransGen ns.Refers name)

theorem mem_below : other ∈ ns.below name ↔
    other ∈ ns.entries.map (·.name) ∧ Relation.TransGen ns.Refers name other := by
  classical
  simp [below]

theorem card_below_lt (h : ns.Acyclic) (hrefers : ns.Refers name other) :
    (ns.below other).card < (ns.below name).card := by
  refine Finset.card_lt_card ⟨fun m hm => ?_, fun hsubset => ?_⟩
  · obtain ⟨hmem, hleads⟩ := mem_below.mp hm
    exact mem_below.mpr ⟨hmem, .head hrefers hleads⟩
  · have hother := mem_below.mpr ⟨mem_names_of_contains hrefers.1, .single hrefers⟩
    exact h other (mem_below.mp (hsubset hother)).2

theorem card_below_lt_size (h : ns.Acyclic) (hname : ns.contains name) : (ns.below name).card < ns.size := by
  have hsize : (ns.entries.map (·.name)).toFinset.card = ns.size := by
    rw [List.toFinset_card_of_nodup ns.distinct, List.length_map, size]
  rw [← hsize]
  refine Finset.card_lt_card ⟨fun m hm => List.mem_toFinset.mpr (mem_below.mp hm).1, fun hsubset => ?_⟩
  exact h name (mem_below.mp (hsubset (List.mem_toFinset.mpr (mem_names_of_contains hname)))).2

-- Through how many templates the unfolding of a notation may go.
noncomputable def height (ns : Notations) (name : String) : Nat :=
  if ns.contains name then (ns.below name).card + 1 else 0

theorem height_le_size (h : ns.Acyclic) (name : String) : ns.height name ≤ ns.size := by
  rw [height]
  split
  case isTrue hname => exact card_below_lt_size h hname
  case isFalse => exact Nat.zero_le _

theorem height_lt (h : ns.Acyclic) {n : Notation} (hget : ns.get? name = some n) :
    n.template.Within fun other _ => ns.height other < ns.height name := by
  intro other args hmem
  have hname : ns.contains name := Option.isSome_iff_exists.mpr ⟨n, hget⟩
  rw [height, height, if_pos hname]
  split
  case isTrue hother => exact Nat.succ_lt_succ (card_below_lt h ⟨hother, n, args, hget, hmem⟩)
  case isFalse => exact Nat.succ_pos _

end Notations

namespace Unfolding

variable {ns : Notations}

-- Where the unfolding is stuck, there is no expansion.
def Exhaustive (ns : Notations) : Unfolding → Prop
  | app l r => l.Exhaustive ns ∧ r.Exhaustive ns
  | imp a c => a.Exhaustive ns ∧ c.Exhaustive ns
  | ex _ b => b.Exhaustive ns
  | mu _ b => b.Exhaustive ns
  | sugar _ _ body => (body ()).Exhaustive ns
  | stuck name args _ => ∀ p, ns.expand name args ≠ .ok p
  | _ => True

theorem modular_exhaustive : Modular (Exhaustive ns) :=
  ⟨trivial, trivial, trivial, trivial, And.intro, And.intro, id, id⟩

end Unfolding

namespace Notations

open Unfolding

variable {ns : Notations}

theorem exhaustive_unfoldNode (h : ns.Acyclic) {depth : Nat} {name : String} {us : List Unfolding}
    (hname : ns.height name < depth) (hus : ∀ u ∈ us, u.Exhaustive ns) :
    (ns.unfoldNode depth name us).Exhaustive ns := by
  induction depth generalizing name us with
  | zero => exact absurd hname (Nat.not_lt_zero _)
  | succ depth ih =>
    simp only [unfoldNode]
    split
    case h_1 => exact modular_exhaustive.foldl_app trivial hus
    case h_2 n hget =>
      split
      case h_1 =>
        have hbody : n.template.Within fun other _ => ns.height other < depth :=
          (height_lt h hget).mono fun hlt => by omega
        exact modular_exhaustive.ofPattern_within ih
          (fun id u hu => hus u (Substitution.mem_of_lookup_numbered hu)) hbody
      case h_2 harity =>
        intro p hp
        obtain ⟨hnone, -⟩ | ⟨m, hm, hlen, -⟩ := expand_eq_ok.mp hp
        · simp [hget] at hnone
        · cases hget.symm.trans hm
          simp [Notation.checkArity, hlen] at harity

theorem exhaustive_unfolding (h : ns.Acyclic) (p : Pattern) : (ns.unfolding p).Exhaustive ns := by
  have hp : p.Within fun name _ => ns.height name < ns.size + 1 :=
    fun name _ _ => Nat.lt_succ_of_le (height_le_size h name)
  refine modular_exhaustive.ofPattern_within ?_ (fun id u hu => by cases hu) hp
  exact exhaustive_unfoldNode h

-- A rank by which templates go down leaves no way back.
theorem Grounded.acyclic {rank : String → Nat} (h : ns.Grounded rank) : ns.Acyclic := by
  have hlt {name other : String} (hleads : Relation.TransGen ns.Refers name other) :
      rank other < rank name := by
    induction hleads with
    | single hrefers =>
      obtain ⟨-, n, args, hget, hmem⟩ := hrefers
      exact (h.template_of_get? hget _ args hmem).2
    | tail _ hrefers ih =>
      obtain ⟨-, n, args, hget, hmem⟩ := hrefers
      exact Nat.lt_trans (h.template_of_get? hget _ args hmem).2 ih
  exact fun name hleads => Nat.lt_irrefl _ (hlt hleads)

end Notations
end MatchingLogic
