import MatchingLogic.Notation.Unfolding
import MatchingLogic.Proofs.Notation.Expansion

namespace MatchingLogic

namespace Unfolding

def Faithful (ns : Notations) : Unfolding → Prop
  | app l r => l.Faithful ns ∧ r.Faithful ns
  | imp a c => a.Faithful ns ∧ c.Faithful ns
  | ex _ b => b.Faithful ns
  | mu _ b => b.Faithful ns
  | sugar name args body => ns.expand name args = .ok (body ()).folded ∧ (body ()).Faithful ns
  | _ => True

variable {ns : Notations} {unfold : String → List Unfolding → Unfolding}
  {env : List (UInt32 × Unfolding)} {s : Substitution} {us : List Unfolding}

theorem ofPatterns_eq (ps : List Pattern) : ofPatterns unfold env ps = ps.map (ofPattern unfold env) := by
  induction ps with
  | nil => simp [ofPatterns]
  | cons p ps ih => simp [ofPatterns, ih]

theorem folded_ofPattern (hu : ∀ name us, (unfold name us).folded = .sugar name (us.map folded))
    (henv : ∀ id, (env.lookup id).map folded = s.get? id) (p : Pattern) :
    (ofPattern unfold env p).folded = p.instantiate s := by
  induction p with
  | metavar id =>
    rw [ofPattern, Pattern.instantiate_metavar, ← henv]
    cases env.lookup id <;> rfl
  | sugar name args ih =>
    rw [ofPattern, hu, ofPatterns_eq, Pattern.instantiate_sugar, List.map_map]
    exact congrArg _ (List.map_congr_left ih)
  | _ => simp_all [ofPattern, folded]

-- What leaves have and what passes from the parts of a node to the node.
structure Modular (P : Unfolding → Prop) : Prop where
  symbol : ∀ {name}, P (symbol name)
  elementVar : ∀ {id}, P (elementVar id)
  setVar : ∀ {id}, P (setVar id)
  metavar : ∀ {id}, P (metavar id)
  app : ∀ {l r}, P l → P r → P (app l r)
  imp : ∀ {a c}, P a → P c → P (imp a c)
  ex : ∀ {v b}, P b → P (ex v b)
  mu : ∀ {v b}, P b → P (mu v b)

namespace Modular

variable {P : Unfolding → Prop} (hP : Modular P)
include hP

theorem foldl_app {u : Unfolding} (hu : P u) (hus : ∀ v ∈ us, P v) : P (us.foldl .app u) := by
  induction us generalizing u with
  | nil => exact hu
  | cons v us ih => exact ih (hP.app hu (hus v (by simp))) fun w hw => hus w (by simp [hw])

-- The notations of the pattern have to be unfolded in the same way.
theorem ofPattern {p : Pattern}
    (hunfold : ∀ name args, .sugar name args ∈ p.nodes → ∀ us : List Unfolding, us.length = args.length →
      (∀ u ∈ us, P u) → P (unfold name us))
    (henv : ∀ id u, env.lookup id = some u → P u) : P (ofPattern unfold env p) := by
  induction p with
  | symbol => exact hP.symbol
  | elementVar => exact hP.elementVar
  | setVar => exact hP.setVar
  | metavar id =>
    rw [Unfolding.ofPattern]
    cases hget : env.lookup id with
    | none => exact hP.metavar
    | some u => exact henv id u hget
  | app l r ihl ihr =>
    refine hP.app (ihl fun name args hmem => ?_) (ihr fun name args hmem => ?_)
    all_goals exact hunfold name args (by simp [Pattern.nodes, hmem])
  | imp a c iha ihc =>
    refine hP.imp (iha fun name args hmem => ?_) (ihc fun name args hmem => ?_)
    all_goals exact hunfold name args (by simp [Pattern.nodes, hmem])
  | ex v b ih => exact hP.ex (ih fun name args hmem => hunfold name args (by simp [Pattern.nodes, hmem]))
  | mu v b ih => exact hP.mu (ih fun name args hmem => hunfold name args (by simp [Pattern.nodes, hmem]))
  | sugar name args ih =>
    rw [Unfolding.ofPattern, ofPatterns_eq]
    refine hunfold name args (by simp [Pattern.nodes]) _ (List.length_map ..) fun u hu => ?_
    obtain ⟨a, ha, rfl⟩ := List.mem_map.mp hu
    refine ih a ha fun name' args' hmem => hunfold name' args' ?_
    rw [Pattern.nodes_eq]
    exact List.mem_cons_of_mem _ (List.mem_flatMap.mpr ⟨a, ha, hmem⟩)

end Modular

theorem modular_faithful : Modular (Faithful ns) :=
  ⟨trivial, trivial, trivial, trivial, And.intro, And.intro, id, id⟩

theorem folded_foldl_app (u : Unfolding) (us : List Unfolding) :
    (us.foldl app u).folded = u.folded.chain (us.map folded) := by
  induction us generalizing u with
  | nil => rfl
  | cons v us ih => simpa [Pattern.chain, folded] using ih (app u v)

end Unfolding

namespace Notations

open Unfolding

variable {ns : Notations}

theorem folded_unfoldNode (depth : Nat) (name : String) (us : List Unfolding) :
    (ns.unfoldNode depth name us).folded = .sugar name (us.map folded) := by
  cases depth
  case zero => rfl
  case succ depth =>
    simp only [unfoldNode]
    split
    · rfl
    · split <;> rfl

theorem faithful_unfoldNode (depth : Nat) (name : String) (us : List Unfolding)
    (h : ∀ u ∈ us, u.Faithful ns) : (ns.unfoldNode depth name us).Faithful ns := by
  induction depth generalizing name us with
  | zero => trivial
  | succ depth ih =>
    simp only [unfoldNode]
    split
    case h_1 hget =>
      refine ⟨expand_eq_ok.mpr (.inl ⟨hget, ?_⟩), modular_faithful.foldl_app trivial h⟩
      rw [folded_foldl_app, folded]
    case h_2 n hget =>
      split
      case h_2 => trivial
      case h_1 harity =>
        have hlen : (us.map folded).length = n.arity := by
          simpa [Notation.checkArity] using harity
        refine ⟨expand_eq_ok.mpr (.inr ⟨n, hget, hlen, ?_⟩), ?_⟩
        · refine (folded_ofPattern (folded_unfoldNode depth) (fun id => ?_) _).symm
          rw [Substitution.get?_positional, Substitution.lookup_numbered_map]
        · refine modular_faithful.ofPattern (fun name _ _ us _ => ih name us) fun id u hu => ?_
          exact h u (Substitution.mem_of_lookup_numbered hu)

theorem folded_unfolding (ns : Notations) (p : Pattern) : (ns.unfolding p).folded = p := by
  have henv (id : UInt32) : (([] : List (UInt32 × Unfolding)).lookup id).map folded =
      (∅ : Substitution).get? id := rfl
  rw [unfolding, folded_ofPattern (folded_unfoldNode (ns.size + 1)) henv, Pattern.instantiate_empty]

theorem faithful_unfolding (ns : Notations) (p : Pattern) : (ns.unfolding p).Faithful ns :=
  modular_faithful.ofPattern (fun name _ _ us _ => faithful_unfoldNode (ns.size + 1) name us)
    fun _ _ h => by cases h

end Notations
end MatchingLogic
