import MatchingLogic.Proofs.Notation.FullExpansion

namespace MatchingLogic

namespace Substitution

variable {s : Substitution} {qs : List Pattern}

theorem map_fst_zip_ids (h : s.plugs.length = qs.length) : (s.ids.zip qs).map (·.1) = s.ids :=
  List.map_fst_zip (by simp [← h, ids, plugs])

-- Other plugs for the same ids.
def replug (s : Substitution) (qs : List Pattern) (h : s.plugs.length = qs.length) : Substitution where
  bindings := s.ids.zip qs
  ascending := by
    refine List.pairwise_map.mp ?_
    rw [map_fst_zip_ids h]
    exact List.pairwise_map.mpr s.ascending

theorem ids_replug (h : s.plugs.length = qs.length) : (s.replug qs h).ids = s.ids :=
  map_fst_zip_ids h

theorem plugs_replug (h : s.plugs.length = qs.length) : (s.replug qs h).plugs = qs :=
  List.map_snd_zip (by simp [← h, ids, plugs])

end Substitution

namespace Unfolding

variable {ns : Notations} {q : Pattern}

-- The pattern at the end of all unfolding, if the unfolding is nowhere stuck.
def unfolded? : Unfolding → Option Pattern
  | symbol name => some (.symbol name)
  | elementVar id => some (.elementVar id)
  | setVar id => some (.setVar id)
  | metavar id => some (.metavar id)
  | app l r => do return .app (← l.unfolded?) (← r.unfolded?)
  | imp a c => do return .imp (← a.unfolded?) (← c.unfolded?)
  | ex v b => b.unfolded?.map (.ex v)
  | mu v b => b.unfolded?.map (.mu v)
  | sugar _ _ body => (body ()).unfolded?
  | stuck _ _ _ => none

theorem unfolded?_of_unfolds {u : Unfolding} (hfaithful : u.Faithful ns) (hexhaustive : u.Exhaustive ns)
    (h : ns.Unfolds u.folded q) : u.unfolded? = some q := by
  induction u generalizing q with
  | app l r ihl ihr =>
    cases h with
    | app hl hr =>
      rw [unfolded?, ihl hfaithful.1 hexhaustive.1 hl, ihr hfaithful.2 hexhaustive.2 hr]
      rfl
  | imp a c iha ihc =>
    cases h with
    | imp ha hc =>
      rw [unfolded?, iha hfaithful.1 hexhaustive.1 ha, ihc hfaithful.2 hexhaustive.2 hc]
      rfl
  | ex v b ih =>
    cases h with
    | ex hb => rw [unfolded?, ih hfaithful hexhaustive hb, Option.map_some]
  | mu v b ih =>
    cases h with
    | mu hb => rw [unfolded?, ih hfaithful hexhaustive hb, Option.map_some]
  | sugar name args body ih =>
    cases h with
    | sugar hbody h =>
      cases hfaithful.1.symm.trans hbody
      exact ih () hfaithful.2 hexhaustive h
  | stuck name args reason =>
    cases h with
    | sugar hbody => exact absurd hbody (hexhaustive _)
  | _ =>
    cases h
    rfl

end Unfolding

namespace Notations

open Pattern

variable {ns : Notations} {p q : Pattern}

theorem expandFully_of_unfolds (hns : ns.Acyclic) (hp : ns.Proper p) (h : ns.Unfolds p q) :
    ns.expandFully p = .ok q := by
  obtain ⟨q', hq'⟩ := (exists_expandFully_iff hns).mpr hp
  rw [hq', (unfolds_of_expandFully hq').unique h]

theorem Proper.instantiate {s : Substitution} (hp : ns.Proper p) (hs : ∀ v ∈ s.plugs, ns.Proper v) :
    ns.Proper (p.instantiate s) := by
  refine proper_iff.mpr ((proper_iff.mp hp).instantiate fun id v hv => ?_)
  exact proper_iff.mp (hs v (Substitution.mem_plugs_of_get? hv))

-- Unfolding by one level leaves the arguments, and brings in a template that is in order too.
theorem exists_expand_proper {name : String} {args : List Pattern} (h : ns.Proper (.sugar name args)) :
    ∃ body, ns.expand name args = .ok body ∧ ns.Proper body := by
  obtain ⟨hname, hargs⟩ := within_sugar.mp (proper_iff.mp h)
  obtain ⟨hfits, htemplate⟩ := fitsBelow_iff.mp hname
  cases hget : ns.get? name with
  | none =>
    refine ⟨_, expand_eq_ok.mpr (.inl ⟨hget, rfl⟩), proper_iff.mpr ?_⟩
    exact within_symbol.chain hargs
  | some n =>
    refine ⟨_, expand_eq_ok.mpr (.inr ⟨n, hget, hfits n hget, rfl⟩), proper_iff.mpr ?_⟩
    exact (htemplate n hget).instantiate fun id a ha => hargs a (Substitution.mem_of_get?_positional ha)

theorem expandFully_instantiate (hns : ns.Acyclic) {s s' : Substitution} (hp : ns.expandFully p = .ok q)
    (hids : s'.ids = s.ids) (hplugs : List.Forall₂ (fun v v' => ns.expandFully v = .ok v') s.plugs s'.plugs) :
    ns.expandFully (p.instantiate s) = .ok (q.instantiate s') := by
  have hproper : ns.Proper (p.instantiate s) := by
    refine Proper.instantiate ((exists_expandFully_iff hns).mp ⟨q, hp⟩) fun v hv => ?_
    obtain ⟨v', -, hv'⟩ := exists_mem_right hplugs hv
    exact (exists_expandFully_iff hns).mp ⟨v', hv'⟩
  refine expandFully_of_unfolds hns hproper ((unfolds_of_expandFully hp).instantiate fun id => ?_)
  have hunfolds : List.Forall₂ ns.Unfolds s.plugs s'.plugs := hplugs.imp fun _ _ => unfolds_of_expandFully
  have hbindings : s.ids.zip s'.plugs = s'.bindings := by
    rw [← hids]
    exact (List.zip_of_prod rfl rfl).symm
  have hlookup : Option.Rel ns.Unfolds (s.get? id) ((s.ids.zip s'.plugs).lookup id) :=
    Substitution.rel_lookup_zip hunfolds id
  rw [hbindings] at hlookup
  rw [instantiate_metavar, instantiate_metavar]
  exact .getD hlookup (.metavar id)

-- Where no notation leads back to itself, the order in which a pattern is expanded does not matter: plugs may be put
-- in before or after, and whatever full expansion answers, innermost first, it answers for a notation unfolded by one
-- level, and the unfolding of all notations, outermost first, ends with it.
theorem expandFully_commutes (hns : ns.Acyclic) :
    (∀ p q s, ns.expandFully p = .ok q → (∀ v ∈ s.plugs, ∃ v', ns.expandFully v = .ok v') →
      ∃ s' : Substitution, s'.ids = s.ids ∧
        List.Forall₂ (fun v v' => ns.expandFully v = .ok v') s.plugs s'.plugs ∧
        ns.expandFully (p.instantiate s) = .ok (q.instantiate s')) ∧
    (∀ name args q, ns.expandFully (.sugar name args) = .ok q →
      ∃ body, ns.expand name args = .ok body ∧ ns.expandFully body = .ok q) ∧
    ∀ p q, ns.expandFully p = .ok q → (ns.unfolding p).unfolded? = some q := by
  refine ⟨fun p q s hp hs => ?_, fun name args q h => ?_, fun p q hp => ?_⟩
  · obtain ⟨vs, hvs⟩ := exists_mapM hs
    have hplugs := mapM_eq_ok.mp hvs
    have hids := Substitution.ids_replug hplugs.length_eq
    rw [← Substitution.plugs_replug hplugs.length_eq] at hplugs
    exact ⟨_, hids, hplugs, expandFully_instantiate hns hp hids hplugs⟩
  · obtain ⟨body, hbody, hproper⟩ := exists_expand_proper ((exists_expandFully_iff hns).mp ⟨q, h⟩)
    cases unfolds_of_expandFully h with
    | sugar hbody' hunfolds =>
      cases hbody.symm.trans hbody'
      exact ⟨body, hbody, expandFully_of_unfolds hns hproper hunfolds⟩
  · refine Unfolding.unfolded?_of_unfolds (faithful_unfolding ns p) (exhaustive_unfolding hns p) ?_
    rw [folded_unfolding]
    exact unfolds_of_expandFully hp

namespace Dropping

-- One argument stays and one is dropped.
def half (p q : Pattern) : Pattern :=
  .sugar "\\and" [p, .sugar "drop" [q]]

def halfExpanded (p : Pattern) : Pattern :=
  .imp (.imp p (.imp (.symbol "d") (.mu 0 (.setVar 0)))) (.mu 0 (.setVar 0))

end Dropping

-- Both plugs hold metavariables that the substitution binds, and one of them is a notation.
open Dropping in
theorem expandFully_commutes_half :
    registry.Acyclic ∧ registry.expandFully (half (.metavar 0) (.metavar 1)) = .ok (halfExpanded (.metavar 0)) ∧
    (∃ s' : Substitution, s'.ids = [0, 1] ∧
      List.Forall₂ (fun v v' => registry.expandFully v = .ok v') [.neg (.metavar 1), .metavar 0] s'.plugs ∧
      registry.expandFully (half (.neg (.metavar 1)) (.metavar 0)) =
        .ok ((halfExpanded (.metavar 0)).instantiate s')) ∧
    (∃ body, registry.expand "drop" [.neg (.metavar 1)] = .ok body ∧
      registry.expandFully body = .ok (.symbol "d")) ∧
    (registry.unfolding (half (.metavar 0) (.metavar 1))).unfolded? = some (halfExpanded (.metavar 0)) := by
  have hns := acyclic_registry
  obtain ⟨hinstantiate, hexpand, hunfold⟩ := expandFully_commutes hns
  have hhalf : registry.expandFully (half (.metavar 0) (.metavar 1)) = .ok (halfExpanded (.metavar 0)) := by rfl
  refine ⟨hns, hhalf, ?_, hexpand "drop" [.neg (.metavar 1)] (.symbol "d") (by rfl), hunfold _ _ hhalf⟩
  refine hinstantiate _ _ (.positional [.neg (.metavar 1), .metavar 0]) hhalf fun v hv => ?_
  have hplugs : v ∈ [.neg (.metavar 1), .metavar 0] := hv
  simp only [List.mem_cons, List.not_mem_nil, or_false] at hplugs
  obtain rfl | rfl := hplugs
  · exact ⟨.imp (.metavar 1) (.mu 0 (.setVar 0)), by rfl⟩
  · exact ⟨.metavar 0, by rfl⟩

end Notations
end MatchingLogic
