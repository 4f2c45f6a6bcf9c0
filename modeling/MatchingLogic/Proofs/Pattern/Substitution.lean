import Mathlib.Data.List.Forall2
import MatchingLogic.Pattern.Substitution

namespace MatchingLogic

namespace Substitution

theorem isEmpty_iff {s : Substitution} : s.isEmpty ↔ s = ∅ := by
  obtain ⟨bindings, ascending⟩ := s
  cases bindings with
  | nil => exact ⟨fun _ => rfl, fun _ => rfl⟩
  | cons b bs => exact ⟨nofun, nofun⟩

theorem get?_restrict (s : Substitution) (ids : List UInt32) (i : UInt32) :
    (s.restrict ids).get? i = if i ∈ ids then s.get? i else none := by
  have key (bs : List (UInt32 × Pattern)) :
      (bs.filter (ids.contains ·.1)).lookup i = if i ∈ ids then bs.lookup i else none := by
    induction bs with
    | nil => simp
    | cons b bs ih =>
      obtain ⟨j, p⟩ := b
      by_cases hj : j ∈ ids
      case pos => by_cases hi : i = j <;> simp_all [lookup_cons_if]
      case neg =>
        have hne : i ∈ ids → i ≠ j := fun hi h => hj (h ▸ hi)
        simp only [List.filter_cons, List.contains_iff_mem, hj, if_false, ih, lookup_cons_if]
        grind
  exact key s.bindings

-- The later of two bindings of one id counts.
theorem get?_ofList (bs : List (UInt32 × Pattern)) (i : UInt32) :
    (ofList bs).get? i = bs.reverse.lookup i := by
  have key (s : Substitution) :
      (bs.foldl (fun s b => s.insert b.1 b.2) s).get? i = (bs.reverse.lookup i).or (s.get? i) := by
    induction bs generalizing s with
    | nil => simp
    | cons b bs ih =>
      rw [List.foldl_cons, ih, get?_insert, List.reverse_cons, List.lookup_append]
      obtain ⟨j, p⟩ := b
      cases bs.reverse.lookup i <;> by_cases h : i = j <;> simp [lookup_cons_if, h]
  rw [ofList, key, get?_empty, Option.or_none]

theorem lookup_reverse {bs : List (UInt32 × Pattern)} (h : (bs.map Prod.fst).Nodup) (i : UInt32) :
    bs.reverse.lookup i = bs.lookup i := by
  induction bs with
  | nil => rfl
  | cons b bs ih =>
    obtain ⟨j, p⟩ := b
    have ⟨hj, hbs⟩ := List.nodup_cons.mp h
    rw [List.reverse_cons, List.lookup_append, ih hbs, lookup_cons_if, lookup_cons_if]
    by_cases hi : i = j
    case neg => simp [hi]
    case pos =>
      have hnone : bs.lookup i = none := by
        rw [List.lookup_eq_none_iff]
        intro c hc
        refine bne_iff_ne.mpr fun heq => hj (List.mem_map.mpr ⟨c, hc, ?_⟩)
        exact heq.symm.trans hi
      simp [hi ▸ hnone, hi]

theorem nodup_ids (s : Substitution) : s.ids.Nodup := by
  refine List.pairwise_map.mpr (s.ascending.imp fun hlt heq => ?_)
  simp [heq] at hlt

theorem rel_lookup_zip {R : Pattern → Pattern → Prop} {bs : List (UInt32 × Pattern)}
    {qs : List Pattern} (h : List.Forall₂ R (bs.map Prod.snd) qs) (i : UInt32) :
    Option.Rel R (bs.lookup i) (((bs.map Prod.fst).zip qs).lookup i) := by
  induction bs generalizing qs with
  | nil =>
    cases h
    exact .none
  | cons b bs ih =>
    obtain ⟨j, p⟩ := b
    obtain ⟨q, qs, hq, hqs, rfl⟩ := List.forall₂_cons_left_iff.mp h
    rw [List.map_cons, List.zip_cons_cons, lookup_cons_if, lookup_cons_if]
    by_cases hi : i = j
    case pos => simpa [hi] using hq
    case neg => simpa [hi] using ih hqs

-- The substitution of the same ids by other plugs, which are related to its own one by one.
theorem rel_ofList_zip {R : Pattern → Pattern → Prop} {s : Substitution} {qs : List Pattern}
    (h : List.Forall₂ R s.plugs qs) (i : UInt32) :
    Option.Rel R (s.get? i) ((ofList (s.ids.zip qs)).get? i) := by
  have hlen : s.ids.length ≤ qs.length := by simp [← h.length_eq, ids, plugs]
  have hnodup : ((s.ids.zip qs).map Prod.fst).Nodup := by
    rw [List.map_fst_zip hlen]
    exact s.nodup_ids
  rw [get?_ofList, lookup_reverse hnodup]
  exact rel_lookup_zip h i

section Plugs

variable {s : Substitution} {id : UInt32} {p q : Pattern}

theorem mem_plugs_of_get? (h : s.get? id = some p) : p ∈ s.plugs := by
  rw [get?, List.lookup_eq_some_iff] at h
  obtain ⟨before, after, heq, -⟩ := h
  simp [plugs, heq]

theorem mem_put {b : UInt32 × Pattern} {bs : List (UInt32 × Pattern)} (h : b ∈ put id p bs) :
    b = (id, p) ∨ b ∈ bs := by
  induction bs with
  | nil => simpa [put] using h
  | cons c bs ih =>
    simp only [put] at h
    split at h
    · simpa using h
    · split at h <;> grind

theorem mem_plugs_insert (h : q ∈ (s.insert id p).plugs) : q = p ∨ q ∈ s.plugs := by
  obtain ⟨b, hb, rfl⟩ := List.mem_map.mp h
  obtain rfl | hb := mem_put hb
  · exact .inl rfl
  · exact .inr (List.mem_map_of_mem hb)

theorem mem_plugs_ofList {bs : List (UInt32 × Pattern)} (h : q ∈ (ofList bs).plugs) :
    ∃ b ∈ bs, b.2 = q := by
  have key (bs : List (UInt32 × Pattern)) (s : Substitution)
      (h : q ∈ (bs.foldl (fun s b => s.insert b.1 b.2) s).plugs) : q ∈ s.plugs ∨ ∃ b ∈ bs, b.2 = q := by
    induction bs generalizing s with
    | nil => exact .inl h
    | cons b bs ih =>
      obtain h | ⟨b', hb', h⟩ := ih _ h
      · obtain rfl | h := mem_plugs_insert h
        · exact .inr ⟨b, by simp, rfl⟩
        · exact .inl h
      · exact .inr ⟨b', by simp [hb'], h⟩
  exact (key bs ∅ h).resolve_left nofun

theorem mem_plugs_restrict {ids : List UInt32} (h : q ∈ (s.restrict ids).plugs) : q ∈ s.plugs := by
  obtain ⟨b, hb, rfl⟩ := List.mem_map.mp h
  exact List.mem_map_of_mem (List.mem_of_mem_filter hb)

end Plugs

theorem get?_positional (args : List Pattern) (i : UInt32) :
    (positional args).get? i = (numbered args).reverse.lookup i :=
  get?_ofList _ i

theorem lookup_map_snd {α β : Type} (f : α → β) (bs : List (UInt32 × α)) (i : UInt32) :
    (bs.map fun b => (b.1, f b.2)).lookup i = (bs.lookup i).map f := by
  induction bs with
  | nil => rfl
  | cons b bs ih =>
    obtain ⟨j, a⟩ := b
    rw [List.map_cons, List.lookup_cons, List.lookup_cons, ih]
    cases i == j <;> rfl

-- First `s` and then `t`: the plugs of `s` take `t`, and ids that `s` leaves alone are left to `t`.
def comp (s t : Substitution) : Substitution :=
  ofList (t.bindings ++ s.bindings.map fun b => (b.1, b.2.instantiate t))

theorem get?_comp (s t : Substitution) (i : UInt32) :
    (s.comp t).get? i = ((s.get? i).map (·.instantiate t)).or (t.get? i) := by
  have hs : s.bindings.reverse.lookup i = s.get? i := lookup_reverse s.nodup_ids i
  have ht : t.bindings.reverse.lookup i = t.get? i := lookup_reverse t.nodup_ids i
  rw [comp, get?_ofList, List.reverse_append, List.lookup_append, ← List.map_reverse,
    lookup_map_snd (Pattern.instantiate · t), hs, ht]

theorem lookup_numbered_map {α β : Type} (f : α → β) (args : List α) (i : UInt32) :
    (numbered (args.map f)).reverse.lookup i = ((numbered args).reverse.lookup i).map f := by
  have hmap : numbered (args.map f) = (numbered args).map fun b => (b.1, f b.2) := by
    simp [numbered, List.zipIdx_map]
  rw [hmap, ← List.map_reverse, lookup_map_snd]

theorem get?_positional_map (f : Pattern → Pattern) (args : List Pattern) (i : UInt32) :
    (positional (args.map f)).get? i = ((positional args).get? i).map f := by
  rw [get?_positional, get?_positional, lookup_numbered_map]

theorem lookup_numbered_isSome {α : Type} {args : List α} {i : UInt32} (h : i.toNat < args.length) :
    ((numbered args).reverse.lookup i).isSome := by
  rw [List.lookup_isSome_iff]
  refine ⟨(i, args[i.toNat]), ?_, by simp⟩
  rw [List.mem_reverse, numbered, List.mem_map]
  refine ⟨(args[i.toNat], i.toNat), ?_, by simp⟩
  exact List.mem_zipIdx_iff_getElem?.mpr (List.getElem?_eq_getElem h)

theorem get?_positional_isSome {args : List Pattern} {i : UInt32} (h : i.toNat < args.length) :
    ((positional args).get? i).isSome := by
  rw [get?_positional]
  exact lookup_numbered_isSome h

-- What is found under an id stands at one of the places that have this id.
theorem getElem?_of_lookup_numbered {α : Type} {args : List α} {i : UInt32} {a : α}
    (h : (numbered args).reverse.lookup i = some a) : ∃ j, args[j]? = some a ∧ UInt32.ofNat j = i := by
  rw [List.lookup_eq_some_iff] at h
  obtain ⟨before, after, heq, -⟩ := h
  have hmem : (i, a) ∈ (numbered args).reverse := by simp [heq]
  rw [List.mem_reverse, numbered, List.mem_map] at hmem
  obtain ⟨⟨b, j⟩, hb, heq⟩ := hmem
  cases heq
  exact ⟨j, List.mem_zipIdx_iff_getElem?.mp hb, rfl⟩

theorem mem_of_lookup_numbered {α : Type} {args : List α} {i : UInt32} {a : α}
    (h : (numbered args).reverse.lookup i = some a) : a ∈ args := by
  obtain ⟨j, hj, -⟩ := getElem?_of_lookup_numbered h
  exact List.mem_of_getElem? hj

theorem mem_of_get?_positional {args : List Pattern} {i : UInt32} {p : Pattern}
    (h : (positional args).get? i = some p) : p ∈ args :=
  mem_of_lookup_numbered (get?_positional args i ▸ h)

-- As long as ids do not run out, the one of a place finds what stands there.
theorem lookup_numbered_ofNat {α : Type} {args : List α} {i : Nat} (hsize : args.length ≤ UInt32.size)
    (hi : i < args.length) : (numbered args).reverse.lookup (UInt32.ofNat i) = some args[i] := by
  have hid (j : Nat) (hj : j < args.length) : (UInt32.ofNat j).toNat = j :=
    UInt32.toNat_ofNat_of_lt' (Nat.lt_of_lt_of_le hj hsize)
  obtain ⟨a, ha⟩ := Option.isSome_iff_exists.mp (lookup_numbered_isSome (by rwa [hid i hi]))
  obtain ⟨j, hj, heq⟩ := getElem?_of_lookup_numbered ha
  obtain ⟨hlt, rfl⟩ := List.getElem?_eq_some_iff.mp hj
  obtain rfl : j = i := by rw [← hid j hlt, heq, hid i hi]
  exact ha

-- Arguments that are related one by one are related under each id.
theorem rel_lookup_numbered {α β : Type} {R : α → β → Prop} {args : List α} {args' : List β}
    (h : List.Forall₂ R args args') (i : UInt32) :
    Option.Rel R ((numbered args).reverse.lookup i) ((numbered args').reverse.lookup i) := by
  have hleft : args = (args.zip args').map Prod.fst := by simp [List.map_fst_zip, h.length_eq]
  have hright : args' = (args.zip args').map Prod.snd := by simp [List.map_snd_zip, h.length_eq]
  have hzip := @List.forall₂_zip _ _ R _ _ h
  generalize args.zip args' = pairs at *
  rw [hleft, hright, lookup_numbered_map, lookup_numbered_map]
  cases hget : (numbered pairs).reverse.lookup i with
  | none => exact .none
  | some pair => exact .some (hzip (mem_of_lookup_numbered hget))

theorem rel_positional {R : Pattern → Pattern → Prop} {args args' : List Pattern}
    (h : List.Forall₂ R args args') (i : UInt32) :
    Option.Rel R ((positional args).get? i) ((positional args').get? i) := by
  rw [get?_positional, get?_positional]
  exact rel_lookup_numbered h i

end Substitution

namespace Pattern

open Substitution

section Metavars

variable {id : UInt32}

@[simp] theorem not_mem_metavars_symbol {name : String} : id ∉ (symbol name).metavars := by
  simp [mem_metavars, nodes]

@[simp] theorem mem_metavars_metavar {i : UInt32} : id ∈ (metavar i).metavars ↔ id = i := by
  simp [mem_metavars, nodes]

@[simp] theorem mem_metavars_app {l r : Pattern} :
    id ∈ (app l r).metavars ↔ id ∈ l.metavars ∨ id ∈ r.metavars := by
  simp [mem_metavars, nodes]

@[simp] theorem mem_metavars_imp {a c : Pattern} :
    id ∈ (imp a c).metavars ↔ id ∈ a.metavars ∨ id ∈ c.metavars := by
  simp [mem_metavars, nodes]

@[simp] theorem mem_metavars_ex {v : UInt32} {b : Pattern} :
    id ∈ (ex v b).metavars ↔ id ∈ b.metavars := by
  simp [mem_metavars, nodes]

@[simp] theorem mem_metavars_mu {v : UInt32} {b : Pattern} :
    id ∈ (mu v b).metavars ↔ id ∈ b.metavars := by
  simp [mem_metavars, nodes]

@[simp] theorem mem_metavars_sugar {n : String} {args : List Pattern} :
    id ∈ (sugar n args).metavars ↔ ∃ a ∈ args, id ∈ a.metavars := by
  simp [mem_metavars, nodes, nodesAll_eq]

theorem mem_metavars_chain {p : Pattern} {args : List Pattern} :
    id ∈ (chain p args).metavars ↔ id ∈ p.metavars ∨ ∃ a ∈ args, id ∈ a.metavars := by
  induction args generalizing p with
  | nil => simp [chain]
  | cons a args ih =>
    have hrest := ih (p := app p a)
    simpa [chain, or_assoc] using hrest

end Metavars

variable {p : Pattern} {s t u : Substitution}

-- Two instantiations in a row are one, if they are so on every metavariable that occurs.
theorem instantiate_instantiate
    (h : ∀ id ∈ p.metavars, ((metavar id).instantiate s).instantiate t = (metavar id).instantiate u) :
    (p.instantiate s).instantiate t = p.instantiate u := by
  induction p with
  | symbol | elementVar | setVar => rfl
  | metavar id => exact h id (by simp)
  | app l r ihl ihr =>
    simp only [instantiate_app]
    rw [ihl fun id hid => h id (by simp [hid]), ihr fun id hid => h id (by simp [hid])]
  | imp a c iha ihc =>
    simp only [instantiate_imp]
    rw [iha fun id hid => h id (by simp [hid]), ihc fun id hid => h id (by simp [hid])]
  | ex v b ih =>
    simp only [instantiate_ex]
    rw [ih fun id hid => h id (by simp [hid])]
  | mu v b ih =>
    simp only [instantiate_mu]
    rw [ih fun id hid => h id (by simp [hid])]
  | sugar n args ih =>
    simp only [instantiate_sugar, List.map_map]
    congr 1
    refine List.map_congr_left fun a ha => ?_
    exact ih a ha fun id hid => h id (mem_metavars_sugar.mpr ⟨a, ha, hid⟩)

@[simp] theorem instantiate_empty (p : Pattern) : p.instantiate ∅ = p := by
  induction p with
  | sugar n args ih => simp [List.map_congr_left ih]
  | _ => simp_all

theorem instantiate_congr (h : ∀ id ∈ p.metavars, s.get? id = t.get? id) :
    p.instantiate s = p.instantiate t := by
  rw [← instantiate_empty (p.instantiate s)]
  refine instantiate_instantiate fun id hid => ?_
  simp [h id hid]

-- Metavariables of an instance come from what those of the pattern are replaced by.
theorem mem_metavars_instantiate {id : UInt32} : id ∈ (p.instantiate s).metavars ↔
    ∃ i ∈ p.metavars, id ∈ ((metavar i).instantiate s).metavars := by
  induction p with
  | symbol | elementVar | setVar => simp [mem_metavars, nodes]
  | metavar i => simp
  | app l r ihl ihr | imp l r ihl ihr =>
    simp only [instantiate_app, instantiate_imp, mem_metavars_app, mem_metavars_imp, ihl, ihr, or_and_right,
      exists_or]
  | ex v b ih | mu v b ih => simp only [instantiate_ex, instantiate_mu, mem_metavars_ex, mem_metavars_mu, ih]
  | sugar n args ih =>
    rw [instantiate_sugar, mem_metavars_sugar]
    constructor
    case mp =>
      rintro ⟨_, hb, hid⟩
      obtain ⟨a, ha, rfl⟩ := List.mem_map.mp hb
      obtain ⟨i, hi, hid⟩ := (ih a ha).mp hid
      exact ⟨i, mem_metavars_sugar.mpr ⟨a, ha, hi⟩, hid⟩
    case mpr =>
      rintro ⟨i, hi, hid⟩
      obtain ⟨a, ha, hi⟩ := mem_metavars_sugar.mp hi
      exact ⟨_, List.mem_map_of_mem ha, (ih a ha).mpr ⟨i, hi, hid⟩⟩

theorem instantiate_comp (p : Pattern) (s t : Substitution) :
    (p.instantiate s).instantiate t = p.instantiate (s.comp t) := by
  refine instantiate_instantiate fun id _ => ?_
  rw [instantiate_metavar, instantiate_metavar, get?_comp]
  cases s.get? id <;> simp

theorem instantiate_restrict (p : Pattern) (s : Substitution) :
    p.instantiate (s.restrict p.metavars) = p.instantiate s :=
  instantiate_congr fun id hid => by simp [get?_restrict, hid]

-- The placeholders of a template take what comes later through their arguments.
theorem instantiate_positional {args : List Pattern} (h : ∀ id ∈ p.metavars, id.toNat < args.length)
    (s : Substitution) :
    (p.instantiate (.positional args)).instantiate s =
      p.instantiate (.positional (args.map (·.instantiate s))) := by
  refine instantiate_instantiate fun id hid => ?_
  have hsome := get?_positional_isSome (h id hid)
  simp only [instantiate_metavar, get?_positional_map]
  cases hget : (positional args).get? id with
  | none => simp [hget] at hsome
  | some arg => simp

theorem instantiate_chain (head : Pattern) (args : List Pattern) (s : Substitution) :
    (chain head args).instantiate s = chain (head.instantiate s) (args.map (·.instantiate s)) := by
  induction args generalizing head with
  | nil => rfl
  | cons a args ih => simpa [chain] using ih (app head a)

theorem chain_inj {p q : Pattern} {ps qs : List Pattern} (h : ps.length = qs.length) :
    chain p ps = chain q qs ↔ p = q ∧ ps = qs := by
  induction ps generalizing p q qs with
  | nil =>
    obtain rfl := List.length_eq_zero_iff.mp h.symm
    simp [chain]
  | cons a ps ih =>
    obtain ⟨b, qs, rfl⟩ := List.exists_cons_of_length_eq_add_one h.symm
    have hrest : chain (app p a) ps = chain (app q b) qs ↔ app p a = app q b ∧ ps = qs :=
      ih (Nat.succ.inj h)
    simpa [chain, and_assoc] using hrest

theorem unchain_chain (head : Pattern) (args : List Pattern) :
    (chain head args).unchain = (head.unchain.1, head.unchain.2 ++ args) := by
  induction args generalizing head with
  | nil => simp [chain]
  | cons a args ih => simpa [chain, unchain] using ih (app head a)

-- A symbol heads a spine in one way only.
theorem chain_symbol_inj {f g : String} {ps qs : List Pattern} :
    chain (.symbol f) ps = chain (.symbol g) qs ↔ f = g ∧ ps = qs := by
  constructor
  case mp =>
    intro h
    simpa [unchain_chain, unchain] using congrArg unchain h
  case mpr =>
    rintro ⟨rfl, rfl⟩
    rfl

theorem head_chain (p : Pattern) (args : List Pattern) : (chain p args).head = p.head := by
  induction args generalizing p with
  | nil => rfl
  | cons a args ih => exact ih (app p a)

end Pattern
end MatchingLogic
