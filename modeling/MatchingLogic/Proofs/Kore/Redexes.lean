import MatchingLogic.Proofs.Kore.Answers
import MatchingLogic.Proofs.Kore.Stability
import MatchingLogic.Proofs.Pattern.Location

namespace MatchingLogic

namespace Pattern

variable {p p' q r a a' : Pattern} {l : Location}

theorem appliedHead?_eq_some : p.appliedHead? = some q ↔
    ∃ sorts a, p = sugar "kore-app" [sorts, a] ∧ q = a.head := by
  constructor
  case mp =>
    intro h
    simp only [appliedHead?] at h
    split at h
    case h_1 sorts a => exact ⟨sorts, a, rfl, (Option.some.inj h).symm⟩
    case h_2 => cases h
  case mpr =>
    rintro ⟨sorts, a, rfl, rfl⟩
    rfl

-- All sorted applications are of a symbol.
def Spined (p : Pattern) : Prop :=
  ∀ q ∈ p.applied, ∃ name, q = symbol name

theorem spined_iff : p.Spined ↔
    (∀ q, p.appliedHead? = some q → ∃ name, q = symbol name) ∧ ∀ q ∈ p.children, q.Spined := by
  simp only [Spined, applied_eq p, List.mem_append, List.mem_flatMap, Option.mem_toList]
  constructor
  case mp => exact fun h => ⟨fun u hu => h u (.inl hu), fun q hq u hu => h u (.inr ⟨q, hq, hu⟩)⟩
  case mpr =>
    rintro ⟨hhead, hrest⟩ u (hu | ⟨q, hq, hu⟩)
    · exact hhead u hu
    · exact hrest q hq u hu

@[simp] theorem spined_symbol (name : String) : (symbol name).Spined := by
  simp [Spined]

@[simp] theorem spined_app : (app p q).Spined ↔ p.Spined ∧ q.Spined := by
  rw [spined_iff]
  simp [appliedHead?, children]

@[simp] theorem spined_imp : (imp p q).Spined ↔ p.Spined ∧ q.Spined := by
  rw [spined_iff]
  simp [appliedHead?, children]

@[simp] theorem spined_ex {v : UInt32} : (ex v p).Spined ↔ p.Spined := by
  rw [spined_iff]
  simp [appliedHead?, children]

@[simp] theorem spined_mu {v : UInt32} : (mu v p).Spined ↔ p.Spined := by
  rw [spined_iff]
  simp [appliedHead?, children]

theorem spined_sugar {name : String} {args : List Pattern} (h : (sugar name args).appliedHead? = none) :
    (sugar name args).Spined ↔ ∀ a ∈ args, a.Spined := by
  rw [spined_iff]
  simp [h, children]

theorem Spined.child (h : p.Spined) (hq : q ∈ p.children) : q.Spined :=
  (spined_iff.mp h).2 q hq

-- What has no symbol as its head does not stand at the head of an application of a symbol.
theorem head_replaceAt? {f : String} (ha : a.head = symbol f) (hq : ∀ name, q.head ≠ symbol name)
    (hat : a.at? l = some q) (hreplace : a.replaceAt? l r = some a') : a'.head = symbol f := by
  induction l generalizing a a' with
  | nil =>
    cases hat
    exact absurd ha (hq f)
  | cons i l ih =>
    obtain ⟨c, c', hc, hc', rfl⟩ := replaceAt?_cons_eq_some.mp hreplace
    have hbelow : c.at? l = some q := by simpa [at?, hc] using hat
    cases a with
    | app left right =>
      rcases hi : i.toNat with _ | _ | n
      all_goals simp only [hi, children] at hc ⊢
      · cases hc
        have hleft : c.head = symbol f := ha
        have hleft' : c'.head = symbol f := ih hleft hbelow hc'
        exact hleft'
      · exact ha
      · simp at hc
    | symbol name => simp [children] at hc
    | _ => cases ha

-- A node is a notation if it is one with other children.
theorem eq_sugar_of_withChildren {cs args : List Pattern} {name : String}
    (hlength : cs.length = p.children.length) (h : p.withChildren cs = sugar name args) :
    p = sugar name p.children ∧ p.children.length = args.length := by
  have hback : (p.withChildren cs).withChildren p.children = p.withChildren p.children :=
    withChildren_withChildren hlength rfl
  have hchildren := children_withChildren hlength
  rw [h] at hback hchildren
  exact ⟨(hback.trans (withChildren_children p)).symm, by rw [← hlength, ← hchildren, children]⟩

theorem appliedHead?_eq_none (h : ¬∃ sorts a, p = sugar "kore-app" [sorts, a]) : p.appliedHead? = none := by
  refine Option.eq_none_iff_forall_ne_some.mpr fun q hq => h ?_
  obtain ⟨sorts, a, heq, -⟩ := appliedHead?_eq_some.mp hq
  exact ⟨sorts, a, heq⟩

theorem appliedHead?_withChildren {c c' : Pattern} {i : UInt64} (hp : p.Spined)
    (hq : ∀ name, q.head ≠ symbol name) (hc : p.children[i.toNat]? = some c) (hat : c.at? l = some q)
    (hreplace : c.replaceAt? l r = some c') :
    (p.withChildren (p.children.set i.toNat c')).appliedHead? = p.appliedHead? := by
  by_cases hsorted : ∃ sorts a, p = sugar "kore-app" [sorts, a]
  case neg =>
    rw [appliedHead?_eq_none hsorted, appliedHead?_eq_none]
    rintro ⟨sorts, a, h⟩
    obtain ⟨heq, htwo⟩ := eq_sugar_of_withChildren (List.length_set ..) h
    obtain ⟨x, y, hxy⟩ := List.length_eq_two.mp htwo
    exact hsorted ⟨x, y, hxy ▸ heq⟩
  case pos =>
    obtain ⟨sorts, a, rfl⟩ := hsorted
    rcases hi : i.toNat with _ | _ | n
    all_goals simp only [hi, children] at hc ⊢
    · rfl
    · cases hc
      obtain ⟨f, hf⟩ := (spined_iff.mp hp).1 c.head rfl
      have hhead : some c'.head = some c.head := by rw [hf, head_replaceAt? hf hq hat hreplace]
      exact hhead
    · simp at hc

-- What is applied in the one pattern goes, and what is applied in the other comes.
theorem applied_replaceAt? (hp : p.Spined) (hq : ∀ name, q.head ≠ symbol name) (hat : p.at? l = some q)
    (hreplace : p.replaceAt? l r = some p') : (p'.applied ++ q.applied).Perm (p.applied ++ r.applied) := by
  induction l generalizing p p' with
  | nil =>
    cases hat
    cases hreplace
    exact List.perm_append_comm
  | cons i l ih =>
    obtain ⟨c, c', hc, hc', rfl⟩ := replaceAt?_cons_eq_some.mp hreplace
    have hat : c.at? l = some q := by simpa [at?, hc] using hat
    have hhead := appliedHead?_withChildren hp hq hc hat hc'
    have hperm := ih (hp.child (List.mem_of_getElem? hc)) hat hc'
    obtain ⟨hi, rfl⟩ := List.getElem?_eq_some_iff.mp hc
    obtain ⟨before, after, hsplit, -, hset⟩ := @List.exists_of_set _ _ c' _ hi
    rw [applied_eq (p.withChildren _), applied_eq p, hhead, children_withChildren (List.length_set ..), hset]
    generalize p.children[i.toNat] = c at *
    rw [hsplit]
    refine List.perm_iff_count.mpr fun u => ?_
    have hcount := hperm.count_eq u
    simp only [List.flatMap_append, List.flatMap_cons, List.count_append] at hcount ⊢
    omega

theorem Spined.replaceAt? (hp : p.Spined) (hr : r.Spined) (hq : ∀ name, q.head ≠ symbol name)
    (hat : p.at? l = some q) (hreplace : p.replaceAt? l r = some p') : p'.Spined := by
  intro u hu
  have hmem := (applied_replaceAt? hp hq hat hreplace).mem_iff.mp (List.mem_append_left _ hu)
  exact (List.mem_append.mp hmem).elim (hp u) (hr u)

theorem head_instantiate {f : String} (ha : a.head = symbol f) (s : Substitution) :
    (a.instantiate s).head = symbol f := by
  induction a with
  | symbol name => exact ha
  | app left right ih _ =>
    rw [instantiate_app]
    exact ih ha
  | _ => cases ha

theorem Spined.instantiate {s : Substitution} (hp : p.Spined) (hs : ∀ q ∈ s.plugs, q.Spined) :
    (p.instantiate s).Spined := by
  induction p with
  | metavar id =>
    rw [instantiate_metavar]
    cases hid : s.get? id with
    | none => exact hp
    | some q => exact hs q (Substitution.mem_plugs_of_get? hid)
  | app l r ihl ihr =>
    rw [instantiate_app]
    exact spined_app.mpr ((spined_app.mp hp).imp ihl ihr)
  | imp a c iha ihc =>
    rw [instantiate_imp]
    exact spined_imp.mpr ((spined_imp.mp hp).imp iha ihc)
  | ex v b ih =>
    rw [instantiate_ex]
    exact spined_ex.mpr (ih (spined_ex.mp hp))
  | mu v b ih =>
    rw [instantiate_mu]
    exact spined_mu.mpr (ih (spined_mu.mp hp))
  | sugar name args ih =>
    rw [instantiate_sugar]
    refine spined_iff.mpr ⟨fun q hq => ?applied, fun q hq => ?below⟩
    case applied =>
      obtain ⟨sorts, a, heq, rfl⟩ := appliedHead?_eq_some.mp hq
      obtain ⟨rfl, hargs⟩ := sugar.inj heq
      obtain ⟨sorts, rest, rfl, rfl, hrest⟩ := List.map_eq_cons_iff.mp hargs
      obtain ⟨a, rfl, rfl⟩ := List.map_eq_singleton_iff.mp hrest
      obtain ⟨f, hf⟩ := (spined_iff.mp hp).1 a.head rfl
      exact ⟨f, head_instantiate hf s⟩
    case below =>
      obtain ⟨a, ha, rfl⟩ := List.mem_map.mp hq
      exact ih a ha (hp.child ha)
  | _ => exact hp

-- The right side of a transition or an equation.
theorem Spined.right (hp : p.Spined) (h : p.sides? = some (q, r)) : r.Spined := by
  have hlast {name : String} {sort : Pattern} (heq : p = sugar name [sort, q, r]) : r.Spined := by
    subst heq
    exact hp.child (by simp [children])
  obtain h | ⟨-, h⟩ := Option.or_eq_some_iff.mp h
  · obtain ⟨sort, heq⟩ := transition?_eq_some h
    exact hlast heq
  · simp only [equation?] at h
    split at h
    case h_1 =>
      split at h
      case isTrue =>
        cases h
        exact hlast rfl
      case isFalse => cases h
    case h_2 => cases h

end Pattern

namespace Kore

open Conversion Converter

namespace Converter

variable {c : Converter} {p p' q r : Pattern} {l : Location}

theorem isRedex_iff : c.isRedex p ↔ ∃ q, p.appliedHead? = some q ∧ q ∈ c.simplifiable := by
  simp only [isRedex, Pattern.appliedHead?]
  split <;> simp

theorem redexes_eq (c : Converter) (p : Pattern) : c.redexes p = p.applied.countP (· ∈ c.simplifiable) := by
  rw [redexes, Pattern.applied, List.countP_filterMap]
  refine congrArg (List.countP · p.nodes) (funext fun q => ?_)
  rw [Bool.eq_iff_iff, isRedex_iff]
  cases q.appliedHead? <;> simp

-- A redex that contains no other one.
def Innermost (c : Converter) (p : Pattern) : Prop :=
  c.isRedex p ∧ ∀ q ∈ p.children.flatMap Pattern.nodes, ¬c.isRedex q

instance (c : Converter) : DecidablePred c.Innermost :=
  fun p => inferInstanceAs (Decidable (c.isRedex p ∧ ∀ q ∈ p.children.flatMap Pattern.nodes, ¬c.isRedex q))

theorem Innermost.redexes (h : c.Innermost p) : c.redexes p = 1 := by
  rw [Converter.redexes, Pattern.nodes_eq, List.countP_cons_of_pos h.1, List.countP_eq_zero.mpr h.2]

theorem Innermost.head (h : c.Innermost p) (name : String) : p.head ≠ .symbol name := by
  obtain ⟨q, hq, -⟩ := isRedex_iff.mp h.1
  obtain ⟨sorts, a, rfl, -⟩ := Pattern.appliedHead?_eq_some.mp hq
  exact Pattern.noConfusion

-- The replacement of an innermost redex takes one redex away and adds those of its replacement.
theorem Innermost.replaceAt? (hq : c.Innermost q) (hp : p.Spined) (hat : p.at? l = some q)
    (hreplace : p.replaceAt? l r = some p') : c.redexes p' + 1 = c.redexes p + c.redexes r := by
  have hcount := (Pattern.applied_replaceAt? hp hq.head hat hreplace).countP_eq (· ∈ c.simplifiable)
  simp only [List.countP_append, ← redexes_eq, hq.redexes] at hcount
  exact hcount

end Converter

namespace Term

variable {c : Converter} {t : Term} {p : Pattern} {inCell : Bool} {known : String → Bool}

theorem Reads.spined (h : t.Reads c known inCell p) (hc : c.Orderly) : p.Spined := by
  intro q hq
  obtain ⟨f, -, rfl⟩ := h.mem_applied hc hq
  exact ⟨_, rfl⟩

end Term

end Kore

def Axiom.Spined (a : Axiom) : Prop :=
  a.pattern.Spined ∧ ∀ q ∈ a.requires.plugs, q.Spined

namespace Kore.Converter

structure Regular (c : Converter) : Prop extends c.Orderly where
  stored : ∀ entry ∈ c.converted, entry.2.Spined

theorem steady_regular : Steady Regular where
  addSymbol hc name := ⟨lasting_orderly.addSymbol hc.toOrderly name, hc.stored⟩
  addMetavar hc name := ⟨lasting_orderly.addMetavar hc.toOrderly name, hc.stored⟩
  addCell hc hnew hname := ⟨lasting_orderly.addCell hc.toOrderly hnew hname, hc.stored⟩

theorem spined_convert (t : Term) : Conversion.Keeps Regular Pattern.Spined t.convert := by
  intro c hc
  have hreads : Conversion.Leads (fun _ => True) t.convert c fun p c' => t.Reads c' c.isCell false p :=
    Term.leads_convertIn (fun _ _ _ => trivial) fun _ _ _ => trivial
  refine (((steady_regular.convert t c hc).and hreads).mono fun p c' h => ?_).weaken fun _ _ h => h.1
  exact ⟨h.1.1, h.2.2.spined h.1.1.toOrderly⟩

theorem upholds_spined : Upholds Regular Pattern.Spined MatchingLogic.Axiom.Spined where
  toSteady := steady_regular
  convert := spined_convert
  transition hl hr :=
    ⟨(Pattern.spined_sugar rfl).mpr (by simpa using ⟨hl, hr⟩), Substitution.forall_plugs_empty⟩
  equation hl hr hs := ⟨(Pattern.spined_sugar rfl).mpr (by simpa using ⟨hl, hr⟩), hs⟩
  unclassified hp := ⟨hp, Substitution.forall_plugs_empty⟩
  stored hc := hc.stored
  addAxiom hc hb := ⟨⟨hc.cells, hc.vouched, hc.functional⟩, List.forall_mem_cons.mpr ⟨hb, hc.stored⟩⟩

end Kore.Converter
end MatchingLogic
