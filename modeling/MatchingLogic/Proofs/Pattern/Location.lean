import MatchingLogic.Pattern.Location
import Mathlib.Data.List.Basic

namespace MatchingLogic

-- The shared way `k` and the two indices at which the locations part.
theorem Location.exists_fork {l m : Location} (hl : ¬l <+: m) (hm : ¬m <+: l) :
    ∃ k i j l' m', i ≠ j ∧ l = k ++ i :: l' ∧ m = k ++ j :: m' := by
  induction l generalizing m with
  | nil => exact absurd List.nil_prefix hl
  | cons i l ih =>
    cases m with
    | nil => exact absurd List.nil_prefix hm
    | cons j m =>
      by_cases hij : i = j
      case neg => exact ⟨[], i, j, l, m, hij, rfl, rfl⟩
      case pos =>
        subst hij
        rw [List.prefix_cons_inj] at hl hm
        obtain ⟨k, i', j', l', m', hne, rfl, rfl⟩ := ih hl hm
        exact ⟨i :: k, i', j', l', m', hne, rfl, rfl⟩

namespace Pattern

variable {p p' q r plug : Pattern} {cs ds : List Pattern} {i j : UInt64} {k l m : Location}

-- The node with other children, as many as it had.
def withChildren : Pattern → List Pattern → Pattern
  | app _ _, [l, r] => app l r
  | imp _ _, [a, c] => imp a c
  | ex v _, [b] => ex v b
  | mu v _, [b] => mu v b
  | sugar n _, args => sugar n args
  | p, _ => p

theorem withChildren_children (p : Pattern) : p.withChildren p.children = p := by
  cases p <;> rfl

theorem children_withChildren (h : cs.length = p.children.length) :
    (p.withChildren cs).children = cs := by
  cases p with
  | sugar n args => rfl
  | app l r | imp l r =>
    obtain ⟨l', r', rfl⟩ := List.length_eq_two.mp h
    rfl
  | ex v b | mu v b =>
    obtain ⟨b', rfl⟩ := List.length_eq_one_iff.mp h
    rfl
  | _ =>
    obtain rfl := List.length_eq_zero_iff.mp h
    rfl

theorem withChildren_withChildren (h : cs.length = p.children.length)
    (h' : ds.length = p.children.length) :
    (p.withChildren cs).withChildren ds = p.withChildren ds := by
  cases p with
  | app l r | imp l r =>
    obtain ⟨l₁, r₁, rfl⟩ := List.length_eq_two.mp h
    obtain ⟨l₂, r₂, rfl⟩ := List.length_eq_two.mp h'
    rfl
  | ex v b | mu v b =>
    obtain ⟨b₁, rfl⟩ := List.length_eq_one_iff.mp h
    obtain ⟨b₂, rfl⟩ := List.length_eq_one_iff.mp h'
    rfl
  | _ => rfl

theorem replaceAt?_cons (p : Pattern) (i : UInt64) (l : Location) (plug : Pattern) :
    p.replaceAt? (i :: l) plug =
      p.children[i.toNat]? >>= fun c =>
        (c.replaceAt? l plug).map fun c' => p.withChildren (p.children.set i.toNat c') := by
  -- The index is compared as a machine word on the left and counted as a number on the right.
  have zero : i = 0 ↔ i.toNat = 0 := UInt64.toNat_inj.symm
  have one : i = 1 ↔ i.toNat = 1 := UInt64.toNat_inj.symm
  cases p with
  | sugar n args =>
    simp only [replaceAt?, children, withChildren]
    exact Option.bind_congr fun c _ => (Option.map_eq_bind).symm
  | app left right | imp left right =>
    simp only [replaceAt?, zero, one, children]
    rcases i.toNat with _ | _ | n <;> rfl
  | ex v b | mu v b =>
    simp only [replaceAt?, zero, children]
    rcases i.toNat with _ | n <;> rfl
  | _ => rfl

theorem replaceAt?_cons_eq_some : p.replaceAt? (i :: l) plug = some q ↔
    ∃ c c', p.children[i.toNat]? = some c ∧ c.replaceAt? l plug = some c' ∧
      q = p.withChildren (p.children.set i.toNat c') := by
  simp only [replaceAt?_cons, Option.bind_eq_bind, Option.bind_eq_some_iff, Option.map_eq_some_iff]
  constructor
  case mp =>
    rintro ⟨c, hc, c', hc', rfl⟩
    exact ⟨c, c', hc, hc', rfl⟩
  case mpr =>
    rintro ⟨c, c', hc, hc', rfl⟩
    exact ⟨c, hc, c', hc', rfl⟩

-- What stands at the place of a child after its replacement.
theorem children_set_withChildren {c c' : Pattern} (h : p.children[i.toNat]? = some c) :
    (p.withChildren (p.children.set i.toNat c')).children[i.toNat]? = some c' := by
  have ⟨hi, _⟩ := List.getElem?_eq_some_iff.mp h
  rw [children_withChildren (List.length_set ..), List.getElem?_set_self hi]

theorem children_set_withChildren_of_ne (c : Pattern) (h : i ≠ j) :
    (p.withChildren (p.children.set i.toNat c)).children[j.toNat]? = p.children[j.toNat]? := by
  rw [children_withChildren (List.length_set ..), List.getElem?_set_ne (mt UInt64.toNat_inj.mp h)]

-- Reading goes from child to child.
theorem at?_eq_foldlM (p : Pattern) (l : Location) :
    p.at? l = l.foldlM (fun c i => c.children[i.toNat]?) p := by
  induction l generalizing p with
  | nil => rfl
  | cons i l ih => simp only [at?, ih, List.foldlM_cons]

theorem at?_cons_eq_some :
    p.at? (i :: l) = some r ↔ ∃ c, p.children[i.toNat]? = some c ∧ c.at? l = some r := by
  rw [at?, Option.bind_eq_bind, Option.bind_eq_some_iff]

theorem replaceAt?_isSome (p : Pattern) (l : Location) (plug : Pattern) :
    (p.replaceAt? l plug).isSome = (p.at? l).isSome := by
  induction l generalizing p with
  | nil => rfl
  | cons i l ih =>
    rw [replaceAt?_cons, at?]
    cases p.children[i.toNat]? with
    | none => rfl
    | some c => simpa using ih c

theorem exists_replaceAt? (h : p.at? l = some r) (plug : Pattern) : ∃ q, p.replaceAt? l plug = some q := by
  rw [← Option.isSome_iff_exists, replaceAt?_isSome, h]
  rfl

theorem at?_of_replaceAt? (h : p.replaceAt? l plug = some q) : q.at? l = some plug := by
  induction l generalizing p q with
  | nil => simpa [replaceAt?, at?, eq_comm] using h
  | cons i l ih =>
    obtain ⟨c, c', hc, hc', rfl⟩ := replaceAt?_cons_eq_some.mp h
    simpa [at?, children_set_withChildren hc] using ih hc'

theorem replaceAt?_of_replaceAt? (h : p.replaceAt? l plug = some q) (plug' : Pattern) :
    q.replaceAt? l plug' = p.replaceAt? l plug' := by
  induction l generalizing p q with
  | nil => simp [replaceAt?]
  | cons i l ih =>
    obtain ⟨c, c', hc, hc', rfl⟩ := replaceAt?_cons_eq_some.mp h
    have length (d : Pattern) : (p.children.set i.toNat d).length = p.children.length :=
      List.length_set ..
    rw [replaceAt?_cons, replaceAt?_cons, children_set_withChildren hc, hc,
      children_withChildren (length c')]
    simp only [Option.bind_eq_bind, Option.bind_some, ih hc', List.set_set,
      withChildren_withChildren (length c') (length _)]

theorem replaceAt?_self (h : p.at? l = some r) : p.replaceAt? l r = some p := by
  induction l generalizing p with
  | nil => simpa [at?, replaceAt?, eq_comm] using h
  | cons i l ih =>
    obtain ⟨c, hc, hr⟩ := at?_cons_eq_some.mp h
    have hset : p.children.set i.toNat c = p.children := by
      obtain ⟨hi, rfl⟩ := List.getElem?_eq_some_iff.mp hc
      exact List.set_getElem_self hi
    exact replaceAt?_cons_eq_some.mpr ⟨c, c, hc, ih hr, by rw [hset, withChildren_children]⟩

theorem at?_append (p : Pattern) (l m : Location) : p.at? (l ++ m) = p.at? l >>= (·.at? m) := by
  induction l generalizing p with
  | nil => rfl
  | cons i l ih => simp only [List.cons_append, at?, ih, bind_assoc]

-- Replacing below a location replaces in the pattern that stands there.
theorem replaceAt?_append (p : Pattern) (l m : Location) (plug : Pattern) :
    p.replaceAt? (l ++ m) plug =
      p.at? l >>= fun sub => sub.replaceAt? m plug >>= fun sub' => p.replaceAt? l sub' := by
  induction l generalizing p with
  | nil => simp [at?, replaceAt?]
  | cons i l ih =>
    rw [List.cons_append, replaceAt?_cons, at?]
    cases hc : p.children[i.toNat]? with
    | none => rfl
    | some c =>
      simp only [replaceAt?_cons, hc, ih, Option.bind_eq_bind, Option.bind_some, Option.map_bind,
        Function.comp_def]

theorem replaceAt?_append_eq_some : p.replaceAt? (k ++ l) plug = some p' ↔
    ∃ sub sub', p.at? k = some sub ∧ sub.replaceAt? l plug = some sub' ∧ p.replaceAt? k sub' = some p' := by
  simp only [replaceAt?_append, Option.bind_eq_bind, Option.bind_eq_some_iff, exists_and_left]

-- Two replacements below `k` are made in the pattern that stands there, and what comes of them is put in place once.
theorem replaceAt?_append_bind (p : Pattern) (k l m : Location) (q r : Pattern) :
    (p.replaceAt? (k ++ l) q >>= (·.replaceAt? (k ++ m) r)) =
      p.at? k >>= fun sub => (sub.replaceAt? l q >>= (·.replaceAt? m r)) >>= p.replaceAt? k := by
  rw [replaceAt?_append]
  cases hsub : p.at? k with
  | none => rfl
  | some sub =>
    simp only [Option.bind_eq_bind, Option.bind_some]
    cases sub.replaceAt? l q with
    | none => rfl
    | some sub' =>
      obtain ⟨p', hp'⟩ := exists_replaceAt? hsub sub'
      simp only [Option.bind_some, hp', replaceAt?_append p', at?_of_replaceAt? hp', Option.bind_eq_bind,
        replaceAt?_of_replaceAt? hp']

-- If replacements in two children can be made in one order, they can be made in the other.
theorem replaceAt?_swap {p₁ p₂ : Pattern} (hij : i ≠ j) (h₁ : p.replaceAt? (i :: l) q = some p₁)
    (h₂ : p₁.replaceAt? (j :: m) r = some p₂) :
    ∃ p', p.replaceAt? (j :: m) r = some p' ∧ p'.replaceAt? (i :: l) q = some p₂ := by
  obtain ⟨c, c', hc, hc', rfl⟩ := replaceAt?_cons_eq_some.mp h₁
  obtain ⟨d, d', hd, hd', rfl⟩ := replaceAt?_cons_eq_some.mp h₂
  rw [children_set_withChildren_of_ne c' hij] at hd
  refine ⟨_, replaceAt?_cons_eq_some.mpr ⟨d, d', hd, hd', rfl⟩,
    replaceAt?_cons_eq_some.mpr ⟨c, c', ?child, hc', ?outcome⟩⟩
  case child => rw [children_set_withChildren_of_ne d' hij.symm, hc]
  case outcome =>
    simp only [children_withChildren, withChildren_withChildren, List.length_set]
    rw [List.set_comm _ _ (mt UInt64.toNat_inj.mp hij)]

theorem replaceAt?_comm_of_ne (hij : i ≠ j) (p q r : Pattern) (l m : Location) :
    (p.replaceAt? (i :: l) q >>= (·.replaceAt? (j :: m) r)) =
      p.replaceAt? (j :: m) r >>= (·.replaceAt? (i :: l) q) := by
  refine Option.ext fun p' => ?_
  simp only [Option.bind_eq_bind, Option.bind_eq_some_iff]
  constructor
  case mp =>
    rintro ⟨_, h₁, h₂⟩
    exact replaceAt?_swap hij h₁ h₂
  case mpr =>
    rintro ⟨_, h₁, h₂⟩
    exact replaceAt?_swap hij.symm h₁ h₂

theorem replaceAt?_comm (hl : ¬l <+: m) (hm : ¬m <+: l) (p q r : Pattern) :
    (p.replaceAt? l q >>= (·.replaceAt? m r)) = p.replaceAt? m r >>= (·.replaceAt? l q) := by
  obtain ⟨k, i, j, l, m, hij, rfl, rfl⟩ := Location.exists_fork hl hm
  rw [replaceAt?_append_bind, replaceAt?_append_bind]
  simp only [replaceAt?_comm_of_ne hij]

theorem at?_of_replaceAt?_apart (hl : ¬l <+: m) (hm : ¬m <+: l) (h : p.replaceAt? l plug = some p') :
    p'.at? m = p.at? m := by
  obtain ⟨k, i, j, l, m, hij, rfl, rfl⟩ := Location.exists_fork hl hm
  obtain ⟨sub, sub', hsub, hsub', hp'⟩ := replaceAt?_append_eq_some.mp h
  obtain ⟨_, c', -, -, rfl⟩ := replaceAt?_cons_eq_some.mp hsub'
  rw [at?_append, at?_append, hsub, at?_of_replaceAt? hp']
  simp only [Option.bind_eq_bind, Option.bind_some, at?, children_set_withChildren_of_ne c' hij]

-- A location is read by going from child to child, and what can be read can be replaced and nothing else. What is
-- put in is read back, a later replacement stands for an earlier one, and nothing changes if a pattern takes its own
-- place. A longer location leads on in the pattern that stands at a shorter one, and locations of which neither
-- leads on to the other do not see each other's replacements.
theorem location_laws (p q r : Pattern) (l m : Location) :
    p.at? l = l.foldlM (fun c i => c.children[i.toNat]?) p ∧
    ((p.replaceAt? l q).isSome ↔ (p.at? l).isSome) ∧
    (∀ p', p.replaceAt? l q = some p' → p'.at? l = some q ∧ p'.replaceAt? l r = p.replaceAt? l r) ∧
    (∀ sub, p.at? l = some sub → p.replaceAt? l sub = some p) ∧
    p.replaceAt? (l ++ m) q = (p.at? l >>= fun sub => sub.replaceAt? m q >>= p.replaceAt? l) ∧
    (¬l <+: m → ¬m <+: l →
      (p.replaceAt? l q >>= (·.replaceAt? m r)) = (p.replaceAt? m r >>= (·.replaceAt? l q)) ∧
      ∀ p', p.replaceAt? l q = some p' → p'.at? m = p.at? m) := by
  refine ⟨at?_eq_foldlM p l, ?defined, ?again, fun sub => replaceAt?_self, replaceAt?_append p l m q, ?apart⟩
  case defined => rw [replaceAt?_isSome]
  case again => exact fun p' h => ⟨at?_of_replaceAt? h, replaceAt?_of_replaceAt? h r⟩
  case apart => exact fun hl hm => ⟨replaceAt?_comm hl hm p q r, fun p' => at?_of_replaceAt?_apart hl hm⟩

-- The locations part below the second argument of a notation: one ends there, the other goes on below a binder.
theorem location_laws_forked :
    let p := sugar "pair" [symbol "a", imp (metavar 0) (ex 3 (elementVar 3))]
    let p' := sugar "pair" [symbol "a", imp (symbol "b") (ex 3 (elementVar 3))]
    let l : Location := [1, 0]
    let m : Location := [1, 1, 0]
    p.at? l = some (metavar 0) ∧ p.replaceAt? l (symbol "b") = some p' ∧ p'.replaceAt? l (metavar 0) = some p ∧
    ¬l <+: m ∧ ¬m <+: l ∧ p'.at? m = some (elementVar 3) ∧
    (p.replaceAt? m (symbol "c") >>= (·.replaceAt? l (symbol "b"))) = p'.replaceAt? m (symbol "c") := by
  intro p p' l m
  have hl : ¬l <+: m := by decide
  have hm : ¬m <+: l := by decide
  have hp : p.at? l = some (metavar 0) := by rfl
  have hp' : p.replaceAt? l (symbol "b") = some p' := by rfl
  obtain ⟨-, -, hagain, hself, -, hapart⟩ := location_laws p (symbol "b") (metavar 0) l m
  obtain ⟨hcomm, -⟩ := (location_laws p (symbol "b") (symbol "c") l m).2.2.2.2.2 hl hm
  refine ⟨hp, hp', ?_, hl, hm, (hapart hl hm).2 p' hp', ?_⟩
  · rw [(hagain p' hp').2, hself _ hp]
  · rw [← hcomm, hp', Option.bind_eq_bind, Option.bind_some]

end Pattern
end MatchingLogic
