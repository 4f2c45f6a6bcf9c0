import MatchingLogic.Pattern.Basic

namespace MatchingLogic

theorem lookup_cons_if {α β : Type} [BEq α] [LawfulBEq α] [DecidableEq α] (a key : α) (b : β) (l : List (α × β)) :
    ((key, b) :: l).lookup a = if a = key then some b else l.lookup a := by
  rw [List.lookup_cons]
  by_cases h : a = key
  · simp [h]
  · simp [h, beq_eq_false_iff_ne.mpr h]

-- Bindings are listed by ascending id, so that two substitutions with the same bindings are equal.
structure Substitution where
  bindings : List (UInt32 × Pattern)
  ascending : bindings.Pairwise (·.1 < ·.1)
  deriving DecidableEq

namespace Substitution

instance : EmptyCollection Substitution := ⟨[], .nil⟩

instance : Inhabited Substitution := ⟨∅⟩

def isEmpty (s : Substitution) : Bool :=
  s.bindings.isEmpty

def get? (s : Substitution) (id : UInt32) : Option Pattern :=
  s.bindings.lookup id

def ids (s : Substitution) : List UInt32 :=
  s.bindings.map (·.1)

def plugs (s : Substitution) : List Pattern :=
  s.bindings.map (·.2)

def put (id : UInt32) (p : Pattern) : List (UInt32 × Pattern) → List (UInt32 × Pattern)
  | [] => [(id, p)]
  | b :: bs =>
    if id < b.1 then (id, p) :: b :: bs
    else if id = b.1 then (id, p) :: bs
    else b :: put id p bs

theorem mem_put_fst {id : UInt32} {p : Pattern} {bs : List (UInt32 × Pattern)}
    {b : UInt32 × Pattern} (h : b ∈ put id p bs) : b.1 = id ∨ b ∈ bs := by
  induction bs with
  | nil => simp_all [put]
  | cons c bs ih =>
    simp only [put] at h
    split at h
    · grind
    · split at h <;> grind

theorem put_ascending {id : UInt32} {p : Pattern} {bs : List (UInt32 × Pattern)}
    (h : bs.Pairwise (·.1 < ·.1)) : (put id p bs).Pairwise (·.1 < ·.1) := by
  induction bs with
  | nil => simp [put]
  | cons c bs ih =>
    obtain ⟨hc, hbs⟩ := List.pairwise_cons.mp h
    simp only [put]
    split
    case isTrue hlt =>
      refine List.pairwise_cons.mpr ⟨fun b hb => ?_, h⟩
      rcases List.mem_cons.mp hb with rfl | hb
      · exact hlt
      · exact UInt32.lt_trans hlt (hc b hb)
    case isFalse hge =>
      split
      case isTrue heq => exact List.pairwise_cons.mpr ⟨fun b hb => heq ▸ hc b hb, hbs⟩
      case isFalse hne =>
        refine List.pairwise_cons.mpr ⟨fun b hb => ?_, ih hbs⟩
        rcases mem_put_fst hb with hid | hb
        · rw [hid]
          exact UInt32.lt_of_le_of_ne (UInt32.not_lt.mp hge) (Ne.symm hne)
        · exact hc b hb

def insert (s : Substitution) (id : UInt32) (p : Pattern) : Substitution :=
  ⟨put id p s.bindings, put_ascending s.ascending⟩

-- The substitution with these bindings, of which a later one of the same id wins.
def ofList (bs : List (UInt32 × Pattern)) : Substitution :=
  bs.foldl (fun s b => s.insert b.1 b.2) ∅

-- Arguments behind the ids `0`, `1`, … in turn.
def numbered {α : Type} (args : List α) : List (UInt32 × α) :=
  args.zipIdx.map fun (arg, i) => (UInt32.ofNat i, arg)

def positional (args : List Pattern) : Substitution :=
  ofList (numbered args)

def restrict (s : Substitution) (ids : List UInt32) : Substitution where
  bindings := s.bindings.filter (ids.contains ·.1)
  ascending := s.ascending.filter _

theorem lookup_put (i id : UInt32) (p : Pattern) {bs : List (UInt32 × Pattern)}
    (h : bs.Pairwise (·.1 < ·.1)) :
    (put id p bs).lookup i = if i = id then some p else bs.lookup i := by
  induction bs with
  | nil => exact lookup_cons_if i id p []
  | cons b bs ih =>
    obtain ⟨j, q⟩ := b
    obtain ⟨hb, hbs⟩ := List.pairwise_cons.mp h
    simp only [put]
    split
    · exact lookup_cons_if i id p ((j, q) :: bs)
    · split
      · simp only [lookup_cons_if]
        grind
      · simp only [lookup_cons_if, ih hbs]
        grind

@[simp] theorem get?_empty (i : UInt32) : (∅ : Substitution).get? i = none :=
  rfl

theorem get?_insert (s : Substitution) (i id : UInt32) (p : Pattern) :
    (s.insert id p).get? i = if i = id then some p else s.get? i :=
  lookup_put i id p s.ascending

end Substitution

namespace Pattern

mutual

-- The instantiated pattern, or `none` if the substitution changes nothing in it.
def plugged? (s : Substitution) : Pattern → Option Pattern
  | symbol _ | elementVar _ | setVar _ => none
  | metavar id => s.get? id
  | app l r =>
    match plugged? s l, plugged? s r with
    | none, none => none
    | l', r' => some (app (l'.getD l) (r'.getD r))
  | imp a c =>
    match plugged? s a, plugged? s c with
    | none, none => none
    | a', c' => some (imp (a'.getD a) (c'.getD c))
  | ex v b => (plugged? s b).map (ex v)
  | mu v b => (plugged? s b).map (mu v)
  | sugar n args => (pluggedAll? s args).map (sugar n)

def pluggedAll? (s : Substitution) : List Pattern → Option (List Pattern)
  | [] => none
  | p :: ps =>
    match plugged? s p, pluggedAll? s ps with
    | none, none => none
    | p', ps' => some (p'.getD p :: ps'.getD ps)

end

-- Replaces all bound metavariables at once: plugs are put in as they are and not searched again.
def instantiate (p : Pattern) (s : Substitution) : Pattern :=
  (plugged? s p).getD p

section Equations

variable (s : Substitution)

@[simp] theorem instantiate_symbol (n : String) : (symbol n).instantiate s = symbol n := rfl

@[simp] theorem instantiate_elementVar (i : UInt32) : (elementVar i).instantiate s = elementVar i := rfl

@[simp] theorem instantiate_setVar (i : UInt32) : (setVar i).instantiate s = setVar i := rfl

@[simp] theorem instantiate_metavar (i : UInt32) :
    (metavar i).instantiate s = (s.get? i).getD (metavar i) := rfl

@[simp] theorem instantiate_app (l r : Pattern) :
    (app l r).instantiate s = app (l.instantiate s) (r.instantiate s) := by
  simp only [instantiate, plugged?]
  cases plugged? s l <;> cases plugged? s r <;> rfl

@[simp] theorem instantiate_imp (a c : Pattern) :
    (imp a c).instantiate s = imp (a.instantiate s) (c.instantiate s) := by
  simp only [instantiate, plugged?]
  cases plugged? s a <;> cases plugged? s c <;> rfl

@[simp] theorem instantiate_ex (v : UInt32) (b : Pattern) :
    (ex v b).instantiate s = ex v (b.instantiate s) := by
  simp only [instantiate, plugged?]
  cases plugged? s b <;> rfl

@[simp] theorem instantiate_mu (v : UInt32) (b : Pattern) :
    (mu v b).instantiate s = mu v (b.instantiate s) := by
  simp only [instantiate, plugged?]
  cases plugged? s b <;> rfl

theorem pluggedAll?_getD (ps : List Pattern) :
    (pluggedAll? s ps).getD ps = ps.map (·.instantiate s) := by
  induction ps with
  | nil => rfl
  | cons p ps ih =>
    rw [List.map_cons, ← ih]
    simp only [instantiate, pluggedAll?]
    cases plugged? s p <;> cases pluggedAll? s ps <;> rfl

@[simp] theorem instantiate_sugar (n : String) (args : List Pattern) :
    (sugar n args).instantiate s = sugar n (args.map (·.instantiate s)) := by
  rw [← pluggedAll?_getD]
  simp only [instantiate, plugged?]
  cases pluggedAll? s args <;> rfl

end Equations

end Pattern
end MatchingLogic
