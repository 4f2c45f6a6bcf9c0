import Mathlib.Data.List.Forall2

namespace MatchingLogic

variable {ε ε' α β : Type}

theorem bind_eq_ok {x : Except ε α} {f : α → Except ε β} {b : β} :
    x >>= f = .ok b ↔ ∃ a, x = .ok a ∧ f a = .ok b := by
  cases x
  case error => exact ⟨nofun, nofun⟩
  case ok a => exact ⟨fun h => ⟨a, rfl, h⟩, fun ⟨_, ha, h⟩ => by cases ha; exact h⟩

theorem isOk_iff {x : Except ε α} : x.isOk = true ↔ ∃ a, x = .ok a := by
  cases x <;> simp [Except.isOk, Except.toBool]

theorem toOption_eq_some {x : Except ε α} {a : α} : x.toOption = some a ↔ x = .ok a := by
  cases x <;> simp [Except.toOption]

theorem exists_of_any {x : Except ε α} {P : α → Bool} (h : x.toOption.any P) : ∃ a, x = .ok a ∧ P a := by
  cases x
  case error => cases h
  case ok a => exact ⟨a, rfl, h⟩

theorem mapError_eq_ok {x : Except ε α} {f : ε → ε'} {a : α} :
    x.mapError f = .ok a ↔ x = .ok a := by
  cases x <;> simp [Except.mapError]

theorem map_eq_ok {x : Except ε α} {f : α → β} {b : β} :
    x.map f = .ok b ↔ ∃ a, x = .ok a ∧ f a = b := by
  cases x <;> simp [Except.map]

-- A map that is pushed through `c` can be made on the parts or on the whole.
theorem map_return {f : α → α} {g : β → β} {c : α → β} (h : ∀ a, g (c a) = c (f a))
    (x : Except ε α) : (do return c (← x.map f)) = (do return c (← x) : Except ε β).map g := by
  cases x
  case error => rfl
  case ok a => exact congrArg Except.ok (h a).symm

theorem map_return₂ {γ : Type} {f : α → α} {g : β → β} {k : γ → γ} {c : α → β → γ}
    (h : ∀ a b, k (c a b) = c (f a) (g b)) (x : Except ε α) (y : Except ε β) :
    (do return c (← x.map f) (← y.map g)) = (do return c (← x) (← y) : Except ε γ).map k := by
  cases x <;> cases y
  case ok.ok a b => exact congrArg Except.ok (h a b).symm
  all_goals rfl

theorem mapM_eq_ok {f : α → Except ε β} {as : List α} {bs : List β} :
    as.mapM f = .ok bs ↔ List.Forall₂ (fun a b => f a = .ok b) as bs := by
  induction as generalizing bs with
  | nil => cases bs <;> simp [pure, Except.pure]
  | cons a as ih =>
    rw [List.mapM_cons, bind_eq_ok, List.forall₂_cons_left_iff]
    constructor
    · rintro ⟨b, hb, h⟩
      have ⟨bs', hbs, h⟩ := bind_eq_ok.mp h
      cases h
      exact ⟨b, bs', hb, ih.mp hbs, rfl⟩
    · rintro ⟨b, bs', hb, hbs, rfl⟩
      exact ⟨b, hb, bind_eq_ok.mpr ⟨bs', ih.mpr hbs, rfl⟩⟩

theorem exists_mapM {f : α → Except ε β} {as : List α} (h : ∀ a ∈ as, ∃ b, f a = .ok b) :
    ∃ bs, as.mapM f = .ok bs := by
  induction as with
  | nil => exact ⟨[], rfl⟩
  | cons a as ih =>
    have ⟨b, hb⟩ := h a (by simp)
    have ⟨bs, hbs⟩ := ih fun a ha => h a (by simp [ha])
    exact ⟨b :: bs, mapM_eq_ok.mpr (.cons hb (mapM_eq_ok.mp hbs))⟩

-- `x` fails with errors of `E` only.
def FailsOnly (E : ε → Prop) (x : Except ε α) : Prop :=
  ∀ e, x = .error e → E e

namespace FailsOnly

variable {E : ε → Prop}

theorem ok (a : α) : FailsOnly E (.ok a) :=
  nofun

theorem error {e : ε} (h : E e) : FailsOnly E (.error e : Except ε α) :=
  fun _ heq => Except.error.inj heq ▸ h

theorem mapError {E : ε' → Prop} {x : Except ε α} {f : ε → ε'} (h : FailsOnly (fun e => E (f e)) x) :
    FailsOnly E (x.mapError f) := by
  cases x with
  | error e => exact error (h e rfl)
  | ok a => exact ok a

theorem map {x : Except ε α} {f : α → β} (h : FailsOnly E x) : FailsOnly E (x.map f) := by
  cases x with
  | error e => exact error (h e rfl)
  | ok a => exact ok (f a)

theorem bind {x : Except ε α} {f : α → Except ε β} (hx : FailsOnly E x) (hf : ∀ a, FailsOnly E (f a)) :
    FailsOnly E (x >>= f) := by
  cases x with
  | error e => exact error (hx e rfl)
  | ok a => exact hf a

theorem foldlM {f : β → α → Except ε β} {as : List α} (h : ∀ a ∈ as, ∀ b, FailsOnly E (f b a)) (b : β) :
    FailsOnly E (as.foldlM f b) := by
  induction as generalizing b with
  | nil => exact ok b
  | cons a as ih =>
    rw [List.foldlM_cons]
    exact (h a (by simp) b).bind fun b' => ih (fun a ha => h a (by simp [ha])) b'

-- What fails with no error at all succeeds.
theorem exists_ok {x : Except ε α} (h : FailsOnly (fun _ => False) x) : ∃ a, x = .ok a := by
  cases x with
  | error e => exact (h e rfl).elim
  | ok a => exact ⟨a, rfl⟩

end FailsOnly

theorem mem_of_lookup [BEq α] [LawfulBEq α] {l : List (α × β)} {a : α} {b : β}
    (h : l.lookup a = some b) : (a, b) ∈ l := by
  obtain ⟨before, after, rfl, -⟩ := List.lookup_eq_some_iff.mp h
  simp

theorem exists_lookup [BEq α] [LawfulBEq α] {l : List (α × β)} {a : α} {b : β} (h : (a, b) ∈ l) :
    ∃ b', l.lookup a = some b' := by
  cases hl : l.lookup a with
  | none => simpa using List.lookup_eq_none_iff.mp hl _ h
  | some b' => exact ⟨b', rfl⟩

-- An entry under a new key hides nothing.
theorem lookup_cons_of_new [BEq α] [LawfulBEq α] {l : List (α × β)} {a new : α} {b b' : β}
    (hnew : l.lookup new = none) (h : l.lookup a = some b) : ((new, b') :: l).lookup a = some b := by
  have hne : a ≠ new := fun heq => by simp [← heq, h] at hnew
  simpa [List.lookup_cons, beq_false_of_ne hne] using h

theorem exists_mem_left {R : α → β → Prop} {as : List α} {bs : List β} {b : β}
    (h : List.Forall₂ R as bs) (hb : b ∈ bs) : ∃ a ∈ as, R a b := by
  induction h with
  | nil => cases hb
  | cons hab _ ih =>
    cases hb with
    | head => exact ⟨_, List.mem_cons_self, hab⟩
    | tail _ hb =>
      have ⟨a, ha, h⟩ := ih hb
      exact ⟨a, List.mem_cons_of_mem _ ha, h⟩

theorem exists_mem_right {R : α → β → Prop} {as : List α} {bs : List β} {a : α}
    (h : List.Forall₂ R as bs) (ha : a ∈ as) : ∃ b ∈ bs, R a b :=
  exists_mem_left h.flip ha

theorem forall₂_imp_mem {R S : α → β → Prop} {as : List α} {bs : List β} (h : List.Forall₂ R as bs)
    (himp : ∀ a ∈ as, ∀ b ∈ bs, R a b → S a b) : List.Forall₂ S as bs := by
  induction h with
  | nil => exact .nil
  | cons hab _ ih =>
    refine .cons (himp _ (by simp) _ (by simp) hab) (ih fun a ha b hb => ?_)
    exact himp a (by simp [ha]) b (by simp [hb])

theorem exists_getElem?_right {R : α → β → Prop} {as : List α} {bs : List β} {i : Nat} {a : α}
    (h : List.Forall₂ R as bs) (ha : as[i]? = some a) : ∃ b, bs[i]? = some b ∧ R a b := by
  induction h generalizing i with
  | nil => simp at ha
  | cons hab _ ih =>
    cases i with
    | zero =>
      cases ha
      exact ⟨_, rfl, hab⟩
    | succ i => exact ih ha

end MatchingLogic
