import MatchingLogic.Proofs.Certificate.Calls

namespace MatchingLogic

open Call Piece Relation Uses

theorem not_self_of_acc {α : Type} {r : α → α → Prop} {a : α} (h : Acc r a) : ¬r a a := by
  induction h with
  | intro a _ ih => exact fun hr => ih a hr hr

namespace Derivation

-- Below the last rule of the other derivation.
def Inside (d e : Derivation) : Prop :=
  TransGen (fun d e => d ∈ e.premises) d e

theorem Inside.sizeOf_lt {d e : Derivation} (h : d.Inside e) : sizeOf d < sizeOf e := by
  have hstep {d e : Derivation} (h : d ∈ e.premises) : sizeOf d < sizeOf e := by
    cases e with
    | modusPonens left right =>
      obtain rfl | rfl : d = left ∨ d = right := by simpa [premises] using h
      all_goals
        simp only [modusPonens.sizeOf_spec]
        omega
    | instantiate inner s =>
      obtain rfl : d = inner := by simpa [premises] using h
      simp only [instantiate.sizeOf_spec]
      omega
    | _ => cases h
  induction h with
  | single h => exact hstep h
  | tail _ h ih => exact Nat.lt_trans ih (hstep h)

end Derivation

namespace Piece

variable {ns : Notations} {d e : Derivation} {x : Piece}

theorem partOf_proof (h : PartOf ns (proof d) x) : ∃ e, x = proof e ∧ d ∈ e.premises := by
  cases x with
  | pattern p =>
    obtain ⟨q, hq⟩ := partOf_pattern h
    cases hq
  | proof e => exact ⟨e, rfl, by simpa [PartOf, parts] using h⟩

theorem inside_of_partOf (h : TransGen (PartOf ns) (proof d) (proof e)) : d.Inside e := by
  have hproof {x : Piece} (h : TransGen (PartOf ns) (proof d) x) : ∃ e, x = proof e ∧ d.Inside e := by
    induction h with
    | single h =>
      obtain ⟨e, rfl, hmem⟩ := partOf_proof h
      exact ⟨e, rfl, .single hmem⟩
    | tail _ h ih =>
      obtain ⟨e, rfl, hinside⟩ := ih
      obtain ⟨e', rfl, hmem⟩ := partOf_proof h
      exact ⟨e', rfl, .tail hinside hmem⟩
  obtain ⟨e', heq, hinside⟩ := hproof h
  cases heq
  exact hinside

-- What is being written contains the piece, and so its parts.
theorem partOf_stack {y : Piece} {stack : List Piece} (hpart : PartOf ns x y)
    (hstack : ∀ z ∈ stack, TransGen (PartOf ns) y z) : ∀ z ∈ y :: stack, TransGen (PartOf ns) x z :=
  List.forall_mem_cons.mpr ⟨.single hpart, fun z hz => .head hpart (hstack z hz)⟩

-- A derivation is larger than its parts, and a pattern that unfolds to an end is no part of itself.
theorem not_partOf_self (hx : ∀ p, x = pattern p → Acc (PartOf ns) x) : ¬TransGen (PartOf ns) x x := by
  intro h
  cases x with
  | pattern p => exact not_self_of_acc (hx p rfl).transGen h
  | proof d => exact Nat.lt_irrefl _ (inside_of_partOf h).sizeOf_lt

end Piece

-- After the first call on a piece, there are only loads.
def Apart (log : List Call) : Prop :=
  log.Pairwise fun c c' => c.piece = c'.piece → c'.loads = true

-- Two derivations of a lemma are written out only if the second one is a part of the first one.
def LemmasNested (lemmas : List Pattern) (log : List Call) : Prop :=
  log.Pairwise fun c c' => ∀ d d', c.piece = .proof d → c'.piece = .proof d' → c.loads = false → c'.loads = false →
    d.conclusion = d'.conclusion → d.conclusion ∈ lemmas → d'.Inside d

-- All saved patterns unfold to an end.
def Memory.Founded (ns : Notations) (m : Memory) : Prop :=
  ∀ p, (m.slot? (.pattern p)).isSome → Acc (PartOf ns) (.pattern p)

-- The writing of a stream at some time: the pieces that are being written out, the calls until then, what is to come
-- and the memory.
structure Sharing (t : Theory) (uses : Uses) (roots stack : List Piece) (log : List Call) (pending : List Piece)
    (m : Memory) : Prop where
  balanced : Balanced t.notations roots (log.map (·.piece)) (opened log) pending
  noted : ∀ x ∈ opened log, x ∈ uses.notes
  expected : ∀ x ∈ pending, x.isLeaf = false → x ∈ uses.notes
  apart : Apart log
  remembered : ∀ c ∈ log, c.piece ∈ stack ∨ (c.piece.keeps t.lemmas uses = true → (m.slot? c.piece).isSome)
  nested : LemmasNested t.lemmas log
  proven : ∀ c ∈ log, ∀ d, c.piece = .proof d → c.loads = false → d.conclusion ∈ t.lemmas →
    c.piece ∈ stack ∨ (m.lemmas.lookup d.conclusion).isSome
  known : ∀ p, .pattern p ∈ log.map (·.piece) ∨ (m.slot? (.pattern p)).isSome → .pattern p ∈ opened log
  founded : m.Founded t.notations
  saving : ∀ c ∈ log, c.saves = (!c.loads && c.piece.keeps t.lemmas uses)

namespace Sharing

variable {t : Theory} {uses : Uses} {roots stack pending : List Piece} {log : List Call} {m : Memory} {x : Piece}

theorem start {order : List Piece} (htallies : Tallies t.notations roots uses []) (horder : order.Perm roots) :
    Sharing t uses roots [] [] order ∅ where
  balanced := .start horder
  noted x hx := by cases hx
  expected x hx hleaf := htallies.balanced.mem_of_root hleaf (horder.mem_iff.mp hx)
  apart := .nil
  remembered c hc := by cases hc
  nested := .nil
  proven c hc := by cases hc
  known p hp := by
    obtain hp | hp := hp
    · cases hp
    · cases hp
  founded p hp := by cases hp
  saving c hc := by cases hc

theorem load (h : Sharing t uses roots stack log (x :: pending) m) {slot : Nat} (hslot : m.slot? x = some slot) :
    Sharing t uses roots stack (log ++ [⟨x, [.load slot]⟩]) pending m := by
  have hopened : opened (log ++ [⟨x, [.load slot]⟩]) = opened log := opened_append_of_loads rfl
  have hmem {c : Call} (hc : c ∈ log ++ [⟨x, [.load slot]⟩]) : c ∈ log ∨ c = ⟨x, [.load slot]⟩ := by
    simpa using hc
  constructor
  case balanced =>
    rw [hopened]
    exact h.balanced.note (by simp)
  case noted =>
    rw [hopened]
    exact h.noted
  case expected => exact fun y hy => h.expected y (by simp [hy])
  case apart => exact List.pairwise_append.mpr ⟨h.apart, List.pairwise_singleton .., by simp [Call.loads]⟩
  case remembered =>
    intro c hc
    obtain hc | rfl := hmem hc
    · exact h.remembered c hc
    · exact .inr fun _ => by simp [hslot]
  case nested => exact List.pairwise_append.mpr ⟨h.nested, List.pairwise_singleton .., by simp [Call.loads]⟩
  case proven =>
    intro c hc d hd hloads
    obtain hc | rfl := hmem hc
    · exact h.proven c hc d hd hloads
    · cases hloads
  case known =>
    rw [hopened]
    intro p hp
    rw [List.map_append, List.mem_append] at hp
    obtain (hp | hp) | hp := hp
    · exact h.known p (.inl hp)
    · obtain rfl : .pattern p = x := by simpa using hp
      exact h.known p (.inr (by simp [hslot]))
    · exact h.known p (.inr hp)
  case founded => exact h.founded
  case saving =>
    intro c hc
    obtain hc | rfl := hmem hc
    · exact h.saving c hc
    · rfl

-- A piece that is not in the memory was not met before. If it had been, it would be met for the second time now, and
-- be counted twice.
theorem fresh (htallies : Tallies t.notations roots uses []) (h : Sharing t uses roots stack log (x :: pending) m)
    (hx : x.isLeaf = false) (hstack : x ∉ stack) (hslot : m.slot? x = none) : ∀ c ∈ log, c.piece ≠ x := by
  rintro c hc rfl
  have hkeeps : c.piece.keeps t.lemmas uses = false := by
    have hremembered := (h.remembered c hc).resolve_left hstack
    simpa [hslot] using hremembered
  have hcount := count_le_of_not_keeps hkeeps
  have hcalls : 0 < (log.map (·.piece)).count c.piece := List.count_pos_iff.mpr (List.mem_map_of_mem hc)
  have hbalanced := h.balanced c.piece hx
  have htally := htallies.balanced c.piece hx
  have hle : ∑ y ∈ opened log, (y.parts t.notations).count c.piece ≤
      ∑ y ∈ uses.notes.toFinset, (y.parts t.notations).count c.piece :=
    Finset.sum_le_sum_of_subset fun y hy => by simpa using h.noted y hy
  rw [List.count_cons_self] at hbalanced
  rw [List.count_nil] at htally
  omega

theorem enter (htallies : Tallies t.notations roots uses []) (h : Sharing t uses roots stack log (x :: pending) m)
    (hx : x.isLeaf = false) (hstack : ∀ y ∈ stack, TransGen (PartOf t.notations) x y)
    (hfresh : ∀ c ∈ log, c.piece ≠ x) (hslot : m.slot? x = none) {code : Code} (hloads : Call.loads ⟨x, code⟩ = false)
    (hsaves : Call.saves ⟨x, code⟩ = x.keeps t.lemmas uses) :
    Sharing t uses roots (x :: stack) (log ++ [⟨x, code⟩]) (x.parts t.notations ++ pending) m := by
  have hopened : opened (log ++ [⟨x, code⟩]) = insert x (opened log) := opened_append_of_not_loads hloads
  have hmem {c : Call} (hc : c ∈ log ++ [⟨x, code⟩]) : c ∈ log ∨ c = ⟨x, code⟩ := by simpa using hc
  have hnew : x ∉ opened log := by
    intro hx
    obtain ⟨c, hc, -, heq⟩ := mem_opened.mp hx
    exact hfresh c hc heq
  have hnoted : x ∈ uses.notes := h.expected x (by simp) hx
  constructor
  case balanced =>
    rw [hopened]
    exact h.balanced.enter (by simp) hnew
  case noted =>
    rw [hopened]
    exact (Finset.forall_mem_insert ..).mpr ⟨hnoted, h.noted⟩
  case expected =>
    intro y hy hleaf
    obtain hpart | hy := List.mem_append.mp hy
    · exact htallies.balanced.mem_of_part hleaf (List.mem_toFinset.mpr hnoted) hpart
    · exact h.expected y (by simp [hy]) hleaf
  case apart =>
    refine List.pairwise_append.mpr ⟨h.apart, List.pairwise_singleton .., fun c hc c' hc' heq => ?_⟩
    cases List.mem_singleton.mp hc'
    exact absurd heq (hfresh c hc)
  case remembered =>
    intro c hc
    obtain hc | rfl := hmem hc
    · exact (h.remembered c hc).imp_left (List.mem_cons_of_mem x)
    · exact .inl List.mem_cons_self
  case nested =>
    refine List.pairwise_append.mpr ⟨h.nested, List.pairwise_singleton .., ?_⟩
    intro c hc c' hc' d d' hd hd' hwhole _ heq hlemma
    cases List.mem_singleton.mp hc'
    obtain rfl : x = .proof d' := hd'
    obtain hin | hsaved := h.proven c hc d hd hwhole hlemma
    · have hpart := hstack c.piece hin
      rw [hd] at hpart
      exact inside_of_partOf hpart
    · rw [Memory.slot?, Option.or_eq_none_iff] at hslot
      rw [heq, hslot.2] at hsaved
      cases hsaved
  case proven =>
    intro c hc d hd hloads hlemma
    obtain hc | rfl := hmem hc
    · exact (h.proven c hc d hd hloads hlemma).imp_left (List.mem_cons_of_mem x)
    · exact .inl List.mem_cons_self
  case known =>
    rw [hopened]
    intro p hp
    rw [List.map_append, List.mem_append] at hp
    obtain (hp | hp) | hp := hp
    · exact Finset.mem_insert_of_mem (h.known p (.inl hp))
    · obtain rfl : .pattern p = x := by simpa using hp
      exact Finset.mem_insert_self ..
    · exact Finset.mem_insert_of_mem (h.known p (.inr hp))
  case founded => exact h.founded
  case saving =>
    intro c hc
    obtain hc | rfl := hmem hc
    · exact h.saving c hc
    · rw [hsaves, hloads]
      rfl

theorem save (h : Sharing t uses roots stack log pending m) (hx : x ∈ opened log)
    (hacc : ∀ p, x = .pattern p → Acc (PartOf t.notations) x) :
    Sharing t uses roots stack log pending (m.save t.lemmas x) := by
  refine { h with
    remembered := fun c hc => ?_
    proven := fun c hc d hd hloads hlemma => ?_
    known := fun p hp => ?_
    founded := fun p hp => ?_ }
  · exact (h.remembered c hc).imp_right fun hsaved hkeeps => Memory.isSome_slot?_save (hsaved hkeeps)
  · exact (h.proven c hc d hd hloads hlemma).imp_right Memory.isSome_lemmas_save
  · obtain hp | hp := hp
    · exact h.known p (.inl hp)
    · obtain rfl | hp := Memory.slot?_of_save_pattern hp
      · exact hx
      · exact h.known p (.inr hp)
  · obtain rfl | hp := Memory.slot?_of_save_pattern hp
    · exact hacc p rfl
    · exact h.founded p hp

theorem pop (h : Sharing t uses roots (x :: stack) log pending m)
    (hslot : x.keeps t.lemmas uses = true → (m.slot? x).isSome)
    (hproven : ∀ d, x = .proof d → d.conclusion ∈ t.lemmas → (m.lemmas.lookup d.conclusion).isSome) :
    Sharing t uses roots stack log pending m := by
  refine { h with
    remembered := fun c hc => ?_
    proven := fun c hc d hd hloads hlemma => ?_ }
  · obtain hin | hsaved := h.remembered c hc
    · obtain rfl | hin := List.mem_cons.mp hin
      · exact .inr hslot
      · exact .inl hin
    · exact .inr hsaved
  · obtain hin | hsaved := h.proven c hc d hd hloads hlemma
    · obtain rfl | hin := List.mem_cons.mp hin
      · exact .inr (hproven d hd hlemma)
      · exact .inl hin
    · exact .inr hsaved

-- The piece is written out, and saved if it is to be kept.
theorem leave (h : Sharing t uses roots (x :: stack) log pending m) (hx : x ∈ opened log)
    (hacc : ∀ p, x = .pattern p → Acc (PartOf t.notations) x) :
    Sharing t uses roots stack log pending (if x.keeps t.lemmas uses then m.save t.lemmas x else m) := by
  split
  case isTrue =>
    refine (h.save hx hacc).pop (fun _ => Memory.isSome_slot?_save_self ..) ?_
    rintro d rfl hlemma
    exact Memory.isSome_lemmas_save_self hlemma
  case isFalse hkeeps =>
    refine h.pop (fun hkeeps' => absurd hkeeps' hkeeps) ?_
    rintro d rfl hlemma
    simp [Piece.keeps, hlemma] at hkeeps

theorem skip (h : Sharing t uses roots stack log (x :: pending) m) (hx : x.isLeaf = true) :
    Sharing t uses roots stack log pending m :=
  { h with
    balanced := h.balanced.skip hx
    expected := fun y hy => h.expected y (by simp [hy]) }

-- One call with all calls in it.
theorem call {w body : Writer Code} {inner : Memory → List Call} {code : Code} {m' : Memory}
    (htallies : Tallies t.notations roots uses []) (hcomposes : Writer.Composes t uses x w body)
    (hinner : ∀ ⦃code₁ m₁⦄, body.run m = .ok (code₁, m₁) → ∀ {log}, Sharing t uses roots (x :: stack) log
      (x.parts t.notations ++ pending) m → Sharing t uses roots (x :: stack) (log ++ inner m) pending m₁)
    (hstack : ∀ y ∈ stack, TransGen (PartOf t.notations) x y)
    (hacc : ∀ p, x = .pattern p → Acc (PartOf t.notations) x) (hrun : w.run m = .ok (code, m'))
    (h : Sharing t uses roots stack log (x :: pending) m) :
    Sharing t uses roots stack (log ++ w.log x inner m) pending m' := by
  have hx := hcomposes.composite
  obtain ⟨slot, hslot, rfl, rfl, hlog⟩ | ⟨hslot, code₁, m₁, hbody, -, rfl, hlog, hloads, hsaves⟩ :=
    hcomposes.cases inner hrun
  · rw [hlog]
    exact h.load hslot
  · have hout : x ∉ stack := fun hin => not_partOf_self hacc (hstack x hin)
    have hentered := h.enter htallies hx hstack (h.fresh htallies hx hout hslot) hslot hloads hsaves
    have hdone := hinner hbody hentered
    rw [hlog]
    rw [List.append_assoc, List.singleton_append] at hdone
    exact hdone.leave (mem_opened.mpr ⟨⟨x, code⟩, by simp, hloads, rfl⟩) hacc

-- Several calls in turn.
theorem all {α : Type} {write : α → Writer Code} {calls : α → Memory → List Call} {piece : α → Piece} {as : List α}
    {codes : List Code} {m' : Memory}
    (has : ∀ a ∈ as, ∀ {log pending m code m'}, (write a).run m = .ok (code, m') →
      Sharing t uses roots stack log (piece a :: pending) m → Sharing t uses roots stack (log ++ calls a m) pending m')
    (hrun : (as.mapM write).run m = .ok (codes, m')) (h : Sharing t uses roots stack log (as.map piece ++ pending) m) :
    Sharing t uses roots stack (log ++ Writer.logAll write calls as m) pending m' := by
  induction as generalizing log m codes with
  | nil =>
    cases Writer.mapM_nil_eq_ok.mp hrun
    rwa [Writer.logAll, List.append_nil]
  | cons a as ih =>
    obtain ⟨code, m₁, codes, m₂, hcode, hcodes, heq⟩ := Writer.mapM_cons_eq_ok.mp hrun
    cases heq
    have hfirst := has a (by simp) hcode h
    rw [Writer.logAll, Writer.after_eq hcode, ← List.append_assoc]
    exact ih (fun b hb => has b (by simp [hb])) hcodes hfirst

theorem saves_iff (h : Sharing t uses roots stack log pending m) {c : Call} (hc : c ∈ log) :
    c.saves = true ↔ c.loads = false ∧ c.piece.keeps t.lemmas uses = true := by
  rw [h.saving c hc, Bool.and_eq_true, Bool.not_eq_true']

-- A piece is saved where it is written out, and this is once.
theorem mem_saved_iff (h : Sharing t uses roots stack log pending m) :
    x ∈ (log.filter (·.saves)).map (·.piece) ↔ x ∈ opened log ∧ x.keeps t.lemmas uses = true := by
  rw [mem_opened]
  simp only [List.mem_map, List.mem_filter]
  constructor
  case mp =>
    rintro ⟨c, ⟨hc, hsaves⟩, rfl⟩
    obtain ⟨hloads, hkeeps⟩ := (h.saves_iff hc).mp hsaves
    exact ⟨⟨c, hc, hloads, rfl⟩, hkeeps⟩
  case mpr =>
    rintro ⟨⟨c, hc, hloads, rfl⟩, hkeeps⟩
    exact ⟨c, ⟨hc, (h.saves_iff hc).mpr ⟨hloads, hkeeps⟩⟩, rfl⟩

theorem nodup_saved (h : Sharing t uses roots stack log pending m) :
    ((log.filter (·.saves)).map (·.piece)).Nodup := by
  refine List.pairwise_map.mpr ((h.apart.filter _).imp_of_mem fun {c c'} _ hc' hloads heq => ?_)
  obtain ⟨hmem, hsaves⟩ := List.mem_filter.mp hc'
  obtain ⟨hwhole, -⟩ := (h.saves_iff hmem).mp hsaves
  cases (hloads heq).symm.trans hwhole

end Sharing

namespace Unfolding

variable {t : Theory} {uses : Uses} {u : Unfolding} {m m' : Memory} {code : Code}

-- What is written unfolds to an end.
theorem acc_of_write (hu : u.Faithful t.notations) (hm : m.Founded t.notations)
    (hrun : (u.write uses).run m = .ok (code, m')) :
    Acc (PartOf t.notations) (.pattern u.folded) ∧ m'.Founded t.notations := by
  induction u using part_induction generalizing m code m' with
  | h u ih =>
    cases hleaf : u.folded.isLeaf with
    | true =>
      obtain ⟨i, hwrite, -⟩ := write_leaf hleaf
      rw [hwrite] at hrun
      cases Writer.pure_eq_ok.mp hrun
      refine ⟨.intro _ fun y hy => ?_, hm⟩
      cases hleaf.symm.trans (not_isLeaf_of_partOf hy)
    | false =>
      obtain ⟨body, hcomposes, hbody⟩ := composes hleaf hu
      obtain ⟨slot, hslot, -, rfl⟩ | ⟨-, code₁, m₁, hbodyrun, -, rfl⟩ := hcomposes.shares hrun
      · exact ⟨hm _ (by simp [hslot]), hm⟩
      · obtain ⟨hparts, hfaithful, codes, rest, hcodes, -, -⟩ := hbody hbodyrun
        have hall : (∀ v ∈ u.parts, Acc (PartOf t.notations) (.pattern v.folded)) ∧ m₁.Founded t.notations :=
          Writer.mapM_forall (fun v hv _ _ _ hm => ih v hv (hfaithful v hv) hm) hm hcodes
        have hacc : Acc (PartOf t.notations) (.pattern u.folded) := by
          refine .intro _ fun y hy => ?_
          rw [PartOf, hparts] at hy
          obtain ⟨v, hv, rfl⟩ := List.mem_map.mp hy
          exact hall.1 v hv
        refine ⟨hacc, ?_⟩
        split
        case isFalse => exact hall.2
        case isTrue =>
          intro p hp
          obtain heq | hp := Memory.slot?_of_save_pattern hp
          · exact heq ▸ hacc
          · exact hall.2 p hp

theorem sharing_calls {roots stack pending : List Piece} {log : List Call}
    (htallies : Tallies t.notations roots uses []) (hu : u.Faithful t.notations)
    (hstack : ∀ y ∈ stack, TransGen (PartOf t.notations) (.pattern u.folded) y)
    (hrun : (u.write uses).run m = .ok (code, m'))
    (h : Sharing t uses roots stack log (.pattern u.folded :: pending) m) :
    Sharing t uses roots stack (log ++ u.calls uses m) pending m' := by
  induction u using part_induction generalizing stack pending log m code m' with
  | h u ih =>
    cases hleaf : u.folded.isLeaf with
    | true =>
      obtain ⟨i, hwrite, -⟩ := write_leaf hleaf
      rw [hwrite] at hrun
      cases Writer.pure_eq_ok.mp hrun
      rw [calls_leaf hleaf, List.append_nil]
      exact h.skip hleaf
    | false =>
      obtain ⟨body, hcomposes, hbody⟩ := composes hleaf hu
      obtain ⟨hacc, -⟩ := acc_of_write hu h.founded hrun
      rw [calls_composite hleaf]
      refine h.call htallies hcomposes ?_ hstack (fun _ _ => hacc) hrun
      intro code₁ m₁ hbodyrun log h
      obtain ⟨hparts, hfaithful, codes, rest, hcodes, -, -⟩ := hbody hbodyrun
      rw [hparts] at h
      refine h.all (fun v hv _ _ _ _ _ hrun h => ih v hv (hfaithful v hv) (partOf_stack ?_ hstack) hrun h) hcodes
      rw [PartOf, hparts]
      exact List.mem_map_of_mem hv

end Unfolding

theorem Notations.sharing_calls {t : Theory} {uses : Uses} {roots stack pending : List Piece} {log : List Call}
    {m m' : Memory} {code : Code} (htallies : Tallies t.notations roots uses []) (p : Pattern)
    (hstack : ∀ y ∈ stack, TransGen (PartOf t.notations) (.pattern p) y)
    (hrun : ((t.notations.unfolding p).write uses).run m = .ok (code, m'))
    (h : Sharing t uses roots stack log (.pattern p :: pending) m) :
    Sharing t uses roots stack (log ++ (t.notations.unfolding p).calls uses m) pending m' := by
  rw [← t.notations.folded_unfolding p] at h hstack
  exact Unfolding.sharing_calls htallies (t.notations.faithful_unfolding p) hstack hrun h

theorem Derivation.memory_of_leaf {t : Theory} {uses : Uses} {d : Derivation} (hd : d.premises.isEmpty = true)
    {m m' : Memory} {code : Code} (hrun : (d.write t uses).run m = .ok (code, m')) : m' = m := by
  have hleaf {body : Writer Code} (hbody : ∀ {code m'}, body.run m = .ok (code, m') → m' = m)
      (hrun : (leaf d body).run m = .ok (code, m')) : m' = m := by
    obtain ⟨_, _, hget, hrun⟩ := Writer.bind_eq_ok.mp hrun
    cases hget
    split at hrun
    case h_1 =>
      cases Writer.pure_eq_ok.mp hrun
      rfl
    case h_2 => exact hbody hrun
  have hpure {code code' : Code} {m' : Memory} (h : (pure code : Writer Code).run m = .ok (code', m')) : m' = m := by
    cases Writer.pure_eq_ok.mp h
    rfl
  cases d with
  | prop1 | prop2 | prop3 => exact hleaf hpure hrun
  | assumed p =>
    refine hleaf (fun hbody => ?_) hrun
    split at hbody
    case h_1 => exact hpure hbody
    case h_2 => cases hbody
  | modusPonens | instantiate => cases hd

theorem Derivation.sharing_calls {t : Theory} {uses : Uses} {d : Derivation} {roots stack pending : List Piece}
    {log : List Call} {m m' : Memory} {code : Code} (htallies : Tallies t.notations roots uses [])
    (hstack : ∀ y ∈ stack, TransGen (PartOf t.notations) (.proof d) y) (hrun : (d.write t uses).run m = .ok (code, m'))
    (h : Sharing t uses roots stack log (.proof d :: pending) m) :
    Sharing t uses roots stack (log ++ d.calls t uses m) pending m' := by
  induction d generalizing stack pending log m code m' with
  | prop1 | prop2 | prop3 | assumed =>
    cases memory_of_leaf rfl hrun
    simpa [calls] using h.skip rfl
  | modusPonens left right ihl ihr =>
    refine h.call htallies (Writer.composes_proof rfl ?_) ?_ hstack (fun _ heq => by cases heq) hrun
    · exact Writer.closes_bind fun _ => Writer.closes_bind fun _ => Writer.closes_pure (by simp) (by simp)
    · intro code₁ m₁ hbody log h
      obtain ⟨code₂, m₂, hl, hbody⟩ := Writer.bind_eq_ok.mp hbody
      obtain ⟨code₃, m₃, hr, hbody⟩ := Writer.bind_eq_ok.mp hbody
      cases Writer.pure_eq_ok.mp hbody
      have hleft := ihl (partOf_stack (by simp [PartOf, parts, premises]) hstack) hl h
      have hright := ihr (partOf_stack (by simp [PartOf, parts, premises]) hstack) hr hleft
      rw [Writer.after_eq hl, ← List.append_assoc]
      exact hright
  | instantiate inner s ih =>
    refine h.call htallies (Writer.composes_proof rfl ?_) ?_ hstack (fun _ heq => by cases heq) hrun
    · exact Writer.closes_bind fun _ => Writer.closes_bind fun _ => Writer.closes_pure (by simp) (by simp)
    · intro code₁ m₁ hbody log h
      obtain ⟨code₂, m₂, hi, hbody⟩ := Writer.bind_eq_ok.mp hbody
      obtain ⟨codes, m₃, hplugs, hbody⟩ := Writer.bind_eq_ok.mp hbody
      cases Writer.pure_eq_ok.mp hbody
      have hinner := ih (partOf_stack (by simp [PartOf, parts, premises]) hstack) hi h
      rw [Writer.after_eq hi, ← List.append_assoc]
      refine hinner.all (fun p hp _ _ _ _ _ hrun h => ?_) hplugs
      exact Notations.sharing_calls htallies p (partOf_stack (by simp [PartOf, parts, lastPlugs, hp]) hstack) hrun h

end MatchingLogic
