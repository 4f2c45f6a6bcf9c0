import MatchingLogic.Proofs.Kore.Numbering

namespace MatchingLogic.Kore

open Conversion

namespace Converter

variable {c c' : Converter} {a : Axiom} {b : MatchingLogic.Axiom}

-- The axiom has been converted to `b`.
def Stored (a : Axiom) (b : MatchingLogic.Axiom) (c : Converter) : Prop :=
  c.converted.lookup a = some b

theorem lasting_stored (a : Axiom) (b : MatchingLogic.Axiom) : Lasting (Stored a b) where
  addSymbol hc _ := hc
  addMetavar hc _ := hc
  addCell hc _ _ := hc
  addAxiom hc hnew _ := lookup_cons_of_new hnew hc

theorem lasting_nodup : Lasting fun c => c.names.Nodup where
  addSymbol hc name := by simpa using hc
  addMetavar hc _ := NameTable.nodup_declare hc
  addCell hc _ _ := by simpa using hc
  addAxiom hc _ _ := hc

theorem stored_convert (c : Converter) (a : Axiom) :
    Ends a.convert c (fun b c' => Stored a b c') fun _ _ => True := by
  refine ends_get_bind ?_
  split
  case h_1 b hb => exact ends_pure hb
  case h_2 =>
    refine ends_true.bind fun b c' _ => ?_
    have hadded : Stored a b { c' with converted := (a, b) :: c'.converted } := List.lookup_cons_self
    exact Ends.bind (ends_modifyGet hadded) fun _ _ h => ends_pure h

namespace Stored

variable (h : c.Stored a b)
include h

theorem convert : a.convert.run c = (.ok b, c) := by
  have hb : c.converted.lookup a = some b := h
  simp only [Axiom.convert, run_get, hb]
  rfl

theorem rule {ordinal : UInt64} (ha : c.axioms[ordinal.toNat]? = some a) :
    (rule ordinal).run c = (.ok b, c) := by
  simp only [Conversion.rule, run_get, ha]
  exact h.convert

end Stored

-- The axiom that a request converts before anything else.
def Action.subject? (c : Converter) : Action → Option Axiom
  | .law a => some a
  | .rule ordinal => c.axioms[ordinal.toNat]?
  | .hint h => c.axioms[h.ordinal.toNat]?
  | .hints hs => hs.head?.bind fun h => c.axioms[h.ordinal.toNat]?
  | _ => none

section Requests

variable {ordinal : UInt64} {h : Hint}

-- An axiom that can be converted is stored, whatever becomes of the rest of the request.
theorem leaves_law (hb : (a.convert.run c).1 = .ok b) : Leaves (Stored a b) a.convert c := by
  refine ends_run.mpr ⟨fun b' hb' => ?_, fun e he => ?_⟩
  · obtain rfl : b' = b := Except.ok.inj (hb'.symm.trans hb)
    exact (ends_run.mp (stored_convert c a)).1 b' hb'
  · cases hb.symm.trans he

theorem leaves_rule (ha : c.axioms[ordinal.toNat]? = some a) (hb : (a.convert.run c).1 = .ok b) :
    Leaves (Stored a b) (rule ordinal) c := by
  refine ends_get_bind ?_
  rw [ha]
  exact leaves_law hb

theorem leaves_hint (ha : c.axioms[h.ordinal.toNat]? = some a) (hb : (a.convert.run c).1 = .ok b) :
    Leaves (Stored a b) h.convert c := by
  have hlasting := lasting_stored a b
  refine (leaves_rule ha hb).bind fun _ => (hlasting.convert h.configuration).bind fun _ _ => ?_
  refine (hlasting.bindings h.bindings).bind fun _ _ => ?_
  exact (keeps_mapM fun e _ => hlasting.event e).bind fun _ _ => keeps_pure trivial

theorem leaves_hints {hs : List Hint} (ha : c.axioms[h.ordinal.toNat]? = some a)
    (hb : (a.convert.run c).1 = .ok b) : Leaves (Stored a b) (Hint.convertAll (h :: hs)) c := by
  have hlasting := lasting_stored a b
  rw [Hint.convertAll, List.mapM_cons, bind_assoc]
  refine (leaves_hint ha hb).bind fun step => ?_
  have hsteps : Keeps (Stored a b) (fun _ => True) (do return step :: (← hs.mapM Hint.convert)) :=
    (keeps_mapM fun h _ => hlasting.hint h).bind fun _ _ => keeps_pure trivial
  exact hsteps.bind fun _ _ => keeps_pure trivial

end Requests

theorem stored_act {asked : Action} (ha : asked.subject? c = some a) (hb : (a.convert.run c).1 = .ok b) :
    Stored a b (c.act asked) := by
  cases asked with
  | law a' =>
    cases ha
    exact (leaves_law hb).state
  | rule ordinal => exact (leaves_rule ha hb).state
  | hint h => exact (leaves_hint ha hb).state
  | hints hs =>
    cases hs with
    | nil => cases ha
    | cons h hs => exact (leaves_hints ha hb).state
  | term | bindings | sideAxioms => cases ha

theorem addMetavar_of_mem {name : String} (h : name ∈ c.names) : c.addMetavar name = c := by
  rw [addMetavar, Vocabulary.addMetavar, NameTable.declare, addNew_of_mem h]

-- A variable that has an id is converted to it.
theorem convert_elementVar {name : String} {id : UInt32} (h : c.vocabulary.metavars.id? name = some id)
    (sort : SortName) : (Term.elementVar name sort).convert.run c = (.ok (.metavar id), c) := by
  obtain ⟨hname, rfl⟩ := NameTable.id?_eq_some_iff.mp h
  have hrun : (Term.elementVar name sort).convert.run c =
      (.ok (.metavar (c.vocabulary.metavars.id name)), c.addMetavar name) := by
    rw [Term.convert, Term.convertIn]
    rfl
  rw [hrun, addMetavar_of_mem hname]

theorem blank_ofDefinition {d : Definition} {config : Config} {engine : Engine}
    (h : ofDefinition d config engine = .ok c) :
    c.names = [] ∧ c.axioms = d.axioms ∧ c.Tidy := by
  have horderly := (fresh_ofDefinition h).orderly
  simp only [ofDefinition] at h
  split at h
  case h_1 => cases h
  case h_2 =>
    cases h
    exact ⟨rfl, rfl, horderly, by simp⟩

-- An axiom that was converted, be it on its own, by its number or with a hint, is found from then on, and
-- nothing has to be recorded for it. A variable gets its id when it is used first: those that an answer needs have
-- ids, the metavariables of an answer are such ids, and in the pattern of a term all of them occur. Ids of
-- variables, cells and functional symbols stay as they are, and so do the axioms by their numbers. Two variables
-- get one id only after the ids have run out.
theorem permanent_run {d : Definition} {config : Config} {engine : Engine}
    (hc : ofDefinition d config engine = .ok c)
    (before : List Action) (asked : Action) (after : List Action) :
    let earlier := c.run before
    let later := (earlier.act asked).run after
    (∀ a b, asked.subject? earlier = some a → (a.convert.run earlier).1 = .ok b →
      a.convert.run later = (.ok b, later) ∧
      ∀ ordinal : UInt64, d.axioms[ordinal.toNat]? = some a →
        (Conversion.rule ordinal).run later = (.ok b, later)) ∧
    (∀ ids, asked.metavars? earlier = some ids →
      (∀ name ∈ asked.used d.axioms, ∃ id, later.vocabulary.metavars.id? name = some id) ∧
      ∀ id ∈ ids, ∃ name ∈ asked.used d.axioms, later.vocabulary.metavars.id? name = some id) ∧
    (∀ t p, asked = .term t → (t.convert.run earlier).1 = .ok p →
      ∀ id, id ∈ p.metavars ↔ ∃ name ∈ t.vars, later.vocabulary.metavars.id? name = some id) ∧
    (∀ name id, earlier.vocabulary.metavars.id? name = some id →
      later.vocabulary.metavars.id? name = some id) ∧
    (∀ name sort id, later.vocabulary.metavars.id? name = some id →
      (Term.elementVar name sort).convert.run later = (.ok (.metavar id), later)) ∧
    (∀ id, (∃ name, later.vocabulary.metavars.id? name = some id) ↔
      id.toNat < later.vocabulary.metavars.size) ∧
    ((∀ name other id, later.vocabulary.metavars.id? name = some id →
      later.vocabulary.metavars.id? other = some id → name = other) ↔
      later.vocabulary.metavars.size ≤ UInt32.size) ∧
    (∀ symbol, earlier.isCell symbol → later.isCell symbol) ∧
    (∀ p, earlier.isFunctional p → later.isFunctional p) ∧
    ∀ ordinal : UInt64, later.axioms[ordinal.toNat]? = d.axioms[ordinal.toNat]? := by
  intro earlier later
  obtain ⟨hnames, haxioms, htidy⟩ := blank_ofDefinition hc
  have hearlier : earlier.axioms = d.axioms := by rw [(extends_run c before).axioms, haxioms]
  have hextends : earlier.Extends later := extends_run earlier (asked :: after)
  have hafter : (earlier.act asked).Extends later := extends_run _ after
  have hnodup : later.names.Nodup := by
    have hearlier : earlier.names.Nodup := lasting_nodup.run (by simp [hnames]) before
    exact lasting_nodup.run hearlier (asked :: after)
  have haxioms : later.axioms = d.axioms := by rw [hextends.axioms, hearlier]
  have htidy : earlier.Tidy := tidy_run htidy before
  refine ⟨?stored, ?answered, ?terms, ?kept, fun name sort id hid => convert_elementVar hid sort,
    fun id => NameTable.exists_id?_iff hnodup, NameTable.id?_inj_iff hnodup, fun _ => hextends.isCell,
    fun p hp => decide_eq_true (hextends.functional (of_decide_eq_true hp)), fun ordinal => by rw [haxioms]⟩
  case stored =>
    intro a b ha hb
    have hstored : later.Stored a b := (lasting_stored a b).run (stored_act ha hb) after
    exact ⟨hstored.convert, fun ordinal ha => hstored.rule (haxioms ▸ ha)⟩
  case answered =>
    intro ids hids
    have hnumbers := ((numbers_act htidy asked).2 ids hids).extend hafter
    rw [hearlier] at hnumbers
    refine ⟨fun name hname => ⟨_, NameTable.id?_eq_some (hnumbers.declared name hname)⟩, fun id hid => ?_⟩
    obtain ⟨name, hname, hid⟩ := hnumbers.given id hid
    exact ⟨name, hname, NameTable.id?_eq_some_iff.mpr ⟨hnumbers.declared name hname, hid⟩⟩
  case terms =>
    rintro t p rfl hp id
    exact Term.mem_metavars_convert htidy.toOrderly (Prod.ext hp rfl) hafter
  case kept =>
    intro name id hid
    obtain ⟨hname, rfl⟩ := NameTable.id?_eq_some_iff.mp hid
    exact NameTable.id?_eq_some_iff.mpr ⟨hextends.names.subset hname, hextends.id hname⟩

-- A hint that binds an unknown variable cannot be converted, but its axiom is.
open Counting in
theorem permanent_run_counting :
    let a : Axiom := ⟨Counting.rule, []⟩
    let h := { hint zero with bindings := [("M", zero)] }
    ∃ c b, ofDefinition definition {} = .ok c ∧ (a.convert.run c).1 = .ok b ∧ ¬(h.convert.run c).1.isOk ∧
      let later := (c.act (.hint h)).run [.term (state (next count))]
      a.convert.run later = (.ok b, later) ∧ (Conversion.rule 0).run later = (.ok b, later) := by
  intro a h
  have hconverts : (ofDefinition definition {}).toOption.any fun c =>
      (a.convert.run c).1.toOption.any fun _ => !(h.convert.run c).1.isOk := by
    decide +kernel
  obtain ⟨c, hc, hconverts⟩ := exists_of_any hconverts
  obtain ⟨b, hb, hfails⟩ := exists_of_any hconverts
  have hsubject : (Action.hint h).subject? c = some a := by
    rw [Action.subject?, (blank_ofDefinition hc).2.1]
    rfl
  obtain ⟨hstored, -⟩ := permanent_run hc [] (.hint h) [.term (state (next count))]
  obtain ⟨hlater, hrule⟩ := hstored a b hsubject hb
  exact ⟨c, b, hc, hb, by simpa using hfails, hlater, hrule 0 rfl⟩

end Converter
end MatchingLogic.Kore
