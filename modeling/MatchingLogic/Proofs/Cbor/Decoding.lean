import MatchingLogic.Cbor.Record
import MatchingLogic.Proofs.Cbor.Reading

namespace MatchingLogic.Cbor

variable {α β : Type} {i j : Item} {items : List Item} {entries : List (String × Item)} {a : α}

-- The item is written as items are, and it is decoded to the value.
structure Carries (content : Item → Except Error α) (i : Item) (a : α) : Prop where
  written : i.Written
  decoded : content i = .ok a

theorem carries_text (s : String) : Carries Item.toText (.text s) s :=
  ⟨.text s, rfl⟩

theorem carries_uint (n : UInt64) : Carries Item.toUInt64 (.uint n) n :=
  ⟨.uint n, rfl⟩

theorem carries_byte (b : UInt8) : Carries Item.toByte (.uint b.toUInt64) b := by
  refine ⟨.uint _, ?_⟩
  have hlt : b.toUInt64 < 256 := by
    have hb := b.toNat_lt
    rwa [UInt64.lt_iff_toNat_lt, UInt8.toNat_toUInt64]
  rw [Item.toByte, if_pos hlt, UInt8.toUInt8_toUInt64]

section Lists

variable {element : Item → Except Error α} {toItem : α → Item} {as : List α}

theorem carries_list (h : ∀ a ∈ as, Carries element (toItem a) a) :
    Carries (Item.toList element) (.list (as.map toItem)) as := by
  constructor
  case written =>
    refine .list fun i hi => ?_
    obtain ⟨a, ha, rfl⟩ := List.mem_map.mp hi
    exact (h a ha).written
  case decoded =>
    rw [Item.list, Item.toList, mapM_eq_ok, List.forall₂_map_left_iff, List.forall₂_same]
    exact fun a ha => (h a ha).decoded

theorem carries_texts (l : List String) : Carries Item.toTexts (.texts l) l :=
  carries_list fun s _ => carries_text s

theorem Carries.pair {first : Item → Except Error α} {second : Item → Except Error β} {b : β}
    (ha : Carries first i a) (hb : Carries second j b) :
    Carries (Item.toPair first second) (.list [i, j]) (a, b) := by
  constructor
  case written => exact .list (by simp [ha.written, hb.written])
  case decoded =>
    simp only [Item.list, Item.toPair, ha.decoded, hb.decoded]
    rfl

theorem carries_none {content : Item → Except Error α} : Carries (Item.toOption content) .null none :=
  ⟨.null, rfl⟩

theorem Carries.some {content : Item → Except Error α} (h : Carries content (.list items) a) :
    Carries (Item.toOption content) (.list items) (some a) := by
  refine ⟨h.written, ?_⟩
  change Option.some <$> content (.list items) = _
  rw [h.decoded]
  rfl

end Lists

namespace Fields

-- The fields of a record under names that are all known.
def named (entries : List (String × Item)) : Fields where
  entries := entries.map fun (k, v) => (.ok (some k), v)
  positional := false

theorem find?_named (name : String) : (named entries).find? name = entries.lookup name := by
  induction entries with
  | nil => rfl
  | cons e entries ih =>
    obtain ⟨key, i⟩ := e
    simp only [find?, named] at ih
    simp only [find?, named, List.map_cons, List.find?_cons, List.lookup_cons]
    by_cases hkey : key = name
    · simp [hkey]
    · simpa [hkey, Ne.symm hkey, beq_false_of_ne] using ih

theorem find?_beq {names : List String} {name : String} (h : name ∈ names) :
    names.find? (· == name) = some name := by
  induction names with
  | nil => cases h
  | cons other names ih =>
    by_cases hother : other = name
    · simp [hother]
    · simpa [hother] using ih (List.mem_of_ne_of_mem (Ne.symm hother) h)

theorem pairs_flat (entries : List (String × Item)) :
    Item.pairs (Item.flat entries) = entries.map fun (k, v) => (.text k, v) := by
  induction entries with
  | nil => rfl
  | cons e entries ih => exact congrArg _ ih

theorem ofItem_record {names : List String} (h : ∀ e ∈ entries, e.1 ∈ names) :
    ofItem names (.record entries) = .ok (named entries) := by
  have hkeys : ((Item.pairs (Item.flat entries)).map fun e => (e.1.key names, e.2)) =
      (named entries).entries := by
    rw [pairs_flat, List.map_map, named]
    refine List.map_congr_left fun e he => ?_
    simp [Item.key, find?_beq (h e he)]
  exact congrArg (fun e => Except.ok (Fields.mk e false)) hkeys

theorem check_named {problems : List (String × Option Error)} {seen : List String}
    (hquiet : ∀ problem ∈ problems, problem.2 = none)
    (hnodup : (entries.map (·.1)).Nodup) (hseen : ∀ name ∈ seen, name ∉ entries.map (·.1)) :
    check problems seen (named entries).entries = .ok () := by
  induction entries generalizing seen with
  | nil => rfl
  | cons e entries ih =>
    obtain ⟨key, i⟩ := e
    have hkey : key ∉ seen := fun h => hseen key h (by simp)
    have hlookup (e : Error) : problems.lookup key ≠ some (some e) := fun h => by
      simpa using hquiet _ (mem_of_lookup h)
    obtain ⟨hnew, hnodup⟩ := List.nodup_cons.mp hnodup
    have hseen' (name : String) (hname : name ∈ key :: seen) : name ∉ entries.map (·.1) := by
      obtain rfl | hname := List.mem_cons.mp hname
      · exact hnew
      · exact fun hmem => hseen name hname (List.mem_cons_of_mem _ hmem)
    have hrest := ih hnodup hseen'
    rw [named, List.map_cons, check]
    refine bind_eq_ok.mpr ⟨some key, rfl, ?_⟩
    -- By `hlookup` the case of a problem does not arise.
    simp only [hkey, if_false]
    exact hrest

end Fields

namespace Record

variable {r : Record α}

@[simp] theorem names_map (f : α → β) (r : Record α) : (f <$> r).names = r.names := rfl

@[simp] theorem names_seq (g : Record (α → β)) (r : Record α) : (g <*> r).names = g.names ++ r.names := rfl

@[simp] theorem names_fieldOr (name : String) (content : Item → Except Error α)
    (absent : Bool → Except Error α) : (fieldOr name content absent).names = [name] := rfl

@[simp] theorem names_field (name : String) (content : Item → Except Error α) :
    (field name content).names = [name] := rfl

@[simp] theorem names_optional (name : String) (content : Item → Except Error α) :
    (optional name content).names = [name] := rfl

-- Read from a record with these entries, every field is there and without problems.
structure Yields (r : Record α) (entries : List (String × Item)) (a : α) : Prop where
  value : (r.read (.named entries)).2 = .ok a
  quiet : ∀ problem ∈ (r.read (.named entries)).1, problem.2 = none
  written : ∀ name ∈ r.names, ∃ i, entries.lookup name = some i ∧ i.Written

theorem Yields.map (f : α → β) (h : r.Yields entries a) : (f <$> r).Yields entries (f a) where
  value := by
    change f <$> (r.read (.named entries)).2 = .ok (f a)
    rw [h.value]
    rfl
  quiet := h.quiet
  written := h.written

theorem Yields.seq {g : Record (α → β)} {f : α → β} (hg : g.Yields entries f) (h : r.Yields entries a) :
    (g <*> r).Yields entries (f a) where
  value := by
    change (do return (← (g.read (.named entries)).2) (← (r.read (.named entries)).2)) = .ok (f a)
    rw [hg.value, h.value]
    rfl
  quiet problem hproblem := (List.mem_append.mp hproblem).elim (hg.quiet problem) (h.quiet problem)
  written name hname := (List.mem_append.mp hname).elim (hg.written name) (h.written name)

theorem yields_fieldOr {name : String} {content : Item → Except Error α}
    {absent : Bool → Except Error α} (hname : entries.lookup name = some i) (h : Carries content i a) :
    (fieldOr name content absent).Yields entries a := by
  have hread : (fieldOr name content absent).read (.named entries) = ([(name, none)], .ok a) := by
    simp [fieldOr, Fields.find?_named, hname, h.decoded]
  constructor
  case value => rw [hread]
  case quiet => simp [hread]
  case written =>
    intro other hother
    cases List.mem_singleton.mp hother
    exact ⟨i, hname, h.written⟩

theorem Yields.carries (h : r.Yields entries a) (hnames : entries.map (·.1) = r.names)
    (hnodup : r.names.Nodup) : Carries r.decode (.record entries) a := by
  constructor
  case written =>
    refine .record fun e he => ?_
    obtain ⟨i, hi, hwritten⟩ := h.written e.1 (hnames ▸ List.mem_map_of_mem he)
    have hsame : (e.1, i) = e := List.inj_on_of_nodup_map (hnames ▸ hnodup) (mem_of_lookup hi) he rfl
    rwa [← hsame]
  case decoded =>
    have hfields := Fields.ofItem_record fun e (he : e ∈ entries) =>
      hnames ▸ List.mem_map_of_mem he
    have hcheck : Fields.check (r.read (.named entries)).1 [] (Fields.named entries).entries = .ok () :=
      Fields.check_named h.quiet (hnames ▸ hnodup) (by simp)
    exact bind_eq_ok.mpr ⟨_, hfields, bind_eq_ok.mpr ⟨(), hcheck, h.value⟩⟩

end Record

section Alternatives

variable {name : String} {names : List String}

theorem Content.ofItem_variant (h : name ∈ names) :
    Content.ofItem names (.variant name i) = .ok (name, .own i) := by
  have hopening : (head 5 (UInt64.ofNat 1)).headD 0 = 0xa1 := by decide
  have hvariant : Item.variant name i = .map 0xa1 [.text name, i] := by
    simp only [Item.variant, Item.record, List.length_singleton, hopening, List.flatMap_singleton]
  rw [hvariant]
  simp only [Content.ofItem, Item.pairs, Item.key, Fields.find?_beq h]
  rfl

-- What an alternative carries is decided by its name.
theorem carries_variant {dispatch : String × Content → Except Error α} (hname : name ∈ names)
    (h : Carries (fun i => dispatch (name, .own i)) i a) :
    Carries (fun i => Content.ofItem names i >>= dispatch) (.variant name i) a := by
  constructor
  case written => exact .record fun e he => List.mem_singleton.mp he ▸ h.written
  case decoded =>
    simp only [Content.ofItem_variant hname]
    exact h.decoded

theorem Carries.map {content : Item → Except Error α} (f : α → β) (h : Carries content i a) :
    Carries (fun i => f <$> content i) i (f a) := by
  refine ⟨h.written, ?_⟩
  simp only [h.decoded]
  rfl

end Alternatives

namespace Item

theorem depth_le_depthAll (h : i ∈ items) : i.depth ≤ depthAll items := by
  induction items with
  | nil => cases h
  | cons j items ih =>
    rw [depthAll]
    obtain rfl | h := List.mem_cons.mp h
    · exact Nat.le_max_left _ _
    · exact Nat.le_trans (ih h) (Nat.le_max_right _ _)

theorem depth_lt_list (h : i ∈ items) : i.depth < (list items).depth :=
  Nat.lt_succ_of_le (depth_le_depthAll h)

theorem depth_lt_record {e : String × Item} (h : e ∈ entries) : e.2.depth < (record entries).depth :=
  Nat.lt_succ_of_le (depth_le_depthAll (mem_flat.mpr ⟨e, h, .inr rfl⟩))

theorem depth_lt_variant (name : String) (i : Item) : i.depth < (variant name i).depth :=
  depth_lt_record (e := (name, i)) (List.mem_singleton_self _)

theorem depth_lt_of_field {name : String} {e : String × Item} {fuel : Nat} (he : e ∈ entries)
    (h : (variant name (record entries)).depth < fuel + 1) : e.2.depth < fuel := by
  have hrecord := depth_lt_record he
  have hvariant := depth_lt_variant name (record entries)
  omega

end Item

-- The elements of a list are nested less deep than the list.
theorem carries_list_of_depth {element : Item → Except Error α} {toItem : α → Item} {as : List α} {fuel : Nat}
    (hdepth : (Item.list (as.map toItem)).depth ≤ fuel)
    (h : ∀ {a}, (toItem a).depth < fuel → Carries element (toItem a) a) :
    Carries (Item.toList element) (.list (as.map toItem)) as :=
  carries_list fun _ ha =>
    h (Nat.lt_of_lt_of_le (Item.depth_lt_list (List.mem_map_of_mem ha)) hdepth)

end MatchingLogic.Cbor
