import Mathlib.Data.Nat.Digits.Lemmas
import MatchingLogic.Cbor.Reader
import MatchingLogic.Proofs.Success

namespace MatchingLogic.Cbor

open Item

-- The first byte keeps the major type in its upper three bits and the rest in its lower five.
theorem split_first {major low : UInt8} (hmajor : major < 8) (hlow : low < 32) :
    (major <<< 5 ||| low) >>> 5 = major ∧ (major <<< 5 ||| low) &&& 31 = low := by
  have hall : ∀ m < 8, ∀ l < 32, (UInt8.ofNat m <<< 5 ||| UInt8.ofNat l) >>> 5 = UInt8.ofNat m ∧
      (UInt8.ofNat m <<< 5 ||| UInt8.ofNat l) &&& 31 = UInt8.ofNat l := by
    decide +kernel
  simpa using hall major.toNat hmajor low.toNat hlow

theorem toNat_shift_or {n : UInt64} (b : UInt8) (h : n.toNat < 256 ^ 7) :
    (n <<< 8 ||| b.toUInt64).toNat = b.toNat + 256 * n.toNat := by
  have hb : b.toNat < 2 ^ 8 := b.toNat_lt
  have hshift : (n <<< 8).toNat = 2 ^ 8 * n.toNat := by
    rw [UInt64.toNat_shiftLeft, show (8 : UInt64).toNat % 64 = 8 from rfl, Nat.shiftLeft_eq]
    omega
  rw [UInt64.toNat_or, hshift, UInt8.toNat_toUInt64, ← Nat.two_pow_add_eq_or_of_lt hb]
  omega

-- Lowest byte first.
theorem toNat_foldr_shift {bs : Bytes} (h : bs.length ≤ 8) :
    (bs.foldr (fun (b : UInt8) (n : UInt64) => n <<< 8 ||| b.toUInt64) 0).toNat =
      Nat.ofDigits 256 (bs.map (·.toNat)) := by
  induction bs with
  | nil => rfl
  | cons b bs ih =>
    have hlength : bs.length ≤ 7 := Nat.le_of_succ_le_succ h
    have hdigits : Nat.ofDigits 256 (bs.map (·.toNat)) < 256 ^ bs.length := by
      have hbyte (d : Nat) (hd : d ∈ bs.map (·.toNat)) : d < 256 := by
        obtain ⟨b, -, rfl⟩ := List.mem_map.mp hd
        exact b.toNat_lt
      simpa using Nat.ofDigits_lt_base_pow_length (by decide) hbyte
    have hpow : 256 ^ bs.length ≤ 256 ^ 7 := Nat.pow_le_pow_right (by decide) hlength
    specialize ih (by omega)
    rw [List.foldr_cons, toNat_shift_or b (by omega), ih]
    simp [Nat.ofDigits_cons]

theorem digits_ofUInt32 (n : UInt32) :
    (Bytes.ofUInt32 n).map (·.toNat) = (List.range 4).map fun i => n.toNat / 256 ^ i % 256 := by
  simp [Bytes.ofUInt32, Nat.shiftRight_eq_div_pow, List.range, List.range.loop]

theorem digits_ofUInt64 (n : UInt64) :
    (Bytes.ofUInt64 n).map (·.toNat) = (List.range 8).map fun i => n.toNat / 256 ^ i % 256 := by
  have hlow : n.toUInt32.toNat = n.toNat % 2 ^ 32 := UInt64.toNat_toUInt32 n
  have hhigh : (n >>> 32).toUInt32.toNat = n.toNat / 2 ^ 32 := by
    have hlt := n.toNat_lt
    rw [UInt64.toNat_toUInt32, UInt64.toNat_shiftRight, show (32 : UInt64).toNat % 64 = 32 from rfl,
      Nat.shiftRight_eq_div_pow]
    omega
  rw [Bytes.ofUInt64, List.map_append, digits_ofUInt32, digits_ofUInt32, hlow, hhigh]
  simp only [List.range, List.range.loop, List.map_cons, List.map_nil, List.cons_append, List.nil_append,
    List.cons.injEq, and_true]
  omega

theorem ofDigits_range (width n : Nat) :
    Nat.ofDigits 256 ((List.range width).map fun i => n / 256 ^ i % 256) = n % 256 ^ width := by
  induction width generalizing n with
  | zero => simp [Nat.mod_one]
  | succ width ih =>
    have hshift (i : Nat) : n / 256 ^ (i + 1) % 256 = n / 256 / 256 ^ i % 256 := by
      rw [Nat.div_div_eq_div_mul, Nat.pow_succ']
    rw [List.range_succ_eq_map, List.map_cons, List.map_map, Nat.ofDigits_cons]
    simp only [Function.comp_def, hshift, ih (n / 256)]
    rw [Nat.pow_succ', Nat.mod_mul]
    simp

theorem length_bigEndian {width : Nat} (n : UInt64) (h : width ≤ 8) :
    (bigEndian width n).length = width := by
  simp [bigEndian, Bytes.ofUInt64, Bytes.ofUInt32, h]

theorem foldl_bigEndian {width : Nat} {n : UInt64} (hwidth : width ≤ 8) (hn : n.toNat < 256 ^ width) :
    (bigEndian width n).foldl (fun (n : UInt64) (b : UInt8) => n <<< 8 ||| b.toUInt64) 0 = n := by
  apply UInt64.toNat_inj.mp
  rw [bigEndian, List.foldl_reverse, toNat_foldr_shift (by simp [Bytes.ofUInt64, Bytes.ofUInt32]),
    List.map_take, digits_ofUInt64, ← List.map_take, List.take_range, Nat.min_eq_left hwidth,
    ofDigits_range, Nat.mod_eq_of_lt hn]

theorem ofBytes_bigEndian {width : Nat} {n : UInt64} (hwidth : width ≤ 8)
    (hn : n.toNat < 256 ^ width) (rest : Bytes) :
    Argument.ofBytes width (bigEndian width n ++ rest) = .value n rest := by
  have hlength := length_bigEndian n hwidth
  simp only [Argument.ofBytes, List.take_left' hlength, List.drop_left' hlength, hlength, if_true,
    foldl_bigEndian hwidth hn]

-- An item begins with its major type and its argument.
structure Opens (major : UInt8) (n : UInt64) (first : UInt8) (more : Bytes) : Prop where
  head : head major n = first :: more
  major : first >>> 5 = major
  argument : ∀ rest, Argument.read first (more ++ rest) = .value n rest

theorem opens_small {major : UInt8} {n : UInt64} (hmajor : major < 8) (hn : n < 24) :
    Opens major n (major <<< 5 ||| n.toUInt8) [] := by
  have hlt : n.toNat < 24 := hn
  have hlow : n.toUInt8.toNat = n.toNat := by
    rw [UInt64.toNat_toUInt8]
    omega
  have hvalue : n.toUInt8.toUInt64 = n := by
    apply UInt64.toNat_inj.mp
    rw [UInt8.toNat_toUInt64, hlow]
  have hbyte : n.toUInt8 < 24 := by
    rw [UInt8.lt_iff_toNat_lt, hlow]
    exact hlt
  obtain ⟨hshift, hmask⟩ := split_first hmajor (UInt8.lt_trans hbyte (by decide))
  refine ⟨by rw [head, if_pos hn], hshift, fun rest => ?_⟩
  rw [Argument.read, hmask, if_pos hbyte, hvalue, List.nil_append]

theorem opens_wide {major : UInt8} {n : UInt64} (low : UInt8) (width : Nat) (hmajor : major < 8)
    (hlow : low < 32 ∧ width ≤ 8)
    (hread : ∀ first rest, first &&& 31 = low → Argument.read first rest = Argument.ofBytes width rest)
    (hn : n.toNat < 256 ^ width)
    (hhead : head major n = (major <<< 5 ||| low) :: bigEndian width n) :
    Opens major n (major <<< 5 ||| low) (bigEndian width n) := by
  obtain ⟨hshift, hmask⟩ := split_first hmajor hlow.1
  refine ⟨hhead, hshift, fun rest => ?_⟩
  rw [hread _ _ hmask, ofBytes_bigEndian hlow.2 hn]

theorem exists_opens (major : UInt8) (hmajor : major < 8) (n : UInt64) :
    ∃ first more, Opens major n first more := by
  by_cases h₀ : n < 24
  · exact ⟨_, _, opens_small hmajor h₀⟩
  by_cases h₁ : n < 0x100
  · have hhead : head major n = (major <<< 5 ||| 24) :: bigEndian 1 n := by
      rw [head, if_neg h₀, if_pos h₁]
    exact ⟨_, _, opens_wide 24 1 hmajor (by decide) (fun _ _ h => by rw [Argument.read, h]; rfl) h₁ hhead⟩
  by_cases h₂ : n < 0x10000
  · have hhead : head major n = (major <<< 5 ||| 25) :: bigEndian 2 n := by
      rw [head, if_neg h₀, if_neg h₁, if_pos h₂]
    exact ⟨_, _, opens_wide 25 2 hmajor (by decide) (fun _ _ h => by rw [Argument.read, h]; rfl) h₂ hhead⟩
  by_cases h₃ : n < 0x100000000
  · have hhead : head major n = (major <<< 5 ||| 26) :: bigEndian 4 n := by
      rw [head, if_neg h₀, if_neg h₁, if_neg h₂, if_pos h₃]
    exact ⟨_, _, opens_wide 26 4 hmajor (by decide) (fun _ _ h => by rw [Argument.read, h]; rfl) h₃ hhead⟩
  · have hhead : head major n = (major <<< 5 ||| 27) :: bigEndian 8 n := by
      rw [head, if_neg h₀, if_neg h₁, if_neg h₂, if_neg h₃]
    exact ⟨_, _, opens_wide 27 8 hmajor (by decide) (fun _ _ h => by rw [Argument.read, h]; rfl)
      n.toNat_lt hhead⟩

namespace Item

-- What is written: numbers, texts and nothing, in lists and in maps from texts.
inductive Written : Item → Prop where
  | uint (n : UInt64) : Written (.uint n)
  | text (s : String) : Written (.text s)
  | null : Written .null
  | list {items : List Item} (h : ∀ i ∈ items, Written i) : Written (.list items)
  | record {entries : List (String × Item)} (h : ∀ e ∈ entries, Written e.2) : Written (.record entries)

variable {i : Item} {items : List Item} {entries : List (String × Item)} {size depth : Nat}

-- Keys and values in turn.
def flat (entries : List (String × Item)) : List Item :=
  entries.flatMap fun (k, v) => [text k, v]

theorem length_flat (entries : List (String × Item)) : (flat entries).length = 2 * entries.length := by
  simp [flat, Nat.mul_comm]

theorem mem_flat : i ∈ flat entries ↔ ∃ e ∈ entries, i = text e.1 ∨ i = e.2 := by
  simp [flat]

theorem encode_list (items : List Item) :
    (list items).encode = head 4 (UInt64.ofNat items.length) ++ encodeAll items := by
  rw [list, encode]

theorem encode_record (entries : List (String × Item)) :
    (record entries).encode = head 5 (UInt64.ofNat entries.length) ++ encodeAll (flat entries) := by
  rw [record, encode, ← flat, length_flat, Nat.mul_div_cancel_left _ (by decide)]

theorem length_head_pos (major : UInt8) (n : UInt64) : 0 < (head major n).length := by
  unfold head
  split_ifs
  all_goals exact Nat.succ_pos _

theorem Written.length_encode_pos (h : i.Written) : 0 < i.encode.length := by
  cases h with
  | null => decide
  | uint n =>
    rw [encode]
    exact length_head_pos 0 n
  | text s =>
    rw [encode, List.length_append]
    exact Nat.add_pos_left (length_head_pos 3 _) _
  | list h =>
    rw [encode_list, List.length_append]
    exact Nat.add_pos_left (length_head_pos 4 _) _
  | record h =>
    rw [encode_record, List.length_append]
    exact Nat.add_pos_left (length_head_pos 5 _) _

theorem length_le_encodeAll (h : ∀ i ∈ items, i.Written) : items.length ≤ (encodeAll items).length := by
  induction items with
  | nil => exact Nat.zero_le _
  | cons i items ih =>
    have hi := (h i (by simp)).length_encode_pos
    have hitems := ih fun j hj => h j (by simp [hj])
    rw [encodeAll, List.length_cons, List.length_append]
    omega

-- In front of other bytes, within an input of `size` bytes, the item is read back if it is nested at most
-- `depth` deep, and otherwise reading stops in it.
def ReadBack (size depth : Nat) (read : Bytes → Read) (i : Item) : Prop :=
  ∀ rest : Bytes, i.encode.length + rest.length ≤ size →
    (i.depth ≤ depth → read (i.encode ++ rest) = (i, some rest)) ∧
    (depth < i.depth → (read (i.encode ++ rest)).2 = none)

theorem readMany_encodeAll {read : Bytes → Read} {rest : Bytes}
    (h : ∀ i ∈ items, i.ReadBack size depth read)
    (hsize : (encodeAll items).length + rest.length ≤ size) :
    (depthAll items ≤ depth →
      readMany read items.length (encodeAll items ++ rest) = (items, some rest)) ∧
    (depth < depthAll items → (readMany read items.length (encodeAll items ++ rest)).2 = none) := by
  induction items with
  | nil => exact ⟨fun _ => rfl, fun h => absurd h (Nat.not_lt_zero _)⟩
  | cons i items ih =>
    rw [encodeAll, List.length_append] at hsize
    obtain ⟨hread, hstop⟩ := h i (by simp) (encodeAll items ++ rest)
      (by rw [List.length_append]; omega)
    obtain ⟨hreads, hstops⟩ := ih (fun j hj => h j (by simp [hj])) (by omega)
    rw [encodeAll, List.length_cons, List.append_assoc, readMany, depthAll, max_le_iff, lt_max_iff]
    constructor
    · rintro ⟨hi, hitems⟩
      simp only [hread hi, hreads hitems]
    · intro hdeep
      by_cases hi : i.depth ≤ depth
      · rw [hread hi]
        exact hstops (by omega)
      · have hnone := hstop (by omega)
        split
        case h_1 => rfl
        case h_2 j rest' heq => simp [heq] at hnone

end Item

section Reading

variable {i : Item} {size depth : Nat}

theorem readBack_uint (n : UInt64) : (uint n).ReadBack size depth (readItem size depth) := by
  intro rest _
  refine ⟨fun _ => ?_, fun hdeep => absurd hdeep (Nat.not_lt_zero _)⟩
  obtain ⟨first, more, hopens⟩ := exists_opens 0 (by decide) n
  rw [encode, hopens.head, List.cons_append, readItem.eq_def]
  simp [hopens.major, readNumber, hopens.argument]

theorem readWhole_ofString (s : String) (rest : Bytes) (hsize : size < UInt64.size)
    (hfits : s.utf8ByteSize + rest.length ≤ size) :
    readWhole size 3 (UInt64.ofNat s.utf8ByteSize) (Bytes.ofString s ++ rest) =
      .ok (Bytes.ofString s, rest) := by
  have hlength : (Bytes.ofString s).length = s.utf8ByteSize := rfl
  have hn : (UInt64.ofNat s.utf8ByteSize).toNat = s.utf8ByteSize :=
    UInt64.toNat_ofNat_of_lt' (by omega)
  -- The text ends where `rest` begins.
  have hend : ¬(3 = (3 : UInt8) ∧
      UInt64.size ≤ size - (Bytes.ofString s ++ rest).length + s.utf8ByteSize) := by
    rw [List.length_append, hlength]
    omega
  rw [readWhole, hn, if_neg hend, readBytes, hn]
  simp only [List.take_left' hlength, List.drop_left' hlength, hlength, if_true, Option.elim]

theorem readBack_text (s : String) (hsize : size < UInt64.size) :
    (text s).ReadBack size depth (readItem size depth) := by
  intro rest hfits
  refine ⟨fun _ => ?_, fun hdeep => absurd hdeep (Nat.not_lt_zero _)⟩
  obtain ⟨first, more, hopens⟩ := exists_opens 3 (by decide) (UInt64.ofNat s.utf8ByteSize)
  have hlength : (Bytes.ofString s).length = s.utf8ByteSize := rfl
  rw [encode, List.length_append, hlength] at hfits
  have hwhole := readWhole_ofString s rest hsize (by omega)
  rw [encode, hopens.head, List.append_assoc, List.cons_append, readItem.eq_def]
  simp [hopens.major, readString, hopens.argument, hwhole, stringItem, textOfBytes?,
    Bytes.fromUTF8?_ofString]

-- The items with parts: the major type, how many parts the argument counts as one, and the constructor.
inductive Container : UInt8 → Nat → (UInt8 → List Item → Item) → Prop where
  | array : Container 4 1 Item.array
  | map : Container 5 2 Item.map

section Parts

variable {major : UInt8} {width : Nat} {make : UInt8 → List Item → Item} {n : UInt64}
  {items : List Item}

theorem readItem_of_depth_zero (hc : Container major width make) (n : UInt64) (input : Bytes) :
    readItem size 0 (head major n ++ input) = (.malformed, none) := by
  obtain ⟨first, more, hopens⟩ := exists_opens major (by cases hc <;> decide) n
  rw [hopens.head, List.cons_append, readItem.eq_def]
  cases hc
  all_goals simp [hopens.major, hopens.argument]

theorem readItem_of_depth_succ (hc : Container major width make) (n : UInt64) (input : Bytes) :
    readItem size (depth + 1) (head major n ++ input) =
      (make ((head major n).headD 0) (readMany (readItem size depth) (width * n.toNat) input).1,
        (readMany (readItem size depth) (width * n.toNat) input).2) := by
  obtain ⟨first, more, hopens⟩ := exists_opens major (by cases hc <;> decide) n
  rw [hopens.head, List.cons_append, readItem.eq_def]
  cases hc
  all_goals simp [hopens.major, hopens.argument]

theorem readBack_container (hc : Container major width make) (hcount : width * n.toNat = items.length)
    (hmake : i = make ((head major n).headD 0) items)
    (hencode : i.encode = head major n ++ encodeAll items)
    (hitems : ∀ j ∈ items, ∀ depth, j.ReadBack size depth (readItem size depth)) :
    i.ReadBack size depth (readItem size depth) := by
  have hdepth : i.depth = depthAll items + 1 := by
    cases hc
    all_goals rw [hmake, Item.depth]
  intro rest hfits
  rw [hencode, List.length_append] at hfits
  rw [hencode, List.append_assoc, hdepth]
  cases depth with
  | zero =>
    rw [readItem_of_depth_zero hc]
    exact ⟨fun h => absurd h (Nat.not_succ_le_zero _), fun _ => rfl⟩
  | succ depth =>
    have hparts : (encodeAll items).length + rest.length ≤ size := by omega
    obtain ⟨hreads, hstops⟩ := readMany_encodeAll (fun j hj => hitems j hj depth) hparts
    rw [readItem_of_depth_succ hc, hcount, Nat.add_le_add_iff_right, Nat.add_lt_add_iff_right]
    refine ⟨fun h => ?_, hstops⟩
    rw [hreads h, hmake]

end Parts

-- Induction on what is written. The depth goes down from an item to its parts.
theorem Item.Written.readBack (h : i.Written) (hsize : size < UInt64.size) :
    i.ReadBack size depth (readItem size depth) := by
  induction h generalizing depth with
  | uint n => exact readBack_uint n
  | text s => exact readBack_text s hsize
  | null =>
    refine fun rest _ => ⟨fun _ => ?_, fun hdeep => absurd hdeep (Nat.not_lt_zero _)⟩
    rw [readItem.eq_def]
    rfl
  | @list items hitems ih =>
    intro rest hfits
    have hlength := length_le_encodeAll hitems
    have hcount : 1 * (UInt64.ofNat items.length).toNat = items.length := by
      rw [encode_list, List.length_append] at hfits
      rw [Nat.one_mul, UInt64.toNat_ofNat_of_lt' (by omega)]
    exact readBack_container .array hcount rfl (encode_list items) (fun j hj _ => ih j hj) rest hfits
  | @record entries hentries ih =>
    intro rest hfits
    have hwritten (j : Item) (hj : j ∈ flat entries) : j.Written := by
      obtain ⟨e, he, rfl | rfl⟩ := mem_flat.mp hj
      · exact .text e.1
      · exact hentries e he
    have hlength := length_le_encodeAll hwritten
    have hcount : 2 * (UInt64.ofNat entries.length).toNat = (flat entries).length := by
      rw [encode_record, List.length_append] at hfits
      rw [length_flat] at hlength ⊢
      rw [UInt64.toNat_ofNat_of_lt' (by omega)]
    refine readBack_container .map hcount rfl (encode_record entries) (fun j hj depth => ?_) rest hfits
    obtain ⟨e, he, rfl | rfl⟩ := mem_flat.mp hj
    · exact readBack_text e.1 hsize
    · exact ih e he

theorem decode_encode_iff {α : Type} {ofItem : Item → Except Error α} {a : α} {limit : Nat}
    (hi : i.Written) (hsize : i.encode.length < UInt64.size) (ha : ofItem i = .ok a) :
    decode ofItem i.encode limit = .ok a ↔ i.depth ≤ limit := by
  have hback : i.ReadBack i.encode.length limit (readItem i.encode.length limit) := hi.readBack hsize
  obtain ⟨hread, hstop⟩ := hback [] (Nat.le_refl _)
  rw [List.append_nil] at hread hstop
  constructor
  · intro hdecode
    by_contra hdeep
    have hnone := hstop (Nat.lt_of_not_le hdeep)
    rw [decode] at hdecode
    obtain ⟨b, -, hdecode⟩ := bind_eq_ok.mp hdecode
    rw [hnone] at hdecode
    cases hdecode
  · intro hdepth
    simp only [decode, hread hdepth, ha]
    rfl

end Reading

end MatchingLogic.Cbor
