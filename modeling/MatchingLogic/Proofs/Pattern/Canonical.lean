import MatchingLogic.Certificate.Basic
import MatchingLogic.Pattern.Canonical
import MatchingLogic.Proofs.Cbor.Reading

namespace MatchingLogic

-- No code of an admitted value begins with the code of another one, whatever follows.
def PrefixFree {α : Type} (Admits : α → Prop) (encode : α → Bytes) : Prop :=
  ∀ ⦃a b : α⦄, Admits a → Admits b → ∀ ⦃x y : Bytes⦄, encode a ++ x = encode b ++ y → a = b ∧ x = y

namespace PrefixFree

variable {α : Type} {Admits : α → Prop} {encode : α → Bytes}

theorem of_length {n : Nat} (hlength : ∀ a, (encode a).length = n)
    (hinj : ∀ a b, encode a = encode b → a = b) : PrefixFree (fun _ => True) encode := by
  intro a b _ _ x y h
  obtain ⟨hcode, hrest⟩ := List.append_inj h ((hlength a).trans (hlength b).symm)
  exact ⟨hinj a b hcode, hrest⟩

theorem eq_iff (h : PrefixFree Admits encode) {a b : α} (ha : Admits a) (hb : Admits b) :
    encode a = encode b ↔ a = b := by
  refine ⟨fun heq => ?_, congrArg encode⟩
  exact (h ha hb (x := []) (y := []) (by rw [heq])).1

end PrefixFree

namespace Bytes

theorem ofDigits_ofUInt64 (n : UInt64) : Nat.ofDigits 256 ((ofUInt64 n).map (·.toNat)) = n.toNat := by
  rw [Cbor.digits_ofUInt64, Cbor.ofDigits_range]
  exact Nat.mod_eq_of_lt n.toNat_lt

theorem ofDigits_ofUInt32 (n : UInt32) : Nat.ofDigits 256 ((ofUInt32 n).map (·.toNat)) = n.toNat := by
  rw [Cbor.digits_ofUInt32, Cbor.ofDigits_range]
  exact Nat.mod_eq_of_lt n.toNat_lt

theorem prefixFree_ofUInt32 : PrefixFree (fun _ => True) ofUInt32 := by
  refine .of_length (n := 4) (fun _ => rfl) fun a b h => UInt32.toNat_inj.mp ?_
  rw [← ofDigits_ofUInt32 a, h, ofDigits_ofUInt32]

theorem prefixFree_ofUInt64 : PrefixFree (fun _ => True) ofUInt64 := by
  refine .of_length (n := 8) (fun _ => rfl) fun a b h => UInt64.toNat_inj.mp ?_
  rw [← ofDigits_ofUInt64 a, h, ofDigits_ofUInt64]

-- A length that fits in 64 bits.
theorem prefixFree_length : PrefixFree (· < UInt64.size) fun n => ofUInt64 (UInt64.ofNat n) := by
  intro n m hn hm x y h
  obtain ⟨hword, hrest⟩ := prefixFree_ofUInt64 trivial trivial h
  refine ⟨?_, hrest⟩
  rw [← UInt64.toNat_ofNat_of_lt' hn, hword, UInt64.toNat_ofNat_of_lt' hm]

theorem ofString_injective {s t : String} (h : ofString s = ofString t) : s = t := by
  have hread := fromUTF8?_ofString s
  rw [h, fromUTF8?_ofString] at hread
  exact (Option.some.inj hread).symm

theorem prefixFree_counted : PrefixFree (fun s : String => s.utf8ByteSize < UInt64.size) counted := by
  intro s t hs ht x y h
  simp only [counted, List.append_assoc] at h
  obtain ⟨hlength, h⟩ := prefixFree_length hs ht h
  obtain ⟨hbytes, hrest⟩ := List.append_inj h hlength
  exact ⟨ofString_injective hbytes, hrest⟩

-- A stream of bytes behind its length.
theorem prefixFree_stream : PrefixFree (fun stream : Bytes => stream.length < UInt64.size)
    fun stream => ofUInt64 (UInt64.ofNat stream.length) ++ stream := by
  intro s t hs ht x y h
  simp only [List.append_assoc] at h
  obtain ⟨hlength, h⟩ := prefixFree_length hs ht h
  exact List.append_inj h hlength

end Bytes

namespace Pattern

variable {p q : Pattern}

-- The lengths that are written for this node.
def extents : Pattern → List Nat
  | symbol name => [name.utf8ByteSize]
  | sugar name args => [name.utf8ByteSize, args.length]
  | _ => []

-- All lengths that are written fit in 64 bits.
def Measured (p : Pattern) : Prop :=
  ∀ q ∈ p.nodes, ∀ n ∈ q.extents, n < UInt64.size

instance : DecidablePred Measured :=
  fun p => inferInstanceAs (Decidable (∀ q ∈ p.nodes, ∀ n ∈ q.extents, n < UInt64.size))

@[simp] theorem measured_symbol {name : String} :
    (symbol name).Measured ↔ name.utf8ByteSize < UInt64.size := by
  simp [Measured, nodes, extents]

@[simp] theorem measured_app {l r : Pattern} : (app l r).Measured ↔ l.Measured ∧ r.Measured := by
  simp [Measured, nodes, extents, or_imp, forall_and]

@[simp] theorem measured_imp {a c : Pattern} : (imp a c).Measured ↔ a.Measured ∧ c.Measured := by
  simp [Measured, nodes, extents, or_imp, forall_and]

@[simp] theorem measured_ex {v : UInt32} {b : Pattern} : (ex v b).Measured ↔ b.Measured := by
  simp [Measured, nodes, extents]

@[simp] theorem measured_mu {v : UInt32} {b : Pattern} : (mu v b).Measured ↔ b.Measured := by
  simp [Measured, nodes, extents]

@[simp] theorem measured_sugar {name : String} {args : List Pattern} : (sugar name args).Measured ↔
    name.utf8ByteSize < UInt64.size ∧ args.length < UInt64.size ∧ ∀ a ∈ args, a.Measured := by
  simp only [Measured, nodes_eq (sugar name args), List.forall_mem_cons, List.mem_flatMap, extents, children]
  simp only [List.not_mem_nil, false_imp_iff, implies_true, and_true, and_assoc]
  grind

-- Lists of one length are told apart if their members are.
theorem flatMap_canonical_inj {ps qs : List Pattern} (hlength : ps.length = qs.length)
    (hps : ∀ p ∈ ps, ∀ q ∈ qs, ∀ x y, p.canonical ++ x = q.canonical ++ y → p = q ∧ x = y) {x y : Bytes}
    (h : ps.flatMap canonical ++ x = qs.flatMap canonical ++ y) : ps = qs ∧ x = y := by
  induction ps generalizing qs with
  | nil =>
    cases List.length_eq_zero_iff.mp hlength.symm
    exact ⟨rfl, h⟩
  | cons p ps ih =>
    obtain ⟨q, qs, rfl⟩ := List.exists_cons_of_length_eq_add_one hlength.symm
    simp only [List.flatMap_cons, List.append_assoc] at h
    obtain ⟨rfl, hmore⟩ := hps p (by simp) q (by simp) _ _ h
    obtain ⟨rfl, hrest⟩ := ih (Nat.succ.inj hlength)
      (fun p hp q hq => hps p (by simp [hp]) q (by simp [hq])) hmore
    exact ⟨rfl, hrest⟩

-- Two nodes with the same tag are of the same kind, and the rest is told apart part by part.
theorem prefixFree_canonical : PrefixFree Measured canonical := by
  intro p q hp hq x y h
  induction p generalizing q x y with
  | symbol name =>
    cases q with
    | symbol name' =>
      simp only [canonical, List.cons_append, List.cons.injEq, true_and] at h
      obtain ⟨rfl, hrest⟩ := Bytes.prefixFree_counted (measured_symbol.mp hp) (measured_symbol.mp hq) h
      exact ⟨rfl, hrest⟩
    | _ => simp [canonical] at h
  | elementVar id =>
    cases q with
    | elementVar id' =>
      simp only [canonical, List.cons_append, List.cons.injEq, true_and] at h
      obtain ⟨rfl, hrest⟩ := Bytes.prefixFree_ofUInt32 trivial trivial h
      exact ⟨rfl, hrest⟩
    | _ => simp [canonical] at h
  | setVar id =>
    cases q with
    | setVar id' =>
      simp only [canonical, List.cons_append, List.cons.injEq, true_and] at h
      obtain ⟨rfl, hrest⟩ := Bytes.prefixFree_ofUInt32 trivial trivial h
      exact ⟨rfl, hrest⟩
    | _ => simp [canonical] at h
  | metavar id =>
    cases q with
    | metavar id' =>
      simp only [canonical, List.cons_append, List.cons.injEq, true_and] at h
      obtain ⟨rfl, hrest⟩ := Bytes.prefixFree_ofUInt32 trivial trivial h
      exact ⟨rfl, hrest⟩
    | _ => simp [canonical] at h
  | app l r ihl ihr =>
    cases q with
    | app l' r' =>
      simp only [canonical, List.cons_append, List.cons.injEq, true_and, List.append_assoc] at h
      obtain ⟨hl, hr⟩ := measured_app.mp hp
      obtain ⟨hl', hr'⟩ := measured_app.mp hq
      obtain ⟨rfl, hright⟩ := ihl hl hl' h
      obtain ⟨rfl, hrest⟩ := ihr hr hr' hright
      exact ⟨rfl, hrest⟩
    | _ => simp [canonical] at h
  | imp a c iha ihc =>
    cases q with
    | imp a' c' =>
      simp only [canonical, List.cons_append, List.cons.injEq, true_and, List.append_assoc] at h
      obtain ⟨ha, hc⟩ := measured_imp.mp hp
      obtain ⟨ha', hc'⟩ := measured_imp.mp hq
      obtain ⟨rfl, hright⟩ := iha ha ha' h
      obtain ⟨rfl, hrest⟩ := ihc hc hc' hright
      exact ⟨rfl, hrest⟩
    | _ => simp [canonical] at h
  | ex v b ih =>
    cases q with
    | ex v' b' =>
      simp only [canonical, List.cons_append, List.cons.injEq, true_and, List.append_assoc] at h
      obtain ⟨rfl, hbody⟩ := Bytes.prefixFree_ofUInt32 trivial trivial h
      obtain ⟨rfl, hrest⟩ := ih (measured_ex.mp hp) (measured_ex.mp hq) hbody
      exact ⟨rfl, hrest⟩
    | _ => simp [canonical] at h
  | mu v b ih =>
    cases q with
    | mu v' b' =>
      simp only [canonical, List.cons_append, List.cons.injEq, true_and, List.append_assoc] at h
      obtain ⟨rfl, hbody⟩ := Bytes.prefixFree_ofUInt32 trivial trivial h
      obtain ⟨rfl, hrest⟩ := ih (measured_mu.mp hp) (measured_mu.mp hq) hbody
      exact ⟨rfl, hrest⟩
    | _ => simp [canonical] at h
  | sugar name args ih =>
    cases q with
    | sugar name' args' =>
      simp only [canonical, canonicalAll_eq, List.cons_append, List.cons.injEq, true_and, List.append_assoc] at h
      obtain ⟨hname, hcount, hargs⟩ := measured_sugar.mp hp
      obtain ⟨hname', hcount', hargs'⟩ := measured_sugar.mp hq
      obtain ⟨rfl, hlist⟩ := Bytes.prefixFree_counted hname hname' h
      obtain ⟨hlength, hmembers⟩ := Bytes.prefixFree_length hcount hcount' hlist
      obtain ⟨rfl, hrest⟩ := flatMap_canonical_inj hlength
        (fun a ha b hb _ _ heq => ih a ha (hargs a ha) (hargs' b hb) heq) hmembers
      exact ⟨rfl, hrest⟩
    | _ => simp [canonical] at h

-- What is hashed for the fingerprint.
def message (p : Pattern) : Bytes :=
  Digest.message (Bytes.ofString "PATTERN_V0") p.canonical

end Pattern

namespace Digest

variable {domain domain' data data' : Bytes}

-- The length that stands before the data is not needed to tell data of one domain apart.
theorem message_inj (h : message domain data = message domain data') : data = data' := by
  simp only [message, List.append_assoc, List.append_cancel_left_eq] at h
  exact (Bytes.prefixFree_ofUInt64 trivial trivial h).2

-- Domains that begin in different ways have no message in common.
theorem message_ne {n : Nat} (hdomain : n ≤ domain.length) (hdomain' : n ≤ domain'.length)
    (hne : domain.take n ≠ domain'.take n) : message domain data ≠ message domain' data' := by
  intro h
  simp only [message, List.append_assoc, List.append_cancel_left_eq] at h
  have htake := congrArg (List.take n) h
  rw [List.take_append_of_le_length hdomain, List.take_append_of_le_length hdomain'] at htake
  exact hne htake

end Digest

namespace Certificate

-- What is hashed for the digest.
def message (c : Certificate) : Bytes :=
  Digest.message (Bytes.ofString "PROOF_ARTIFACT_V0") c.contents

-- The length of each stream fits in 64 bits.
def Measured (c : Certificate) : Prop :=
  ∀ stream ∈ [c.theory, c.claims, c.proofs], stream.length < UInt64.size

instance : DecidablePred Measured :=
  fun c => inferInstanceAs (Decidable (∀ stream ∈ [c.theory, c.claims, c.proofs], stream.length < UInt64.size))

theorem contents_inj {c c' : Certificate} (hc : c.Measured) (hc' : c'.Measured)
    (h : c.contents = c'.contents) : c = c' := by
  obtain ⟨theory, claims, proofs⟩ := c
  obtain ⟨theory', claims', proofs'⟩ := c'
  simp only [Measured, List.forall_mem_cons] at hc hc'
  simp only [contents, List.flatMap_cons, List.flatMap_nil] at h
  obtain ⟨rfl, hmore⟩ := Bytes.prefixFree_stream hc.1 hc'.1 h
  obtain ⟨rfl, hlast⟩ := Bytes.prefixFree_stream hc.2.1 hc'.2.1 hmore
  obtain ⟨rfl, -⟩ := Bytes.prefixFree_stream hc.2.2.1 hc'.2.2.1 hlast
  rfl

end Certificate

theorem Pattern.message_ne (p : Pattern) (c : Certificate) : p.message ≠ c.message :=
  Digest.message_ne (n := 2) (by decide +kernel) (by decide +kernel) (by decide +kernel)

-- Canonical bytes are a prefix code, so that different patterns have different ones. Digests are taken of messages
-- that tell patterns from patterns, certificates from certificates and patterns from certificates.
theorem Digest.messages_apart :
    PrefixFree Pattern.Measured Pattern.canonical ∧
    (∀ p : Pattern, p.fingerprint = ⟨Sha256.hash p.message⟩) ∧
    (∀ c : Certificate, c.digest = ⟨Sha256.hash c.message⟩) ∧
    (∀ p q : Pattern, p.Measured → q.Measured →
      (p.canonical = q.canonical ↔ p = q) ∧ (p.message = q.message ↔ p = q)) ∧
    (∀ c c' : Certificate, c.Measured → c'.Measured → (c.message = c'.message ↔ c = c')) ∧
    ∀ (p : Pattern) (c : Certificate), p.message ≠ c.message := by
  have hpatterns {p q : Pattern} (hp : p.Measured) (hq : q.Measured) : p.canonical = q.canonical ↔ p = q :=
    Pattern.prefixFree_canonical.eq_iff hp hq
  refine ⟨Pattern.prefixFree_canonical, fun _ => rfl, fun _ => rfl, fun p q hp hq => ⟨hpatterns hp hq, ?_⟩,
    fun c c' hc hc' => ?_, Pattern.message_ne⟩
  · exact ⟨fun h => (hpatterns hp hq).mp (message_inj h), congrArg Pattern.message⟩
  · exact ⟨fun h => Certificate.contents_inj hc hc' (message_inj h), congrArg Certificate.message⟩

-- If the number of arguments were not written, the second code would begin the first.
theorem Digest.messages_apart_imitated :
    let p := Pattern.sugar "a" [.symbol ""]
    let q := Pattern.sugar "a" []
    let c : Certificate := ⟨[22], [], [20, 0, 0, 0, 0]⟩
    p.Measured ∧ q.Measured ∧ c.Measured ∧ p.message ≠ q.message ∧ p.message ≠ c.message ∧
    ∀ x y, p.canonical ++ x ≠ q.canonical ++ y := by
  intro p q c
  have hp : p.Measured := by decide +kernel
  have hq : q.Measured := by decide +kernel
  have hc : c.Measured := by decide +kernel
  have hne : p ≠ q := by decide +kernel
  obtain ⟨hcode, -, -, hpatterns, -, happart⟩ := messages_apart
  refine ⟨hp, hq, hc, fun h => hne ((hpatterns p q hp hq).2.mp h), happart p c, fun x y h => ?_⟩
  exact hne (hcode hp hq h).1

end MatchingLogic
