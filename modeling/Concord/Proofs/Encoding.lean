import Mathlib.Data.List.Basic
import Mathlib.Tactic.Ring
import Concord.Content

/-! The byte strings that are digested are unambiguous. A text after its length can be told from
whatever follows it, and so can values, entries and segments; equal byte strings then have equal
parts. The digest of a subtree is taken of hexadecimal digits, none of which ends a content.
-/

namespace Concord

-----------------------------------------------------------------------------------------
-- Codes that can be told from what follows them
-----------------------------------------------------------------------------------------

namespace Encoding

/-- Within `s`, a code word and what follows it are determined by both together. -/
def Parses {α : Type} (code : α → List UInt8) (s : α → Prop) : Prop :=
  ∀ a b x y, s a → s b → code a ++ x = code b ++ y → a = b ∧ x = y

/-- Lists of equally many words parse when their words do, by list induction. -/
theorem Parses.flatMap {α : Type} {code : α → List UInt8} {s : α → Prop} (h : Parses code s)
    : ∀ {l m : List α} {x y : List UInt8}, (∀ a ∈ l, s a) → (∀ b ∈ m, s b) →
        l.length = m.length → l.flatMap code ++ x = m.flatMap code ++ y → l = m ∧ x = y
  | [], [], _, _, _, _, _, he => ⟨rfl, by simpa using he⟩
  | a :: l, b :: m, x, y, hl, hm, hn, he => by
      simp only [List.flatMap_cons, List.append_assoc] at he
      obtain ⟨hab, hr⟩ := h a b _ _ (hl a (by simp)) (hm b (by simp)) he
      obtain ⟨hlm, hxy⟩ := Parses.flatMap h (fun c hc => hl c (by simp [hc]))
        (fun c hc => hm c (by simp [hc])) (by simpa using hn) hr
      exact ⟨by rw [hab, hlm], hxy⟩

/-- Lists of words that are never empty are told apart without their number, by list induction. -/
theorem Parses.flatMap_inj {α : Type} {code : α → List UInt8} {s : α → Prop} (h : Parses code s)
    (hne : ∀ a, s a → code a ≠ [])
    : ∀ {l m : List α}, (∀ a ∈ l, s a) → (∀ b ∈ m, s b) →
        l.flatMap code = m.flatMap code → l = m
  | [], [], _, _, _ => rfl
  | [], b :: m, _, hm, he => by simp [hne b (hm b (by simp))] at he
  | a :: l, [], hl, _, he => by simp [hne a (hl a (by simp))] at he
  | a :: l, b :: m, hl, hm, he => by
      simp only [List.flatMap_cons] at he
      obtain ⟨hab, hr⟩ := h a b _ _ (hl a (by simp)) (hm b (by simp)) he
      rw [hab, Parses.flatMap_inj h hne (fun c hc => hl c (by simp [hc]))
        (fun c hc => hm c (by simp [hc])) hr]

-----------------------------------------------------------------------------------------
-- Numbers
-----------------------------------------------------------------------------------------

@[simp]
theorem length_bigEndian (count n : Nat) : (Digest.bigEndian count n).length = count := by
  simp [Digest.bigEndian]

/-- The first byte is the most significant one. -/
theorem bigEndian_succ (count n : Nat)
    : Digest.bigEndian (count + 1) n
      = UInt8.ofNat (n >>> (8 * count)) :: Digest.bigEndian count n := by
  rw [Digest.bigEndian, List.range_succ_eq_map, List.map_cons, List.map_map, Digest.bigEndian]
  congr 1
  refine List.map_congr_left fun i _ => ?_
  simp only [Function.comp_apply, Nat.add_sub_cancel, Nat.succ_eq_add_one]
  rw [Nat.sub_sub, Nat.add_comm 1 i]

/-- The bytes of a number tell it modulo their power, by induction on their number. -/
theorem bigEndian_mod (count : Nat) {m n : Nat}
    (h : Digest.bigEndian count m = Digest.bigEndian count n)
    : m % 2 ^ (8 * count) = n % 2 ^ (8 * count) := by
  induction count with
  | zero => simp [Nat.mod_one]
  | succ count ih =>
      rw [bigEndian_succ, bigEndian_succ, List.cons_eq_cons] at h
      have hb := congrArg UInt8.toNat h.1
      simp only [UInt8.toNat_ofNat', Nat.shiftRight_eq_div_pow] at hb
      have split (k : Nat) : k % 2 ^ (8 * (count + 1))
          = k % 2 ^ (8 * count) + 2 ^ (8 * count) * (k / 2 ^ (8 * count) % 2 ^ 8) := by
        rw [show 8 * (count + 1) = 8 * count + 8 by ring, Nat.pow_add, Nat.mod_mul]
      rw [split m, split n, ih h.2, hb]

/-- Lengths of less than sixty-four bits are told apart by their eight bytes. -/
theorem length_inj {m n : Nat} (hm : m < 2 ^ 64) (hn : n < 2 ^ 64) (h : length m = length n)
    : m = n := by
  have he := bigEndian_mod 8 h
  rwa [Nat.mod_eq_of_lt hm, Nat.mod_eq_of_lt hn] at he

@[simp]
theorem length_length (n : Nat) : (length n).length = 8 := by
  simp [length]

-----------------------------------------------------------------------------------------
-- Texts and values
-----------------------------------------------------------------------------------------

/-- The text has a length of less than sixty-four bits, as any text in memory has. -/
def Storable (s : String) : Prop :=
  (utf8 s).length < 2 ^ 64

instance (s : String) : Decidable (Storable s) :=
  inferInstanceAs (Decidable (_ < _))

theorem utf8_inj {s t : String} (h : utf8 s = utf8 t) : s = t := by
  rw [utf8, utf8, Array.toList_inj] at h
  exact String.toByteArray_inj.mp (ByteArray.ext h)

theorem parses_text : Parses text Storable := by
  intro s t x y hs ht h
  simp only [text, List.append_assoc] at h
  obtain ⟨hl, hr⟩ := List.append_inj h (by simp)
  obtain ⟨hu, rfl⟩ := List.append_inj hr (length_inj hs ht hl)
  exact ⟨utf8_inj hu, rfl⟩

/-- The value is no text that could not be held. -/
def StorableScalar : Scalar → Prop
  | .text s => Storable s
  | _ => True

instance : (v : Scalar) → Decidable (StorableScalar v)
  | .text s => inferInstanceAs (Decidable (Storable s))
  | .null | .bool _ | .int _ => inferInstanceAs (Decidable True)

theorem flag_inj {a b : Bool} (h : flag a = flag b) : a = b := by
  cases a <;> cases b <;> simp_all [flag]

/-- Values parse: the tag tells the form, and every form but texts has one length. -/
theorem parses_scalar : Parses scalar StorableScalar := by
  intro v w x y hv hw h
  cases v <;> cases w <;>
    simp only [scalar, List.cons_append, List.nil_append, List.cons.injEq] at h
  all_goals first | exact absurd h.1 (by decide) | skip
  case null.null => exact ⟨rfl, h.2⟩
  case bool.bool a b =>
    obtain ⟨-, hf, rfl⟩ := h
    exact ⟨by rw [flag_inj hf], rfl⟩
  case int.int a b =>
    obtain ⟨hb, rfl⟩ := List.append_inj h.2 (by simp)
    have hn := UInt64.toNat_inj.mp (length_inj a.toUInt64.toNat_lt b.toUInt64.toNat_lt hb)
    rw [← a.toInt64_toUInt64, hn, b.toInt64_toUInt64]
    exact ⟨rfl, rfl⟩
  case text.text s t =>
    obtain ⟨rfl, rfl⟩ := parses_text s t x y hv hw h.2
    exact ⟨rfl, rfl⟩

/-- An entry of attributes: its name, then its value. -/
def entry (e : String × Scalar) : List UInt8 :=
  text e.1 ++ scalar e.2

theorem parses_entry : Parses entry fun e => Storable e.1 ∧ StorableScalar e.2 := by
  rintro ⟨m, v⟩ ⟨n, w⟩ x y ⟨hm, hv⟩ ⟨hn, hw⟩ h
  simp only [entry, List.append_assoc] at h
  obtain ⟨rfl, hr⟩ := parses_text m n _ _ hm hn h
  obtain ⟨rfl, rfl⟩ := parses_scalar v w x y hv hw hr
  exact ⟨rfl, rfl⟩

theorem entry_ne_nil (e : String × Scalar) : entry e ≠ [] := by
  intro h
  have hl := congrArg List.length h
  simp [entry, text] at hl

-----------------------------------------------------------------------------------------
-- Contents
-----------------------------------------------------------------------------------------

/-- No name and no text value is longer than a text in memory may be. -/
def StorableAttributes (a : Attributes) : Prop :=
  ∀ e ∈ a.toList, Storable e.1 ∧ StorableScalar e.2

instance (a : Attributes) : Decidable (StorableAttributes a) :=
  inferInstanceAs (Decidable (∀ e ∈ a.toList, Storable e.1 ∧ StorableScalar e.2))

end Encoding

/-- The part of a content that is digested and compared: all but the tags. -/
def Content.compared (c : Content) : Attributes × Bool × Bool :=
  (c.attributes, c.dummy, c.error)

namespace Encoding

/-- Equal byte strings of contents at keys of one depth have equal keys and equal contents, tags
apart. The two flags are read from the end, so the number of attributes is not needed.
-/
theorem content_inj {j k : Key} {c d : Content}
    (hj : ∀ s ∈ j.segments, Storable s) (hk : ∀ s ∈ k.segments, Storable s)
    (hc : StorableAttributes c.attributes) (hd : StorableAttributes d.attributes)
    (depth : j.depth = k.depth) (h : content j c = content k d)
    : j = k ∧ c.compared = d.compared := by
  obtain ⟨hf, hl⟩ := List.append_inj' h rfl
  simp only [key, attributes, List.append_assoc] at hf
  have hkey := (List.append_inj hf (by simp)).2
  obtain ⟨hs, ha⟩ := parses_text.flatMap hj hk depth hkey
  have he := (List.append_inj ha (by simp)).2
  have hlist : c.attributes.toList = d.attributes.toList :=
    parses_entry.flatMap_inj (fun e _ => entry_ne_nil e) hc hd he
  simp only [List.cons.injEq] at hl
  refine ⟨by cases j; cases k; exact congrArg Key.mk hs, ?_⟩
  simp only [Content.compared, Std.ExtTreeMap.toList_inj.mp hlist, flag_inj hl.1, flag_inj hl.2.1]

/-- What is digested for a content does not depend on its tags. -/
theorem content_congr {k : Key} {c d : Content} (h : c.compared = d.compared)
    : content k c = content k d := by
  obtain ⟨attributes, flags⟩ := Prod.mk.inj h
  obtain ⟨dummy, error⟩ := Prod.mk.inj flags
  rw [content, content, attributes, dummy, error]

/-- The number of segments, and the length of every segment, name and text fit in sixty-four
bits.
-/
structure Fits (k : Key) (c : Content) : Prop where
  depth : k.depth < 2 ^ 64
  segments : ∀ s ∈ k.segments, Storable s
  attributes : StorableAttributes c.attributes

/-- The number of segments stands first. -/
theorem depth_of_content {j k : Key} {c d : Content} (hj : j.depth < 2 ^ 64)
    (hk : k.depth < 2 ^ 64) (h : content j c = content k d)
    : j.depth = k.depth := by
  simp only [content, key, List.append_assoc] at h
  exact length_inj hj hk (List.append_inj h (by simp)).1

/-- The bytes of a content tell its key, at any depth, and all of it but the tags. -/
theorem content_eq_iff {j k : Key} {c d : Content} (hj : Fits j c) (hk : Fits k d)
    : content j c = content k d ↔ j = k ∧ c.compared = d.compared := by
  constructor
  · intro h
    have depth := depth_of_content hj.depth hk.depth h
    exact content_inj hj.segments hk.segments hj.attributes hk.attributes depth h
  · rintro ⟨rfl, same⟩
    exact content_congr same

theorem flag_mem_content (k : Key) (c : Content) : flag c.error ∈ content k c := by
  simp [content]

-----------------------------------------------------------------------------------------
-- Digests as texts
-----------------------------------------------------------------------------------------

/-- The text has sixty-four bytes, none of which stands for a truth value. -/
structure IsDigest (s : String) : Prop where
  length : (utf8 s).length = 64
  digits : ∀ b ∈ utf8 s, 1 < b

theorem utf8_ofList (l : List Char) : utf8 (String.ofList l) = l.flatMap String.utf8EncodeChar := by
  simp [utf8, List.utf8Encode]

/-- The text consists of sixty-four hexadecimal digits of either case. -/
structure IsHex (s : String) : Prop where
  length : s.length = 64
  digits : ∀ c ∈ s.toList, c.isHexDigit = true

/-- A hexadecimal digit is one byte, which does not stand for a truth value. -/
theorem utf8_hexDigit {c : Char} (h : c.isHexDigit = true)
    : ∃ b, 1 < b ∧ String.utf8EncodeChar c = [b] := by
  have range : 48 ≤ c.val.toNat ∧ c.val.toNat ≤ 102 := by
    simp only [Char.isHexDigit, Char.isDigit, Bool.or_eq_true, Bool.and_eq_true,
      decide_eq_true_eq, ge_iff_le, UInt32.le_iff_toNat_le] at h
    rcases h with (⟨low, high⟩ | ⟨low, high⟩) | ⟨low, high⟩ <;>
      exact ⟨Nat.le_trans (by decide) low, Nat.le_trans high (by decide)⟩
  refine ⟨UInt8.ofNat c.val.toNat, ?_, ?_⟩
  · rw [UInt8.lt_iff_toNat_lt, UInt8.toNat_ofNat']
    change 1 < _
    omega
  · simp only [String.utf8EncodeChar]
    rw [if_pos (by omega)]

/-- Hexadecimal texts have the form of digests. -/
theorem IsHex.isDigest {s : String} (h : IsHex s) : IsDigest s := by
  have bytes : utf8 s = s.toList.flatMap String.utf8EncodeChar := by
    rw [← utf8_ofList, String.ofList_toList]
  constructor
  · have single : s.toList.map (fun c => (String.utf8EncodeChar c).length)
        = s.toList.map fun _ => 1 := by
      refine List.map_congr_left fun c hc => ?_
      obtain ⟨b, -, hb⟩ := utf8_hexDigit (h.digits c hc)
      rw [hb, List.length_singleton]
    rw [bytes, List.length_flatMap, single, List.map_const', List.sum_replicate_nat,
      String.length_toList, h.length]
  · intro d hd
    rw [bytes] at hd
    obtain ⟨c, hc, hd⟩ := List.mem_flatMap.mp hd
    obtain ⟨b, hb, code⟩ := utf8_hexDigit (h.digits c hc)
    rw [code, List.mem_singleton] at hd
    exact hd ▸ hb

theorem length_sha256 (message : List UInt8) : (Digest.sha256 message).length = 32 := by
  simp [Digest.sha256, Digest.Words.toList]

/-- Digests are hexadecimal texts. -/
theorem isHex_fingerprint (message : List UInt8) : IsHex (Digest.fingerprint message) := by
  have digit : ∀ n : Fin 16, (Nat.digitChar n).isHexDigit = true := by
    decide
  constructor
  · rw [Digest.fingerprint, ← String.length_toList, String.toList_ofList, List.length_flatMap]
    simp only [Digest.hexByte, List.length_cons, List.length_nil, List.map_const',
      List.sum_replicate_nat, length_sha256]
  · intro c hc
    rw [Digest.fingerprint, String.toList_ofList] at hc
    obtain ⟨b, -, hb⟩ := List.mem_flatMap.mp hc
    have high := digit ⟨b.toNat / 16, by have hb := b.toNat_lt; omega⟩
    have low := digit ⟨b.toNat % 16, by omega⟩
    simp only [Digest.hexByte, List.mem_cons, List.not_mem_nil, or_false] at hb
    rcases hb with rfl | rfl
    · exact high
    · exact low

theorem parses_digest : Parses utf8 IsDigest := by
  intro s t x y hs ht h
  obtain ⟨hu, rfl⟩ := List.append_inj h (hs.length.trans ht.length.symm)
  exact ⟨utf8_inj hu, rfl⟩

theorem IsDigest.utf8_ne_nil {s : String} (h : IsDigest s) : utf8 s ≠ [] := by
  intro he
  have hl := h.length
  simp [he] at hl

/-- Equal byte strings of subtrees have the same own digest and the same digests of children. -/
theorem subtree_inj {p q : String} {l m : List String} (hp : IsDigest p) (hq : IsDigest q)
    (hl : ∀ s ∈ l, IsDigest s) (hm : ∀ s ∈ m, IsDigest s) (h : subtree p l = subtree q m)
    : p = q ∧ l = m := by
  obtain ⟨rfl, hr⟩ := parses_digest p q _ _ hp hq h
  exact ⟨rfl, parses_digest.flatMap_inj (fun _ hs => hs.utf8_ne_nil) hl hm hr⟩

/-- No byte string is both that of a content, which has a flag in it, and that of a subtree. -/
theorem content_ne_subtree {k : Key} {c : Content} {p : String} {l : List String}
    (hp : IsDigest p) (hl : ∀ s ∈ l, IsDigest s)
    : content k c ≠ subtree p l := by
  intro h
  have hm : flag c.error ∈ subtree p l := h ▸ flag_mem_content k c
  have hgt : 1 < flag c.error := by
    rcases List.mem_append.mp hm with hm | hm
    · exact hp.digits _ hm
    · obtain ⟨s, hs, hb⟩ := List.mem_flatMap.mp hm
      exact (hl s hs).digits _ hb
  revert hgt
  cases c.error <;> decide

end Encoding

end Concord
