import Concord.Document.StateFile
import Concord.Proofs.HashTree.TreeText

/-! Texts of state files. An object stands beside its key in one JSON object, and all of it but the
key is held before it is decoded, which a written object withstands: its numbers are of sixty-four
bits and its strings denote texts. Main statement: the text of every state file is read back as that
state file.
-/

namespace Concord

-----------------------------------------------------------------------------------------
-- Values that can be held
-----------------------------------------------------------------------------------------

namespace Json.Number

/-- Rounding at most doubles a number. -/
theorem nearest_le (n : Nat) : nearest n ≤ 2 * n := by
  rcases Nat.eq_zero_or_pos n with rfl | positive
  · decide
  · have unit : Nat.pow 2 (n.log2 - 52) ≤ n :=
      (Nat.pow_le_pow_right (by omega) (Nat.sub_le _ _)).trans (Nat.log2_self_le positive.ne')
    have steps := Nat.div_mul_le_self n (Nat.pow 2 (n.log2 - 52))
    rw [nearest]
    split
    · rw [Nat.add_mul, Nat.one_mul]
      omega
    · omega

theorem leadingDigits_eq {n : Nat} (h : n < UInt64.size) : leadingDigits n = (n, 0) := by
  rw [leadingDigits, if_pos h]

/-- Infinity is out of reach for what is rounded from sixty-four bits. -/
theorem size_le_overflow : 2 * UInt64.size ≤ overflow := by
  decide +kernel

/-- An integer of sixty-four bits is finite when it is rounded in steps: no digit of it is lost. -/
theorem isHoldable_ofInt {i : Int} (h : i.natAbs < UInt64.size) : (ofInt i).isHoldable = true := by
  have finite : nearest i.natAbs * nearest (Nat.pow 10 0) < overflow := by
    have one : nearest (Nat.pow 10 0) = 1 := by decide
    have rounded := nearest_le i.natAbs
    have room := size_le_overflow
    rw [one]
    omega
  have whole : i.natAbs / Nat.pow 10 0 = i.natAbs := Nat.div_one _
  have digits := Nat.div_add_mod' i.natAbs (Nat.pow 10 0)
  rw [whole] at digits
  have none : (0 : Int) - (0 : Nat) + (0 : Nat) + (0 : Nat) = 0 := rfl
  simp only [isHoldable, ofInt, scale, whole, leadingDigits_eq h, digits, none, Int.toNat_zero,
    finite]
  simp [largestScale]

end Json.Number

namespace Decoder

/-- The scalars of attributes can be held at any depth. -/
theorem holdable_scalar (v : Scalar) (depth : Nat) : holdable depth (Wire.scalar v) = true := by
  cases v with
  | null => cases depth <;> rfl
  | bool b => cases depth <;> rfl
  | text s => cases depth <;> rfl
  | int i =>
      have low := i.minValue_le_toInt
      have high := i.toInt_le
      have least : Int64.minValue.toInt = -9223372036854775808 := by decide
      have most : Int64.maxValue.toInt = 9223372036854775807 := by decide
      have size : UInt64.size = 18446744073709551616 := rfl
      have held : (Json.Number.ofInt i.toInt).isHoldable = true :=
        Json.Number.isHoldable_ofInt (by omega)
      cases depth <;> exact held

theorem holdable_attributes (a : Attributes) (depth : Nat)
    : holdable (depth + 1) (Wire.attributes a) = true := by
  simp only [Wire.attributes, Json.record, holdable, List.all_map, List.all_eq_true]
  intro e _
  exact holdable_scalar e.2 depth

end Decoder

-----------------------------------------------------------------------------------------
-- Objects beside their keys
-----------------------------------------------------------------------------------------

namespace Wire

/-- An object beside its key. -/
def objectEntry (entry : Key × StoredObject) : Json :=
  .record (("key", key entry.1) :: objectMembers entry.2)

theorem plain_objectEntry (entry : Key × StoredObject) : (objectEntry entry).Plain := by
  refine Json.plain_record fun m hm => ?_
  simp only [objectMembers, List.mem_cons, List.not_mem_nil, or_false] at hm
  rcases hm with rfl | rfl | rfl | rfl
  · exact plain_key entry.1
  · exact .text entry.2.owner.toText
  · exact plain_attributes entry.2.attributes
  · exact plain_attributes entry.2.observed

theorem plain_stateFile (s : StateFile) : (stateFile s).Plain := by
  refine Json.plain_record fun m hm => ?_
  cases List.mem_singleton.mp hm
  exact Json.plain_ofList fun entry _ => plain_objectEntry entry

end Wire

namespace Decode

open Decoder

theorem owner_wire (o : Owner) (depth : Nat)
    : heldChoice owners depth (.ofText o.toText) = some o := by
  cases o <;> rfl

/-- The members of an object give the object back. -/
theorem objectOfFields_wire (o : StoredObject) (depth : Nat)
    : objectOfFields ⟨depth + 1, Wire.objectMembers o⟩ (heldChoice owners) = some o := by
  let f := Fields.mk (depth + 1) (Wire.objectMembers o)
  have owner : f.withDefault "owner" (heldChoice owners) .local = some o.owner :=
    owner_wire o.owner (depth + 1)
  have configured : f.withDefault "attributes" attributes ∅ = some o.attributes :=
    attributes_wire o.attributes depth
  have observed : f.withDefault "observed" attributes ∅ = some o.observed :=
    attributes_wire o.observed depth
  rw [objectOfFields, owner, configured, observed]
  rfl

/-- The members of an object can be held. -/
theorem holdable_objectMembers (o : StoredObject) (depth : Nat)
    : ∀ m ∈ Wire.objectMembers o, holdable (depth + 1) m.2 = true := by
  intro m hm
  simp only [Wire.objectMembers, List.mem_cons, List.not_mem_nil, or_false] at hm
  rcases hm with rfl | rfl | rfl
  · rfl
  · exact holdable_attributes o.attributes depth
  · exact holdable_attributes o.observed depth

/-- Where two arrays or objects may be opened, an object is decoded beside its key. -/
theorem objectEntry_wire (entry : Key × StoredObject) (depth : Nat)
    : objectEntry (depth + 2) (Wire.objectEntry entry) = some entry := by
  obtain ⟨k, o⟩ := entry
  have keyed : known? ["key"]
      ((("key", Wire.key k) :: Wire.objectMembers o).map fun m => (some m.1, m.2))
      = some [("key", Wire.key k)] := rfl
  have held : ((("key", Wire.key k) :: Wire.objectMembers o).map fun m => (some m.1, m.2)).filter
      (fun m => m.1 ≠ some "key")
      = (Wire.objectMembers o).map fun m => (some m.1, m.2) := rfl
  have fields : known? objectFields ((Wire.objectMembers o).map fun m => (some m.1, m.2))
      = some (Wire.objectMembers o) := rfl
  have holds : ((Wire.objectMembers o).map fun m => (some m.1, m.2)).all
      (fun m => holdable (depth + 1) m.2) = true := by
    rw [List.all_map, List.all_eq_true]
    exact holdable_objectMembers o depth
  have found : (List.lookup "key" [("key", Wire.key k)]).bind (key (depth + 1)) = some k :=
    key_wire k depth
  rw [Wire.objectEntry, Json.record, objectEntry, keyed]
  simp only [held, holds, found, fields, objectOfFields_wire, Option.bind_eq_bind, Option.bind_some,
    if_true]
  rfl

/-- Where four arrays or objects may be opened, a state file is decoded. -/
theorem stateFile_wire (s : StateFile) (depth : Nat)
    : stateFile (depth + 4) (Wire.stateFile s) = some s := by
  have fields : fields? ["objects"] (depth + 4) (Wire.stateFile s)
      = some ⟨depth + 3, [("objects", .ofList Wire.objectEntry s.objects)]⟩ :=
    fields?_record _ (by simp) (by simp)
  have objects
      : (Fields.mk (depth + 3) [("objects", .ofList Wire.objectEntry s.objects)]).withDefault
          "objects" (list objectEntry) []
        = some s.objects :=
    list_ofList fun entry _ => objectEntry_wire entry depth
  rw [stateFile, fields, Option.bind_eq_bind, Option.bind_some, objects]
  rfl

end Decode

-----------------------------------------------------------------------------------------
-- Texts
-----------------------------------------------------------------------------------------

namespace StateFile

/-- The text of a state file is read back as that state file. -/
theorem ofText?_toText (s : StateFile) : ofText? s.toText = some s := by
  rw [ofText?, toText, (Wire.plain_stateFile s).parse?_toPretty, Option.bind_some]
  exact Decode.stateFile_wire s 123

/-- A state file is loaded from wherever its text is found. -/
theorem load_eq_ok {read : FileReader} {path : String} {s : StateFile}
    (found : read path = .ok s.toText)
    : load read path = .ok s := by
  simp only [load, found, ofText?_toText]

end StateFile

end Concord
