import Concord.Proofs.HashTree.CanonicalForm
import Concord.Proofs.HashTree.Records
import Concord.Proofs.Json.Decoding
import Concord.Proofs.Json.Spelling
import Concord.Wire.Tree

/-! Texts of trees. A record is a value of two nested levels for each of its own levels, and the key
of a node opens one more array than the node itself. Main statement: the texts of a tree are read
back as the same tree as long as no key has more than sixty-three segments, and are refused
otherwise.
-/

namespace Concord

-----------------------------------------------------------------------------------------
-- Values of records
-----------------------------------------------------------------------------------------

namespace Json

theorem plain_record {members : List (String × Json)} (each : ∀ m ∈ members, m.2.Plain)
    : (record members).Plain := by
  refine .object ?_ ?_
  · intro m hm
    obtain ⟨e, -, rfl⟩ := List.mem_map.mp hm
    rfl
  · intro m hm
    obtain ⟨e, he, rfl⟩ := List.mem_map.mp hm
    exact each e he

theorem plain_ofList {f : α → Json} {items : List α} (each : ∀ a ∈ items, (f a).Plain)
    : (ofList f items).Plain := by
  refine .array fun j hj => ?_
  obtain ⟨a, ha, rfl⟩ := List.mem_map.mp hj
  exact each a ha

end Json

namespace Wire

open Json

theorem plain_key (k : Key) : (key k).Plain :=
  plain_ofList fun s _ => .text s

theorem plain_scalar (v : Scalar) : (scalar v).Plain := by
  cases v with
  | null => exact .null
  | bool b => exact .bool b
  | int i => exact .number (Number.whole_ofInt i.toInt)
  | text s => exact .text s

theorem plain_attributes (a : Attributes) : (attributes a).Plain := by
  refine plain_record fun m hm => ?_
  obtain ⟨e, -, rfl⟩ := List.mem_map.mp hm
  exact plain_scalar e.2

theorem plain_metadata (m : Metadata) : (metadata m).Plain := by
  refine plain_record fun m hm => ?_
  obtain ⟨e, -, rfl⟩ := List.mem_map.mp hm
  exact .text e.2

/-- The members of a record's object. -/
def recordMembers (r : NodeRecord) : List (String × Json) :=
  [("key", key r.key), ("partial_hash", .ofText r.partialHash), ("full_hash", .ofText r.fullHash),
      ("dummy", .bool r.dummy), ("error", .bool r.error), ("metadata", metadata r.metadata)]
    ++ (if r.attributes.isEmpty then [] else [("attributes", attributes r.attributes)])
    ++ [("children", .ofList record r.children)]

theorem records_eq_map (l : List NodeRecord) : records l = l.map record := by
  induction l with
  | nil => rfl
  | cons r rest ih => rw [records, ih, List.map_cons]

theorem record_eq (r : NodeRecord) : record r = .record (recordMembers r) := by
  cases r
  rw [record, records_eq_map]
  rfl

/-- The value of a record is plain, by induction on records. -/
theorem plain_recordValue (r : NodeRecord) : (record r).Plain := by
  induction r using NodeRecord.childInduction with
  | step r ih =>
      rw [record_eq]
      refine plain_record fun m hm => ?_
      simp only [recordMembers, List.mem_append, List.mem_cons, List.not_mem_nil, or_false] at hm
      rcases hm with ((rfl | rfl | rfl | rfl | rfl | rfl) | hm) | rfl
      · exact plain_key r.key
      · exact .text r.partialHash
      · exact .text r.fullHash
      · exact .bool r.dummy
      · exact .bool r.error
      · exact plain_metadata r.metadata
      · split at hm
        · cases hm
        · cases List.mem_singleton.mp hm
          exact plain_attributes r.attributes
      · exact plain_ofList ih

end Wire

-----------------------------------------------------------------------------------------
-- Records that are decoded
-----------------------------------------------------------------------------------------

namespace NodeRecord

mutual
/-- The number of levels of a record. -/
def height : NodeRecord → Nat
  | ⟨_, _, _, _, _, _, _, children⟩ => heights children + 1
/-- The number of levels of the highest of some records. -/
def heights : List NodeRecord → Nat
  | [] => 0
  | r :: rest => max r.height (heights rest)
end

theorem heights_le_iff {l : List NodeRecord} {k : Nat} : heights l ≤ k ↔ ∀ c ∈ l, c.height ≤ k := by
  induction l with
  | nil => simp [heights]
  | cons r rest ih => simp [heights, ih]

/-- A record has one level more than those of its children. -/
theorem height_le_iff {r : NodeRecord} {k : Nat}
    : r.height ≤ k ↔ 1 ≤ k ∧ ∀ c ∈ r.children, c.height ≤ k - 1 := by
  have height : r.height = heights r.children + 1 := by
    cases r
    rfl
  rw [height, ← heights_le_iff]
  omega

end NodeRecord

namespace Decode

open Decoder

theorem key_wire (k : Key) (depth : Nat) : key (depth + 1) (Wire.key k) = some k := by
  rw [key, Wire.key, list_ofList fun s _ => rfl]
  rfl

theorem scalar_wire (v : Scalar) (depth : Nat) : scalar depth (Wire.scalar v) = some v := by
  cases v with
  | null => rfl
  | bool b => rfl
  | text s => rfl
  | int i =>
      have read := int_ofInt depth ⟨i.minValue_le_toInt, i.toInt_le⟩ (le_refl _) (by decide)
      rw [Wire.scalar, Json.ofInt, scalar]
      rw [Json.ofInt] at read
      rw [read, Option.map_some, Int64.ofInt_toInt]

theorem attributes_wire (a : Attributes) (depth : Nat)
    : attributes (depth + 1) (Wire.attributes a) = some a :=
  dict_record fun v => scalar_wire v depth

theorem metadata_wire (m : Metadata) (depth : Nat)
    : metadata (depth + 1) (Wire.metadata m) = some m :=
  dict_record fun _ => rfl

/-- The names of a record's members are known, in their order, and all but the attributes' always
stand. -/
theorem names_recordMembers (r : NodeRecord)
    : ((Wire.recordMembers r).map Prod.fst).Sublist recordFields := by
  rw [Wire.recordMembers]
  split
  · have omitted : (recordFields.erase "attributes").Sublist recordFields := List.erase_sublist
    exact omitted
  · exact .refl recordFields

/-- The fields of a record's object are all its members. -/
theorem fields_record (r : NodeRecord) (depth : Nat)
    : fields? recordFields (depth + 1) (Wire.record r) = some ⟨depth, Wire.recordMembers r⟩ := by
  rw [Wire.record_eq]
  refine fields?_record depth ?_ ?_
  · intro m hm
    exact (names_recordMembers r).subset (List.mem_map_of_mem hm)
  · exact (names_recordMembers r).nodup (by decide)

/-- The members of a record's object, where an array may be opened in it, give the record back up to
its children, which are decoded apart. -/
theorem recordOfFields_wire (r : NodeRecord) (depth : Nat) (children : Decoder (List NodeRecord))
    : recordOfFields ⟨depth + 1, Wire.recordMembers r⟩ children
      = (children (depth + 1) (.ofList Wire.record r.children)).map fun found =>
          { r with children := found } := by
  have attributes
      : (Fields.mk (depth + 1) (Wire.recordMembers r)).withDefault "attributes" attributes ∅
        = some r.attributes := by
    cases empty : r.attributes.isEmpty with
    | true =>
        have none : r.attributes = ∅ := Std.ExtTreeMap.isEmpty_iff.mp empty
        rw [Fields.withDefault, Fields.get?, Wire.recordMembers, empty, none]
        rfl
    | false =>
        rw [Fields.withDefault, Fields.get?, Wire.recordMembers, empty]
        exact attributes_wire r.attributes depth
  have below
      : (Fields.mk (depth + 1) (Wire.recordMembers r)).withDefault "children" children []
        = children (depth + 1) (.ofList Wire.record r.children) := by
    rw [Fields.withDefault, Fields.get?, Wire.recordMembers]
    cases r.attributes.isEmpty <;> rfl
  have key : (Fields.mk (depth + 1) (Wire.recordMembers r)).required "key" key = some r.key :=
    key_wire r.key depth
  have metadata
      : (Fields.mk (depth + 1) (Wire.recordMembers r)).withDefault "metadata" metadata ∅
        = some r.metadata :=
    metadata_wire r.metadata depth
  rw [recordOfFields, key, attributes, below, metadata]
  cases children (depth + 1) (.ofList Wire.record r.children) <;> rfl

/-- A record is decoded from its own value just when twice as many arrays and objects may be open as
it has levels, by induction on records. -/
theorem record_wire (r : NodeRecord)
    : ∀ depth, record depth (Wire.record r) = if 2 * r.height ≤ depth then some r else none := by
  induction r using NodeRecord.childInduction with
  | step r ih =>
      have levels := (NodeRecord.height_le_iff (r := r)).mp (le_refl _)
      rintro (_ | _ | depth)
      · rw [if_neg (by omega)]
        rfl
      · -- The array of the key may not be opened any more.
        rw [if_neg (by omega), record, fields_record]
        · rfl
        · simp
      · rw [record, fields_record, Option.bind_eq_bind, Option.bind_some, recordOfFields_wire]
        have fits : 2 * r.height ≤ depth + 2 ↔ ∀ c ∈ r.children, 2 * c.height ≤ depth := by
          have half : 2 * r.height ≤ depth + 2 ↔ r.height ≤ depth / 2 + 1 := by omega
          rw [half, NodeRecord.height_le_iff]
          simp only [Nat.add_sub_cancel, Nat.le_add_left, true_and]
          exact forall₂_congr fun c _ => by omega
        by_cases room : ∀ c ∈ r.children, 2 * c.height ≤ depth
        · have read : (r.children.map Wire.record).mapM (record depth) = some r.children :=
            mapM_map fun c hc => by rw [ih c hc, if_pos (room c hc)]
          rw [if_pos (fits.mpr room), Json.ofList]
          simp only [read, Option.map_some]
          cases r
          rfl
        · obtain ⟨c, hc, high⟩ : ∃ c ∈ r.children, ¬ 2 * c.height ≤ depth := by simpa using room
          have refused : record depth (Wire.record c) = none := by rw [ih c hc, if_neg high]
          rw [if_neg (mt fits.mp room), Json.ofList]
          simp only [mapM_eq_none (List.mem_map_of_mem hc) refused, Option.map_none]

end Decode

-----------------------------------------------------------------------------------------
-- Levels of trees
-----------------------------------------------------------------------------------------

/-- The levels of a node's record reach as far as the keys of the nodes below it are long, by
induction on nodes. -/
theorem Node.height_toRecord_le_iff {n : Node} {key : Key}
    (h : n.Throughout (fun _ m => m.Shaped) key) (limit : Nat)
    : (n.toRecord key).height ≤ limit + 1 - key.depth
      ↔ n.Throughout (fun k _ => k.depth ≤ limit) key := by
  induction n using childInduction generalizing key with
  | step n ih =>
      have below : limit + 1 - key.depth - 1 = limit + 1 - (key.depth + 1) := by omega
      have children (e : String × Node) (he : e ∈ n.children.toList) :=
        ih e he (h.child (h.top.ordered.mem_toList.mp he))
      simp only [Key.depth_child] at children
      rw [NodeRecord.height_le_iff, throughout_iff, below]
      refine and_congr (by omega) ⟨?_, ?_⟩
      · intro records segment child found
        have member := h.top.ordered.mem_toList.mpr found
        refine (children _ member).mp (records _ ?_)
        rw [toRecord_eq]
        exact List.mem_map_of_mem (f := fun e => e.2.toRecord (key.child e.1)) member
      · intro keys c hc
        rw [toRecord_eq] at hc
        obtain ⟨e, he, rfl⟩ := List.mem_map.mp hc
        exact (children e he).mpr (keys e.1 e.2 (h.top.ordered.mem_toList.mp he))

namespace HashTree

/-- A tree's record has no more levels than the longest key has segments. -/
theorem height_le_iff {t : HashTree} (h : t.Throughout fun _ n => n.Shaped) (limit : Nat)
    : (∀ r ∈ t.toRecord?, r.height ≤ limit)
      ↔ ∀ k n, t.find? k = some n → k.depth ≤ limit := by
  obtain ⟨_ | ⟨root, top⟩⟩ := t
  · simp [toRecord?, find?]
  · have levels := Node.height_toRecord_le_iff (h root top rfl).2 limit
    have single : limit + 1 - (Key.mk [root]).depth = limit := rfl
    rw [single] at levels
    simp only [toRecord?, Option.map_some, Option.mem_def, Option.some.injEq, forall_eq']
    rw [levels]
    constructor
    · intro keys k n found
      obtain ⟨_, _, path, ⟨⟩, rfl, reached⟩ := find?_eq_some_iff.mp found
      exact keys path n reached
    · intro keys path m reached
      exact keys _ m (find?_eq_some_iff.mpr ⟨root, top, path, rfl, rfl, reached⟩)

-----------------------------------------------------------------------------------------
-- Texts that are read back
-----------------------------------------------------------------------------------------

theorem plain_toJson (t : HashTree) : t.toJson.Plain := by
  rw [toJson]
  cases t.toRecord? with
  | none => exact .null
  | some r => exact Wire.plain_recordValue r

/-- What is read from a text of a tree is its record, or nothing if that has too many levels. -/
theorem ofText_of_parse? {t : HashTree} {s : String} (h : Json.parse? s = some t.toJson)
    : ofText s
      = if ∀ r ∈ t.toRecord?, r.height ≤ 63 then ofRecord? t.toRecord?
        else .error unreadable := by
  rw [ofText, h, Option.bind_some, toJson]
  cases t.toRecord? with
  | none => simp [Json.ofOption, Decoder.run, Decoder.option]
  | some r =>
      have value : Decoder.run (Decoder.option Decode.record) (Wire.record r)
          = (Decode.record Decoder.maxDepth (Wire.record r)).map some := by
        rw [Wire.record_eq]
        rfl
      have room : 2 * r.height ≤ Decoder.maxDepth ↔ r.height ≤ 63 := by
        rw [Decoder.maxDepth]
        omega
      rw [Json.ofOption, value, Decode.record_wire]
      by_cases low : r.height ≤ 63 <;> simp [room, low]

/-- Trees, however they came about from one that was read, are read back from their compact and from
their indented text as long as no key has more than sixty-three segments, and both texts are refused
as texts otherwise.
-/
theorem text_codec {source : Option NodeRecord} {start t : HashTree}
    (read : ofRecord? source = .ok start) (run : Relation.ReflTransGen Step start t)
    : ((∀ k n, t.find? k = some n → k.depth ≤ 63) →
        ∃ u, u.toRecord? = t.toRecord? ∧ ofText t.toText = .ok u
          ∧ ofText t.toIndentedText = .ok u)
      ∧ ((∃ k n, t.find? k = some n ∧ 64 ≤ k.depth) →
        ∃ reason, ofText t.toText = .error (.serialization reason)
          ∧ ofText t.toIndentedText = .error (.serialization reason)) := by
  have compact := ofText_of_parse? (t.plain_toJson).parse?_toCompact
  have indented := ofText_of_parse? (t.plain_toJson).parse?_toPretty
  have levels := height_le_iff (shaped_of_run read run) 63
  rw [toText, toIndentedText, compact, indented]
  constructor
  · intro low
    obtain ⟨u, again, same⟩ := reread read run
    rw [if_pos (levels.mpr low)]
    exact ⟨u, same, again, again⟩
  · rintro ⟨k, n, found, deep⟩
    have high : ¬ ∀ r ∈ t.toRecord?, r.height ≤ 63 := by
      intro low
      have := levels.mp low k n found
      omega
    rw [if_neg high]
    exact ⟨_, rfl, rfl⟩

/-- In a tree that was empty before something was added, no key is longer than the added one. -/
theorem depth_le_of_added {key : Key} {attributes : Attributes} {metadata : Metadata}
    {t : HashTree} (added : (∅ : HashTree).addWith key attributes metadata = .ok t) {k : Key}
    {n : Node} (found : t.find? k = some n)
    : k.depth ≤ key.depth := by
  have intact : t.Throughout Node.Intact :=
    (throughout_empty (p := Node.Intact)).addWith Node.stable_intact.toGrown added
  obtain ⟨root, top, path, shown, rfl, reached⟩ := find?_eq_some_iff.mp found
  obtain ⟨kept, below⟩ := intact root top shown
  obtain ⟨rest, held⟩ := (Node.isSome_descend?_iff below.shaped kept).mp (by rw [reached]; rfl)
  have rooted : key.segments ≠ [] := by
    intro none
    rw [addWith, none] at added
    cases added
    cases shown
  have live := live?_addWith rooted added ⟨root :: (path ++ rest)⟩
  obtain ⟨_⟩ := t
  cases shown
  rw [live?_root, live?_empty] at live
  split at live
  · rename_i same
    rw [← same]
    simp [Key.depth, Key.below]
  · simp [live] at held

/-- A key of one segment over and over, with a quote, a backslash, a control character and a
character beyond the first plane in it.
-/
def repeatedKey (depth : Nat) : Key :=
  ⟨List.replicate depth "\"\\\n\x01é😀"⟩

/-- The least integer and no value, under names that are escaped. -/
def escapedAttributes : Attributes :=
  .ofList [("\t", Scalar.int Int64.minValue), ("\"", Scalar.null)]

/-- Sixty-three such segments, with attributes below them, are read back, but one segment more is
refused. -/
theorem text_codec_boundary
    : (∃ t u, (∅ : HashTree).addWith (repeatedKey 63) escapedAttributes ∅ = .ok t
        ∧ u.toRecord? = t.toRecord? ∧ ofText t.toText = .ok u ∧ ofText t.toIndentedText = .ok u)
      ∧ ∃ t reason, (∅ : HashTree).addWith (repeatedKey 64) ∅ ∅ = .ok t
        ∧ ofText t.toText = .error (.serialization reason) := by
  have empty : ofRecord? none = .ok ∅ := rfl
  constructor
  · obtain ⟨t, added⟩ : ∃ t, (∅ : HashTree).addWith (repeatedKey 63) escapedAttributes ∅ = .ok t :=
      ⟨_, rfl⟩
    have short (k : Key) (n : Node) (found : t.find? k = some n) : k.depth ≤ 63 := by
      simpa [repeatedKey, Key.depth] using depth_le_of_added added found
    obtain ⟨u, same, compact, indented⟩ := (text_codec empty (.single (.added added))).1 short
    exact ⟨t, u, added, same, compact, indented⟩
  · obtain ⟨t, added⟩ : ∃ t, (∅ : HashTree).addWith (repeatedKey 64) ∅ ∅ = .ok t := ⟨_, rfl⟩
    have held := live?_addWith (by simp [repeatedKey]) added (repeatedKey 64)
    rw [if_pos rfl, live?, Option.bind_eq_some_iff] at held
    obtain ⟨n, found, -⟩ := held
    have deep : 64 ≤ (repeatedKey 64).depth := by simp [repeatedKey, Key.depth]
    obtain ⟨reason, refused, -⟩ :=
      (text_codec empty (.single (.added added))).2 ⟨_, n, found, deep⟩
    exact ⟨t, reason, added, refused⟩

end HashTree

end Concord
