import Mathlib.Data.List.Forall2
import Mathlib.Data.List.Nodup
import Concord.Proofs.HashTree.RecordShapes

/-! Reading records. Children may come in any order, and reading puts them in order. Main statement:
reading accepts just the records whose parts cohere, and gives a tree whose record is the one that
was read with all children in order; the record of any tree is read back as it is.
-/

namespace Concord

theorem Key.parent?_child {k : Key} (hk : k.segments ≠ []) (segment : String)
    : (k.child segment).parent? = some k := by
  have deep : ¬ (k.child segment).depth ≤ 1 := by
    have := List.length_pos_iff.mpr hk
    rw [depth_child, depth]
    omega
  rw [parent?, if_neg deep]
  simp [child]

/-- The segment that leads to a key from a parent that is not empty. -/
theorem Key.segmentBelow?_eq_some_iff {k parent : Key} {segment : String}
    (hp : parent.segments ≠ [])
    : k.segmentBelow? parent = some segment ↔ k = parent.child segment := by
  constructor
  · intro h
    rw [segmentBelow?] at h
    split at h
    · rename_i isParent
      rw [parent?] at isParent
      split at isParent
      · cases isParent
      · cases isParent
        exact congrArg Key.mk (List.dropLast_append_getLast? segment h).symm
    · cases h
  · rintro rfl
    rw [segmentBelow?, if_pos (parent?_child hp segment)]
    simp [leaf?, child]

theorem Key.child_inj {parent : Key} {a b : String} (h : parent.child a = parent.child b)
    : a = b := by
  simpa [child] using h

-----------------------------------------------------------------------------------------
-- Records in order
-----------------------------------------------------------------------------------------

namespace NodeRecord

/-- Records compare by their keys. -/
def le (a b : NodeRecord) : Bool :=
  (compare a.key b.key).isLE

mutual
/-- The record with the children of every record in the order of their keys, and nothing else
changed. -/
def sorted : NodeRecord → NodeRecord
  | ⟨key, partialHash, fullHash, dummy, error, metadata, attributes, children⟩ =>
      ⟨key, partialHash, fullHash, dummy, error, metadata, attributes,
        (sortedAll children).mergeSort le⟩
/-- Records with the children of every record in the order of their keys. -/
def sortedAll : List NodeRecord → List NodeRecord
  | [] => []
  | record :: rest => record.sorted :: sortedAll rest
end

/-- The parts of the record cohere, in whatever order its children stand: the keys of the children
are one segment longer and differ, a dummy has children, and the hash of the subtree is the own hash
if there are no children, otherwise that of the own hash and the children's hashes in key order.
-/
structure Coherent (r : NodeRecord) : Prop where
  keys : ∀ c ∈ r.children, ∃ segment, c.key = r.key.child segment
  distinct : (r.children.map key).Nodup
  supported : r.dummy = true → r.children ≠ []
  fullHash
    : r.fullHash
      = if r.children.isEmpty then r.partialHash
        else Digest.fingerprint
          (Encoding.subtree r.partialHash ((r.children.mergeSort le).map NodeRecord.fullHash))

theorem sortedAll_eq_map (l : List NodeRecord) : sortedAll l = l.map sorted := by
  induction l with
  | nil => rfl
  | cons r rest ih => rw [sortedAll, ih, List.map_cons]

theorem sorted_eq (r : NodeRecord)
    : r.sorted = { r with children := (r.children.map sorted).mergeSort le } := by
  cases r
  rw [sorted, sortedAll_eq_map]

@[simp]
theorem key_sorted (r : NodeRecord) : r.sorted.key = r.key := by
  rw [sorted_eq]

@[simp]
theorem fullHash_sorted (r : NodeRecord) : r.sorted.fullHash = r.fullHash := by
  rw [sorted_eq]

/-- Whether records are put in order before or after what is in them makes no difference. -/
theorem mergeSort_map_sorted (l : List NodeRecord)
    : (l.map sorted).mergeSort le = (l.mergeSort le).map sorted := by
  refine (List.map_mergeSort fun a _ b _ => ?_).symm
  rw [le, le, key_sorted, key_sorted]

/-- A list in strict order of keys is its own sorted form. -/
theorem mergeSort_of_ascending {l : List NodeRecord}
    (h : l.Pairwise fun a b => compare a.key b.key = .lt)
    : l.mergeSort le = l := by
  refine List.mergeSort_of_pairwise (h.imp fun {a b} hab => ?_)
  rw [le, hab]
  rfl

/-- A list in strict order of keys is the sorted form of every list with the same records. -/
theorem eq_mergeSort_of_perm {l m : List NodeRecord} (same : m.Perm l)
    (h : m.Pairwise fun a b => compare a.key b.key = .lt)
    : m = l.mergeSort le := by
  have distinct : (m.map key).Nodup := by
    refine List.pairwise_map.mpr (h.imp fun {a b} hab he => ?_)
    simp [he, Std.ReflCmp.compare_self] at hab
  have total (a b : NodeRecord) : (le a b || le b a) = true := by
    rw [le, le, Std.OrientedOrd.eq_swap (a := b.key)]
    cases compare a.key b.key <;> rfl
  have trans (a b c : NodeRecord) (hab : le a b = true) (hbc : le b c = true) : le a c = true :=
    Std.TransCmp.isLE_trans hab hbc
  have sorted := List.pairwise_mergeSort trans total l
  have ascending : m.Pairwise fun a b => le a b = true := by
    refine h.imp fun {a b} hab => ?_
    rw [le, hab]
    rfl
  refine List.Perm.eq_of_pairwise ?_ ascending sorted
    (same.trans (List.mergeSort_perm l le).symm)
  intro a b ha hb hab hba
  have hb : b ∈ m := same.mem_iff.mpr ((List.mergeSort_perm l le).mem_iff.mp hb)
  have keys : a.key = b.key :=
    Std.LawfulEqCmp.eq_of_compare (Std.OrientedCmp.isLE_antisymm hab hba)
  exact List.inj_on_of_nodup_map distinct ha hb keys

end NodeRecord

-----------------------------------------------------------------------------------------
-- Children that are read one by one
-----------------------------------------------------------------------------------------

namespace Forest

/-- A child under a new segment joins the others. -/
theorem perm_insert {f : Forest} {segment : String} (n : Node) (h : f.find? segment = none)
    : (f.insert segment n).toList.Perm ((segment, n) :: f.toList) := by
  induction f using listInduction with
  | nil => exact .refl _
  | cons s child rest ih =>
      have differs : s ≠ segment := by
        rintro rfl
        simp [find?] at h
      rw [insert]
      split
      · exact .refl _
      · rename_i same
        exact absurd (Std.LawfulEqCmp.eq_of_compare same).symm differs
      · rw [find?, if_neg differs] at h
        exact ((ih h).cons _).trans (.swap _ _ _)

/-- Segments are new after an insertion if they were new before and differ from the inserted one. -/
theorem fresh_insert {f : Forest} {segment : String} {n : Node} {entries : List (String × Node)}
    : (∀ e ∈ entries, (f.insert segment n).find? e.1 = none)
      ↔ segment ∉ entries.map Prod.fst ∧ ∀ e ∈ entries, f.find? e.1 = none := by
  simp only [find?_insert, List.mem_map, not_exists, not_and]
  constructor
  · intro h
    refine ⟨fun e he same => ?_, fun e he => ?_⟩
    · have absent := h e he
      simp [same] at absent
    · have absent := h e he
      split at absent
      · cases absent
      · exact absent
  · rintro ⟨apart, fresh⟩ e he
    rw [if_neg (apart e he)]
    exact fresh e he

/-- Children put in one after the other. -/
def insertAll (f : Forest) (entries : List (String × Node)) : Forest :=
  entries.foldl (fun f e => f.insert e.1 e.2) f

/-- Children under different new segments all join the others, by list induction. -/
theorem perm_insertAll {f : Forest} {entries : List (String × Node)}
    (fresh : ∀ e ∈ entries, f.find? e.1 = none) (distinct : (entries.map Prod.fst).Nodup)
    : (f.insertAll entries).toList.Perm (f.toList ++ entries) := by
  induction entries generalizing f with
  | nil => simp [insertAll]
  | cons e rest ih =>
      obtain ⟨apart, distinct⟩ := List.nodup_cons.mp distinct
      obtain ⟨first, later⟩ := List.forall_mem_cons.mp fresh
      refine (ih (fresh_insert.mpr ⟨apart, later⟩) distinct).trans ?_
      refine ((perm_insert e.2 first).append_right rest).trans ?_
      exact List.perm_middle.symm

theorem Ordered.insertAll {f : Forest} (h : f.Ordered) (entries : List (String × Node))
    : (f.insertAll entries).Ordered := by
  induction entries generalizing f with
  | nil => exact h
  | cons e rest ih => exact ih (h.insert e.1 e.2)

end Forest

namespace NodeRecord

/-- The record is that of a child of `key`, and is read as the node under its segment. -/
def ReadsAs (key : Key) (c : NodeRecord) (e : String × Node) : Prop :=
  c.key = key.child e.1 ∧ c.toNode = .ok e.2

/-- Children are read just when each is a child and is read itself, under a segment of its own; they
are put in one after the other. By list induction.
-/
theorem toForest_eq_ok_iff {key : Key} (hk : key.segments ≠ []) {l : List NodeRecord}
    {found f : Forest}
    : toForest key found l = .ok f
      ↔ ∃ entries : List (String × Node),
          List.Forall₂ (ReadsAs key) l entries
          ∧ (∀ e ∈ entries, found.find? e.1 = none)
          ∧ (entries.map Prod.fst).Nodup
          ∧ f = found.insertAll entries := by
  induction l generalizing found with
  | nil =>
      constructor
      · intro h
        cases h
        exact ⟨[], .nil, by simp, .nil, rfl⟩
      · rintro ⟨entries, reads, -, -, rfl⟩
        cases reads
        rfl
  | cons c rest ih =>
      constructor
      · intro h
        rw [toForest] at h
        split at h
        · rename_i segment leads
          obtain ⟨n, hn, h⟩ := bind_eq_ok_iff.mp h
          split at h
          · cases h
          · rename_i absent
            obtain ⟨entries, reads, fresh, distinct, rfl⟩ := ih.mp h
            have absent : found.find? segment = none := by simpa using absent
            have below := (Key.segmentBelow?_eq_some_iff hk).mp leads
            obtain ⟨apart, fresh⟩ := Forest.fresh_insert.mp fresh
            exact ⟨(segment, n) :: entries, .cons ⟨below, hn⟩ reads,
              List.forall_mem_cons.mpr ⟨absent, fresh⟩, List.nodup_cons.mpr ⟨apart, distinct⟩, rfl⟩
        · cases h
      · rintro ⟨_, reads, fresh, distinct, rfl⟩
        cases reads with
        | @cons _ e _ entries first reads =>
            obtain ⟨below, read⟩ := first
            obtain ⟨apart, distinct⟩ := List.nodup_cons.mp distinct
            have leads := (Key.segmentBelow?_eq_some_iff hk).mpr below
            obtain ⟨absent, fresh⟩ := List.forall_mem_cons.mp fresh
            rw [toForest, leads]
            refine bind_eq_ok_iff.mpr ⟨e.2, read, ?_⟩
            rw [absent]
            exact ih.mpr ⟨entries, reads, Forest.fresh_insert.mpr ⟨apart, fresh⟩, distinct, rfl⟩

/-- Children that can each be read have entries as which they are read, by list induction. -/
theorem exists_readsAs {key : Key} {l : List NodeRecord}
    (h : ∀ c ∈ l, ∃ e, ReadsAs key c e)
    : ∃ entries, List.Forall₂ (ReadsAs key) l entries := by
  induction l with
  | nil => exact ⟨[], .nil⟩
  | cons c rest ih =>
      obtain ⟨first, later⟩ := List.forall_mem_cons.mp h
      obtain ⟨e, he⟩ := first
      obtain ⟨entries, reads⟩ := ih later
      exact ⟨e :: entries, .cons he reads⟩

/-- What reads is a child that reads as some node. -/
theorem readsAs_of_mem {key : Key} {l : List NodeRecord} {entries : List (String × Node)}
    (reads : List.Forall₂ (ReadsAs key) l entries)
    : ∀ c ∈ l, ∃ e, ReadsAs key c e := by
  induction reads with
  | nil => simp
  | cons first _ ih => exact List.forall_mem_cons.mpr ⟨⟨_, first⟩, ih⟩

/-- The keys of children are those of the segments under which they are read. -/
theorem keys_of_reads {key : Key} {l : List NodeRecord} {entries : List (String × Node)}
    (reads : List.Forall₂ (ReadsAs key) l entries)
    : l.map NodeRecord.key = (entries.map Prod.fst).map key.child := by
  induction reads with
  | nil => rfl
  | cons first _ ih => rw [List.map_cons, first.1, ih]; rfl

/-- Children have different keys just when they are read under different segments. -/
theorem nodup_of_reads {key : Key} {l : List NodeRecord} {entries : List (String × Node)}
    (reads : List.Forall₂ (ReadsAs key) l entries)
    : (l.map NodeRecord.key).Nodup ↔ (entries.map Prod.fst).Nodup := by
  rw [keys_of_reads reads]
  exact List.nodup_map_iff fun _ _ => Key.child_inj

-----------------------------------------------------------------------------------------
-- Records that are read
-----------------------------------------------------------------------------------------

/-- A node is put together from its children unless it is a childless dummy or its hash of the
subtree is wrong. -/
theorem assemble_eq_ok_iff {key : Key} {content : Content} {partialHash fullHash : String}
    {f : Forest} {n : Node}
    : assemble key content partialHash fullHash f = .ok n
      ↔ (content.dummy && f.isEmpty) = false ∧ Node.combine partialHash f = fullHash
        ∧ n = .mk content partialHash fullHash f := by
  rw [assemble]
  split
  · rename_i childless
    simp [childless]
  · rename_i supported
    split
    · rename_i wrong
      simp [wrong]
    · rename_i covered
      simp [supported, not_not.mp covered, eq_comm]

/-- The records of the children that were read are the children as they were given but in order,
where each of them alone is. -/
theorem toRecords_of_reads {key : Key} {l : List NodeRecord} {entries : List (String × Node)}
    (reads : List.Forall₂ (ReadsAs key) l entries) (distinct : (entries.map Prod.fst).Nodup)
    (each : ∀ c ∈ l, ∀ n, c.toNode = .ok n → n.toRecord c.key = c.sorted)
    : (Forest.nil.insertAll entries).toRecords key = (l.map sorted).mergeSort le := by
  have perm := Forest.perm_insertAll (f := .nil) (fun e _ => rfl) distinct
  have ordered := Forest.ordered_nil.insertAll entries
  have given : entries.map (fun e => e.2.toRecord (key.child e.1)) = l.map sorted := by
    clear perm ordered distinct
    induction reads with
    | nil => rfl
    | cons first _ ih =>
        obtain ⟨here, later⟩ := List.forall_mem_cons.mp each
        rw [List.map_cons, List.map_cons, ih later, ← first.1, here _ first.2]
  rw [Forest.toRecords_eq_map]
  refine eq_mergeSort_of_perm (given ▸ perm.map _) ?_
  exact Forest.ascending_records ordered key

/-- A record that is read has its own record back, with all children in order, by induction on
records. -/
theorem toRecord_of_toNode (r : NodeRecord) (hk : r.key.segments ≠ [])
    : ∀ n, r.toNode = .ok n → n.toRecord r.key = r.sorted := by
  induction r using childInduction with
  | step r ih =>
      intro n h
      rw [toNode_eq] at h
      obtain ⟨f, hf, h⟩ := bind_eq_ok_iff.mp h
      obtain ⟨-, -, rfl⟩ := assemble_eq_ok_iff.mp h
      obtain ⟨entries, reads, -, distinct, rfl⟩ := (toForest_eq_ok_iff hk).mp hf
      have each : ∀ c ∈ r.children, ∀ n, c.toNode = .ok n → n.toRecord c.key = c.sorted := by
        intro c hc n hn
        obtain ⟨e, below, -⟩ := readsAs_of_mem reads c hc
        exact ih c hc (by simp [below, Key.child]) n hn
      rw [sorted_eq, ← toRecords_of_reads reads distinct each]
      rfl

/-- A record is read just when its parts and those of all records in it cohere, by induction on
records. -/
theorem toNode_ok_iff (r : NodeRecord) (hk : r.key.segments ≠ [])
    : (∃ n, r.toNode = .ok n) ↔ r.Everywhere Coherent := by
  induction r using childInduction with
  | step r ih =>
      rw [toNode_eq]
      -- What is read below decides the hash of the subtree, in whatever order it was given.
      have covers {entries : List (String × Node)}
          (reads : List.Forall₂ (ReadsAs r.key) r.children entries)
          (distinct : (entries.map Prod.fst).Nodup)
          : (Forest.nil.insertAll entries).isEmpty = r.children.isEmpty
            ∧ Node.combine r.partialHash (Forest.nil.insertAll entries)
              = if r.children.isEmpty then r.partialHash
                else Digest.fingerprint
                  (Encoding.subtree r.partialHash
                    ((r.children.mergeSort le).map NodeRecord.fullHash)) := by
        have each : ∀ c ∈ r.children, ∀ n, c.toNode = .ok n → n.toRecord c.key = c.sorted := by
          intro c hc n hn
          obtain ⟨e, below, -⟩ := readsAs_of_mem reads c hc
          exact toRecord_of_toNode c (by simp [below, Key.child]) n hn
        have records := toRecords_of_reads reads distinct each
        have hashes : (Forest.nil.insertAll entries).toList.map (fun e => e.2.fullHash)
            = (r.children.mergeSort le).map NodeRecord.fullHash := by
          have given := congrArg (List.map NodeRecord.fullHash) records
          rw [Forest.toRecords_eq_map, mergeSort_map_sorted, List.map_map, List.map_map] at given
          simpa [Function.comp_def] using given
        have empty : (Forest.nil.insertAll entries).isEmpty = r.children.isEmpty := by
          have length := congrArg List.length hashes
          rw [List.length_map, List.length_map, List.length_mergeSort] at length
          rw [← Forest.isEmpty_toList, Bool.eq_iff_iff, List.isEmpty_iff_length_eq_zero,
            List.isEmpty_iff_length_eq_zero, length]
        exact ⟨empty, by rw [Node.combine, hashes, empty]⟩
      constructor
      · rintro ⟨n, h⟩
        obtain ⟨f, hf, h⟩ := bind_eq_ok_iff.mp h
        obtain ⟨supported, covered, -⟩ := assemble_eq_ok_iff.mp h
        obtain ⟨entries, reads, -, distinct, rfl⟩ := (toForest_eq_ok_iff hk).mp hf
        obtain ⟨empty, hash⟩ := covers reads distinct
        refine .intro ⟨?_, (nodup_of_reads reads).mpr distinct, ?_, ?_⟩ ?_
        · intro c hc
          obtain ⟨e, below, -⟩ := readsAs_of_mem reads c hc
          exact ⟨e.1, below⟩
        · intro dummy childless
          rw [empty, childless] at supported
          simp [dummy] at supported
        · rw [← hash, covered]
        · intro c hc
          obtain ⟨e, below, read⟩ := readsAs_of_mem reads c hc
          exact (ih c hc (by simp [below, Key.child])).mp ⟨e.2, read⟩
      · rintro ⟨here, below⟩
        have each : ∀ c ∈ r.children, ∃ e, ReadsAs r.key c e := by
          intro c hc
          obtain ⟨segment, leads⟩ := here.keys c hc
          obtain ⟨n, read⟩ := (ih c hc (by simp [leads, Key.child])).mpr (below c hc)
          exact ⟨(segment, n), leads, read⟩
        obtain ⟨entries, reads⟩ := exists_readsAs each
        have distinct := (nodup_of_reads reads).mp here.distinct
        obtain ⟨empty, hash⟩ := covers reads distinct
        have read : toForest r.key .nil r.children = .ok (Forest.nil.insertAll entries) :=
          (toForest_eq_ok_iff hk).mpr ⟨entries, reads, fun e _ => rfl, distinct, rfl⟩
        refine ⟨_, bind_eq_ok_iff.mpr ⟨_, read, assemble_eq_ok_iff.mpr ⟨?_, ?_, rfl⟩⟩⟩
        · rw [empty]
          cases dummy : r.dummy with
          | false => rfl
          | true => simpa using here.supported dummy
        · rw [hash, here.fullHash]

/-- Children that are refused are refused as an invalid record, by list induction. -/
theorem invalid_of_toForest {key : Key} {l : List NodeRecord} {found : Forest} {e : TreeError}
    (each : ∀ c ∈ l, ∀ e, c.toNode = .error e → ∃ reason, e = .invalidRecord reason)
    (h : toForest key found l = .error e)
    : ∃ reason, e = .invalidRecord reason := by
  induction l generalizing found with
  | nil => cases h
  | cons c rest ih =>
      obtain ⟨here, later⟩ := List.forall_mem_cons.mp each
      rw [toForest] at h
      split at h
      · cases read : c.toNode with
        | error e' =>
            rw [read] at h
            cases h
            exact here e read
        | ok n =>
            rw [read] at h
            simp only [bind, Except.bind] at h
            split at h
            · cases h
              exact ⟨_, rfl⟩
            · exact ih later h
      · cases h
        exact ⟨_, rfl⟩

/-- A record that is refused is refused as an invalid record, by induction on records. -/
theorem invalid_of_toNode (r : NodeRecord)
    : ∀ e, r.toNode = .error e → ∃ reason, e = .invalidRecord reason := by
  induction r using childInduction with
  | step r ih =>
      intro e h
      rw [toNode_eq] at h
      cases children : toForest r.key .nil r.children with
      | error e' =>
          rw [children] at h
          cases h
          exact invalid_of_toForest ih children
      | ok f =>
          rw [children] at h
          simp only [Except.bind, assemble] at h
          split at h
          · cases h
            exact ⟨_, rfl⟩
          · split at h
            · cases h
              exact ⟨_, rfl⟩
            · cases h

-----------------------------------------------------------------------------------------
-- Records that trees give
-----------------------------------------------------------------------------------------

/-- A record that fits coheres: its children are in order already. -/
theorem Fits.coherent {r : NodeRecord} (h : r.Fits) : r.Coherent where
  keys := h.keys
  distinct := by
    refine List.pairwise_map.mpr (h.ascending.imp fun {a b} hab he => ?_)
    simp [he, Std.ReflCmp.compare_self] at hab
  supported := h.supported
  fullHash := by rw [mergeSort_of_ascending h.ascending]; exact h.fullHash

theorem Everywhere.imp {p q : NodeRecord → Prop} {r : NodeRecord} (h : r.Everywhere p)
    (hpq : ∀ r, p r → q r)
    : r.Everywhere q := by
  induction h with
  | intro here _ ih => exact .intro (hpq _ here) ih

/-- A record that fits throughout is in order, by induction on records. -/
theorem sorted_of_fits {r : NodeRecord} (h : r.Everywhere Fits) : r.sorted = r := by
  induction h with
  | @intro r here below ih =>
      have same : r.children.map sorted = r.children :=
        (List.map_congr_left fun c hc => ih c hc).trans (List.map_id _)
      rw [sorted_eq, same, mergeSort_of_ascending here.ascending]
      cases r
      rfl

end NodeRecord

namespace HashTree

/-- A root record is read just when its key has one segment and all its parts cohere. -/
theorem ofRecord?_ok_iff (r : NodeRecord)
    : (∃ t, ofRecord? (some r) = .ok t)
      ↔ r.key.depth = 1 ∧ r.Everywhere NodeRecord.Coherent := by
  rw [ofRecord?]
  split
  · rename_i root single
    have rooted : r.key.segments ≠ [] := by simp [single]
    rw [← NodeRecord.toNode_ok_iff r rooted, Key.depth, single]
    cases r.toNode <;> simp [Except.map]
  · rename_i other
    constructor
    · rintro ⟨t, h⟩
      cases h
    · rintro ⟨depth, -⟩
      obtain ⟨root, single⟩ := List.length_eq_one_iff.mp depth
      exact absurd single (other root)

/-- A tree that is read gives the record back with all children in order. -/
theorem toRecord?_of_read {r : NodeRecord} {t : HashTree} (h : ofRecord? (some r) = .ok t)
    : t.toRecord? = some r.sorted := by
  rw [ofRecord?] at h
  split at h
  · rename_i root single
    cases read : r.toNode with
    | error e =>
        rw [read] at h
        cases h
    | ok n =>
        rw [read] at h
        cases h
        have key : r.key = ⟨[root]⟩ := congrArg Key.mk single
        rw [← NodeRecord.toRecord_of_toNode r (by simp [single]) n read, key]
        rfl
  · cases h

/-- A root record that is refused is refused as an invalid record. -/
theorem invalid_of_refused {r : NodeRecord} {e : TreeError} (h : ofRecord? (some r) = .error e)
    : ∃ reason, e = .invalidRecord reason := by
  rw [ofRecord?] at h
  split at h
  · cases read : r.toNode with
    | error e' =>
        rw [read] at h
        cases h
        exact NodeRecord.invalid_of_toNode r e read
    | ok n =>
        rw [read] at h
        cases h
  · cases h
    exact ⟨_, rfl⟩

/-- However a tree came about from one that was read, it is in shape. -/
theorem shaped_of_run {source : Option NodeRecord} {start t : HashTree}
    (read : ofRecord? source = .ok start) (run : Relation.ReflTransGen Step start t)
    : t.Throughout fun _ n => n.Shaped := by
  refine throughout_of_steps Node.stable_shaped run fun root r hr => ?_
  exact (sound_of_read read hr).imp_right fun h => h _

/-- The record of a tree in shape has a root key of one segment, and fits throughout. -/
theorem fits_of_shaped {t : HashTree} {r : NodeRecord} (h : t.Throughout fun _ n => n.Shaped)
    (shown : t.toRecord? = some r)
    : r.key.depth = 1 ∧ r.Everywhere NodeRecord.Fits := by
  obtain ⟨⟨root, n⟩, hr, rfl⟩ := Option.map_eq_some_iff.mp shown
  obtain ⟨kept, below⟩ := h root n hr
  refine ⟨by rw [Node.key_toRecord]; rfl, Node.Throughout.everywhere fun path m hm => ?_⟩
  exact ⟨below path m hm, (below path m hm).fits (below.isPrunable_descend kept hm) _⟩

/-- The record of a tree, however it came about from one that was read, is read back as it is. -/
theorem reread {source : Option NodeRecord} {start t : HashTree}
    (read : ofRecord? source = .ok start) (run : Relation.ReflTransGen Step start t)
    : ∃ u, ofRecord? t.toRecord? = .ok u ∧ u.toRecord? = t.toRecord? := by
  cases shown : t.toRecord? with
  | none => exact ⟨∅, rfl, rfl⟩
  | some r =>
      obtain ⟨depth, fits⟩ := fits_of_shaped (shaped_of_run read run) shown
      have coherent := fits.imp fun _ => NodeRecord.Fits.coherent
      obtain ⟨u, again⟩ := (ofRecord?_ok_iff r).mpr ⟨depth, coherent⟩
      exact ⟨u, again, by rw [toRecord?_of_read again, NodeRecord.sorted_of_fits fits]⟩

/-- Reading records and recording trees are inverse. A record is read just when its root key has one
segment and all its parts cohere, and is refused as invalid otherwise; the tree has the same record
but for the order of children. The record of any tree is read back as it is, and it is absent just
for the empty tree.
-/
theorem record_codec (r : NodeRecord)
    : ((∃ t, ofRecord? (some r) = .ok t)
        ↔ r.key.depth = 1 ∧ r.Everywhere NodeRecord.Coherent)
      ∧ (∀ e, ofRecord? (some r) = .error e → ∃ reason, e = .invalidRecord reason)
      ∧ (∀ t, ofRecord? (some r) = .ok t → t.toRecord? = some r.sorted)
      ∧ (∀ source start t, ofRecord? source = .ok start → Relation.ReflTransGen Step start t →
          ∃ u, ofRecord? t.toRecord? = .ok u ∧ u.toRecord? = t.toRecord?)
      ∧ (∀ t : HashTree, t.toRecord? = none ↔ t = ∅)
      ∧ ofRecord? none = .ok ∅ := by
  refine ⟨ofRecord?_ok_iff r, ?_, ?_, ?_, ?_, rfl⟩
  · intro e refused
    exact invalid_of_refused refused
  · intro t read
    exact toRecord?_of_read read
  · intro source start t read run
    exact reread read run
  · rintro ⟨_ | root⟩
    · exact ⟨fun _ => rfl, fun _ => rfl⟩
    · constructor <;> intro h <;> cases h

/-- The record of a node without children whose own hash was not computed from its content. -/
def opaqueLeaf (path : List String) (hash : String) : NodeRecord where
  key := ⟨path⟩
  partialHash := hash
  fullHash := hash

/-- A record whose children stand in the wrong order; the hash of the subtree takes them in the
other one.
-/
def shuffledRecord : NodeRecord where
  key := ⟨["r"]⟩
  partialHash := "p"
  fullHash := Digest.fingerprint (Encoding.subtree "p" ["a", "b"])
  children := [opaqueLeaf ["r", "b"] "b", opaqueLeaf ["r", "a"] "a"]

/-- That record is read, comes back with its children in order, and from then on as it is. -/
theorem record_codec_shuffled
    : ∃ t r, ofRecord? (some shuffledRecord) = .ok t ∧ t.toRecord? = some r
      ∧ r.children.map NodeRecord.key = [⟨["r", "a"]⟩, ⟨["r", "b"]⟩]
      ∧ ∃ u, ofRecord? (some r) = .ok u ∧ u.toRecord? = some r := by
  obtain ⟨accepted, -, same, again, -⟩ := record_codec shuffledRecord
  have order : [opaqueLeaf ["r", "a"] "a", opaqueLeaf ["r", "b"] "b"]
      = shuffledRecord.children.mergeSort NodeRecord.le :=
    NodeRecord.eq_mergeSort_of_perm (.swap _ _ _) (.cons (by decide) (.cons (by simp) .nil))
  have leaf (path : List String) (hash : String)
      : (opaqueLeaf path hash).Everywhere NodeRecord.Coherent :=
    .intro ⟨by simp [opaqueLeaf], by simp [opaqueLeaf], by simp [opaqueLeaf], rfl⟩
      (by simp [opaqueLeaf])
  have coherent : shuffledRecord.Everywhere NodeRecord.Coherent := by
    refine .intro ⟨?_, ?_, ?_, ?_⟩ ?_
    · simp [shuffledRecord, opaqueLeaf, Key.child]
    · simp [shuffledRecord, opaqueLeaf]
    · simp [shuffledRecord]
    · rw [← order]
      rfl
    · simp [shuffledRecord, leaf]
  obtain ⟨t, read⟩ := accepted.mpr ⟨rfl, coherent⟩
  have shown := same t read
  have keys : shuffledRecord.sorted.children.map NodeRecord.key
      = [⟨["r", "a"]⟩, ⟨["r", "b"]⟩] := by
    rw [NodeRecord.sorted_eq, NodeRecord.mergeSort_map_sorted, ← order]
    rfl
  obtain ⟨u, reread, kept⟩ := again _ t t read .refl
  rw [shown] at reread kept
  exact ⟨t, shuffledRecord.sorted, read, shown, keys, u, reread, kept⟩

end HashTree

end Concord
