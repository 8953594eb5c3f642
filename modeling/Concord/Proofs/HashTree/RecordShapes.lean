import Concord.HashTree.Record
import Concord.Proofs.HashTree.ComparisonOrder

/-! The records of nodes in shape, and the nodes that are read from records. In the record of a node
in shape keys nest, siblings ascend, no dummy is childless, and the hash of every subtree is that of
its parts; what is read from a record is in shape.
-/

namespace Concord

-----------------------------------------------------------------------------------------
-- Records and what is in them
-----------------------------------------------------------------------------------------

namespace NodeRecord

mutual
/-- Induction on records through their children. -/
theorem childInduction {motive : NodeRecord → Prop}
    (step : ∀ r, (∀ c ∈ r.children, motive c) → motive r)
    : ∀ r, motive r
  | ⟨key, partialHash, fullHash, dummy, error, metadata, attributes, children⟩ =>
      step ⟨key, partialHash, fullHash, dummy, error, metadata, attributes, children⟩
        (childrenInduction step children)
/-- The records of a list under induction on records. -/
theorem childrenInduction {motive : NodeRecord → Prop}
    (step : ∀ r, (∀ c ∈ r.children, motive c) → motive r)
    : ∀ l : List NodeRecord, ∀ c ∈ l, motive c
  | [], c, h => by cases h
  | first :: rest, c, h => by
      rcases List.mem_cons.mp h with same | h
      · exact same ▸ childInduction step first
      · exact childrenInduction step rest c h
end

/-- The property holds of the record and of every record in it. -/
inductive Everywhere (p : NodeRecord → Prop) : NodeRecord → Prop
  | intro {r} (here : p r) (below : ∀ c ∈ r.children, c.Everywhere p) : r.Everywhere p

/-- The parts of the record fit together: the keys of the children are one segment longer and
ascend, a dummy has children, and the hash of the subtree is the own hash if there are no children,
otherwise that of the own hash and the children's hashes in order.
-/
structure Fits (r : NodeRecord) : Prop where
  keys : ∀ c ∈ r.children, ∃ segment, c.key = r.key.child segment
  ascending : r.children.Pairwise fun a b => compare a.key b.key = .lt
  supported : r.dummy = true → r.children ≠ []
  fullHash
    : r.fullHash
      = if r.children.isEmpty then r.partialHash
        else Digest.fingerprint
          (Encoding.subtree r.partialHash (r.children.map NodeRecord.fullHash))

end NodeRecord

namespace Forest

theorem toRecords_eq_map (f : Forest) (key : Key)
    : f.toRecords key = f.toList.map fun e => e.2.toRecord (key.child e.1) := by
  induction f using listInduction with
  | nil => rfl
  | cons s child rest ih => simp [toRecords, toList, ih]

theorem isEmpty_toList (f : Forest) : f.toList.isEmpty = f.isEmpty := by
  cases f <;> rfl

end Forest

namespace Node

theorem toRecord_eq (n : Node) (key : Key)
    : n.toRecord key
      = {
          key
          partialHash := n.partialHash
          fullHash := n.fullHash
          dummy := n.isDummy
          error := n.isError
          metadata := n.content.metadata
          attributes := n.content.attributes
          children := n.children.toList.map fun e => e.2.toRecord (key.child e.1)
        } := by
  cases n
  rw [toRecord, Forest.toRecords_eq_map]
  rfl

@[simp]
theorem key_toRecord (n : Node) (key : Key) : (n.toRecord key).key = key := by
  rw [toRecord_eq]

@[simp]
theorem fullHash_toRecord (n : Node) (key : Key) : (n.toRecord key).fullHash = n.fullHash := by
  rw [toRecord_eq]

end Node

/-- The records of children in order ascend. -/
theorem Forest.ascending_records {f : Forest} (h : f.Ordered) (key : Key)
    : (f.toList.map fun e => e.2.toRecord (key.child e.1)).Pairwise
        fun a b => compare a.key b.key = .lt := by
  rw [List.pairwise_map]
  refine h.pairwise_toList.imp fun {a b} hab => ?_
  have across := Key.walks_lt.across key a.1 b.1 [] [] hab
  simpa [Key.below, Key.child] using across

namespace Node

/-- What holds of the records of all nodes holds throughout the record, by induction on nodes. -/
theorem Throughout.everywhere {p : NodeRecord → Prop} {n : Node} {key : Key}
    (h : n.Throughout (fun k m => m.Shaped ∧ p (m.toRecord k)) key)
    : (n.toRecord key).Everywhere p := by
  induction n using childInduction generalizing key with
  | step n ih =>
      refine .intro h.top.2 fun c hc => ?_
      rw [toRecord_eq] at hc
      obtain ⟨⟨segment, child⟩, he, rfl⟩ := List.mem_map.mp hc
      exact ih _ he (h.child (h.top.1.ordered.mem_toList.mp he))

/-- A node in shape that is no childless dummy has a fitting record. -/
theorem Shaped.fits {n : Node} (h : n.Shaped) (kept : n.isPrunable = false) (key : Key)
    : (n.toRecord key).Fits := by
  rw [toRecord_eq]
  constructor
  case keys =>
    intro c hc
    obtain ⟨e, -, rfl⟩ := List.mem_map.mp hc
    exact ⟨e.1, key_toRecord _ _⟩
  case ascending => exact Forest.ascending_records h.ordered key
  case supported =>
    intro dummy none
    have empty : n.children.isEmpty = true := by
      rw [← Forest.isEmpty_toList, List.map_eq_nil_iff.mp none]
      rfl
    dsimp only at dummy
    rw [isPrunable, dummy, empty] at kept
    cases kept
  case fullHash =>
    have hashes : (n.children.toList.map fun e => e.2.toRecord (key.child e.1)).map
          NodeRecord.fullHash
        = n.children.toList.map fun e => e.2.fullHash := by
      rw [List.map_map]
      exact List.map_congr_left fun e _ => fullHash_toRecord _ _
    dsimp only
    rw [h.fullHash, combine, hashes, List.isEmpty_map, Forest.isEmpty_toList]

end Node

-----------------------------------------------------------------------------------------
-- Trees that are read from records
-----------------------------------------------------------------------------------------

/-- A result of two steps in a row is a result of both. -/
theorem bind_eq_ok_iff {ε α β : Type} {x : Except ε α} {f : α → Except ε β} {b : β}
    : x.bind f = .ok b ↔ ∃ a, x = .ok a ∧ f a = .ok b := by
  cases x <;> simp [Except.bind]

namespace NodeRecord

/-- The node is no childless dummy, and it is in shape with all nodes below it. -/
def Sound (n : Node) : Prop :=
  n.isPrunable = false ∧ ∀ key, n.Throughout (fun _ x => x.Shaped) key

theorem toNode_eq (r : NodeRecord)
    : r.toNode
      = (toForest r.key .nil r.children).bind
          (assemble r.key
            {
              attributes := r.attributes, metadata := r.metadata, dummy := r.dummy
              error := r.error
            }
            r.partialHash r.fullHash) := by
  cases r
  rw [toNode]
  rfl

/-- Children that are read one by one are put in order, and each is sound, by list induction. -/
theorem sound_toForest {key : Key} {l : List NodeRecord} {found f : Forest}
    (sound : ∀ c ∈ l, ∀ n, c.toNode = .ok n → Sound n)
    (ordered : found.Ordered) (before : ∀ s n, found.find? s = some n → Sound n)
    (h : toForest key found l = .ok f)
    : f.Ordered ∧ ∀ s n, f.find? s = some n → Sound n := by
  induction l generalizing found with
  | nil =>
      cases h
      exact ⟨ordered, before⟩
  | cons c rest ih =>
      rw [toForest] at h
      split at h
      · rename_i segment _
        obtain ⟨n, hn, h⟩ := bind_eq_ok_iff.mp h
        split at h
        · cases h
        · refine ih (fun c hc => sound c (List.mem_cons_of_mem _ hc)) (ordered.insert segment n) ?_ h
          intro s m hm
          rw [Forest.find?_insert] at hm
          split at hm
          · cases hm
            exact sound c List.mem_cons_self n hn
          · exact before s m hm
      · cases h

/-- Reading a record gives a sound node, by induction on records. -/
theorem sound_toNode (r : NodeRecord) : ∀ n, r.toNode = .ok n → Sound n := by
  induction r using childInduction with
  | step r ih =>
      intro n h
      rw [toNode_eq] at h
      obtain ⟨f, hf, h⟩ := bind_eq_ok_iff.mp h
      obtain ⟨ordered, sound⟩ := sound_toForest ih Forest.ordered_nil (by simp [Forest.find?]) hf
      rw [assemble] at h
      split at h
      · cases h
      · split at h
        · cases h
        · rename_i supported covered
          cases h
          refine ⟨Bool.eq_false_iff.mpr supported, fun key => Node.throughout_iff.mpr ⟨?_, ?_⟩⟩
          · exact ⟨ordered, fun s child hc => (sound s child hc).1, (not_not.mp covered).symm⟩
          · intro s child hc
            exact (sound s child hc).2 _

end NodeRecord

namespace HashTree

/-- A tree that is read from a record has a sound root. -/
theorem sound_of_read {source : Option NodeRecord} {t : HashTree} {root : String}
    {r : Node} (h : ofRecord? source = .ok t) (hr : t.root = some (root, r))
    : NodeRecord.Sound r := by
  unfold ofRecord? at h
  split at h
  · cases h
    cases hr
  · split at h
    · rename_i record _ segment _
      cases hn : record.toNode with
      | error e =>
          rw [hn] at h
          cases h
      | ok n =>
          rw [hn] at h
          cases h
          cases hr
          exact NodeRecord.sound_toNode record _ hn
    · cases h

/-- A record of one node whose own hash was not computed from its content. -/
def opaqueRecord : NodeRecord :=
  { key := ⟨["r"]⟩, partialHash := "p", fullHash := "p" }

end HashTree

end Concord
