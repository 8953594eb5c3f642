import Concord.Proofs.HashTree.Pruning

/-! Which digested byte strings are equal. Main statement: contents at their keys have equal bytes
just where they are equal up to their tags, subtrees just where the digests in them are, and a
content and a subtree never.
-/

namespace Concord

namespace Node

-----------------------------------------------------------------------------------------
-- What is digested for a subtree
-----------------------------------------------------------------------------------------

/-- The digests of the children's subtrees in order. -/
def childHashes (n : Node) : List String :=
  n.children.toList.map fun e => e.2.fullHash

/-- The bytes that are digested for the subtree of a node with children. -/
def subtreeBytes (n : Node) : List UInt8 :=
  Encoding.subtree n.partialHash n.childHashes

/-- The digests that a subtree is digested from are hexadecimal texts. -/
structure Hashed (n : Node) : Prop where
  partialHash : Encoding.IsHex n.partialHash
  children : ∀ s ∈ n.childHashes, Encoding.IsHex s

/-- Where all hashes are computed, they are hexadecimal texts. -/
theorem Throughout.hashed {k : Key} {n : Node} (h : n.Throughout Intact k) : n.Hashed where
  partialHash := h.top.isHex_partialHash
  children := h.isHex_children

theorem Hashed.isDigest_children {n : Node} (h : n.Hashed)
    : ∀ s ∈ n.childHashes, Encoding.IsDigest s :=
  fun s hs => (h.children s hs).isDigest

/-- The bytes of a subtree tell the digests in it, one by one. -/
theorem subtreeBytes_eq_iff {n m : Node} (hn : n.Hashed) (hm : m.Hashed)
    : n.subtreeBytes = m.subtreeBytes
      ↔ n.partialHash = m.partialHash ∧ n.childHashes = m.childHashes := by
  constructor
  · intro h
    exact Encoding.subtree_inj hn.partialHash.isDigest hm.partialHash.isDigest
      hn.isDigest_children hm.isDigest_children h
  · rintro ⟨own, children⟩
    rw [subtreeBytes, subtreeBytes, own, children]

/-- A node with children, once its hashes are computed, is digested from just these bytes. -/
theorem fullHash_eq_fingerprint (n : Node) {f : Forest} (h : f.isEmpty = false)
    : (n.withChildren f).fullHash = Digest.fingerprint (n.withChildren f).subtreeBytes := by
  rw [fullHash_withChildren, combine, h, if_neg Bool.false_ne_true]
  rfl

-----------------------------------------------------------------------------------------
-- Main statement
-----------------------------------------------------------------------------------------

/-- No two different things are digested from one byte string. The own hash of a node is the digest
of its content, the hash of a node with children that of its subtree. Contents have equal bytes
just where their keys, attributes and flags are equal, whatever stands in their texts; subtrees
just where the node's own digest and those of the children are, each in its place; and no content,
at a key of any depth, has the bytes of a subtree.
-/
theorem bytes_unambiguous
    : (∀ k c f, (ofContent k c f).partialHash = Digest.fingerprint (Encoding.content k c))
      ∧ (∀ (n : Node) f, f.isEmpty = false →
          (n.withChildren f).fullHash = Digest.fingerprint (n.withChildren f).subtreeBytes)
      ∧ (∀ j k c d, Encoding.Fits j c → Encoding.Fits k d →
        (Encoding.content j c = Encoding.content k d
          ↔ j = k ∧ c.attributes = d.attributes ∧ c.dummy = d.dummy ∧ c.error = d.error))
      ∧ (∀ n m : Node, n.Hashed → m.Hashed →
          (n.subtreeBytes = m.subtreeBytes
            ↔ n.partialHash = m.partialHash ∧ n.childHashes = m.childHashes))
      ∧ ∀ k c (n : Node), n.Hashed → Encoding.content k c ≠ n.subtreeBytes := by
  refine ⟨fun _ _ _ => rfl, ?_, ?_, ?_, ?_⟩
  · intro n f bearing
    exact fullHash_eq_fingerprint n bearing
  · intro j k c d hj hk
    rw [Encoding.content_eq_iff hj hk, Content.compared, Content.compared, Prod.mk.injEq,
      Prod.mk.injEq]
  · intro n m hn hm
    exact subtreeBytes_eq_iff hn hm
  · intro k c n hn
    exact Encoding.content_ne_subtree hn.partialHash.isDigest hn.isDigest_children

/-- Two entries. -/
def entryPair : Content :=
  { attributes := {("a", .text "x"), ("b", .text "y")} }

/-- One entry whose text goes on with separators and the bytes of another entry. -/
def packedEntry : Content :=
  { attributes := {("a", .text "x\x1eb\x1f\x03y")} }

/-- A dummy over one child, which was written without attributes. -/
def stem (segment : String) : Node :=
  (placeholder ⟨["r"]⟩).write ∅ ∅ ⟨["r"]⟩ [segment]

theorem hashed_stem (segment : String) : (stem segment).Hashed :=
  ((throughout_placeholder stable_intact.toGrown _).write stable_intact.toGrown ∅ ∅ _).hashed

set_option maxRecDepth 100000 in
/-- Separators in a text or a segment make no second entry and no second segment, nodes over
different children have different bytes, and none of them has the bytes of its own content.
-/
theorem bytes_unambiguous_separators
    : Encoding.content ⟨["r"]⟩ entryPair ≠ Encoding.content ⟨["r"]⟩ packedEntry
      ∧ Encoding.content ⟨["r", "a\x1fb"]⟩ {} ≠ Encoding.content ⟨["r", "a", "b"]⟩ {}
      ∧ (stem "a").subtreeBytes ≠ (stem "b").subtreeBytes
      ∧ Encoding.content ⟨["r"]⟩ (stem "a").content ≠ (stem "a").subtreeBytes
      ∧ (stem "a").fullHash = Digest.fingerprint (stem "a").subtreeBytes := by
  obtain ⟨-, digest, contents, subtrees, apart⟩ := bytes_unambiguous
  have fitsPair : Encoding.Fits ⟨["r"]⟩ entryPair := ⟨by decide, by decide, by decide +kernel⟩
  have fitsPacked : Encoding.Fits ⟨["r"]⟩ packedEntry := ⟨by decide, by decide, by decide +kernel⟩
  have fitsJoined : Encoding.Fits ⟨["r", "a\x1fb"]⟩ {} := ⟨by decide, by decide, by decide +kernel⟩
  have fitsNested : Encoding.Fits ⟨["r", "a", "b"]⟩ {} := ⟨by decide, by decide, by decide +kernel⟩
  refine ⟨fun h => ?_, fun h => ?_, fun h => ?_, apart _ _ _ (hashed_stem "a"), digest _ _ rfl⟩
  · have same := (contents _ _ _ _ fitsPair fitsPacked).mp h
    exact absurd same.2.1 (by decide +kernel)
  · have same := (contents _ _ _ _ fitsJoined fitsNested).mp h
    exact absurd same.1 (by decide)
  · have same := (subtrees _ _ (hashed_stem "a") (hashed_stem "b")).mp h
    exact absurd same.2 (by decide +kernel)

end Node

end Concord
