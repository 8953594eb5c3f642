import Concord.Proofs.HashTree.Keying

/-! How trees are represented, with the key of every node stored in it and in the map that holds it.
Main statement: whatever is done to a tree that was empty or read from a record, the root has a key
of one segment, both keys of every other node are that of its parent and one segment more, siblings
ascend, no dummy is childless, and the hash of every subtree is that of its parts; where the tree
was empty at first, every own hash is that of what is stored, and dummies hold nothing.
-/

namespace Concord

namespace KeyedNode

/-- The property holds of the node and of every node below it. -/
inductive Everywhere (p : KeyedNode → Prop) : KeyedNode → Prop
  | intro {n} (here : p n) (below : ∀ e ∈ n.children.toList, e.2.Everywhere p) : n.Everywhere p

/-- The parts of the node fit together: the key of a child is the one that it stands under in the
map and one segment longer than that of the node, the map ascends, a dummy has children, and the
hash of the subtree is the own hash if there are no children, otherwise that of the own hash and
the children's hashes in order.
-/
structure Fits (n : KeyedNode) : Prop where
  filed : ∀ e ∈ n.children.toList, e.2.key = e.1
  nested : ∀ e ∈ n.children.toList, ∃ segment, e.2.key = n.key.child segment
  ascending : n.children.toList.Pairwise fun a b => compare a.1 b.1 = .lt
  supported : n.content.dummy = true → n.children.isEmpty = false
  fullHash
    : n.fullHash
      = if n.children.isEmpty then n.partialHash
        else Digest.fingerprint
          (Encoding.subtree n.partialHash (n.children.toList.map fun e => e.2.fullHash))

/-- The own hash is that of the stored key, the attributes and the two flags, and a dummy holds
nothing.
-/
structure Fresh (n : KeyedNode) : Prop where
  partialHash : n.partialHash = Digest.fingerprint (Encoding.content n.key n.content)
  bare : n.content.dummy = true → n.content.attributes = ∅

end KeyedNode

namespace Node

variable {n : Node} {key : Key}

/-- A node in shape that is no childless dummy fits with the keys of its path stored. -/
theorem Shaped.fits_keyed (h : n.Shaped) (kept : n.isPrunable = false) (key : Key)
    : (n.keyed key).Fits := by
  have children : (n.keyed key).children.toList
      = n.children.toList.map fun e => (key.child e.1, e.2.keyed (key.child e.1)) := by
    rw [children_keyed, Forest.toList_keyed]
  constructor
  case filed =>
    rw [children, List.forall_mem_map]
    exact fun e _ => key_keyed e.2 _
  case nested =>
    rw [children, List.forall_mem_map]
    exact fun e _ => ⟨e.1, by rw [key_keyed, key_keyed]⟩
  case ascending =>
    rw [children, List.pairwise_map]
    simpa only [Key.compare_child] using h.ordered.pairwise_toList
  case supported =>
    intro dummy
    rw [content_keyed] at dummy
    simpa [isPrunable, isDummy, dummy] using kept
  case fullHash =>
    rw [children, fullHash_keyed, partialHash_keyed, children_keyed, Forest.isEmpty_keyed,
      h.fullHash, combine]
    simp only [List.map_map, Function.comp_def, fullHash_keyed]

theorem Intact.fresh_keyed (h : n.Intact key) : (n.keyed key).Fresh where
  partialHash := by rw [partialHash_keyed, key_keyed, content_keyed, h.partialHash]
  bare := by simpa [isDummy] using h.bare

/-- What holds of all nodes with the keys of their paths holds everywhere, by induction on nodes. -/
theorem Throughout.everywhere_keyed {p : KeyedNode → Prop}
    (h : n.Throughout (fun k m => m.Shaped ∧ p (m.keyed k)) key)
    : (n.keyed key).Everywhere p := by
  induction n using childInduction generalizing key with
  | step n ih =>
      refine .intro h.top.2 fun c hc => ?_
      rw [children_keyed, Forest.toList_keyed] at hc
      obtain ⟨e, he, rfl⟩ := List.mem_map.mp hc
      exact ih _ he (h.child (h.top.1.ordered.mem_toList.mp he))

end Node

open Relation (ReflTransGen)

namespace KeyedTree

variable {t start : KeyedTree}

/-- However a tree came about from one that was read, its root has a key of one segment, the keys,
dummies and hashes in it fit together, and every node is found under the key it stores; from the
empty tree, every own hash is fresh too. The tree is one that the operations on nodes without keys
give, with the keys of the paths stored.
-/
theorem representation {source : Option NodeRecord} (read : ofRecord? source = .ok start)
    (run : ReflTransGen Step start t)
    : (∀ root, t.root = some root →
          root.key.depth = 1 ∧ root.Everywhere KeyedNode.Fits
          ∧ (source = none → root.Everywhere KeyedNode.Fresh))
      ∧ (∀ key n, t.find? key = some n →
          n.key = key ∧ ∀ e ∈ n.children.toList, t.find? e.1 = some e.2)
      ∧ ∃ origin u, HashTree.ofRecord? source = .ok origin
          ∧ ReflTransGen HashTree.Step origin u ∧ t = u.keyed := by
  obtain ⟨origin, u, found, steps, rfl⟩ := reached_iff.mp ⟨start, read, run⟩
  have shaped := HashTree.shaped_of_run found steps
  refine ⟨?_, ?_, origin, u, found, steps, rfl⟩
  · intro node top
    obtain ⟨⟨root, n⟩, hr, rfl⟩ := Option.map_eq_some_iff.mp top
    obtain ⟨kept, below⟩ := shaped root n hr
    refine ⟨?_, ?_, ?_⟩
    · rw [Node.key_keyed]
      rfl
    · refine Node.Throughout.everywhere_keyed fun path m hm => ⟨below path m hm, ?_⟩
      exact (below path m hm).fits_keyed (below.isPrunable_descend kept hm) _
    · rintro rfl
      cases found
      have intact := HashTree.throughout_of_steps Node.stable_intact steps HashTree.throughout_empty
      refine Node.Throughout.everywhere_keyed fun path m hm => ⟨below path m hm, ?_⟩
      exact ((intact root n hr).2 path m hm).fresh_keyed
  · intro key node there
    rw [HashTree.find?_keyed] at there
    obtain ⟨n, hn, rfl⟩ := Option.map_eq_some_iff.mp there
    refine ⟨Node.key_keyed n key, fun e he => ?_⟩
    rw [Node.children_keyed, Forest.toList_keyed] at he
    obtain ⟨⟨segment, child⟩, hc, rfl⟩ := List.mem_map.mp he
    have below : u.find? (key.child segment) = some child :=
      (HashTree.find?_child_eq hn segment).trans ((shaped.find hn).ordered.mem_toList.mp hc)
    rw [HashTree.find?_keyed, below]
    rfl

/-- From a record whose own hash was not computed from its content, that hash stays as it was read,
and the hash of the subtree follows what is added below. A dummy that is taken out of a tree that
was built stands under a fresh one.
-/
theorem representation_opaque
    : (∃ start root, ofRecord? (some HashTree.opaqueRecord) = .ok start
        ∧ (start.addWith ⟨["r", "a"]⟩ ∅ ∅).2.root = some root
        ∧ root.partialHash = "p" ∧ root.Everywhere KeyedNode.Fits)
      ∧ ∃ found root,
        (((∅ : KeyedTree).addAll [(⟨["r", "a", "b"]⟩, ∅)]).2.pop ⟨["r", "a"]⟩).1 = some found
        ∧ found.root = some root
        ∧ root.Everywhere KeyedNode.Fits ∧ root.Everywhere KeyedNode.Fresh := by
  constructor
  · let opaqueTree : HashTree := ⟨some ("r", .mk {} "p" "p" .nil)⟩
    have read : ofRecord? (some HashTree.opaqueRecord) = .ok opaqueTree.keyed := by
      rw [HashTree.ofRecord?_keyed]
      rfl
    obtain ⟨root, shown, own⟩
        : ∃ root, (opaqueTree.keyed.addWith ⟨["r", "a"]⟩ ∅ ∅).2.root = some root
            ∧ root.partialHash = "p" := by
      rw [HashTree.addWith_keyed]
      exact ⟨_, rfl, rfl⟩
    obtain ⟨fits, -⟩ := representation read (.single (.added ⟨["r", "a"]⟩ ∅ ∅))
    exact ⟨_, root, read, shown, own, (fits root shown).2.1⟩
  · have read : ofRecord? none = .ok ∅ := rfl
    have built : ((∅ : KeyedTree).addAll [(⟨["r", "a", "b"]⟩, ∅)]).2
        = ((∅ : HashTree).addAll [(⟨["r", "a", "b"]⟩, ∅)]).1.keyed :=
      congrArg Prod.snd (HashTree.addAll_keyed ∅ _)
    obtain ⟨found, root, taken, shown⟩
        : ∃ found root,
            (((∅ : KeyedTree).addAll [(⟨["r", "a", "b"]⟩, ∅)]).2.pop ⟨["r", "a"]⟩).1 = some found
            ∧ found.root = some root := by
      have shaped := HashTree.Throughout.addAll Node.stable_shaped.toGrown
        HashTree.throughout_empty [(⟨["r", "a", "b"]⟩, ∅)]
      rw [built, HashTree.pop_keyed _ _ shaped]
      exact ⟨_, _, rfl, rfl⟩
    have run : ReflTransGen Step ∅ found :=
      (ReflTransGen.single (.included _)).tail (.detached taken)
    obtain ⟨parts, -⟩ := representation read run
    obtain ⟨-, fits, fresh⟩ := parts root shown
    exact ⟨found, root, taken, shown, fits, fresh rfl⟩

end KeyedTree

end Concord
