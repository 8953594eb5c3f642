import Concord.Proofs.HashTree.Pruning
import Concord.Proofs.HashTree.Records

/-! Outlines: what is left of a tree without the attributes and tags of its nodes. Comparing trees,
listing their keys, adding and popping read of a node that stays as it is no more than its outline.
Main statement: a record from which attributes were left out and in which tags were changed is read
as a tree that cannot be told from the one whose record it was, whatever is added to both and popped
from both.
-/

namespace Concord

-----------------------------------------------------------------------------------------
-- Outlines of nodes
-----------------------------------------------------------------------------------------

/-- The content without attributes and tags. -/
def Content.outline (c : Content) : Content :=
  { dummy := c.dummy, error := c.error }

mutual
/-- The node without attributes and tags, its own and those below it. All hashes stay. -/
def Node.outline : Node → Node
  | .mk content partialHash fullHash children =>
      .mk content.outline partialHash fullHash children.outline
/-- The children without attributes and tags. -/
def Forest.outline : Forest → Forest
  | .nil => .nil
  | .cons segment child rest => .cons segment child.outline rest.outline
end

namespace Forest

@[simp]
theorem isEmpty_outline (f : Forest) : f.outline.isEmpty = f.isEmpty := by
  cases f <;> rfl

theorem toList_outline (f : Forest)
    : f.outline.toList = f.toList.map fun e => (e.1, e.2.outline) := by
  induction f using listInduction with
  | nil => rfl
  | cons s child rest ih => rw [outline, toList, toList, ih, List.map_cons]

@[simp]
theorem find?_outline (f : Forest) (segment : String)
    : f.outline.find? segment = (f.find? segment).map Node.outline := by
  induction f using listInduction with
  | nil => rfl
  | cons s child rest ih =>
      rw [outline, find?, find?, ih]
      split <;> rfl

@[simp]
theorem outline_insert (f : Forest) (segment : String) (n : Node)
    : (f.insert segment n).outline = f.outline.insert segment n.outline := by
  induction f using listInduction with
  | nil => rfl
  | cons s child rest ih =>
      rw [outline, insert, insert]
      split <;> simp [outline, ih]

@[simp]
theorem outline_erase (f : Forest) (segment : String)
    : (f.erase segment).outline = f.outline.erase segment := by
  induction f using listInduction with
  | nil => rfl
  | cons s child rest ih =>
      rw [outline, erase, erase]
      split
      · rfl
      · rw [outline, ih]

end Forest

namespace Node

@[simp]
theorem content_outline (n : Node) : n.outline.content = n.content.outline := by
  cases n
  rfl

@[simp]
theorem partialHash_outline (n : Node) : n.outline.partialHash = n.partialHash := by
  cases n
  rfl

@[simp]
theorem fullHash_outline (n : Node) : n.outline.fullHash = n.fullHash := by
  cases n
  rfl

@[simp]
theorem children_outline (n : Node) : n.outline.children = n.children.outline := by
  cases n
  rfl

@[simp]
theorem isDummy_outline (n : Node) : n.outline.isDummy = n.isDummy := by
  cases n
  rfl

@[simp]
theorem isError_outline (n : Node) : n.outline.isError = n.isError := by
  cases n
  rfl

@[simp]
theorem isPrunable_outline (n : Node) : n.outline.isPrunable = n.isPrunable := by
  simp [isPrunable]

/-- The hash of a subtree is told by the hashes of its parts. -/
@[simp]
theorem combine_outline (partialHash : String) (f : Forest)
    : combine partialHash f.outline = combine partialHash f := by
  simp [combine, Forest.toList_outline, Function.comp_def]

@[simp]
theorem outline_withChildren (n : Node) (f : Forest)
    : (n.withChildren f).outline = n.outline.withChildren f.outline := by
  simp [withChildren, outline]

/-- A dummy that holds nothing has nothing to leave out of its own. -/
theorem outline_dummy (key : Key) (f : Forest)
    : (ofContent key .placeholder f).outline = ofContent key .placeholder f.outline := by
  rw [ofContent, ofContent, outline, combine_outline]
  rfl

@[simp]
theorem outline_keepOrPrune (n child : Node) (segment : String)
    : (n.keepOrPrune segment child).outline = n.outline.keepOrPrune segment child.outline := by
  rw [keepOrPrune, keepOrPrune, outline_withChildren, isPrunable_outline]
  split <;> simp

@[simp]
theorem descend?_outline (n : Node) (path : List String)
    : n.outline.descend? path = (n.descend? path).map outline := by
  induction path generalizing n with
  | nil => rfl
  | cons segment rest ih =>
      rw [descend?_cons, descend?_cons, children_outline, Forest.find?_outline]
      cases n.children.find? segment with
      | none => rfl
      | some child => exact ih child

/-- What is taken out of an outline is the outline of what is taken out, by induction on the
path. -/
theorem detach?_outline (n : Node) (path : List String)
    : n.outline.detach? path
      = (n.detach? path).map fun found => (found.1.outline, found.2.outline) := by
  induction path generalizing n with
  | nil => rfl
  | cons segment rest ih =>
      cases rest with
      | nil =>
          rw [detach?, detach?, children_outline, Forest.find?_outline]
          cases n.children.find? segment <;> simp
      | cons next rest =>
          rw [detach?, detach?, children_outline, Forest.find?_outline]
          cases n.children.find? segment with
          | none => rfl
          | some child =>
              rw [Option.map_some, Option.bind_some, Option.bind_some, ih child]
              cases child.detach? (next :: rest) <;> simp

theorem outline_underDummies (n : Node) (key : Key) (path : List String)
    : (n.underDummies key path).outline = n.outline.underDummies key path := by
  induction path generalizing key with
  | nil => rfl
  | cons segment rest ih =>
      rw [underDummies, underDummies, outline_dummy, ← ih]
      rfl

/-- Where outlines agree they do so after the same is written to both: the own hash of the node that
is written to is computed anew, from nothing that outlines leave out. By induction on the path. -/
theorem outline_write_congr {n m : Node} (h : n.outline = m.outline) (attributes : Attributes)
    (metadata : Metadata) (key : Key) (path : List String)
    : (n.write attributes metadata key path).outline
      = (m.write attributes metadata key path).outline := by
  have children : n.children.outline = m.children.outline := by
    simpa using congrArg Node.children h
  induction path generalizing n m key with
  | nil =>
      have error : n.content.error = m.content.error := by
        simpa [Content.outline] using congrArg (fun x => x.content.error) h
      have hash (c : Content) : combine (Digest.fingerprint (Encoding.content key c)) n.children
          = combine (Digest.fingerprint (Encoding.content key c)) m.children := by
        rw [← combine_outline, children, combine_outline]
      simp only [write, withContent, ofContent, outline, children, hash]
      simp [Content.write, Content.outline, Encoding.content, error]
  | cons segment rest ih =>
      have child : ((n.children.find? segment).getD (placeholder (key.child segment))).outline
          = ((m.children.find? segment).getD (placeholder (key.child segment))).outline := by
        have found : (n.children.find? segment).map outline
            = (m.children.find? segment).map outline := by
          rw [← Forest.find?_outline, children, Forest.find?_outline]
        have mapped (o : Option Node) := Option.getD_map outline (placeholder (key.child segment)) o
        rw [← mapped, ← mapped, found]
      rw [write, write, outline_withChildren, outline_withChildren, h, Forest.outline_insert,
        Forest.outline_insert, children, ih child _ (by simpa using congrArg Node.children child)]

end Node

-----------------------------------------------------------------------------------------
-- What is read off outlines
-----------------------------------------------------------------------------------------

mutual
/-- The keys that hold something are told by the outline. -/
theorem Node.liveKeys_outline (key : Key) : ∀ n : Node, n.outline.liveKeys key = n.liveKeys key
  | .mk content partialHash fullHash children => by
      rw [Node.outline, Node.liveKeys, Node.liveKeys, Forest.liveKeys_outline key children]
      rfl
/-- The same of children. -/
theorem Forest.liveKeys_outline (key : Key) : ∀ f : Forest, f.outline.liveKeys key = f.liveKeys key
  | .nil => rfl
  | .cons segment child rest => by
      rw [Forest.outline, Forest.liveKeys, Forest.liveKeys, Node.liveKeys_outline _ child,
        Forest.liveKeys_outline key rest]
end

mutual
/-- The nodes of an outline are the outlines of the nodes. -/
theorem Node.walk_outline (key : Key)
    : ∀ n : Node, n.outline.walk key = (n.walk key).map fun e => (e.1, e.2.outline)
  | .mk content partialHash fullHash children => by
      rw [Node.outline, Node.walk, Node.walk, Forest.walk_outline key children]
      rfl
/-- The same of children. -/
theorem Forest.walk_outline (key : Key)
    : ∀ f : Forest, f.outline.walk key = (f.walk key).map fun e => (e.1, e.2.outline)
  | .nil => rfl
  | .cons segment child rest => by
      rw [Forest.outline, Forest.walk, Forest.walk, Node.walk_outline _ child,
        Forest.walk_outline key rest, List.map_append]
end

theorem Forest.unmatchedKeys_outline (f others : Forest) (key : Key)
    : f.outline.unmatchedKeys key others.outline = f.unmatchedKeys key others := by
  induction f using listInduction with
  | nil => rfl
  | cons segment child rest ih =>
      rw [outline, unmatchedKeys, unmatchedKeys, ih, Node.liveKeys_outline, find?_outline,
        Option.isNone_map]

theorem Node.ownDiff_outline (n m : Node) (key : Key)
    : n.outline.ownDiff key m.outline = n.ownDiff key m := by
  simp [ownDiff]

mutual
/-- Differences are told by the outlines. -/
theorem Node.diff_outline
    : ∀ (n m : Node) (key : Key), n.outline.diff key m.outline = n.diff key m
  | .mk content partialHash fullHash children, m, key => by
      have below := Forest.diff_outline children m.children key
      rw [Node.diff_eq, Node.diff_eq, Node.ownDiff_outline]
      simp only [Node.isError_outline, Node.fullHash_outline, Node.children_outline,
        Forest.unmatchedKeys_outline]
      rw [show (Node.mk content partialHash fullHash children).children = children from rfl, below]
/-- The same of children. -/
theorem Forest.diff_outline
    : ∀ (f g : Forest) (key : Key), f.outline.diff key g.outline = f.diff key g
  | .nil, _, _ => rfl
  | .cons segment child rest, g, key => by
      rw [Forest.outline, Forest.diff, Forest.diff, Forest.diff_outline rest g key,
        Forest.find?_outline, Node.liveKeys_outline]
      cases g.find? segment with
      | none => rfl
      | some other =>
          simp only [Option.map_some, Node.fullHash_outline,
            Node.diff_outline child other (key.child segment)]
end

-----------------------------------------------------------------------------------------
-- Outlines of trees
-----------------------------------------------------------------------------------------

namespace HashTree

/-- The tree without the attributes and tags of its nodes. -/
def outline (t : HashTree) : HashTree :=
  ⟨t.root.map fun r => (r.1, r.2.outline)⟩

variable {t u : HashTree}

@[simp]
theorem outline_root (root : String) (n : Node)
    : (⟨some (root, n)⟩ : HashTree).outline = ⟨some (root, n.outline)⟩ :=
  rfl

theorem find?_outline (t : HashTree) (k : Key)
    : t.outline.find? k = (t.find? k).map Node.outline := by
  obtain ⟨_ | ⟨root, n⟩⟩ := t
  · rfl
  obtain ⟨_ | ⟨segment, rest⟩⟩ := k
  · rfl
  simp only [outline, find?, Option.map_some, Node.descend?_outline]
  split <;> rfl

theorem keys_outline (t : HashTree) : t.outline.keys = t.keys := by
  have nodes : t.outline.nodes = t.nodes.map fun e => (e.1, e.2.outline) := by
    obtain ⟨_ | ⟨root, n⟩⟩ := t
    · rfl
    · exact n.walk_outline _
  simp [keys, select, nodes, List.filter_map, Function.comp_def]

theorem subtreeKeys_outline (t : HashTree) (k : Key)
    : t.outline.subtreeKeys k = t.subtreeKeys k := by
  rw [subtreeKeys, subtreeKeys, find?_outline]
  cases t.find? k with
  | none => rfl
  | some n => exact n.liveKeys_outline k

theorem diff_outline (t u : HashTree) : t.outline.diff u.outline = t.diff u := by
  obtain ⟨_ | ⟨root, n⟩⟩ := t <;> obtain ⟨_ | ⟨other, m⟩⟩ := u <;>
    simp [outline, diff, Node.liveKeys_outline, Node.diff_outline]

theorem rootHash?_outline (t : HashTree) : t.outline.rootHash? = t.rootHash? := by
  obtain ⟨_ | ⟨root, n⟩⟩ := t
  · rfl
  · simp [outline, rootHash?]

theorem outline_ofRoot (root : String) (n : Node)
    : (ofRoot root n).outline = ofRoot root n.outline := by
  rw [ofRoot, ofRoot, Node.isPrunable_outline]
  split <;> rfl

theorem pop?_outline (t : HashTree) (key : Key)
    : t.outline.pop? key = (t.pop? key).map fun found => (found.1.outline, found.2.outline) := by
  obtain ⟨_ | ⟨root, n⟩⟩ := t
  · rfl
  obtain ⟨_ | ⟨segment, rest⟩⟩ := key
  · rfl
  rw [outline_root, pop?, pop?]
  by_cases here : segment = root
  · subst here
    cases rest with
    | nil =>
        simp
        rfl
    | cons next rest =>
        simp [Node.detach?_outline, outline_ofRoot, Node.outline_underDummies, Function.comp_def]
  · simp [here]

/-- Where outlines agree, the same is added to both or refused by both, and outlines still agree. -/
theorem outline_addWith_congr (h : t.outline = u.outline) (key : Key) (attributes : Attributes)
    (metadata : Metadata)
    : (t.addWith key attributes metadata).map outline
      = (u.addWith key attributes metadata).map outline := by
  obtain ⟨_ | ⟨root, n⟩⟩ := t <;> obtain ⟨_ | ⟨other, m⟩⟩ := u
  · rfl
  · cases h
  · cases h
  · have roots := congrArg HashTree.root h
    simp only [outline, Option.map_some, Option.some.injEq, Prod.mk.injEq] at roots
    obtain ⟨rfl, same⟩ := roots
    obtain ⟨_ | ⟨segment, rest⟩⟩ := key
    · simp [addWith, Except.map, h]
    · have written := Node.outline_write_congr same attributes metadata ⟨[root]⟩ rest
      simp only [addWith]
      split
      · simp [Except.map, outline, written]
      · rfl

/-- A step that makes no own hash anew but that of a node that it writes to: adding with tags, or
popping. One that fails changes nothing. -/
inductive Edit where
  | add (key : Key) (attributes : Attributes) (metadata : Metadata)
  | pop (key : Key)

/-- The tree after an edit. -/
def edit (t : HashTree) : Edit → HashTree
  | .add key attributes metadata => (t.addWith key attributes metadata).toOption.getD t
  | .pop key => ((t.pop? key).map Prod.fst).getD t

theorem outline_edit_congr (h : t.outline = u.outline) (e : Edit)
    : (t.edit e).outline = (u.edit e).outline := by
  cases e with
  | add key attributes metadata =>
      have same := outline_addWith_congr h key attributes metadata
      rw [edit, edit]
      cases ht : t.addWith key attributes metadata <;>
        cases hu : u.addWith key attributes metadata <;>
        rw [ht, hu] at same <;> simp_all [Except.map, Except.toOption]
  | pop key =>
      have same : (t.pop? key).map (fun found => (found.1.outline, found.2.outline))
          = (u.pop? key).map fun found => (found.1.outline, found.2.outline) := by
        rw [← pop?_outline, h, pop?_outline]
      rw [edit, edit]
      cases ht : t.pop? key <;> cases hu : u.pop? key <;> rw [ht, hu] at same <;> simp_all

theorem outline_edits_congr (h : t.outline = u.outline) (edits : List Edit)
    : (edits.foldl edit t).outline = (edits.foldl edit u).outline := by
  induction edits generalizing t u with
  | nil => exact h
  | cons e rest ih => exact ih (outline_edit_congr h e)

/-- Two trees compare equal, list the same keys, and have the same differences from any other. -/
structure Indistinct (t u : HashTree) : Prop where
  same : u.same t = true
  keys : u.keys = t.keys
  subtreeKeys : ∀ k, u.subtreeKeys k = t.subtreeKeys k
  diff : ∀ v, u.diff v = t.diff v
  diffFrom : ∀ v : HashTree, v.diff u = v.diff t

theorem indistinct_of_outline (h : t.outline = u.outline) : t.Indistinct u where
  same := by
    have hash : u.rootHash? = t.rootHash? := by
      rw [← rootHash?_outline, ← h, rootHash?_outline]
    simp [HashTree.same, hash]
  keys := by rw [← keys_outline, ← h, keys_outline]
  subtreeKeys k := by rw [← subtreeKeys_outline, ← h, subtreeKeys_outline]
  diff v := by rw [← diff_outline, ← h, diff_outline]
  diffFrom v := by rw [← diff_outline, ← h, diff_outline]

end HashTree

-----------------------------------------------------------------------------------------
-- Outlines of records
-----------------------------------------------------------------------------------------

namespace NodeRecord

mutual
/-- The record with the attributes and the tags of every node left out. -/
def outline : NodeRecord → NodeRecord
  | ⟨key, partialHash, fullHash, dummy, error, _, _, children⟩ =>
      ⟨key, partialHash, fullHash, dummy, error, ∅, ∅, outlineAll children⟩
/-- Records with the attributes and the tags of every node left out. -/
def outlineAll : List NodeRecord → List NodeRecord
  | [] => []
  | record :: rest => record.outline :: outlineAll rest
end

theorem outlineAll_eq_map (l : List NodeRecord) : outlineAll l = l.map outline := by
  induction l with
  | nil => rfl
  | cons r rest ih => rw [outlineAll, ih, List.map_cons]

theorem outline_eq (r : NodeRecord)
    : r.outline
      = { r with metadata := ∅, attributes := ∅, children := r.children.map outline } := by
  cases r
  rw [outline, outlineAll_eq_map]

@[simp]
theorem key_outline (r : NodeRecord) : r.outline.key = r.key := by
  rw [outline_eq]

@[simp]
theorem fullHash_outline (r : NodeRecord) : r.outline.fullHash = r.fullHash := by
  rw [outline_eq]

mutual
/-- What has no attributes any more has the outline that it had. -/
theorem outline_bare : ∀ r : NodeRecord, r.bare.outline = r.outline
  | ⟨key, partialHash, fullHash, dummy, error, metadata, attributes, children⟩ => by
      rw [bare, outline, outline, outlineAll_bareAll children]
/-- The same of records in a list. -/
theorem outlineAll_bareAll : ∀ l : List NodeRecord, outlineAll (bareAll l) = outlineAll l
  | [] => rfl
  | r :: rest => by rw [bareAll, outlineAll, outlineAll, outline_bare r, outlineAll_bareAll rest]
end

/-- Whether the parts of a record fit together is told by its outline. -/
theorem fits_outline (r : NodeRecord) : r.outline.Fits ↔ r.Fits := by
  rw [outline_eq]
  constructor
  · rintro ⟨keys, ascending, supported, hash⟩
    refine ⟨fun c hc => ?_, ?_, fun dummy none => ?_, ?_⟩
    · simpa using keys c.outline (List.mem_map_of_mem hc)
    · simpa [List.pairwise_map] using ascending
    · exact supported dummy (by simp [none])
    · simpa [Function.comp_def] using hash
  · rintro ⟨keys, ascending, supported, hash⟩
    refine ⟨?_, ?_, fun dummy none => ?_, ?_⟩
    · simpa using keys
    · simpa [List.pairwise_map] using ascending
    · exact supported dummy (by simpa using none)
    · simpa [Function.comp_def] using hash

theorem everywhere_outline {p : NodeRecord → Prop} (hp : ∀ r, p r.outline ↔ p r) (r : NodeRecord)
    : r.outline.Everywhere p ↔ r.Everywhere p := by
  induction r using childInduction with
  | step r ih =>
      have children : r.outline.children = r.children.map outline := by rw [outline_eq]
      constructor
      · rintro ⟨here, below⟩
        refine .intro ((hp r).mp here) fun c hc => (ih c hc).mp (below _ ?_)
        rw [children]
        exact List.mem_map_of_mem hc
      · rintro ⟨here, below⟩
        refine .intro ((hp r).mpr here) fun c hc => ?_
        rw [children] at hc
        obtain ⟨d, hd, rfl⟩ := List.mem_map.mp hc
        exact (ih d hd).mpr (below d hd)

end NodeRecord

theorem Node.toRecord_outline (n : Node) (key : Key)
    : n.outline.toRecord key = (n.toRecord key).outline := by
  induction n using childInduction generalizing key with
  | step n ih =>
      rw [toRecord_eq, toRecord_eq, NodeRecord.outline_eq, children_outline,
        Forest.toList_outline, List.map_map, List.map_map]
      simp only [Function.comp_def, partialHash_outline, fullHash_outline, isDummy_outline,
        isError_outline, content_outline]
      rw [List.map_congr_left fun e he => ih e he (key.child e.1)]
      rfl

mutual
/-- A node is told by its record, whatever key it is written with. -/
theorem Node.eq_of_toRecord
    : ∀ (n m : Node) (key : Key), n.toRecord key = m.toRecord key → n = m
  | .mk ⟨_, _, _, _⟩ _ _ children, .mk ⟨_, _, _, _⟩ _ _ others, key, h => by
      simp only [Node.toRecord, NodeRecord.mk.injEq] at h
      obtain ⟨-, rfl, rfl, rfl, rfl, rfl, rfl, below⟩ := h
      rw [Forest.eq_of_toRecords children others key below]
/-- The same of children. -/
theorem Forest.eq_of_toRecords
    : ∀ (f g : Forest) (key : Key), f.toRecords key = g.toRecords key → f = g
  | .nil, .nil, _, _ => rfl
  | .nil, .cons .., _, h => by simp [Forest.toRecords] at h
  | .cons .., .nil, _, h => by simp [Forest.toRecords] at h
  | .cons segment child rest, .cons other child' rest', key, h => by
      obtain ⟨here, later⟩ := List.cons.inj h
      have keys : key.child segment = key.child other := by
        simpa using congrArg NodeRecord.key here
      rw [← Key.child_inj keys] at here ⊢
      rw [Node.eq_of_toRecord child child' _ here, Forest.eq_of_toRecords rest rest' key later]
end

namespace HashTree

theorem toRecord?_outline (t : HashTree)
    : t.outline.toRecord? = t.toRecord?.map NodeRecord.outline := by
  obtain ⟨_ | ⟨root, n⟩⟩ := t
  · rfl
  · exact congrArg some (n.toRecord_outline _)

theorem eq_of_toRecord? {t u : HashTree} (h : t.toRecord? = u.toRecord?) : t = u := by
  obtain ⟨_ | ⟨root, n⟩⟩ := t <;> obtain ⟨_ | ⟨other, m⟩⟩ := u
  · rfl
  · cases h
  · cases h
  · have records : n.toRecord ⟨[root]⟩ = m.toRecord ⟨[other]⟩ := Option.some.inj h
    have keys : (⟨[root]⟩ : Key) = ⟨[other]⟩ := by simpa using congrArg NodeRecord.key records
    cases keys
    rw [Node.eq_of_toRecord n m _ records]

/-- A record with the outline of a tree in shape is read, and shown again as it is. -/
theorem read_of_outline {t : HashTree} {altered : Option NodeRecord}
    (shaped : t.Throughout fun _ n => n.Shaped)
    (alike : altered.map NodeRecord.outline = t.toRecord?.map NodeRecord.outline)
    : ∃ u, ofRecord? altered = .ok u ∧ u.toRecord? = altered := by
  cases altered with
  | none => exact ⟨∅, rfl, rfl⟩
  | some r' =>
      cases shown : t.toRecord? with
      | none => simp [shown] at alike
      | some r =>
          rw [shown] at alike
          have same : r'.outline = r.outline := Option.some.inj alike
          obtain ⟨depth, fits⟩ := fits_of_shaped shaped shown
          have depth' : r'.key.depth = 1 := by
            rw [← NodeRecord.key_outline, same, NodeRecord.key_outline, depth]
          have fits' : r'.Everywhere NodeRecord.Fits := by
            rwa [← NodeRecord.everywhere_outline NodeRecord.fits_outline, same,
              NodeRecord.everywhere_outline NodeRecord.fits_outline]
          obtain ⟨u, read⟩ := (ofRecord?_ok_iff r').mpr
            ⟨depth', fits'.imp fun _ => NodeRecord.Fits.coherent⟩
          refine ⟨u, read, ?_⟩
          rw [toRecord?_of_read read, NodeRecord.sorted_of_fits fits']

/-- However a tree came about from one that was read: a record that differs from its record in
nothing but attributes and tags is read as a tree that cannot be told from it, and so are the two
after the same is added to both and popped from both.
-/
theorem stored_hashes_decide {source : Option NodeRecord} {start t : HashTree}
    (read : ofRecord? source = .ok start) (run : Relation.ReflTransGen Step start t)
    {altered : Option NodeRecord}
    (alike : altered.map NodeRecord.outline = t.toRecord?.map NodeRecord.outline)
    : ∃ u, ofRecord? altered = .ok u ∧ u.toRecord? = altered ∧ t.Indistinct u
      ∧ ∀ edits : List Edit, (edits.foldl edit t).Indistinct (edits.foldl edit u) := by
  obtain ⟨u, reread, shown⟩ := read_of_outline (shaped_of_run read run) alike
  have same : t.outline = u.outline := by
    refine eq_of_toRecord? ?_
    rw [toRecord?_outline, toRecord?_outline, shown, alike]
  exact ⟨u, reread, shown, indistinct_of_outline same,
    fun edits => indistinct_of_outline (outline_edits_congr same edits)⟩

/-- A record with hashes that are none of its own, an attribute and a tag. -/
def labelledRecord : NodeRecord :=
  { opaqueRecord with attributes := {("a", .null)}, metadata := {("b", "c")} }

/-- The tree of that record. -/
def labelledTree : HashTree :=
  ⟨some ("r", .mk { attributes := {("a", .null)}, metadata := {("b", "c")} } "p" "p" .nil)⟩

/-- Two entries come below the root, and one of them goes again. -/
def comingAndGoing : List Edit :=
  [.add ⟨["r", "b"]⟩ ∅ ∅, .add ⟨["r", "c"]⟩ ∅ ∅, .pop ⟨["r", "b"]⟩]

/-- The trees that are read from that record with and without attributes differ, but cannot be told
apart, and still cannot after entries came and went below their roots. -/
theorem stored_hashes_decide_opaque
    : ∃ t u, ofRecord? (some labelledRecord) = .ok t ∧ ofRecord? (some labelledRecord.bare) = .ok u
        ∧ t ≠ u ∧ t.Indistinct u
        ∧ (comingAndGoing.foldl edit t).Indistinct (comingAndGoing.foldl edit u) := by
  have read : ofRecord? (some labelledRecord) = .ok labelledTree := rfl
  have alike : (some labelledRecord.bare).map NodeRecord.outline
      = labelledTree.toRecord?.map NodeRecord.outline :=
    congrArg some labelledRecord.outline_bare
  obtain ⟨u, reread, shown, indistinct, edited⟩ := stored_hashes_decide read .refl alike
  refine ⟨labelledTree, u, read, reread, ?_, indistinct, edited comingAndGoing⟩
  rintro rfl
  have attributes := congrArg (Option.map NodeRecord.attributes) shown
  simp [labelledTree, toRecord?, Node.toRecord, labelledRecord, opaqueRecord, NodeRecord.bare]
    at attributes

end HashTree

end Concord
