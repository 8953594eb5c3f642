import Concord.Proofs.HashTree.Changes
import Concord.Proofs.HashTree.Difference

/-! A tree as a map from keys to contents: attributes, tags, and whether a node is a dummy or
flagged. Main statement: what each operation makes of this map, at the key it names, at the dummies
above that key, and nowhere else.
-/

namespace Concord

-----------------------------------------------------------------------------------------
-- Contents along a path
-----------------------------------------------------------------------------------------

namespace Node

/-- The content at the end of a path. -/
def content? (n : Node) (path : List String) : Option Content :=
  (n.descend? path).map content

@[simp]
theorem content?_nil (n : Node) : n.content? [] = some n.content := by
  simp [content?]

theorem content?_cons (n : Node) (segment : String) (path : List String)
    : n.content? (segment :: path)
      = (n.children.find? segment).bind fun child => child.content? path := by
  rw [content?, descend?_cons, Option.map_bind]
  rfl

@[simp]
theorem content_placeholder (key : Key) : (placeholder key).content = .placeholder :=
  rfl

theorem content?_placeholder (key : Key) (path : List String)
    : (placeholder key).content? path = if path = [] then some .placeholder else none := by
  cases path with
  | nil => rfl
  | cons segment rest => rfl

/-- A child that is put in place gives its contents, and the other children keep theirs. -/
theorem content?_insert (n child : Node) (segment other : String) (path : List String)
    : (n.withChildren (n.children.insert segment child)).content? (other :: path)
      = if other = segment then child.content? path else n.content? (other :: path) := by
  rw [content?_cons, content?_cons, children_withChildren, Forest.find?_insert]
  by_cases h : other = segment <;> simp [h]

/-- Writing sets the end of the path but for its flag, puts placeholders where nodes are missing on
the way, and changes nothing else, by induction on the path.
-/
theorem content?_write (attributes : Attributes) (metadata : Metadata) (key : Key) (n : Node)
    (path other : List String)
    : (n.write attributes metadata key path).content? other
      = if other = path then
          some {
            attributes, metadata
            dummy := false
            error := ((n.content? path).map Content.error).getD false
          }
        else if other <+: path then (n.content? other).or (some .placeholder)
        else n.content? other := by
  induction path generalizing n key other with
  | nil =>
      cases other with
      | nil => simp [write, Content.write]
      | cons s rest => simp [write, content?_cons]
  | cons segment rest ih =>
      rw [write]
      cases other with
      | nil => simp
      | cons s tail =>
          rw [content?_insert, ih]
          by_cases hs : s = segment
          · subst hs
            cases hf : n.children.find? s with
            | none =>
                -- A missing child starts as a placeholder, which has no flag either.
                rw [content?_cons n, content?_cons n, hf, Option.getD_none]
                simp only [content?_placeholder, Option.bind_none]
                cases tail <;> cases rest <;> simp [Content.placeholder]
            | some child => simp [content?_cons, hf]
          · simp [hs, List.cons_prefix_cons]

-----------------------------------------------------------------------------------------
-- Dummies that are left without children
-----------------------------------------------------------------------------------------

/-- What a tree shows of a node at the end of a path: nothing of a dummy without children. -/
def kept? (n : Node) (path : List String) : Option Content :=
  if n.isPrunable then none else n.content? path

/-- Below the top there is nothing to prune. -/
theorem kept?_cons (n : Node) (segment : String) (path : List String)
    : n.kept? (segment :: path) = n.content? (segment :: path) := by
  rw [kept?]
  split
  · rename_i hp
    rw [content?, descend?_of_isEmpty (Bool.and_eq_true_iff.mp hp).2]
    rfl
  · rfl

theorem content?_keepOrPrune {n : Node} (h : n.children.Ordered) (child : Node)
    (segment other : String) (path : List String)
    : (n.keepOrPrune segment child).content? (other :: path)
      = if other = segment then child.kept? path else n.content? (other :: path) := by
  rw [keepOrPrune]
  split
  · rename_i hp
    rw [content?_cons, content?_cons, children_withChildren, h.find?_erase, kept?, if_pos hp]
    by_cases ho : other = segment <;> simp [ho]
  · rename_i hp
    rw [content?_insert, kept?, if_neg hp]

/-- Whether the node, once what is at the end of the path is gone, goes too: it is a dummy, and its
one child goes.
-/
def deserted : Node → List String → Bool
  | _, [] => true
  | n, segment :: rest =>
      n.isDummy && n.children.segments == [segment]
        && (n.children.find? segment).any fun child => child.deserted rest

end Node

/-- A forest is left empty when its only child is taken out. -/
theorem Forest.isEmpty_erase {f : Forest} {segment : String} {child : Node}
    (h : f.find? segment = some child)
    : (f.erase segment).isEmpty = (f.segments == [segment]) := by
  cases f with
  | nil => simp [find?] at h
  | cons s other rest =>
      by_cases hs : s = segment
      · cases rest <;> simp [erase, hs, isEmpty, segments, toList]
      · have more : rest.segments ≠ [] := by
          intro none
          rw [find?, if_neg hs] at h
          have mem := find?_isSome_iff.mp (Option.isSome_of_eq_some h)
          simp [none] at mem
        simp [erase, hs, isEmpty]

namespace Node

theorem isPrunable_withChildren (n : Node) (f : Forest)
    : (n.withChildren f).isPrunable = (n.isDummy && f.isEmpty) :=
  rfl

/-- What is left of a node can be pruned just when it is deserted, by induction on the path. -/
theorem isPrunable_detach {path : List String} {n left found : Node}
    (h : n.detach? path = some (left, found))
    : left.isPrunable = n.deserted path := by
  induction path generalizing n left with
  | nil => simp [detach?] at h
  | cons segment rest ih =>
      cases rest with
      | nil =>
          obtain ⟨child, hf, he⟩ := Option.map_eq_some_iff.mp h
          cases he
          simp [isPrunable_withChildren, Forest.isEmpty_erase hf, deserted, hf]
      | cons next rest =>
          obtain ⟨child, hf, hm⟩ := Option.bind_eq_some_iff.mp h
          obtain ⟨⟨below, out⟩, hb, he⟩ := Option.map_eq_some_iff.mp hm
          cases he
          rw [deserted, hf, Option.any_some, ← ih hb, keepOrPrune, isPrunable_withChildren]
          split
          · rename_i hp
            rw [Forest.isEmpty_erase hf, hp, Bool.and_true]
          · rename_i hp
            simp [hp]

/-- Whether a node at the end of `other` goes with the one at the end of `path`: it is below that
one, or deserted when that one is gone.
-/
def goesWith (n : Node) (path other : List String) : Bool :=
  path.isPrefixOf other
    || other.isPrefixOf path
      && (n.descend? other).any fun m => m.deserted (path.drop other.length)

theorem goesWith_nil (n : Node) (path : List String) : n.goesWith path [] = n.deserted path := by
  cases path with
  | nil => rfl
  | cons segment rest => simp [goesWith]

theorem goesWith_cons (n : Node) (segment s : String) (path other : List String)
    : n.goesWith (segment :: path) (s :: other)
      = (segment == s && (n.children.find? s).elim (path.isPrefixOf other) (·.goesWith path other)) := by
  by_cases hs : segment = s
  · subst hs
    cases hf : n.children.find? segment with
    | none => simp [goesWith, descend?_cons, hf]
    | some child => simp [goesWith, descend?_cons, hf]
  · have apart : (segment == s) = false ∧ (s == segment) = false :=
      ⟨beq_eq_false_iff_ne.mpr hs, beq_eq_false_iff_ne.mpr (Ne.symm hs)⟩
    simp [goesWith, List.isPrefixOf, apart]

theorem content_detach {path : List String} {n left found : Node}
    (h : n.detach? path = some (left, found))
    : left.content = n.content := by
  match path, h with
  | [_], h =>
      obtain ⟨child, -, he⟩ := Option.map_eq_some_iff.mp h
      cases he
      rfl
  | _ :: _ :: _, h =>
      obtain ⟨child, -, hm⟩ := Option.bind_eq_some_iff.mp h
      obtain ⟨_, -, he⟩ := Option.map_eq_some_iff.mp hm
      cases he
      rfl

/-- Taking a subtree out takes just what goes with it, and changes no other content, by induction
on the path.
-/
theorem kept?_detach {path other : List String} {key : Key} {n left found : Node}
    (h : n.Throughout (fun _ x => x.Shaped) key) (hd : n.detach? path = some (left, found))
    : left.kept? other = if n.goesWith path other then none else n.content? other := by
  induction path generalizing n key left other with
  | nil => simp [detach?] at hd
  | cons segment rest ih =>
      cases other with
      | nil =>
          rw [kept?, isPrunable_detach hd, goesWith_nil, content?_nil, content?_nil,
            content_detach hd]
      | cons s tail =>
          rw [kept?_cons, goesWith_cons]
          cases rest with
          | nil =>
              obtain ⟨child, hf, he⟩ := Option.map_eq_some_iff.mp hd
              cases he
              rw [content?_cons, content?_cons, children_withChildren, h.top.ordered.find?_erase]
              by_cases hs : s = segment
              · subst hs
                simp [hf, goesWith]
              · simp [hs, Ne.symm hs]
          | cons next rest =>
              obtain ⟨child, hf, hm⟩ := Option.bind_eq_some_iff.mp hd
              obtain ⟨⟨below, out⟩, hb, he⟩ := Option.map_eq_some_iff.mp hm
              cases he
              rw [content?_keepOrPrune h.top.ordered, @ih tail _ child below (h.child hf) hb]
              by_cases hs : s = segment
              · subst hs
                simp [hf, content?_cons]
              · simp [hs, Ne.symm hs]

/-- A content that is changed without leaving a childless dummy changes alone, by induction on the
path.
-/
theorem content?_change {f : Content → Content} {path other : List String} {key : Key}
    {n m changed : Node} (hm : n.descend? path = some m)
    (stays : ((f m.content).dummy && m.children.isEmpty) = false)
    (hc : n.change? f key path = some changed)
    : changed.isPrunable = false
      ∧ changed.content? other = if other = path then some (f m.content) else n.content? other := by
  induction path generalizing n key changed other with
  | nil =>
      cases hm
      cases hc
      refine ⟨stays, ?_⟩
      cases other with
      | nil => simp
      | cons s rest => simp [content?_cons]
  | cons segment rest ih =>
      obtain ⟨child, hf, hd⟩ := descend?_cons_eq_some.mp hm
      obtain ⟨_, hf', hr⟩ := Option.bind_eq_some_iff.mp hc
      cases hf.symm.trans hf'
      obtain ⟨below, hb, rfl⟩ := Option.map_eq_some_iff.mp hr
      have kept : below.isPrunable = false := (@ih [] _ child below hd hb).1
      rw [keepOrPrune, kept, if_neg Bool.false_ne_true]
      refine ⟨by simp [isPrunable_withChildren], ?_⟩
      cases other with
      | nil => simp
      | cons s tail =>
          rw [content?_insert, (@ih tail _ child below hd hb).2]
          by_cases hs : s = segment
          · subst hs
            simp [content?_cons, hf]
          · simp [hs]

/-- Under fresh dummies a node is where it was, by induction on the path. -/
theorem descend?_underDummies (n : Node) (key : Key) (path other : List String)
    : (n.underDummies key path).descend? (path ++ other) = n.descend? other := by
  induction path generalizing key with
  | nil => rfl
  | cons segment rest ih =>
      rw [underDummies, List.cons_append, descend?_cons]
      simpa [ofContent, children, Forest.find?] using ih (key.child segment)

/-- Besides that node there are only the fresh dummies, by induction on the path. -/
theorem content?_underDummies (n : Node) (key : Key) {path other : List String}
    (h : ¬ path <+: other)
    : (n.underDummies key path).content? other
      = if other <+: path then some .placeholder else none := by
  induction path generalizing key other with
  | nil => exact absurd List.nil_prefix h
  | cons segment rest ih =>
      rw [underDummies]
      cases other with
      | nil => rfl
      | cons s tail =>
          rw [content?_cons]
          by_cases hs : segment = s
          · subst hs
            simp only [List.cons_prefix_cons, true_and] at h ⊢
            simpa [ofContent, children, Forest.find?] using ih (key.child segment) h
          · simp [ofContent, children, Forest.find?, hs, Ne.symm hs, List.cons_prefix_cons]

/-- What is taken out is the node at the end of the path, by induction on the path. -/
theorem descend?_of_detach {path : List String} {n left found : Node}
    (h : n.detach? path = some (left, found))
    : n.descend? path = some found := by
  induction path generalizing n left with
  | nil => simp [detach?] at h
  | cons segment rest ih =>
      cases rest with
      | nil =>
          obtain ⟨child, hf, he⟩ := Option.map_eq_some_iff.mp h
          cases he
          exact descend?_cons_eq_some.mpr ⟨_, hf, descend?_nil _⟩
      | cons next rest =>
          obtain ⟨child, hf, hm⟩ := Option.bind_eq_some_iff.mp h
          obtain ⟨⟨below, out⟩, hb, he⟩ := Option.map_eq_some_iff.mp hm
          cases he
          exact descend?_cons_eq_some.mpr ⟨child, hf, ih hb⟩

end Node

-----------------------------------------------------------------------------------------
-- Keys at and above others
-----------------------------------------------------------------------------------------

namespace Key

@[simp]
theorem contains_root (root : String) (path other : List String)
    : (⟨root :: path⟩ : Key).contains ⟨root :: other⟩ = path.isPrefixOf other := by
  simp [contains]

theorem isAncestorOf_root (root : String) {path other : List String} (h : other ≠ path)
    : (⟨root :: other⟩ : Key).isAncestorOf ⟨root :: path⟩ = decide (other <+: path) := by
  rw [isAncestorOf, contains_root, Bool.eq_iff_iff]
  simp only [Bool.and_eq_true, decide_eq_true_iff, List.isPrefixOf_iff_prefix]
  refine ⟨And.right, fun hp => ⟨?_, hp⟩⟩
  have hl : other.length ≠ path.length := fun he => h (hp.eq_of_length he)
  have := hp.length_le
  simp only [depth, List.length_cons]
  omega

/-- Of the keys without this root only the empty one is above a key with it. -/
theorem isAncestorOf_of_foreign {j : Key} {root : String} {path : List String}
    (h : j.root? ≠ some root)
    : (j.isAncestorOf ⟨root :: path⟩ && !j.isEmpty) = false := by
  obtain ⟨segments⟩ := j
  cases segments with
  | nil => simp [isEmpty]
  | cons s rest =>
      have hs : (s == root) = false := by simpa [root?] using h
      simp [isAncestorOf, contains, List.isPrefixOf, hs]

end Key

-----------------------------------------------------------------------------------------
-- Contents of a tree
-----------------------------------------------------------------------------------------

namespace HashTree

/-- The content at a key. -/
def content? (t : HashTree) (k : Key) : Option Content :=
  (t.find? k).map Node.content

/-- Whether the node at `j` goes with the subtree at `k`: it is at or below `k`, or it is a dummy
above that is then left without children.
-/
def goesWith (t : HashTree) (k j : Key) : Bool :=
  k.contains j
    || j.contains k && (t.find? j).any fun n => n.deserted (k.segments.drop j.depth)

variable {t u left found : HashTree} {root : String} {j k : Key} {r n : Node}
  {path other : List String}

theorem content?_root
    : (⟨some (root, r)⟩ : HashTree).content? ⟨root :: path⟩ = r.content? path :=
  congrArg (Option.map Node.content) find?_root

theorem content?_of_foreign (h : j.root? ≠ some root)
    : (⟨some (root, r)⟩ : HashTree).content? j = none := by
  rw [content?, find?_eq_none_of_root rfl h]
  rfl

@[simp]
theorem content?_empty (j : Key) : (∅ : HashTree).content? j = none :=
  rfl

theorem goesWith_root
    : (⟨some (root, r)⟩ : HashTree).goesWith ⟨root :: path⟩ ⟨root :: other⟩
      = r.goesWith path other := by
  simp [goesWith, Node.goesWith, find?_root, Key.depth]

/-- A root is kept or pruned like any other node. -/
theorem content?_ofRoot : (ofRoot root r).content? ⟨root :: path⟩ = r.kept? path := by
  rw [ofRoot, Node.kept?]
  split
  · rfl
  · exact content?_root

theorem content?_ofRoot_of_foreign (h : j.root? ≠ some root)
    : (ofRoot root r).content? j = none := by
  rw [ofRoot]
  split
  · rfl
  · exact content?_of_foreign h

theorem Shaped.isPrunable_find (ht : t.Shaped) (h : t.find? k = some n) : n.isPrunable = false := by
  obtain ⟨root, r, path, rfl, rfl, hd⟩ := root_of_find? h
  obtain ⟨top, shaped⟩ := ht root r rfl
  exact shaped.isPrunable_descend top hd

/-- Adding sets the content at its key but for the flag, puts placeholders where nodes are missing
above, and changes nothing else.
-/
theorem content?_addWith (ht : t.RootedAt root) (hk : k.root? = some root)
    (attributes : Attributes) (metadata : Metadata)
    : ∃ u, t.addWith k attributes metadata = .ok u
      ∧ ∀ j, u.content? j
          = if j = k then
              some {
                attributes, metadata
                dummy := false
                error := ((t.content? k).map Content.error).getD false
              }
            else if j.isAncestorOf k && !j.isEmpty then (t.content? j).or (some .placeholder)
            else t.content? j := by
  obtain ⟨segments⟩ := k
  obtain ⟨path, rfl⟩ : ∃ path, segments = root :: path := List.head?_eq_some_iff.mp hk
  obtain ⟨u, hu, -⟩ := addWith_ok ht hk attributes metadata
  refine ⟨u, hu, fun j => ?_⟩
  obtain ⟨_ | ⟨other, r⟩⟩ := t
  · cases hu
    induction j using Key.rootCases root with
    | foreign j hj =>
        have apart : j ≠ ⟨root :: path⟩ := fun he => hj (he ▸ rfl)
        rw [content?_of_foreign hj, if_neg apart, Key.isAncestorOf_of_foreign hj]
        rfl
    | below other =>
        rw [content?_root, Node.content?_write]
        by_cases ho : other = path
        · -- The root starts as a placeholder, which has no flag.
          cases path <;> simp [ho, Node.content?_placeholder, content?, find?, Content.placeholder]
        · cases other <;>
            simp [ho, Key.isAncestorOf_root root ho, Key.isEmpty, Node.content?_placeholder,
              content?, find?]
  · have same : other = root := ht _ rfl
    subst same
    simp only [addWith, if_true] at hu
    cases hu
    induction j using Key.rootCases other with
    | foreign j hj =>
        have apart : j ≠ ⟨other :: path⟩ := fun he => hj (he ▸ rfl)
        rw [content?_of_foreign hj, content?_of_foreign hj, if_neg apart,
          Key.isAncestorOf_of_foreign hj]
        rfl
    | below tail =>
        rw [content?_root, content?_root, content?_root, Node.content?_write]
        by_cases ho : tail = path
        · simp [ho]
        · simp [ho, Key.isAncestorOf_root other ho, Key.isEmpty]

/-- Taking a subtree out takes just what goes with it, and changes no other content. -/
theorem content?_pop (ht : t.Shaped) (h : t.pop? k = some (left, found)) (j : Key)
    : left.content? j = if t.goesWith k j then none else t.content? j := by
  have there := t.isSome_pop? k
  rw [h, Option.isSome_some, eq_comm, Option.isSome_iff_exists] at there
  obtain ⟨n, hn⟩ := there
  obtain ⟨root, r, path, rfl, rfl, hd⟩ := root_of_find? hn
  simp only [pop?, ne_eq, not_true, if_false] at h
  cases path with
  | nil =>
      cases h
      induction j using Key.rootCases root with
      | foreign j hj => simp [content?_of_foreign hj]
      | below other => simp [goesWith]
  | cons segment rest =>
      obtain ⟨⟨below, out⟩, hb, he⟩ := Option.map_eq_some_iff.mp h
      cases he
      induction j using Key.rootCases root with
      | foreign j hj => simp [content?_ofRoot_of_foreign hj, content?_of_foreign hj]
      | below other =>
          rw [content?_ofRoot, goesWith_root, content?_root]
          exact Node.kept?_detach (ht root r rfl).2 hb

/-- The subtree that is taken out stands under fresh dummies for the keys above it. -/
theorem pop?_found (h : t.pop? k = some (left, found))
    : ∃ root r path n,
        t = ⟨some (root, r)⟩ ∧ k = ⟨root :: path⟩ ∧ r.descend? path = some n
        ∧ found = ⟨some (root, n.underDummies ⟨[root]⟩ path)⟩ := by
  have there := t.isSome_pop? k
  rw [h, Option.isSome_some, eq_comm, Option.isSome_iff_exists] at there
  obtain ⟨n, hn⟩ := there
  obtain ⟨root, r, path, rfl, rfl, hd⟩ := root_of_find? hn
  refine ⟨root, r, path, n, rfl, rfl, hd, ?_⟩
  simp only [pop?, ne_eq, not_true, if_false] at h
  cases path with
  | nil =>
      cases h
      cases hd
      rfl
  | cons segment rest =>
      obtain ⟨⟨below, out⟩, hb, he⟩ := Option.map_eq_some_iff.mp h
      cases he
      rw [Node.descend?_of_detach hb, Option.some.injEq] at hd
      rw [hd]

/-- At and below its key a subtree that is taken out has the nodes that it had in the tree, and
above it there are placeholders.
-/
theorem find?_found (h : t.pop? k = some (left, found)) (j : Key)
    : (k.contains j = true → found.find? j = t.find? j)
      ∧ (k.contains j = false →
          found.content? j = if j.isAncestorOf k && !j.isEmpty then some .placeholder else none) := by
  obtain ⟨root, r, path, n, rfl, rfl, hd, rfl⟩ := pop?_found h
  constructor
  · intro hj
    obtain ⟨rest, rfl⟩ := Key.contains_iff.mp hj
    have here (x : Node) : (⟨some (root, x)⟩ : HashTree).find? ((⟨root :: path⟩ : Key).below rest)
        = x.descend? (path ++ rest) :=
      find?_below rfl (path ++ rest)
    rw [here, here, Node.descend?_underDummies, Node.descend?_append, hd]
    rfl
  · intro hj
    induction j using Key.rootCases root with
    | foreign j hf =>
        rw [content?_of_foreign hf, Key.isAncestorOf_of_foreign hf]
        rfl
    | below other =>
        rw [Key.contains_root, ← Bool.not_eq_true, List.isPrefixOf_iff_prefix] at hj
        have ho : other ≠ path := fun he => hj (he ▸ List.prefix_refl _)
        rw [content?_root, Node.content?_underDummies _ _ hj, Key.isAncestorOf_root root ho]
        simp [Key.isEmpty]

/-- A content that is changed without leaving a childless dummy changes alone. -/
theorem content?_change {f : Content → Content} (hn : t.find? k = some n)
    (stays : ((f n.content).dummy && n.children.isEmpty) = false)
    : ∃ u, t.change? f k = some u
      ∧ ∀ j, u.content? j = if j = k then some (f n.content) else t.content? j := by
  have changes := t.isSome_change? f k
  rw [hn, Option.isSome_some, Option.isSome_iff_exists] at changes
  obtain ⟨u, hu⟩ := changes
  refine ⟨u, hu, fun j => ?_⟩
  obtain ⟨root, r, path, rfl, rfl, hd⟩ := root_of_find? hn
  simp only [change?, if_true] at hu
  obtain ⟨changed, hc, rfl⟩ := Option.map_eq_some_iff.mp hu
  have kept := (@Node.content?_change _ _ [] _ _ _ _ hd stays hc).1
  rw [ofRoot, kept, if_neg Bool.false_ne_true]
  induction j using Key.rootCases root with
  | foreign j hj =>
      have apart : j ≠ ⟨root :: path⟩ := fun he => hj (he ▸ rfl)
      rw [content?_of_foreign hj, content?_of_foreign hj, if_neg apart]
  | below other =>
      rw [content?_root, content?_root, (Node.content?_change hd stays hc).2]
      simp

/-- Clearing takes a node without children out, and leaves a tombstone in place of another. -/
theorem content?_clear (ht : t.Shaped) (hn : t.find? k = some n) (j : Key)
    : (t.clear k).content? j
      = if n.children.isEmpty then if t.goesWith k j then none else t.content? j
        else if j = k then some n.content.tombstone
        else t.content? j := by
  split
  · rename_i leaf
    obtain ⟨found, out⟩ := clear_of_leaf hn leaf
    exact content?_pop ht out j
  · rename_i inner
    have stays : (n.content.tombstone.dummy && n.children.isEmpty) = false := by simp [inner]
    obtain ⟨u, hu, contents⟩ := content?_change hn stays
    rw [clear, hu]
    exact contents j

/-- Flagging changes the flag of one node. -/
theorem content?_setError (ht : t.Shaped) (hn : t.find? k = some n) (error : Bool)
    : ∃ u, t.setError k error = .ok u
      ∧ ∀ j, u.content? j = if j = k then some { n.content with error } else t.content? j := by
  have stays : (n.content.dummy && n.children.isEmpty) = false := ht.isPrunable_find hn
  obtain ⟨u, hu, contents⟩ := @content?_change t k n (fun c => { c with error }) hn stays
  exact ⟨u, by rw [setError, hu], contents⟩

/-- What every operation makes of the map of contents: adding sets one content and puts placeholders
above it, taking a subtree out takes what goes with it and gives it back unchanged, clearing does the
same to a leaf and leaves a tombstone elsewhere, and flagging changes one flag.
-/
theorem contents_after (ht : t.Shaped) (k : Key)
    : (∀ root attributes metadata, t.RootedAt root → k.root? = some root →
        ∃ u, t.addWith k attributes metadata = .ok u
          ∧ ∀ j, u.content? j
              = if j = k then
                  some {
                    attributes, metadata
                    dummy := false
                    error := ((t.content? k).map Content.error).getD false
                  }
                else if j.isAncestorOf k && !j.isEmpty then (t.content? j).or (some .placeholder)
                else t.content? j)
      ∧ (t.pop? k).isSome = (t.find? k).isSome
      ∧ (∀ left found, t.pop? k = some (left, found) → ∀ j,
          left.content? j = (if t.goesWith k j then none else t.content? j)
          ∧ (k.contains j = true → found.find? j = t.find? j)
          ∧ (k.contains j = false →
              found.content? j
                = if j.isAncestorOf k && !j.isEmpty then some .placeholder else none))
      ∧ (∀ n, t.find? k = some n → ∀ j,
          (t.clear k).content? j
            = if n.children.isEmpty then if t.goesWith k j then none else t.content? j
              else if j = k then some n.content.tombstone
              else t.content? j)
      ∧ (∀ n, t.find? k = some n → ∀ error,
          ∃ u, t.setError k error = .ok u
            ∧ ∀ j, u.content? j = if j = k then some { n.content with error } else t.content? j)
      ∧ (t.find? k = none → t.clear k = t ∧ ∀ error, t.setError k error = .error (.notFound k)) := by
  refine ⟨?_, t.isSome_pop? k, ?_, ?_, ?_, ?_⟩
  · intro root attributes metadata rooted hk
    exact content?_addWith rooted hk attributes metadata
  · intro left found out j
    exact ⟨content?_pop ht out j, find?_found out j⟩
  · intro n hn j
    exact content?_clear ht hn j
  · intro n hn error
    exact content?_setError ht hn error
  · intro absent
    exact ⟨clear_of_absent absent, fun error => setError_of_absent absent error⟩

/-- The tree that holds something at `r/a/b` and at `r/c`, so that `r` and `r/a` are dummies. -/
def branching : HashTree :=
  ((∅ : HashTree).addAll [(⟨["r", "a", "b"]⟩, ∅), (⟨["r", "c"]⟩, ∅)]).1

/-- With `r/a/b` the dummy `r/a` goes, which comes back fresh above what was taken out; the dummy `r`
stays for the sake of `r/c`.
-/
theorem contents_after_branching
    : branching.Shaped
      ∧ ∃ left found, branching.pop? ⟨["r", "a", "b"]⟩ = some (left, found)
        ∧ left.content? ⟨["r", "a"]⟩ = none
        ∧ left.content? ⟨["r"]⟩ = some .placeholder
        ∧ found.content? ⟨["r", "a"]⟩ = some .placeholder := by
  have shaped : branching.Shaped := (Built.empty.included _).wellFormed.shaped
  have out : (branching.pop? ⟨["r", "a", "b"]⟩).isSome = true := by decide +kernel
  obtain ⟨⟨left, found⟩, out⟩ := Option.isSome_iff_exists.mp out
  obtain ⟨-, -, popped, -⟩ := contents_after shaped ⟨["r", "a", "b"]⟩
  have leaves := popped left found out
  have goes : branching.goesWith ⟨["r", "a", "b"]⟩ ⟨["r", "a"]⟩ = true := by decide +kernel
  have stays : branching.goesWith ⟨["r", "a", "b"]⟩ ⟨["r"]⟩ = false := by decide +kernel
  refine ⟨shaped, left, found, out, ?_, ?_, ?_⟩
  · rw [(leaves _).1, goes, if_pos rfl]
  · rw [(leaves _).1, stays, if_neg Bool.false_ne_true]
    rfl
  · rw [(leaves _).2.2 rfl]
    rfl

end HashTree

end Concord
