import Concord.Proofs.HashTree.ComparisonKeys
import Concord.Proofs.HashTree.LiveMap

/-! Trees that are edited where they are. An edit goes down through children that stay in their
places, so what it has done to a node stays done where it finds out further down that it fails.
Main statement: an edit that fails leaves the whole tree as it was, and edits come to the same as
the operations that give a new tree.
-/

namespace Concord

-----------------------------------------------------------------------------------------
-- A child in the place of another
-----------------------------------------------------------------------------------------

namespace Forest

/-- Puts another child in the place of the one under a segment, if there is one. -/
def replace (segment : String) (node : Node) : Forest → Forest
  | nil => nil
  | cons s child rest =>
      if s = segment then cons s node rest else cons s child (rest.replace segment node)

variable {f : Forest} {segment : String} {n child : Node}

theorem replace_self (h : f.find? segment = some child) : f.replace segment child = f := by
  induction f using listInduction with
  | nil => cases h
  | cons s c rest ih =>
      rw [find?] at h
      rw [replace]
      split at h
      · rename_i here
        cases h
        rw [if_pos here]
      · rename_i apart
        rw [if_neg apart, ih h]

theorem find?_replace (h : f.find? segment = some child) (n : Node)
    : (f.replace segment n).find? segment = some n := by
  induction f using listInduction with
  | nil => cases h
  | cons s c rest ih =>
      rw [find?] at h
      rw [replace]
      split at h
      · rename_i here
        rw [if_pos here, find?, if_pos here]
      · rename_i apart
        rw [if_neg apart, find?, if_neg apart, ih h]

theorem erase_replace (f : Forest) (segment : String) (n : Node)
    : (f.replace segment n).erase segment = f.erase segment := by
  induction f using listInduction with
  | nil => rfl
  | cons s c rest ih =>
      rw [replace]
      by_cases here : s = segment
      · rw [if_pos here, erase, erase, if_pos here, if_pos here]
      · rw [if_neg here, erase, erase, if_neg here, if_neg here, ih]

theorem replace_insert (f : Forest) (segment : String) (n child : Node)
    : (f.insert segment child).replace segment n = f.insert segment n := by
  induction f using listInduction with
  | nil => simp [insert, replace]
  | cons s c rest ih =>
      rw [insert, insert]
      cases hc : compare segment s with
      | lt => simp [replace]
      | eq => simp [replace]
      | gt =>
          have apart : s ≠ segment := by
            rintro rfl
            simp [Std.ReflCmp.compare_self] at hc
          simp [replace, apart, ih]

/-- Where children are in order, a child goes to the place of the one that is there. -/
theorem Ordered.insert_eq_replace (ordered : f.Ordered) (h : f.find? segment = some child)
    (n : Node)
    : f.insert segment n = f.replace segment n := by
  induction f using listInduction with
  | nil => cases h
  | cons s c rest ih =>
      rw [find?] at h
      rw [Forest.insert, replace]
      split at h
      · rename_i here
        have same : compare segment segment = .eq := Std.ReflCmp.compare_self
        rw [here, if_pos rfl, same]
      · rename_i apart
        have after : compare s segment = .lt :=
          (ordered_cons.mp ordered).1 segment (find?_isSome_iff.mp (by simp [h]))
        rw [if_neg apart, Std.OrientedCmp.gt_of_lt after, ih ordered.tail h]

end Forest

/-- Other children, while both hashes stay as they are for the time being. -/
def Node.putChildren (n : Node) (children : Forest) : Node :=
  mk n.content n.partialHash n.fullHash children

@[simp]
theorem Node.children_putChildren (n : Node) (f : Forest) : (n.putChildren f).children = f :=
  rfl

theorem Node.putChildren_self (n : Node) : n.putChildren n.children = n := by
  cases n
  rfl

namespace InPlace

-----------------------------------------------------------------------------------------
-- Edits of nodes
-----------------------------------------------------------------------------------------

/-- Computes the hash of the subtree anew. -/
def refresh : StateM Node Unit :=
  modify fun n => n.withChildren n.children

/-- Takes the child under a segment away if it is a dummy without children. -/
def prune (segment : String) : StateM Node Unit :=
  modify fun n =>
    if (n.children.find? segment).any Node.isPrunable then
      n.putChildren (n.children.erase segment)
    else n

/-- Puts a dummy under a segment if nothing is there. -/
def supply (key : Key) (segment : String) : StateM Node Unit :=
  modify fun n =>
    if (n.children.find? segment).isNone then
      n.putChildren (n.children.insert segment (.placeholder (key.child segment)))
    else n

/-- Takes the child under a segment out. -/
def takeOut (segment : String) : StateM Node (Option Node) := do
  let n ← get
  let some child := n.children.find? segment | return none
  set (n.putChildren (n.children.erase segment))
  return some child

/-- Edits the child under a segment where it is. Without a child the edit fails, and what it does to
the child stays even if it fails further down. -/
def within {α : Type} (segment : String) (edit : StateM Node (Option α))
    : StateM Node (Option α) := do
  let n ← get
  let some child := n.children.find? segment | return none
  let (result, child) := edit.run child
  set (n.putChildren (n.children.replace segment child))
  return result

/-- Edits the child under a segment where it is; where that succeeds `after` is done, and the hash
of the subtree follows. -/
def below {α : Type} (segment : String) (edit : StateM Node (Option α)) (after : StateM Node Unit)
    : StateM Node (Option α) := do
  let some result ← within segment edit | return none
  after
  refresh
  return some result

/-- Takes out the node at the end of the remaining segments. -/
def detach : List String → StateM Node (Option Node)
  | [] => return none
  | [segment] => do
      let some found ← takeOut segment | return none
      refresh
      return some found
  | segment :: next :: rest => below segment (detach (next :: rest)) (prune segment)

/-- Changes the content of the node at the end of the remaining segments. -/
def change (f : Content → Content) : Key → List String → StateM Node (Option Unit)
  | key, [] => do
      modify fun n => n.withContent key (f n.content)
      return some ()
  | key, segment :: rest => below segment (change f (key.child segment) rest) (prune segment)

/-- Writes at the end of the remaining segments, and puts dummies where nodes are missing. -/
def write (attributes : Attributes) (metadata : Metadata)
    : Key → List String → StateM Node (Option Unit)
  | key, [] => do
      modify fun n => n.withContent key (n.content.write attributes metadata)
      return some ()
  | key, segment :: rest => do
      supply key segment
      below segment (write attributes metadata (key.child segment) rest) (pure ())

/-- What an edit comes to: what it leaves and its result, or that it failed and left all as it
was. -/
def outcome {σ α : Type} (s : σ) : Option (σ × α) → Option α × σ
  | some (left, result) => (some result, left)
  | none => (none, s)

section

variable {α : Type} {edit : StateM Node (Option α)} {n child left : Node} {segment : String}
  {key : Key} {result : Option α}

theorem run_within_of_none (h : n.children.find? segment = none)
    : (within segment edit).run n = (none, n) := by
  simp [within, h]
  rfl

theorem run_within_of_some (h : n.children.find? segment = some child)
    (edited : edit.run child = (result, left))
    : (within segment edit).run n
      = (result, n.putChildren (n.children.replace segment left)) := by
  simp [within, h, edited]
  rfl

/-- The child that was edited is kept or pruned where it is. -/
theorem run_prune (ordered : n.children.Ordered) (h : n.children.find? segment = some child)
    (left : Node)
    : (prune segment).run (n.putChildren (n.children.replace segment left))
      = ((), n.putChildren
          (if left.isPrunable then n.children.erase segment
            else n.children.insert segment left)) := by
  have there := Forest.find?_replace h left
  have insert := ordered.insert_eq_replace h left
  cases kept : left.isPrunable with
  | true =>
      simp [prune, there, kept, Forest.erase_replace]
      rfl
  | false =>
      simp [prune, there, kept, insert]
      rfl

theorem run_below_of_some {after : StateM Node Unit} {a : α} {f : Forest}
    (h : n.children.find? segment = some child) (edited : edit.run child = (some a, left))
    (done : after.run (n.putChildren (n.children.replace segment left)) = ((), n.putChildren f))
    : (below segment edit after).run n = (some a, n.withChildren f) := by
  rw [below, StateT.run_bind, run_within_of_some h edited]
  change ((do after; refresh; return some a).run _ : Option α × Node) = _
  rw [StateT.run_bind, done]
  rfl

/-- An edit of the child that comes to something or leaves the child as it was does so to the node,
too: where it fails, the child that was gone into is back in its place. -/
theorem run_below (ordered : n.children.Ordered) {found : Node → Option (Node × α)}
    (edited : ∀ child, n.children.find? segment = some child →
      edit.run child = outcome child (found child))
    : (below segment edit (prune segment)).run n
      = outcome n ((n.children.find? segment).bind fun child =>
          (found child).map fun f => (n.keepOrPrune segment f.1, f.2)) := by
  cases there : n.children.find? segment with
  | none =>
      rw [below, StateT.run_bind, run_within_of_none there]
      rfl
  | some child =>
      have gone := edited child there
      rw [Option.bind_some]
      cases h : found child with
      | none =>
          rw [h] at gone
          rw [below, StateT.run_bind, run_within_of_some there gone, Forest.replace_self there,
            Node.putChildren_self]
          rfl
      | some f =>
          rw [h] at gone
          exact run_below_of_some there gone (run_prune ordered there f.1)

end

variable {n : Node} {key : Key}

/-- Taking a node out where it is comes to what `detach?` gives, by induction on the path. -/
theorem run_detach (shaped : n.AllShaped) (path : List String)
    : (detach path).run n = outcome n (n.detach? path) := by
  induction path generalizing n with
  | nil => rfl
  | cons segment rest ih =>
      cases rest with
      | nil =>
          rw [detach, Node.detach?]
          cases there : n.children.find? segment with
          | none =>
              simp [takeOut, there, outcome]
              rfl
          | some child =>
              simp [takeOut, there, outcome, refresh]
              rfl
      | cons next rest =>
          rw [detach, Node.detach?]
          exact run_below shaped.top.ordered fun child there => ih (shaped.child there)

/-- Changing a content where it is comes to what `change?` gives, by induction on the path. -/
theorem run_change (f : Content → Content) (key : Key) (shaped : n.AllShaped) (path : List String)
    : (change f key path).run n = outcome n ((n.change? f key path).map (·, ())) := by
  induction path generalizing n key with
  | nil => rfl
  | cons segment rest ih =>
      rw [change, Node.change?]
      rw [run_below shaped.top.ordered fun child there =>
        ih (key.child segment) (shaped.child there)]
      simp [Option.map_bind, Function.comp_def]

/-- Writing never fails and comes to what `write` gives, by induction on the path. -/
theorem run_write (attributes : Attributes) (metadata : Metadata) (key : Key)
    (shaped : n.AllShaped) (path : List String)
    : (write attributes metadata key path).run n
      = outcome n (some (n.write attributes metadata key path, ())) := by
  induction path generalizing n key with
  | nil => rfl
  | cons segment rest ih =>
      rw [write, Node.write, StateT.run_bind]
      cases there : n.children.find? segment with
      | none =>
          have supplied : (supply key segment).run n
              = ((), n.putChildren
                  (n.children.insert segment (.placeholder (key.child segment)))) := by
            simp [supply, there]
            rfl
          have fresh := ih (key.child segment)
            (Node.throughout_placeholder Node.stable_shaped.toGrown (key.child segment))
          rw [supplied]
          refine run_below_of_some (Forest.find?_insert_self _ _ _) fresh ?_
          rw [Node.children_putChildren, Forest.replace_insert]
          rfl
      | some child =>
          have supplied : (supply key segment).run n = ((), n) := by
            simp [supply, there]
            rfl
          rw [supplied]
          refine run_below_of_some there (ih (key.child segment) (shaped.child there)) ?_
          rw [← shaped.top.ordered.insert_eq_replace there]
          rfl

-----------------------------------------------------------------------------------------
-- Edits of trees
-----------------------------------------------------------------------------------------

/-- Edits the root where it is. -/
def atRoot {α : Type} (edit : StateM Node (Option α)) : StateM HashTree (Option α) := do
  let t ← get
  let some (root, n) := t.root | return none
  let (result, n) := edit.run n
  set (⟨some (root, n)⟩ : HashTree)
  return result

/-- Takes the root away if it is a dummy without children. -/
def pruneRoot : StateM HashTree Unit :=
  modify fun t =>
    match t.root with
    | some (root, n) => HashTree.ofRoot root n
    | none => t

/-- Takes the subtree at a key out. -/
def pop (key : Key) : StateM HashTree (Option HashTree) := do
  let t ← get
  match t.root, key.segments with
  | some (root, _), segment :: rest =>
      if segment ≠ root then return none
      else
        match rest with
        | [] => do
            set (∅ : HashTree)
            return some t
        | next :: rest => do
            let some found ← atRoot (detach (next :: rest)) | return none
            pruneRoot
            return some ⟨some (root, found.underDummies ⟨[root]⟩ (next :: rest))⟩
  | _, _ => return none

/-- Takes the subtree at a key out; a key without a node is an error. -/
def remove (key : Key) : StateM HashTree (Except TreeError HashTree) := do
  let some found ← pop key | return .error (.notFound key)
  return .ok found

/-- Changes the content at a key. -/
def mutate (f : Content → Content) (key : Key) : StateM HashTree (Option Unit) := do
  let t ← get
  match t.root, key.segments with
  | some (root, _), segment :: rest =>
      if segment ≠ root then return none
      else
        let some _ ← atRoot (change f ⟨[root]⟩ rest) | return none
        pruneRoot
        return some ()
  | _, _ => return none

/-- Leaves a tombstone at a key. -/
def clear (key : Key) : StateM HashTree Unit := do
  let _ ← mutate Content.tombstone key

/-- Flags or unflags the subtree at a key. -/
def setError (key : Key) (error : Bool) : StateM HashTree (Except TreeError Unit) := do
  let some _ ← mutate (fun c => { c with error }) key | return .error (.notFound key)
  return .ok ()

/-- Writes at a key. -/
def add (key : Key) (attributes : Attributes) (metadata : Metadata)
    : StateM HashTree (Except TreeError Unit) := do
  let t ← get
  match key.segments, t.root with
  | [], _ => return .ok ()
  | segment :: rest, none =>
      set (⟨some (segment, .placeholder ⟨[segment]⟩)⟩ : HashTree)
      let _ ← atRoot (write attributes metadata ⟨[segment]⟩ rest)
      return .ok ()
  | segment :: rest, some (root, _) =>
      if root ≠ segment then return .error (.inconsistentRoot root key)
      else
        let _ ← atRoot (write attributes metadata ⟨[root]⟩ rest)
        return .ok ()

/-- Adds entries in order up to the first one that fails. -/
def addAll : List (Key × Attributes) → StateM HashTree (Except TreeError Unit)
  | [] => return .ok ()
  | (key, attributes) :: rest => do
      match ← add key attributes ∅ with
      | .error e => return .error e
      | .ok _ => addAll rest

/-- What an edit comes to that may end in an error, which leaves all as it was. -/
def verdict {σ α : Type} (s : σ) : Except TreeError (σ × α) → Except TreeError α × σ
  | .ok (left, result) => (.ok result, left)
  | .error e => (.error e, s)

variable {t : HashTree}

theorem run_atRoot {α : Type} {edit : StateM Node (Option α)} {root : String} {n : Node}
    {found : Option (Node × α)} (h : t.root = some (root, n))
    (edited : edit.run n = outcome n found)
    : (atRoot edit).run t
      = outcome t (found.map fun f => (⟨some (root, f.1)⟩, f.2)) := by
  obtain ⟨_⟩ := t
  cases h
  cases found with
  | none =>
      simp [atRoot, edited, outcome]
      rfl
  | some f =>
      simp [atRoot, edited, outcome]
      rfl

theorem run_pop (shaped : t.Shaped) (key : Key) : (pop key).run t = outcome t (t.pop? key) := by
  obtain ⟨_ | ⟨root, n⟩⟩ := t
  · rfl
  obtain ⟨_ | ⟨segment, rest⟩⟩ := key
  · rfl
  rw [pop, HashTree.pop?]
  by_cases here : segment = root
  · subst here
    cases rest with
    | nil => simp [outcome]; rfl
    | cons next rest =>
        have gone := run_atRoot (t := ⟨some (segment, n)⟩) rfl
          (run_detach (shaped segment n rfl).2 (next :: rest))
        cases found : n.detach? (next :: rest) with
        | none =>
            rw [found] at gone
            simp [outcome, gone, found]
            rfl
        | some f =>
            rw [found] at gone
            simp [outcome, gone, found, pruneRoot]
            rfl
  · simp [here, outcome]
    rfl

theorem run_mutate (shaped : t.Shaped) (f : Content → Content) (key : Key)
    : (mutate f key).run t = outcome t ((t.change? f key).map (·, ())) := by
  obtain ⟨_ | ⟨root, n⟩⟩ := t
  · rfl
  obtain ⟨_ | ⟨segment, rest⟩⟩ := key
  · rfl
  rw [mutate, HashTree.change?]
  by_cases here : segment = root
  · subst here
    have gone := run_atRoot (t := ⟨some (segment, n)⟩) rfl
      (run_change f ⟨[segment]⟩ (shaped segment n rfl).2 rest)
    cases found : n.change? f ⟨[segment]⟩ rest with
    | none =>
        rw [found] at gone
        simp [outcome, gone, found]
        rfl
    | some changed =>
        rw [found] at gone
        simp [outcome, gone, found, pruneRoot]
        rfl
  · simp [here, outcome]
    rfl

theorem run_remove (shaped : t.Shaped) (key : Key)
    : (remove key).run t = verdict t (t.remove key) := by
  rw [remove, StateT.run_bind, run_pop shaped, HashTree.remove]
  cases t.pop? key <;> rfl

theorem run_clear (shaped : t.Shaped) (key : Key) : (clear key).run t = ((), t.clear key) := by
  rw [clear, StateT.run_bind, run_mutate shaped, HashTree.clear]
  cases t.change? Content.tombstone key <;> rfl

theorem run_setError (shaped : t.Shaped) (key : Key) (error : Bool)
    : (setError key error).run t = verdict t ((t.setError key error).map (·, ())) := by
  rw [setError, StateT.run_bind, run_mutate shaped, HashTree.setError]
  cases t.change? (fun c => { c with error }) key <;> rfl

theorem run_add (shaped : t.Shaped) (key : Key) (attributes : Attributes) (metadata : Metadata)
    : (add key attributes metadata).run t
      = verdict t ((t.addWith key attributes metadata).map (·, ())) := by
  obtain ⟨_ | ⟨segment, rest⟩⟩ := key
  · rfl
  obtain ⟨_ | ⟨root, n⟩⟩ := t
  · have fresh := Node.throughout_placeholder Node.stable_shaped.toGrown ⟨[segment]⟩
    have gone := run_atRoot (t := ⟨some (segment, .placeholder ⟨[segment]⟩)⟩)
      rfl (run_write attributes metadata ⟨[segment]⟩ fresh rest)
    simp [add, HashTree.addWith, gone, outcome, verdict]
    rfl
  · by_cases here : root = segment
    · subst here
      have gone := run_atRoot (t := ⟨some (root, n)⟩) rfl
        (run_write attributes metadata ⟨[root]⟩ (shaped root n rfl).2 rest)
      simp [add, HashTree.addWith, gone, outcome, verdict]
      rfl
    · simp [add, HashTree.addWith, here, verdict]
      rfl

/-- By list induction; what was added stays in shape. -/
theorem run_addAll (shaped : t.Shaped) (items : List (Key × Attributes))
    : (addAll items).run t = ((t.addAll items).2, (t.addAll items).1) := by
  induction items generalizing t with
  | nil => rfl
  | cons item rest ih =>
      rw [addAll, StateT.run_bind, run_add shaped, HashTree.addAll, HashTree.add]
      cases added : t.addWith item.1 item.2 ∅ with
      | error e => rfl
      | ok u => exact ih (shaped.addWith Node.stable_shaped.toGrown added)

-----------------------------------------------------------------------------------------
-- Edits that fail
-----------------------------------------------------------------------------------------

/-- Edits of a tree come to what the operations give that make a new tree. -/
structure Performed (t : HashTree) (key : Key) : Prop where
  pop : (pop key).run t = outcome t (t.pop? key)
  remove : (remove key).run t = verdict t (t.remove key)
  clear : (clear key).run t = ((), t.clear key)
  setError
    : ∀ error, (setError key error).run t = verdict t ((t.setError key error).map (·, ()))
  add
    : ∀ attributes metadata,
        (add key attributes metadata).run t
          = verdict t ((t.addWith key attributes metadata).map (·, ()))
  addAll : ∀ items, (addAll items).run t = ((t.addAll items).2, (t.addAll items).1)

theorem performed (shaped : t.Shaped) (key : Key) : Performed t key where
  pop := run_pop shaped key
  remove := run_remove shaped key
  clear := run_clear shaped key
  setError := run_setError shaped key
  add := run_add shaped key
  addAll := run_addAll shaped

theorem outcome_eq_none_iff {σ α : Type} {s u : σ} {found : Option (σ × α)}
    : outcome s found = (none, u) ↔ found = none ∧ u = s := by
  cases found <;> simp [outcome, eq_comm]

theorem verdict_eq_error_iff {σ α : Type} {s u : σ} {found : Except TreeError (σ × α)}
    {e : TreeError}
    : verdict s found = (.error e, u) ↔ found = .error e ∧ u = s := by
  cases found <;> simp [verdict, eq_comm]

theorem map_eq_error_iff {α β : Type} {f : α → β} {found : Except TreeError α} {e : TreeError}
    : found.map f = .error e ↔ found = .error e := by
  cases found <;> simp [Except.map]

end InPlace

namespace HashTree

variable {t u : HashTree} {key : Key} {e : TreeError}

theorem pop?_eq_none_iff : t.pop? key = none ↔ t.find? key = none := by
  rw [← Option.not_isSome_iff_eq_none, isSome_pop?, Option.not_isSome_iff_eq_none]

theorem change?_eq_none_iff {f : Content → Content}
    : t.change? f key = none ↔ t.find? key = none := by
  rw [← Option.not_isSome_iff_eq_none, isSome_change?, Option.not_isSome_iff_eq_none]

theorem remove_eq_error_iff
    : t.remove key = .error e ↔ t.find? key = none ∧ e = .notFound key := by
  rw [← pop?_eq_none_iff, remove]
  cases t.pop? key <;> simp [eq_comm]

theorem setError_eq_error_iff {error : Bool}
    : t.setError key error = .error e ↔ t.find? key = none ∧ e = .notFound key := by
  rw [← change?_eq_none_iff, setError]
  cases t.change? (fun c => { c with error }) key <;> simp [eq_comm]

/-- Only a key of another root is refused. -/
theorem addWith_eq_error_iff {attributes : Attributes} {metadata : Metadata}
    : t.addWith key attributes metadata = .error e
      ↔ ∃ root n segment rest, t.root = some (root, n) ∧ key.segments = segment :: rest
          ∧ segment ≠ root ∧ e = .inconsistentRoot root key := by
  rw [addWith]
  cases key.segments with
  | nil => simp
  | cons segment rest =>
      obtain ⟨_ | ⟨root, n⟩⟩ := t
      · simp
      · by_cases here : root = segment
        · subst here
          simp
        · simp [here, Ne.symm here, eq_comm]

/-- Adding stops at the first entry that is refused and leaves what the entries before it give, by
list induction. -/
theorem addAll_eq_error_iff {items : List (Key × Attributes)}
    : t.addAll items = (u, .error e)
      ↔ ∃ before item after, items = before ++ item :: after ∧ t.addAll before = (u, .ok ())
          ∧ u.add item.1 item.2 = .error e := by
  induction items generalizing t with
  | nil => simp [addAll]
  | cons item rest ih =>
      rw [addAll]
      constructor
      · intro h
        split at h
        · rename_i v added
          obtain ⟨before, stop, after, rfl, taken, refused⟩ := ih.mp h
          exact ⟨item :: before, stop, after, rfl, by rw [addAll, added]; exact taken, refused⟩
        · rename_i refused
          cases h
          exact ⟨[], item, rest, rfl, rfl, refused⟩
      · rintro ⟨before, stop, after, split, taken, refused⟩
        cases before with
        | nil =>
            obtain ⟨rfl, rfl⟩ := List.cons.inj split
            cases taken
            rw [refused]
        | cons first before =>
            obtain ⟨rfl, rfl⟩ := List.cons.inj split
            rw [addAll] at taken
            split at taken
            · exact ih.mpr ⟨before, stop, after, rfl, taken, refused⟩
            · cases taken

end HashTree

namespace InPlace

variable {t : HashTree}

/-- An edit that fails leaves the whole tree as it was: taking out, removing and flagging fail just
where there is no node, clearing does nothing there, adding fails just for the key of another root,
and adding several entries leaves what was added before the first one that fails. In all cases the
edits come to the same as the operations that give a new tree.
-/
theorem failed_edits_leave_all (shaped : t.Shaped) (key : Key)
    : Performed t key
      ∧ (∀ u, (pop key).run t = (none, u) ↔ t.find? key = none ∧ u = t)
      ∧ (∀ e u, (remove key).run t = (.error e, u)
          ↔ (t.find? key = none ∧ e = .notFound key) ∧ u = t)
      ∧ (t.find? key = none → (clear key).run t = ((), t))
      ∧ (∀ error e u, (setError key error).run t = (.error e, u)
          ↔ (t.find? key = none ∧ e = .notFound key) ∧ u = t)
      ∧ (∀ attributes metadata e u, (add key attributes metadata).run t = (.error e, u)
          ↔ (∃ root n segment rest, t.root = some (root, n) ∧ key.segments = segment :: rest
              ∧ segment ≠ root ∧ e = .inconsistentRoot root key) ∧ u = t)
      ∧ ∀ items e u, (addAll items).run t = (.error e, u)
          ↔ ∃ before item after, items = before ++ item :: after
              ∧ (addAll before).run t = (.ok (), u)
              ∧ (add item.1 item.2 ∅).run u = (.error e, u) := by
  have performed := performed shaped key
  refine ⟨performed, ?_, ?_, ?_, ?_, ?_, ?_⟩
  · intro u
    rw [performed.pop, outcome_eq_none_iff, HashTree.pop?_eq_none_iff]
  · intro e u
    rw [performed.remove, verdict_eq_error_iff, HashTree.remove_eq_error_iff]
  · intro absent
    rw [performed.clear, HashTree.clear_of_absent absent]
  · intro error e u
    rw [performed.setError, verdict_eq_error_iff, map_eq_error_iff, HashTree.setError_eq_error_iff]
  · intro attributes metadata e u
    rw [performed.add, verdict_eq_error_iff, map_eq_error_iff, HashTree.addWith_eq_error_iff]
  · intro items e u
    have swapped (items : List (Key × Attributes)) (result : Except TreeError Unit)
        : (addAll items).run t = (result, u) ↔ t.addAll items = (u, result) := by
      rw [performed.addAll, Prod.mk.injEq, and_comm, ← Prod.mk.injEq]
    rw [swapped, HashTree.addAll_eq_error_iff]
    refine exists_congr fun before => exists_congr fun item => exists_congr fun after =>
      and_congr_right fun _ => ?_
    rw [swapped]
    refine and_congr_right fun taken => ?_
    have after : u.Shaped := by
      have kept := HashTree.Throughout.addAll Node.stable_shaped.toGrown shaped before
      rwa [taken] at kept
    rw [run_add after, verdict_eq_error_iff, map_eq_error_iff]
    simp [HashTree.add]

/-- A tree whose only entry lies below its root. -/
def nested : HashTree :=
  ((∅ : HashTree).addAll [(⟨["r", "a"]⟩, ∅)]).1

/-- Below that entry and in another root there is nothing to take out or to flag, and adding stops
at the entry of another root. -/
theorem failed_edits_leave_all_nested
    : nested.Shaped
      ∧ (pop ⟨["r", "a", "b"]⟩).run nested = (none, nested)
      ∧ (setError ⟨["s"]⟩ true).run nested = (.error (.notFound ⟨["s"]⟩), nested)
      ∧ (add ⟨["s"]⟩ ∅ ∅).run nested = (.error (.inconsistentRoot "r" ⟨["s"]⟩), nested)
      ∧ (addAll [(⟨["r"]⟩, ∅), (⟨["s"]⟩, ∅), (⟨["r", "c"]⟩, ∅)]).run nested
        = (.error (.inconsistentRoot "r" ⟨["s"]⟩), (nested.addAll [(⟨["r"]⟩, ∅)]).1) := by
  have shaped : nested.Shaped :=
    HashTree.Throughout.addAll Node.stable_shaped.toGrown HashTree.throughout_empty _
  obtain ⟨-, pop, -⟩ := failed_edits_leave_all shaped ⟨["r", "a", "b"]⟩
  obtain ⟨performed, -, -, -, setError, add, addAll⟩ := failed_edits_leave_all shaped ⟨["s"]⟩
  refine ⟨shaped, (pop _).mpr ⟨rfl, rfl⟩, (setError _ _ _).mpr ⟨⟨rfl, rfl⟩, rfl⟩, ?_, ?_⟩
  · exact (add _ _ _ _).mpr ⟨⟨"r", _, "s", [], rfl, rfl, by decide, rfl⟩, rfl⟩
  · exact (addAll _ _ _).mpr ⟨[(⟨["r"]⟩, ∅)], (⟨["s"]⟩, ∅), [(⟨["r", "c"]⟩, ∅)], rfl,
      performed.addAll _, rfl⟩

end InPlace

end Concord
