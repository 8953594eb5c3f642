import Concord.Command.Answer
import Concord.Proofs.Document.StateFiles
import Mathlib.Data.List.Basic

/-! The differences of two state files, from the files to the text that is printed. Trees and their
hashes only stand between: what is printed is told by the last object at each key. Main statement:
the command succeeds, and its text lists by root just the keys whose contents of the kind differ.
-/

namespace Concord

theorem Wire.plain_diff (delta : TreeDiff) : (diff delta).Plain := by
  refine Json.plain_record fun m hm => ?_
  simp only [List.mem_cons, List.not_mem_nil, or_false] at hm
  rcases hm with rfl | rfl
  · exact Json.plain_ofList fun k _ => plain_key k
  · exact Json.plain_ofList fun k _ => plain_key k

namespace StateFile

variable {d o : StateFile} {kind : TreeKind} {root : String}

-----------------------------------------------------------------------------------------
-- Trees by root
-----------------------------------------------------------------------------------------

/-- A root that no object has shows nothing. -/
theorem projected_of_not_mem_roots {k : Key} (absent : root ∉ d.roots) (here : k.root? = some root)
    : d.projected kind k = none := by
  have none : d.last? k = none := by
    by_contra held
    exact absent (mem_roots.mpr ⟨k, held, here⟩)
  rw [projected, none, Option.bind_none]

/-- A root that no object has comes with an empty tree. -/
theorem tree_of_not_mem_roots (absent : root ∉ d.roots) : d.backend.tree root kind = ∅ := by
  have blank : ({ name := "state" } : Memory).load root kind = .ok ∅ :=
    Memory.load_of_no_errors rfl
  have same (k : Key)
      : d.backend.projected root kind k
        = ({ name := "state" } : Memory).projected root kind k := by
    rw [projected_backend, Memory.projected]
    by_cases here : k.root? = some root
    · rw [if_pos here, if_pos here, projected_of_not_mem_roots absent here]
      simp
    · rw [if_neg here, if_neg here]
  rw [Memory.tree, Memory.load_congr (m := { name := "state" }) rfl (errors_backend d) same, blank]
  rfl

/-- What is looked up for a root is the backend's tree, also where the root is missing. -/
theorem lookup_trees (d : StateFile) (kind : TreeKind) (root : String)
    : ((d.roots.map fun root => (root, d.backend.tree root kind)).lookup root).getD ∅
      = d.backend.tree root kind := by
  by_cases present : root ∈ d.roots
  · rw [List.lookup_graph _ present, Option.getD_some]
  · have missing
        : (d.roots.map fun root => (root, d.backend.tree root kind)).lookup root = none := by
      rw [List.lookup_eq_none_iff]
      intro entry member
      obtain ⟨other, held, rfl⟩ := List.mem_map.mp member
      exact bne_iff_ne.mpr (ne_of_mem_of_not_mem held present).symm
    rw [missing, Option.getD_none, tree_of_not_mem_roots present]

theorem mem_rootsOfBoth : root ∈ d.rootsOfBoth o ↔ root ∈ d.roots ∨ root ∈ o.roots := by
  simp [rootsOfBoth]

theorem pairwise_rootsOfBoth (d o : StateFile)
    : (d.rootsOfBoth o).Pairwise fun a b => compare a b = .lt :=
  Std.ExtTreeSet.ordered_toList

-----------------------------------------------------------------------------------------
-- The difference at a root
-----------------------------------------------------------------------------------------

/-- What has to be done at a root so that the second state file becomes the first. -/
def delta (d o : StateFile) (kind : TreeKind) (root : String) : TreeDiff :=
  (d.backend.tree root kind).diff (o.backend.tree root kind)

/-- The trees of a kind are told apart by their hashes at every root. -/
def Apart (d o : StateFile) (kind : TreeKind) : Prop :=
  ∀ root ∈ d.rootsOfBoth o,
    (d.backend.tree root kind).Distinguishable (o.backend.tree root kind)

/-- What the difference at a root lists: the keys of that root whose contents differ. -/
structure Lists (d o : StateFile) (kind : TreeKind) (root : String) (delta : TreeDiff) : Prop where
  ordered : delta.add.Pairwise fun a b => compare a b = .lt
  add : ∀ k, k ∈ delta.add ↔ k.root? = some root
    ∧ d.projected kind k ≠ none ∧ d.projected kind k ≠ o.projected kind k
  once : delta.remove.Nodup
  remove : ∀ k, k ∈ delta.remove ↔ k.root? = some root
    ∧ o.projected kind k ≠ none ∧ d.projected kind k = none

theorem lists_delta
    (apart : (d.backend.tree root kind).Distinguishable (o.backend.tree root kind))
    : d.Lists o kind root (d.delta o kind root) := by
  obtain ⟨mine, plain, live⟩ := Memory.tree_spec (errors_backend d) root kind
  obtain ⟨theirs, plain', live'⟩ := Memory.tree_spec (errors_backend o) root kind
  obtain ⟨ordered, once⟩ := HashTree.ordered_diff mine.wellFormed theirs.wellFormed apart
  have members (k : Key) := HashTree.mem_diff_of_unflagged mine.wellFormed theirs.wellFormed apart
    plain plain' k
  simp only [live, live', projected_backend] at members
  refine ⟨ordered, fun k => (members k).1.trans ?_, once, fun k => (members k).2.trans ?_⟩
  · by_cases here : k.root? = some root
    · cases d.projected kind k <;> simp [here, eq_comm]
    · simp [here]
  · by_cases here : k.root? = some root
    · simp [here, and_comm]
    · simp [here]

/-- There is something to do at a root just when the content at one of its keys differs. -/
theorem Lists.isEmpty_iff {delta : TreeDiff} (h : d.Lists o kind root delta)
    : delta.isEmpty = false
      ↔ ∃ k : Key, k.root? = some root ∧ d.projected kind k ≠ o.projected kind k := by
  have listed : delta.isEmpty = false ↔ ∃ k, k ∈ delta.add ∨ k ∈ delta.remove := by
    rw [TreeDiff.isEmpty, Bool.and_eq_false_iff, List.isEmpty_eq_false_iff_exists_mem,
      List.isEmpty_eq_false_iff_exists_mem, exists_or]
  rw [listed]
  refine exists_congr fun k => ?_
  rw [h.add, h.remove, ← and_or_left]
  refine and_congr_right fun _ => ?_
  cases d.projected kind k <;> cases o.projected kind k <;> simp

/-- The entries for the roots of two state files that have something to do. -/
def entries (d o : StateFile) (kind : TreeKind) : List (String × TreeDiff) :=
  ((d.rootsOfBoth o).map fun root => (root, d.delta o kind root)).filter fun e => !e.2.isEmpty

theorem differences_eq_entries (d o : StateFile) (kind : TreeKind)
    : differences (d.rootsOfBoth o) (d.roots.map fun root => (root, d.backend.tree root kind))
        (o.roots.map fun root => (root, o.backend.tree root kind))
      = d.entries o kind := by
  simp only [differences, lookup_trees]
  rfl

theorem pairwise_entries (d o : StateFile) (kind : TreeKind)
    : (d.entries o kind).Pairwise fun a b => compare a.1 b.1 = .lt := by
  refine List.Pairwise.filter _ ?_
  rw [List.pairwise_map]
  exact pairwise_rootsOfBoth d o

theorem mem_entries {delta : TreeDiff}
    : (root, delta) ∈ d.entries o kind
      ↔ root ∈ d.rootsOfBoth o ∧ d.delta o kind root = delta ∧ delta.isEmpty = false := by
  simp only [entries, List.mem_filter, List.mem_map, Prod.mk.injEq, Bool.not_eq_true']
  constructor
  · rintro ⟨⟨_, member, rfl, rfl⟩, differ⟩
    exact ⟨member, rfl, differ⟩
  · rintro ⟨member, rfl, differ⟩
    exact ⟨⟨root, member, rfl, rfl⟩, differ⟩

end StateFile

namespace Command

open StateFile

variable {read : FileReader} {desired observed : String} {d o : StateFile} {kind : TreeKind}

theorem differences_eq_ok (loaded : load read desired = .ok d)
    (loaded' : load read observed = .ok o)
    : Command.differences read desired observed kind = .ok (d.entries o kind) := by
  have opened : openFile read desired = .ok d := by rw [openFile, loaded]
  have opened' : openFile read observed = .ok o := by rw [openFile, loaded']
  have trees (s : StateFile)
      : s.treesOf kind = .ok (s.roots.map fun root => (root, s.backend.tree root kind)) := by
    rw [treesOf, trees_eq]
    rfl
  rw [Command.differences, opened, opened', ← differences_eq_entries]
  simp only [trees, bind, Except.bind]
  rfl

/-- The text of differences is a JSON document of them. -/
theorem parse?_differencesText (entries : List (String × TreeDiff))
    : Json.parse? (differencesText entries)
      = some (.record (entries.map fun e => (e.1, Wire.diff e.2))) := by
  refine Json.Plain.parse?_toPretty (Json.plain_record fun m hm => ?_)
  obtain ⟨e, -, rfl⟩ := List.mem_map.mp hm
  exact Wire.plain_diff e.2

/-- The `diff` command prints what the last objects of two state files tell: whatever else it is
given, its text is a JSON document with an entry for each root where the content at some key of the
kind differs, in order, and the entry lists the keys of that root whose contents differ. -/
theorem diff_tells_contents (loaded : load read desired = .ok d)
    (loaded' : load read observed = .ok o) (apart : d.Apart o kind) (settings : Settings)
    (stop : Option Nat) (now : Instant)
    : ∃ entries : List (String × TreeDiff),
        (Command.diff desired observed kind).answer settings read stop now
          = .ok { text := differencesText entries }
        ∧ Json.parse? (differencesText entries)
          = some (.record (entries.map fun e => (e.1, Wire.diff e.2)))
        ∧ entries.Pairwise (fun a b => compare a.1 b.1 = .lt)
        ∧ (∀ root, (∃ delta, (root, delta) ∈ entries)
          ↔ ∃ k : Key, k.root? = some root ∧ d.projected kind k ≠ o.projected kind k)
        ∧ ∀ root delta, (root, delta) ∈ entries → d.Lists o kind root delta := by
  refine ⟨d.entries o kind, ?_, parse?_differencesText _, pairwise_entries d o kind, fun root => ?_,
    fun root delta member => ?_⟩
  · rw [answer, differences_eq_ok loaded loaded']
    rfl
  · constructor
    · rintro ⟨delta, member⟩
      obtain ⟨held, rfl, differ⟩ := mem_entries.mp member
      exact (lists_delta (apart root held)).isEmpty_iff.mp differ
    · rintro ⟨k, here, differ⟩
      have member : root ∈ d.rootsOfBoth o := by
        by_contra absent
        rw [mem_rootsOfBoth, not_or] at absent
        rw [projected_of_not_mem_roots absent.1 here, projected_of_not_mem_roots absent.2 here]
          at differ
        exact differ rfl
      have lists := lists_delta (apart root member)
      exact ⟨_, mem_entries.mpr ⟨member, rfl, lists.isEmpty_iff.mpr ⟨k, here, differ⟩⟩⟩
  · obtain ⟨held, rfl, -⟩ := mem_entries.mp member
    exact lists_delta (apart root held)

/-- A state file with an object of each of some owners at the key `r`, and one at the empty key. -/
def owned (owners : List Owner) : StateFile where
  objects := owners.map (fun owner => (⟨["r"]⟩, { owner })) ++ [(⟨[]⟩, {})]

theorem apart_owned : (owned [.remote, .local]).Apart (owned [.remote]) .config := by
  intro root member
  have roots : (owned [.remote, .local]).rootsOfBoth (owned [.remote]) = ["r"] := by decide
  have built (s : StateFile) := (Memory.tree_spec (errors_backend s) root .config).1
  rw [roots] at member
  cases List.mem_singleton.mp member
  refine (built _).distinguishable (built _) ?_ ?_
  · decide +kernel
  · decide +kernel

/-- A desired and an observed state file, whose objects at the key `r` have the same first owner. -/
def ownedFiles : FileReader := fun path =>
  if path = "desired" then .ok (owned [.remote, .local]).toText
  else if path = "observed" then .ok (owned [.remote]).toText
  else .error .notFound

/-- The object that is configured here in the end has to be added. -/
theorem diff_tells_contents_owned
    : ∃ entries delta,
        (Command.diff "desired" "observed" .config).answer {} ownedFiles none default
          = .ok { text := differencesText entries }
        ∧ ("r", delta) ∈ entries ∧ ⟨["r"]⟩ ∈ delta.add ∧ ⟨["r"]⟩ ∉ delta.remove := by
  have wanted : load ownedFiles "desired" = .ok (owned [.remote, .local]) := load_eq_ok rfl
  have given : load ownedFiles "observed" = .ok (owned [.remote]) := load_eq_ok rfl
  obtain ⟨entries, printed, -, -, roots, lists⟩ :=
    diff_tells_contents wanted given apart_owned {} none default
  obtain ⟨delta, member⟩ := (roots "r").mpr ⟨⟨["r"]⟩, rfl, by decide⟩
  have listed := lists "r" delta member
  exact ⟨entries, delta, printed, member, (listed.add _).mpr (by decide),
    mt (listed.remove _).mp (by decide)⟩

end Command

end Concord
