import Concord.Proofs.Backend.Announcements
import Concord.Proofs.Document.StateText
import Concord.Proofs.Document.WrittenFiles
import Concord.Proofs.Reconcile.Alignment

/-! State files and backends. A backend keeps of the objects that a state file puts at one key the
last, and a captured state file has them in the order of their keys. Main statement: state files
survive being captured and being written: neither changes the trees that they give.
-/

namespace Concord.StateFile

variable {s t : StateFile} {m : Memory} {k : Key} {kind : TreeKind} {root : String}

-----------------------------------------------------------------------------------------
-- Objects that a backend is given
-----------------------------------------------------------------------------------------

/-- The last object that a state file has at a key. -/
def last? (s : StateFile) (k : Key) : Option StoredObject :=
  (s.objects.findRev? fun entry => entry.1 = k).map Prod.snd

theorem last?_cons (entry : Key × StoredObject) (rest : List (Key × StoredObject)) (k : Key)
    : (StateFile.mk (entry :: rest)).last? k
      = ((StateFile.mk rest).last? k).or (if k = entry.1 then some entry.2 else none) := by
  simp only [last?, List.findRev?_eq_find?_reverse, List.reverse_cons, List.find?_append,
    Option.map_or]
  by_cases here : k = entry.1
  · simp [here]
  · simp [here, Ne.symm here]

/-- What is put into a backend is the last object at each key, by induction on the objects. -/
theorem objects_seed (s : StateFile) (m : Memory) (k : Key)
    : (s.seed m).objects[k]? = (s.last? k).or m.objects[k]? := by
  obtain ⟨objects⟩ := s
  induction objects generalizing m with
  | nil => rfl
  | cons entry rest ih =>
      have later : (StateFile.mk (entry :: rest)).seed m
          = (StateFile.mk rest).seed (m.insert entry.1 entry.2) := rfl
      rw [later, ih, last?_cons, Memory.insert, Memory.objects_write, Option.or_assoc]
      split <;> rfl

/-- Objects come without flags. -/
theorem errors_seed (s : StateFile) (m : Memory) : (s.seed m).errors = m.errors := by
  obtain ⟨objects⟩ := s
  induction objects generalizing m with
  | nil => rfl
  | cons entry rest ih => exact ih (m.insert entry.1 entry.2)

theorem mem_capture {o : StoredObject}
    : (k, o) ∈ (capture m).objects ↔ m.objects[k]? = some o :=
  Std.ExtTreeMap.mem_toList_iff_getElem?_eq_some

theorem pairwise_capture (m : Memory)
    : (capture m).objects.Pairwise fun a b => compare a.1 b.1 = .lt :=
  Std.ExtTreeMap.ordered_keys_toList

/-- A captured state file has one object at each key, that of the backend. -/
theorem last?_capture (m : Memory) (k : Key) : (capture m).last? k = m.objects[k]? := by
  have distinct : (capture m).objects.reverse.Pairwise fun a b => a.1 ≠ b.1 := by
    rw [List.pairwise_reverse]
    refine (pairwise_capture m).imp fun {a b} before same => ?_
    rw [Std.LawfulEqOrd.compare_eq_iff_eq.mpr same.symm] at before
    cases before
  refine Option.ext fun o => ?_
  rw [last?, List.findRev?_eq_find?_reverse, find?_entry_iff distinct, List.mem_reverse,
    mem_capture]

/-- State files with the same last objects are captured the same, from whatever backends that were
empty before. -/
theorem capture_seed_congr {m' : Memory} (empty : m.objects = ∅) (empty' : m'.objects = ∅)
    (same : ∀ k, t.last? k = s.last? k)
    : capture (t.seed m') = capture (s.seed m) := by
  have objects : (t.seed m').objects = (s.seed m).objects := by
    refine Std.ExtTreeMap.ext_getElem? fun {k} => ?_
    rw [objects_seed, objects_seed, same, empty, empty']
  rw [capture, capture, objects]

-----------------------------------------------------------------------------------------
-- Roots and trees
-----------------------------------------------------------------------------------------

theorem last?_ne_none_iff : s.last? k ≠ none ↔ ∃ o, (k, o) ∈ s.objects := by
  simp [last?, List.findRev?_eq_find?_reverse]

/-- The roots are those of the keys that have an object. -/
theorem mem_roots : root ∈ s.roots ↔ ∃ k, s.last? k ≠ none ∧ k.root? = some root := by
  simp only [roots, Std.ExtTreeSet.mem_toList, Std.ExtTreeSet.mem_ofList, List.contains_iff_mem,
    List.mem_filterMap, last?_ne_none_iff, Prod.exists]
  exact exists_congr fun k => exists_and_right

theorem roots_congr (same : ∀ k, t.last? k = s.last? k) : t.roots = s.roots := by
  refine congrArg Std.ExtTreeSet.toList (Std.ExtTreeSet.ext_mem fun root => ?_)
  have members := @mem_roots t root
  simp only [same] at members
  rw [← Std.ExtTreeSet.mem_toList, ← Std.ExtTreeSet.mem_toList]
  exact members.trans mem_roots.symm

/-- What the trees of a state file show at a key. -/
def projected (s : StateFile) (kind : TreeKind) (k : Key) : Option Attributes :=
  (s.last? k).bind (·.projection? kind)

/-- The backend that a state file's trees come from. -/
def backend (s : StateFile) : Memory :=
  s.seed { name := "state" }

theorem errors_backend (s : StateFile) : s.backend.errors = ∅ :=
  errors_seed s _

theorem projected_backend (s : StateFile) (root : String) (kind : TreeKind) (k : Key)
    : s.backend.projected root kind k
      = if k.root? = some root then s.projected kind k else none := by
  rw [Memory.projected, backend, objects_seed, Std.ExtTreeMap.getElem?_empty, Option.or_none]
  rfl

/-- Every root has a tree. -/
theorem trees_eq (s : StateFile) (kind : TreeKind)
    : s.trees kind = .ok (s.roots.map fun root => (root, s.backend.tree root kind)) := by
  simp only [trees, Memory.load_tree]
  exact List.mapM_pure

/-- State files with the same last objects have the same trees. -/
theorem trees_congr (same : ∀ k, t.last? k = s.last? k) : t.trees kind = s.trees kind := by
  have loads (root : String) : t.backend.load root kind = s.backend.load root kind := by
    refine Memory.load_congr (errors_backend s) (errors_backend t) fun k => ?_
    rw [projected_backend, projected_backend, projected, projected, same]
  simp only [trees_eq, roots_congr same, Memory.tree, loads]

-----------------------------------------------------------------------------------------
-- State files that are captured and written
-----------------------------------------------------------------------------------------

/-- A state file survives a backend and a file. Captured from a backend that was empty before, its
keys increase and each has its last object; that it is captured once more changes nothing, and its
roots and trees stay the same. Written as text, it is read back as it is, and so it is loaded from
any file that it was written to. -/
theorem survives_capture_and_disk (s : StateFile) (m m' : Memory) (empty : m.objects = ∅)
    (empty' : m'.objects = ∅)
    : (capture (s.seed m)).objects.Pairwise (fun a b => compare a.1 b.1 = .lt)
      ∧ (∀ k o, (k, o) ∈ (capture (s.seed m)).objects ↔ s.last? k = some o)
      ∧ capture ((capture (s.seed m)).seed m') = capture (s.seed m)
      ∧ (capture (s.seed m)).roots = s.roots
      ∧ (∀ kind, ∃ trees, s.trees kind = .ok trees
        ∧ (capture (s.seed m)).trees kind = .ok trees ∧ trees.map Prod.fst = s.roots)
      ∧ ofText? s.toText = some s
      ∧ ∀ (files written : Files) (path : String), files.write path s.toText = .ok written →
        load written.read path = .ok s := by
  have seeded (k : Key) : (s.seed m).objects[k]? = s.last? k := by
    rw [objects_seed, empty, Std.ExtTreeMap.getElem?_empty, Option.or_none]
  have same (k : Key) : (capture (s.seed m)).last? k = s.last? k := by
    rw [last?_capture, seeded]
  refine ⟨pairwise_capture _, fun k o => ?_, capture_seed_congr empty empty' same,
    roots_congr same, fun kind => ?_, ofText?_toText s, fun files written path done => ?_⟩
  · rw [mem_capture, seeded]
  · refine ⟨_, trees_eq s kind, (trees_congr same).trans (trees_eq s kind), ?_⟩
    rw [List.map_map]
    exact List.map_id s.roots
  · exact load_eq_ok (Files.read_of_write done)

/-- A state file that has two objects at one key and one at the empty key. -/
def repetitive : StateFile where
  objects :=
    [(⟨["r", "a"]⟩, { owner := .remote, attributes := {("é\n", .int Int64.minValue)} }),
      (⟨[]⟩, { attributes := {("", .null)}, observed := {("\"", .text "😀")} }),
      (⟨["r", "a"]⟩, { owner := .released, attributes := {("b", .bool true)} })]

/-- The later of the two objects is captured, also from a backend that drops pushes. -/
theorem survives_capture_and_disk_repetitive
    : (⟨["r", "a"]⟩, { owner := .released, attributes := {("b", .bool true)} })
        ∈ (capture (repetitive.seed { name := "fabric" })).objects
      ∧ capture ((capture (repetitive.seed { name := "fabric" })).seed
          { name := "store", failing := {⟨["r", "a"]⟩} })
        = capture (repetitive.seed { name := "fabric" })
      ∧ ofText? repetitive.toText = some repetitive := by
  obtain ⟨-, members, again, -, -, written, -⟩ :=
    survives_capture_and_disk repetitive { name := "fabric" }
      { name := "store", failing := {⟨["r", "a"]⟩} } rfl rfl
  exact ⟨(members _ _).mpr (by decide), again, written⟩

end Concord.StateFile
