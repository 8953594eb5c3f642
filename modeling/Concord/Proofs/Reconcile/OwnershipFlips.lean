import Concord.Command.Run
import Concord.Proofs.Reconcile.Alignment

/-! Two kinds of trees show parts of the same objects, and each is reconciled with a batch of its
own. Main statement: pushed one after the other, two batches from one state bring the fabric into
line unless an object changed hands the wrong way round for their order; then the later batch
undoes what the earlier one did.
-/

namespace Concord.Memory

variable {store fabric : Memory} {root : String}

/-- Store and fabric without flags and without keys whose pushes are dropped, whose trees of a
root are told apart by their hashes.
-/
structure Comparable (store : Memory) (root : String) (fabric : Memory) : Prop where
  unflagged : store.errors = ∅
  calm : fabric.Calm
  distinguishable : ∀ kind, (store.tree root kind).Distinguishable (fabric.tree root kind)

theorem Comparable.alignable (h : store.Comparable root fabric) (kind : TreeKind)
    : store.Alignable root kind fabric where
  unflagged := h.unflagged
  calm := h.calm
  distinguishable := h.distinguishable kind

/-- Some object of the root has one owner in the store and another one in the fabric. -/
def Flips (store : Memory) (root : String) (fabric : Memory) (there here : Owner) : Prop :=
  ∃ (k : Key) (s f : StoredObject), k.root? = some root
    ∧ store.objects[k]? = some s ∧ s.owner = there
    ∧ fabric.objects[k]? = some f ∧ f.owner = here

/-- The owner whose objects a reconciled kind shows. -/
def ownerOf : TreeKind → Owner
  | .config => .local
  | .monitored => .remote
  | .operational => .released

/-- Two batches of reconciled kinds bring an object into line unless the earlier kind gains it and
the later one loses it, by cases on the two owners.
-/
theorem outcome_both {first second : TreeKind} (hf : first ∈ Command.reconciledKinds)
    (hs : second ∈ Command.reconciledKinds) (hne : first ≠ second) (s f : Option StoredObject)
    : (∀ kind ∈ Command.reconciledKinds,
          (outcome second s f (outcome first s f f)).bind (·.projection? kind)
            = s.bind (·.projection? kind))
      ↔ ¬ (s.map StoredObject.owner = some (ownerOf first)
          ∧ f.map StoredObject.owner = some (ownerOf second)) := by
  simp only [Command.reconciledKinds, List.mem_cons, List.not_mem_nil, or_false] at hf hs
  simp only [Command.reconciledKinds, List.forall_mem_cons, List.not_mem_nil, false_implies,
    implies_true, and_true]
  rcases hf with rfl | rfl <;> rcases hs with rfl | rfl <;> try exact absurd rfl hne
  all_goals
    rcases s with _ | ⟨so, sa, sb⟩ <;> rcases f with _ | ⟨fo, fa, fb⟩
    · simp [outcome]
    · cases fo <;> simp [outcome, StoredObject.projection?, deleted, marks]
    · cases so <;> simp [outcome, StoredObject.projection?, created]
    · by_cases same : fa = sa <;> cases so <;> cases fo <;>
        simp [outcome, StoredObject.projection?, created, deleted, marks, ownerOf, same]

/-- What two batches from one state leave in line, key by key. -/
theorem loads_iff_outcomes (h : store.Comparable root fabric) (first second : TreeKind)
    : (∀ kind ∈ Command.reconciledKinds,
          ((fabric.push first (store.batchFor fabric root first)).push second
            (store.batchFor fabric root second)).load root kind
          = store.load root kind)
      ↔ ∀ k : Key, k.root? = some root → ∀ kind ∈ Command.reconciledKinds,
          (outcome second store.objects[k]? fabric.objects[k]?
              (outcome first store.objects[k]? fabric.objects[k]? fabric.objects[k]?)).bind
            (·.projection? kind)
          = (store.objects[k]?).bind (·.projection? kind) := by
  obtain ⟨calm, earlier⟩ := push_batchFor (h.alignable first) h.calm
  obtain ⟨calm', later⟩ := push_batchFor (h.alignable second) calm
  simp only [load_eq_iff h.unflagged calm'.errors, projected, later, earlier]
  constructor
  · intro same k hr kind hk
    simpa [hr] using same kind hk k
  · intro same kind hk k
    by_cases hr : k.root? = some root
    · simpa [hr] using same k hr kind hk
    · simp [hr]

/-- Two batches computed from one state and pushed one after the other, whichever comes first,
leave the fabric with the trees of the store for both kinds, just when no object of the root went
from the owner of the later kind in the fabric to the owner of the earlier kind in the store.
-/
theorem load_after_both (h : store.Comparable root fabric) {first second : TreeKind}
    (hf : first ∈ Command.reconciledKinds) (hs : second ∈ Command.reconciledKinds)
    (hne : first ≠ second)
    : (∀ kind ∈ Command.reconciledKinds,
          ((fabric.push first (store.batchFor fabric root first)).push second
            (store.batchFor fabric root second)).load root kind
          = store.load root kind)
      ↔ ¬ store.Flips root fabric (ownerOf first) (ownerOf second) := by
  rw [loads_iff_outcomes h]
  constructor
  · intro line ⟨k, s, f, hr, hs', there, hf', here⟩
    refine (outcome_both hf hs hne _ _).mp (line k hr) ⟨?_, ?_⟩
    · rw [hs', Option.map_some, there]
    · rw [hf', Option.map_some, here]
  · intro none k hr
    refine (outcome_both hf hs hne _ _).mpr fun ⟨there, here⟩ => ?_
    obtain ⟨s, hs', there⟩ := Option.map_eq_some_iff.mp there
    obtain ⟨f, hf', here⟩ := Option.map_eq_some_iff.mp here
    exact none ⟨k, s, f, hr, hs', there, hf', here⟩

/-- A backend with one object, at the key `r`. -/
def owning (owner : Owner) : Memory :=
  ({ name := "memory" } : Memory).insert ⟨["r"]⟩ { owner }

theorem objects_owning (owner : Owner) (k : Key)
    : (owning owner).objects[k]? = if k = ⟨["r"]⟩ then some { owner } else none := by
  rw [owning, insert, objects_write]
  simp

theorem alignable_owning (there here : Owner) (kind : TreeKind)
    : (owning there).Alignable "r" kind (owning here) where
  unflagged := rfl
  calm := ⟨rfl, rfl⟩
  distinguishable := by
    refine (tree_spec rfl "r" kind).1.distinguishable (tree_spec rfl "r" kind).1 ?_ ?_
    · cases there <;> cases here <;> cases kind <;> decide +kernel
    · cases there <;> cases here <;> cases kind <;> decide +kernel

theorem comparable_owning : (owning .local).Comparable "r" (owning .remote) where
  unflagged := rfl
  calm := ⟨rfl, rfl⟩
  distinguishable := fun kind => (alignable_owning .local .remote kind).distinguishable

/-- The fabric after both batches of a store that owns its object, the monitored one first. -/
def gained : Memory :=
  ((owning .remote).push .monitored ((owning .local).batchFor (owning .remote) "r"
      .monitored)).push .config
    ((owning .local).batchFor (owning .remote) "r" .config)

/-- An object that came from the other owner is there once the later batch creates it. -/
theorem load_after_both_gained
    : gained.load "r" .config = (owning .local).load "r" .config
      ∧ gained.load "r" .monitored = (owning .local).load "r" .monitored := by
  have none : ¬ (owning .local).Flips "r" (owning .remote) (ownerOf .monitored)
      (ownerOf .config) := by
    intro ⟨k, s, f, hr, hs, there, hf, here⟩
    rw [objects_owning] at hs
    split at hs
    · cases hs
      cases there
    · cases hs
  have line := (load_after_both comparable_owning (by decide) (by decide) (by decide)).mpr none
  exact ⟨line .config (by decide), line .monitored (by decide)⟩

/-- The same object is in no tree of the fabric when the later batch releases it. -/
theorem load_after_both_lost
    : ¬ ∀ kind ∈ Command.reconciledKinds,
        (((owning .remote).push .config ((owning .local).batchFor (owning .remote) "r"
            .config)).push .monitored
          ((owning .local).batchFor (owning .remote) "r" .monitored)).load "r" kind
        = (owning .local).load "r" kind := by
  rw [loads_iff_outcomes comparable_owning]
  intro line
  have config := line ⟨["r"]⟩ rfl .config (by decide)
  rw [objects_owning, objects_owning, if_pos rfl, if_pos rfl] at config
  revert config
  decide

end Concord.Memory
