import Concord.Reconcile.Reconciler

/-! What a reconciler remembers, root by root. -/

namespace Concord

/-- What is kept unless it is the default, is found at its root, and nothing else changes. -/
theorem getD_insertOrErase {β : Type} (m : Std.ExtTreeMap String β) (root other : String)
    {b d : β} {drop : Bool} (h : drop = true → b = d)
    : ((if drop then m.erase root else m.insert root b)[other]?).getD d
      = if other = root then b else (m[other]?).getD d := by
  by_cases same : other = root
  · subst same
    cases drop with
    | true => simp [h rfl]
    | false => simp
  · have differs : compare root other ≠ .eq := fun he =>
      same (Std.LawfulEqOrd.eq_of_compare he).symm
    cases drop with
    | true => simp [Std.ExtTreeMap.getElem?_erase, same, differs]
    | false => simp [Std.ExtTreeMap.getElem?_insert, same, differs]

/-- What is kept of some roots is found there, and the default anywhere else. -/
theorem getD_retained {β : Type} (m : Std.ExtTreeMap String β) (roots : List String)
    (root : String) (d : β)
    : ((m.filter fun root _ => roots.contains root)[root]?).getD d
      = if root ∈ roots then (m[root]?).getD d else d := by
  rw [Std.ExtTreeMap.getElem?_filter']
  by_cases kept : root ∈ roots
  · cases found : m[root]? <;> simp [kept, Option.filter]
  · cases found : m[root]? <;> simp [kept]

theorem Tracker.records_setRecords (t : Tracker) (root other : String) (records : Records)
    : (t.setRecords root records).records other
      = if other = root then records else t.records other :=
  getD_insertOrErase _ _ _ Std.ExtTreeMap.isEmpty_iff.mp

/-- Roots that are retained keep their records, and others lose them. -/
theorem Tracker.records_retainRoots (t : Tracker) (roots : List String) (root : String)
    : (t.retainRoots roots).records root = if root ∈ roots then t.records root else ∅ :=
  getD_retained t.roots roots root ∅

-----------------------------------------------------------------------------------------
-- Lists of pairs by root
-----------------------------------------------------------------------------------------

theorem lookup_replace {β : Type} (tasks : List (String × β)) (root other : String) (b : β)
    : (tasks.map fun task => if task.1 = root then (root, b) else task).lookup other
      = if other = root then (tasks.lookup root).map fun _ => b else tasks.lookup other := by
  induction tasks with
  | nil => simp
  | cons task rest ih =>
      obtain ⟨name, program⟩ := task
      rw [List.map_cons]
      by_cases this : name = root
      · subst this
        by_cases same : other = name
        · simp [same]
        · have differs : (other == name) = false := beq_eq_false_iff_ne.mpr same
          simp only [if_true, List.lookup_cons, differs]
          rw [ih, if_neg same, if_neg same]
      · by_cases same : other = name
        · subst same
          simp [this]
        · have differs : (other == name) = false := beq_eq_false_iff_ne.mpr same
          have apart : (root == name) = false := beq_eq_false_iff_ne.mpr fun he => this he.symm
          simp only [this, if_false, List.lookup_cons, differs, apart]
          exact ih

theorem names_replace {β : Type} (tasks : List (String × β)) (root : String) (b : β)
    : (tasks.map fun task => if task.1 = root then (root, b) else task).map Prod.fst
      = tasks.map Prod.fst := by
  rw [List.map_map]
  refine List.map_congr_left fun task _ => ?_
  rw [Function.comp_apply]
  split
  · rename_i this
    exact this.symm
  · rfl

theorem lookup_drop {β : Type} (tasks : List (String × β)) (root other : String)
    : (tasks.filter fun task => task.1 ≠ root).lookup other
      = if other = root then none else tasks.lookup other := by
  induction tasks with
  | nil => simp
  | cons task rest ih =>
      obtain ⟨name, program⟩ := task
      by_cases this : name = root
      · subst this
        rw [List.filter_cons_of_neg (by simp), ih]
        by_cases same : other = name
        · simp [same]
        · have differs : (other == name) = false := beq_eq_false_iff_ne.mpr same
          rw [if_neg same, if_neg same, List.lookup_cons, differs]
      · rw [List.filter_cons_of_pos (by simpa using this), List.lookup_cons, List.lookup_cons, ih]
        by_cases same : other = name
        · subst same
          simp [this]
        · have differs : (other == name) = false := beq_eq_false_iff_ne.mpr same
          simp [differs]

theorem lookup_map_of_mem {β : Type} (names : List String) (f : String → β) {root : String}
    : (names.map fun name => (name, f name)).lookup root
      = if root ∈ names then some (f root) else none := by
  induction names with
  | nil => simp
  | cons name rest ih =>
      rw [List.map_cons, List.lookup_cons, ih]
      by_cases same : root = name
      · simp [same]
      · have differs : (root == name) = false := beq_eq_false_iff_ne.mpr same
        simp [same, differs]

theorem mem_of_lookup {β : Type} {entries : List (String × β)} {root : String} {b : β}
    (h : entries.lookup root = some b)
    : root ∈ entries.map Prod.fst := by
  obtain ⟨before, after, rfl, -⟩ := List.lookup_eq_some_iff.mp h
  simp

theorem lookup_of_notMem {β : Type} {entries : List (String × β)} {root : String}
    (h : root ∉ entries.map Prod.fst)
    : entries.lookup root = none :=
  List.lookup_eq_none_iff.mpr fun entry hm => by
    simpa using fun same : root = entry.1 => h (same ▸ List.mem_map_of_mem hm)

/-- Where names are distinct, each pair is found by its name. -/
theorem lookup_of_mem {β : Type} {entries : List (String × β)} {root : String} {b : β}
    (distinct : (entries.map Prod.fst).Nodup) (h : (root, b) ∈ entries)
    : entries.lookup root = some b := by
  induction entries with
  | nil => cases h
  | cons entry rest ih =>
      obtain ⟨absent, distinct⟩ := List.nodup_cons.mp distinct
      rcases List.mem_cons.mp h with rfl | later
      · exact List.lookup_cons_self
      · have differs : (root == entry.1) = false :=
          beq_eq_false_iff_ne.mpr fun same => absent (same ▸ List.mem_map_of_mem later)
        rw [List.lookup_cons, differs]
        exact ih distinct later

theorem lookup_append_single {β : Type} (results : List (String × β)) (result : β)
    {root other : String} (differs : other ≠ root)
    : (results ++ [(root, result)]).lookup other = results.lookup other := by
  have apart : (other == root) = false := beq_eq_false_iff_ne.mpr differs
  rw [List.lookup_append, List.lookup_cons, apart, List.lookup_nil, Option.or_none]

-----------------------------------------------------------------------------------------
-- Ledgers
-----------------------------------------------------------------------------------------

namespace Reconciler

/-- What is put in place for a root is found there, and other roots keep what they have. -/
theorem ledger_setLedger (r : Reconciler) (root other : String) (ledger : Ledger)
    : (r.setLedger root ledger).ledger other
      = if other = root then ledger else r.ledger other := by
  have records : (r.setLedger root ledger).tracker.records other
      = if other = root then ledger.records else r.tracker.records other :=
    r.tracker.records_setRecords root other ledger.records
  have pending : ((r.setLedger root ledger).pending[other]?).getD ∅
      = if other = root then ledger.pending else (r.pending[other]?).getD ∅ :=
    getD_insertOrErase _ _ _ Std.ExtTreeSet.isEmpty_iff.mp
  rw [Reconciler.ledger, records, pending]
  split <;> rfl

/-- What is remembered already may be put in place again. -/
theorem ledger_setLedger_same (r : Reconciler) (root other : String)
    : (r.setLedger root (r.ledger root)).ledger other = r.ledger other := by
  rw [ledger_setLedger]
  split
  · rename_i same
    rw [same]
  · rfl

theorem records_retainRoots (r : Reconciler) (roots : List String) (root : String)
    : ((r.retainRoots roots).ledger root).records
      = if root ∈ roots then (r.ledger root).records else ∅ :=
  r.tracker.records_retainRoots roots root

/-- All that is remembered of a root goes the same way. -/
theorem ledger_retainRoots (r : Reconciler) (roots : List String) (root : String)
    : (r.retainRoots roots).ledger root = if root ∈ roots then r.ledger root else {} := by
  have records := records_retainRoots r roots root
  have pending : ((r.retainRoots roots).ledger root).pending
      = if root ∈ roots then (r.ledger root).pending else ∅ :=
    getD_retained r.pending roots root ∅
  have parts : (r.retainRoots roots).ledger root
      = ⟨((r.retainRoots roots).ledger root).records,
          ((r.retainRoots roots).ledger root).pending⟩ :=
    rfl
  rw [parts, records, pending]
  split <;> rfl

/-- The tracker keeps to the limits that follow from the configuration. -/
def Configured (r : Reconciler) : Prop :=
  r.tracker.limits = r.config.trackerLimits

theorem configured_new (config : ReconcilerConfig) : (new config).Configured :=
  rfl

end Reconciler

end Concord
