import Concord.Proofs.HashTree.Comparison

/-! Which keys a comparison lists, and in which order. A key is judged by the nodes that stand at
it in the two trees and by the flags above it, so everything is proved along its path.
-/

namespace Concord

-----------------------------------------------------------------------------------------
-- What decides about a key
-----------------------------------------------------------------------------------------

namespace Node

/-- No node strictly above the end of the path is flagged. -/
def OpenAbove : Node → List String → Prop
  | _, [] => True
  | n, segment :: rest =>
      n.isError = false ∧ ∀ child, n.children.find? segment = some child → child.OpenAbove rest

/-- The path leads to a node that holds something, and no node on it is flagged. -/
def Live (n : Node) (path : List String) : Prop :=
  ∃ m, n.descend? path = some m ∧ m.isDummy = false ∧ m.isError = false ∧ n.OpenAbove path

/-- Mine holds something at the end of the path that theirs lacks or has otherwise. -/
def Adds (mine theirs : Node) (path : List String) : Prop :=
  ∃ n, mine.descend? path = some n ∧ n.isDummy = false
    ∧ mine.OpenAbove path ∧ theirs.OpenAbove path
    ∧ match theirs.descend? path with
      | some m => n.content.compared ≠ m.content.compared
      | none => n.isError = false

/-- Theirs holds something at the end of the path that mine does not. -/
def Removes (mine theirs : Node) (path : List String) : Prop :=
  ∃ m, theirs.descend? path = some m ∧ m.isDummy = false
    ∧ mine.OpenAbove path ∧ theirs.OpenAbove path
    ∧ match mine.descend? path with
      | some n => n.isDummy = true
      | none => m.isError = false

theorem openAbove_nil (n : Node) : n.OpenAbove [] :=
  trivial

theorem openAbove_cons {n : Node} {segment : String} {rest : List String}
    : n.OpenAbove (segment :: rest)
      ↔ n.isError = false
        ∧ ∀ child, n.children.find? segment = some child → child.OpenAbove rest :=
  Iff.rfl

theorem live_nil {n : Node} : n.Live [] ↔ n.isDummy = false ∧ n.isError = false := by
  simp [Live, openAbove_nil]

theorem live_cons {n : Node} {segment : String} {rest : List String}
    : n.Live (segment :: rest)
      ↔ n.isError = false ∧ ∃ child, n.children.find? segment = some child ∧ child.Live rest := by
  constructor
  · rintro ⟨m, hm, hd, he, ho⟩
    obtain ⟨child, hc, hm⟩ := descend?_cons_eq_some.mp hm
    exact ⟨ho.1, child, hc, m, hm, hd, he, ho.2 child hc⟩
  · rintro ⟨hn, child, hc, m, hm, hd, he, ho⟩
    refine ⟨m, descend?_cons_eq_some.mpr ⟨child, hc, hm⟩, hd, he, hn, ?_⟩
    intro other hf
    rw [hc] at hf
    cases hf
    exact ho

theorem adds_nil {n m : Node}
    : n.Adds m [] ↔ n.isDummy = false ∧ n.content.compared ≠ m.content.compared := by
  simp [Adds, openAbove_nil]

theorem removes_nil {n m : Node} : n.Removes m [] ↔ m.isDummy = false ∧ n.isDummy = true := by
  simp [Removes, openAbove_nil]

/-- Below the top an addition is one of the child, or the child is missing in theirs. -/
theorem adds_cons {n m : Node} {segment : String} {rest : List String}
    : n.Adds m (segment :: rest)
      ↔ (n.isError = false ∧ m.isError = false)
        ∧ ∃ child, n.children.find? segment = some child
            ∧ match m.children.find? segment with
              | none => child.Live rest
              | some other => child.Adds other rest := by
  constructor
  · rintro ⟨x, hx, hd, hn, hm, hcase⟩
    obtain ⟨child, hc, hx⟩ := descend?_cons_eq_some.mp hx
    refine ⟨⟨hn.1, hm.1⟩, child, hc, ?_⟩
    rw [descend?_cons] at hcase
    cases ho : m.children.find? segment with
    | none =>
        rw [ho] at hcase
        exact ⟨x, hx, hd, hcase, hn.2 child hc⟩
    | some other =>
        rw [ho] at hcase
        exact ⟨x, hx, hd, hn.2 child hc, hm.2 other ho, hcase⟩
  · rintro ⟨⟨hn, hm⟩, child, hc, hcase⟩
    have path {x : Node} (hx : child.descend? rest = some x)
        : n.descend? (segment :: rest) = some x :=
      descend?_cons_eq_some.mpr ⟨child, hc, hx⟩
    have above (h : child.OpenAbove rest) : n.OpenAbove (segment :: rest) := by
      refine ⟨hn, fun other hf => ?_⟩
      rw [hc] at hf
      cases hf
      exact h
    cases ho : m.children.find? segment with
    | none =>
        rw [ho] at hcase
        obtain ⟨x, hx, hd, he, hl⟩ := hcase
        refine ⟨x, path hx, hd, above hl, ⟨hm, by simp [ho]⟩, ?_⟩
        rw [descend?_cons, ho]
        exact he
    | some other =>
        rw [ho] at hcase
        obtain ⟨x, hx, hd, hl, hr, he⟩ := hcase
        refine ⟨x, path hx, hd, above hl, ⟨hm, ?_⟩, ?_⟩
        · intro o hf
          rw [ho] at hf
          cases hf
          exact hr
        · rw [descend?_cons, ho]
          exact he

/-- Below the top a removal is one between two children, or the child is missing in mine. -/
theorem removes_cons {n m : Node} {segment : String} {rest : List String}
    : n.Removes m (segment :: rest)
      ↔ (n.isError = false ∧ m.isError = false)
        ∧ ∃ other, m.children.find? segment = some other
            ∧ match n.children.find? segment with
              | none => other.Live rest
              | some child => child.Removes other rest := by
  constructor
  · rintro ⟨x, hx, hd, hn, hm, hcase⟩
    obtain ⟨other, ho, hx⟩ := descend?_cons_eq_some.mp hx
    refine ⟨⟨hn.1, hm.1⟩, other, ho, ?_⟩
    rw [descend?_cons] at hcase
    cases hc : n.children.find? segment with
    | none =>
        rw [hc] at hcase
        exact ⟨x, hx, hd, hcase, hm.2 other ho⟩
    | some child =>
        rw [hc] at hcase
        exact ⟨x, hx, hd, hn.2 child hc, hm.2 other ho, hcase⟩
  · rintro ⟨⟨hn, hm⟩, other, ho, hcase⟩
    have path {x : Node} (hx : other.descend? rest = some x)
        : m.descend? (segment :: rest) = some x :=
      descend?_cons_eq_some.mpr ⟨other, ho, hx⟩
    have above (h : other.OpenAbove rest) : m.OpenAbove (segment :: rest) := by
      refine ⟨hm, fun o hf => ?_⟩
      rw [ho] at hf
      cases hf
      exact h
    cases hc : n.children.find? segment with
    | none =>
        rw [hc] at hcase
        obtain ⟨x, hx, hd, he, hl⟩ := hcase
        refine ⟨x, path hx, hd, ⟨hn, by simp [hc]⟩, above hl, ?_⟩
        rw [descend?_cons, hc]
        exact he
    | some child =>
        rw [hc] at hcase
        obtain ⟨x, hx, hd, hl, hr, he⟩ := hcase
        refine ⟨x, path hx, hd, ⟨hn, ?_⟩, above hr, ?_⟩
        · intro c hf
          rw [hc] at hf
          cases hf
          exact hl
        · rw [descend?_cons, hc]
          exact he

end Node

-----------------------------------------------------------------------------------------
-- Membership
-----------------------------------------------------------------------------------------

/-- A key below a child is listed for that child alone. -/
theorem Forest.Ordered.mem_flatMap {f : Forest} (h : f.Ordered) {key : Key}
    {g : String × Node → List Key} (hg : ∀ e, (key.child e.1).Under (g e))
    {segment : String} {rest : List String}
    : key.below (segment :: rest) ∈ f.toList.flatMap g
      ↔ ∃ child, f.find? segment = some child
          ∧ (key.child segment).below rest ∈ g (segment, child) := by
  rw [List.mem_flatMap]
  constructor
  · rintro ⟨⟨s, child⟩, he, hk⟩
    obtain ⟨path, hp⟩ := (hg (s, child)).of_child _ hk
    obtain ⟨rfl, rfl⟩ := List.cons_eq_cons.mp ((key.below_inj).mp hp)
    exact ⟨child, h.mem_toList.mp he, by simpa using hk⟩
  · rintro ⟨child, hc, hk⟩
    exact ⟨(segment, child), h.mem_toList.mpr hc, by simpa using hk⟩

/-- A key is never listed below itself. -/
theorem Key.not_mem_flatMap {key : Key} {l : List (String × Node)}
    {g : String × Node → List Key} (hg : ∀ e, (key.child e.1).Under (g e))
    : key ∉ l.flatMap g := by
  intro h
  obtain ⟨e, -, hk⟩ := List.mem_flatMap.mp h
  obtain ⟨path, hp⟩ := (hg e).of_child _ hk
  have hl := congrArg (fun k => k.segments.length) hp
  simp [Key.below] at hl

namespace Node

/-- Every node below has its children in order. -/
abbrev AllShaped (n : Node) : Prop :=
  ∀ path m, n.descend? path = some m → m.Shaped

theorem AllShaped.top {n : Node} (h : n.AllShaped) : n.Shaped :=
  h [] n (descend?_nil n)

theorem AllShaped.child {n child : Node} {segment : String} (h : n.AllShaped)
    (hc : n.children.find? segment = some child)
    : child.AllShaped :=
  fun path m hm => h (segment :: path) m (descend?_cons_eq_some.mpr ⟨child, hc, hm⟩)

/-- Live keys are those with a live path, by induction on the path. -/
theorem mem_liveKeys {n : Node} (h : n.AllShaped) {key : Key} {path : List String}
    : key.below path ∈ n.liveKeys key ↔ n.Live path := by
  induction path generalizing n key with
  | nil =>
      have hn : key ∉ n.children.toList.flatMap fun e => e.2.liveKeys (key.child e.1) :=
        Key.not_mem_flatMap fun e => e.2.liveKeys_under _
      rw [Key.below_nil, liveKeys_eq, live_nil, Forest.liveKeys_eq_flatMap]
      cases he : n.isError <;> cases hd : n.isDummy <;> simp [hn]
  | cons segment rest ih =>
      have hk : key.below (segment :: rest) ≠ key := by
        simpa using Key.not_mem_own (.inr rfl : [key] = [] ∨ [key] = [key]) segment rest
      have children : key.below (segment :: rest) ∈ n.children.liveKeys key
          ↔ ∃ child, n.children.find? segment = some child ∧ child.Live rest := by
        rw [Forest.liveKeys_eq_flatMap,
          h.top.ordered.mem_flatMap fun e => e.2.liveKeys_under _]
        exact exists_congr fun child => and_congr_right fun hc => ih (h.child hc)
      rw [liveKeys_eq, live_cons, ← children]
      cases he : n.isError <;> cases hd : n.isDummy <;> simp [hk]

theorem mem_own_add {n m : Node} {key : Key}
    : key ∈ (n.content.comparison key m.content).add ↔ n.Adds m [] := by
  rw [adds_nil, Content.comparison, isDummy]
  split
  · simp_all
  · split <;> [skip; split] <;> simp_all

theorem mem_own_remove {n m : Node} {key : Key}
    : key ∈ (n.content.comparison key m.content).remove ↔ n.Removes m [] := by
  rw [removes_nil, Content.comparison, isDummy, isDummy]
  split
  · rename_i he
    have hd : n.content.dummy = m.content.dummy := congrArg (fun c => c.2.1) he
    cases hn : n.content.dummy <;> simp_all
  · split <;> [skip; split] <;> simp_all

/-- Both sides of a comparison are what the two nodes at the end of a path decide, by induction
on the path.
-/
theorem mem_comparison {n m : Node} (hn : n.AllShaped) (hm : m.AllShaped) {key : Key}
    {path : List String}
    : (key.below path ∈ (n.comparison key m).add ↔ n.Adds m path)
      ∧ (key.below path ∈ (n.comparison key m).remove ↔ n.Removes m path) := by
  induction path generalizing n m key with
  | nil =>
      have ha : key ∉ (n.children.comparison key m.children).add := by
        rw [Forest.comparison_add]
        exact Key.not_mem_flatMap fun e => (Forest.pairing_under _ _ e).1
      have hr : key ∉ (n.children.comparison key m.children).remove := by
        rw [Forest.comparison_remove]
        exact Key.not_mem_flatMap fun e => (Forest.pairing_under _ _ e).2
      have hu : key ∉ m.children.unmatchedKeys key n.children := by
        rw [Forest.unmatchedKeys_eq_flatMap]
        refine Key.not_mem_flatMap fun e => ?_
        split
        · exact e.2.liveKeys_under _
        · exact Key.under_nil _
      rw [Key.below_nil, comparison_eq, TreeDiff.add_append, TreeDiff.remove_append,
        List.mem_append, List.mem_append, mem_own_add, mem_own_remove]
      cases n.isError || m.isError <;> simp [ha, hr, hu]
  | cons segment rest ih =>
      have ha : key.below (segment :: rest) ∈ (n.children.comparison key m.children).add
          ↔ ∃ child, n.children.find? segment = some child
              ∧ match m.children.find? segment with
                | none => child.Live rest
                | some other => child.Adds other rest := by
        rw [Forest.comparison_add,
          hn.top.ordered.mem_flatMap fun e => (Forest.pairing_under _ _ e).1]
        refine exists_congr fun child => and_congr_right fun hc => ?_
        rw [Forest.pairing]
        cases ho : m.children.find? segment with
        | none => exact mem_liveKeys (hn.child hc)
        | some other => exact (ih (hn.child hc) (hm.child ho)).1
      have hr : key.below (segment :: rest) ∈ (n.children.comparison key m.children).remove
          ↔ ∃ child, n.children.find? segment = some child
              ∧ match m.children.find? segment with
                | none => False
                | some other => child.Removes other rest := by
        rw [Forest.comparison_remove,
          hn.top.ordered.mem_flatMap fun e => (Forest.pairing_under _ _ e).2]
        refine exists_congr fun child => and_congr_right fun hc => ?_
        rw [Forest.pairing]
        cases ho : m.children.find? segment with
        | none => simp
        | some other => exact (ih (hn.child hc) (hm.child ho)).2
      have hu : key.below (segment :: rest) ∈ m.children.unmatchedKeys key n.children
          ↔ ∃ other, m.children.find? segment = some other
              ∧ n.children.find? segment = none ∧ other.Live rest := by
        rw [Forest.unmatchedKeys_eq_flatMap, hm.top.ordered.mem_flatMap fun e => ?_]
        · refine exists_congr fun other => and_congr_right fun ho => ?_
          have live : (key.child segment).below rest ∈ other.liveKeys (key.child segment)
              ↔ other.Live rest :=
            mem_liveKeys (hm.child ho)
          cases hc : n.children.find? segment with
          | none => simpa using live
          | some child => simp
        · split
          · exact e.2.liveKeys_under _
          · exact Key.under_nil _
      -- The two contents list nothing but the key itself.
      have own := n.content.comparison_own key m.content
      have own := own.imp (Key.not_mem_own · segment rest) (Key.not_mem_own · segment rest)
      rw [comparison_eq, TreeDiff.add_append, TreeDiff.remove_append, List.mem_append,
        List.mem_append, adds_cons, removes_cons]
      cases he : n.isError <;> cases hf : m.isError <;> simp [own, ha, hr, hu]
      cases hc : n.children.find? segment with
      | none => cases ho : m.children.find? segment <;> simp
      | some child => cases ho : m.children.find? segment <;> simp

end Node

end Concord
