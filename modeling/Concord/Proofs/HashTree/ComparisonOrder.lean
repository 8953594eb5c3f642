import Concord.Proofs.HashTree.ComparisonKeys

/-! The order in which a comparison lists its keys. A relation that holds from a key down and
from a child across to a later one holds along every walk; what is added follows one walk, what is
removed follows two over different children.
-/

namespace Concord

-----------------------------------------------------------------------------------------
-- Relations that a walk keeps
-----------------------------------------------------------------------------------------

namespace Key

/-- A key is related to what is below it, and what is below a child to what is below a later
child.
-/
structure Walks (r : Key → Key → Prop) : Prop where
  down : ∀ key segment path, r key (below key (segment :: path))
  across : ∀ key a b path other, compare a b = .lt →
    r (below key (a :: path)) (below key (b :: other))

/-- Keys compare by the first segments after what they share, by induction on that. -/
theorem compare_below (key : Key) (path other : List String)
    : compare (key.below path) (key.below other) = compare path other := by
  obtain ⟨segments⟩ := key
  change compare (segments ++ path) (segments ++ other) = compare path other
  induction segments with
  | nil => rfl
  | cons s rest ih =>
      have hs : compare s s = .eq := Std.ReflCmp.compare_self
      rw [List.cons_append, List.cons_append, List.compare_cons_cons, hs, Ordering.eq_then, ih]

theorem walks_lt : Walks fun a b => compare a b = .lt where
  down key segment path := by
    have h := compare_below key [] (segment :: path)
    rwa [below_nil] at h
  across key a b path other h := by
    rw [compare_below, List.compare_cons_cons, h, Ordering.lt_then]

theorem contains_iff {j k : Key} : j.contains k ↔ ∃ path, k = j.below path := by
  obtain ⟨l⟩ := j
  obtain ⟨m⟩ := k
  rw [contains, List.isPrefixOf_iff_prefix]
  constructor
  · rintro ⟨path, h⟩
    exact ⟨path, congrArg mk h.symm⟩
  · rintro ⟨path, h⟩
    exact ⟨path, (congrArg segments h).symm⟩

/-- What is below one child is not below another. -/
theorem not_contains_across (key : Key) {a b : String} (path other : List String) (h : a ≠ b)
    : (key.below (b :: other)).contains (key.below (a :: path)) = false := by
  rw [Bool.eq_false_iff]
  intro hc
  obtain ⟨rest, hr⟩ := contains_iff.mp hc
  simp only [below, Key.mk.injEq, List.append_assoc, List.append_cancel_left_eq,
    List.cons_append, List.cons.injEq] at hr
  exact h hr.1

theorem walks_not_contained : Walks fun a b => b.contains a = false where
  down key segment path := by
    rw [Bool.eq_false_iff]
    intro hc
    obtain ⟨rest, hr⟩ := contains_iff.mp hc
    have hl := congrArg (fun k => k.segments.length) hr
    simp [below] at hl
  across key a b path other h := by
    refine key.not_contains_across path other ?_
    rintro rfl
    simp [Std.ReflCmp.compare_self] at h

theorem ne_of_not_contains {j k : Key} (h : j.contains k = false) : k ≠ j := by
  rintro rfl
  rw [Bool.eq_false_iff] at h
  exact h (contains_iff.mpr ⟨[], (below_nil k).symm⟩)

theorem not_isAncestorOf_of_not_contains {j k : Key} (h : j.contains k = false)
    : j.isAncestorOf k = false := by
  simp [isAncestorOf, h]

end Key

-----------------------------------------------------------------------------------------
-- Walks
-----------------------------------------------------------------------------------------

variable {r : Key → Key → Prop}

/-- A key before keys that are all reached through children. -/
theorem Key.Walks.before (hr : Key.Walks r) {key : Key} {own below : List Key}
    (ho : own = [] ∨ own = [key])
    (hb : ∀ k ∈ below, ∃ segment path, k = key.below (segment :: path)) (hp : below.Pairwise r)
    : (own ++ below).Pairwise r := by
  rw [List.pairwise_append]
  refine ⟨?_, hp, ?_⟩
  · rcases ho with rfl | rfl <;> simp
  · intro a ha k hk
    obtain ⟨segment, path, rfl⟩ := hb k hk
    rcases ho with rfl | rfl
    · cases ha
    · rw [List.mem_singleton.mp ha]
      exact hr.down key segment path

theorem Key.reached_flatMap {key : Key} {l : List (String × Node)} {g : String × Node → List Key}
    (h : ∀ e, (key.child e.1).Under (g e))
    : ∀ k ∈ l.flatMap g, ∃ segment path, k = key.below (segment :: path) := by
  intro k hk
  obtain ⟨e, -, hk⟩ := List.mem_flatMap.mp hk
  obtain ⟨path, rfl⟩ := (h e).of_child k hk
  exact ⟨e.1, path, rfl⟩

/-- Walks over the children one after the other make one walk. -/
theorem Forest.Ordered.pairwise_flatMap (hr : Key.Walks r) {f : Forest} (hf : f.Ordered)
    {key : Key} {g : String × Node → List Key} (hg : ∀ e, (key.child e.1).Under (g e))
    (hp : ∀ segment child, f.find? segment = some child → (g (segment, child)).Pairwise r)
    : (f.toList.flatMap g).Pairwise r := by
  rw [List.pairwise_flatMap]
  refine ⟨fun e he => hp e.1 e.2 (hf.mem_toList.mp he), hf.pairwise_toList.imp ?_⟩
  intro a b hab x hx y hy
  obtain ⟨path, rfl⟩ := (hg a).of_child x hx
  obtain ⟨other, rfl⟩ := (hg b).of_child y hy
  exact hr.across key a.1 b.1 path other hab

namespace Node

/-- Live keys are listed on a walk, by induction on nodes. -/
theorem pairwise_liveKeys (hr : Key.Walks r) {n : Node} (hn : n.AllShaped) (key : Key)
    : (n.liveKeys key).Pairwise r := by
  induction n using childInduction generalizing key with
  | step n ih =>
      rw [liveKeys_eq, Forest.liveKeys_eq_flatMap]
      split
      · exact .nil
      · have under (e : String × Node) := e.2.liveKeys_under (key.child e.1)
        refine hr.before (by cases n.isDummy <;> simp)
          (Key.reached_flatMap under) (hn.top.ordered.pairwise_flatMap hr under ?_)
        intro segment child hc
        exact ih (segment, child) (hn.top.ordered.mem_toList.mpr hc) (hn.child hc) _

/-- What is added is listed on one walk, by induction on nodes. -/
theorem pairwise_comparison_add (hr : Key.Walks r) {n m : Node} (hn : n.AllShaped)
    (hm : m.AllShaped) (key : Key)
    : (n.comparison key m).add.Pairwise r := by
  induction n using childInduction generalizing m key with
  | step n ih =>
      have own := (n.content.comparison_own key m.content).1
      rw [comparison_eq, TreeDiff.add_append]
      split
      · exact hr.before own (by simp) .nil
      · have under (e : String × Node) := (Forest.pairing_under key m.children e).1
        rw [TreeDiff.add_append, List.append_nil, Forest.comparison_add]
        refine hr.before own (Key.reached_flatMap under)
          (hn.top.ordered.pairwise_flatMap hr under ?_)
        intro segment child hc
        rw [Forest.pairing]
        cases ho : m.children.find? segment with
        | none => exact pairwise_liveKeys hr (hn.child hc) _
        | some other =>
            exact ih (segment, child) (hn.top.ordered.mem_toList.mpr hc) (hn.child hc)
              (hm.child ho) _

/-- Nothing that is removed comes after what is below it, by induction on nodes. Children that
both sides have and children that only theirs has are different children.
-/
theorem pairwise_comparison_remove {n m : Node} (hn : n.AllShaped) (hm : m.AllShaped) (key : Key)
    : (n.comparison key m).remove.Pairwise fun a b => b.contains a = false := by
  have walks := Key.walks_not_contained
  induction n using childInduction generalizing m key with
  | step n ih =>
      have own := (n.content.comparison_own key m.content).2
      rw [comparison_eq, TreeDiff.remove_append]
      split
      · exact walks.before own (by simp) .nil
      · have shared (e : String × Node) := (Forest.pairing_under key m.children e).2
        have theirs (e : String × Node)
            : (key.child e.1).Under
                (if (n.children.find? e.1).isNone then e.2.liveKeys (key.child e.1) else []) := by
          split
          · exact e.2.liveKeys_under _
          · exact Key.under_nil _
        rw [TreeDiff.remove_append, Forest.comparison_remove, Forest.unmatchedKeys_eq_flatMap]
        refine walks.before own ?_ (List.pairwise_append.mpr ⟨?_, ?_, ?_⟩)
        · intro k hk
          rcases List.mem_append.mp hk with hk | hk
          · exact Key.reached_flatMap shared k hk
          · exact Key.reached_flatMap theirs k hk
        · refine hn.top.ordered.pairwise_flatMap walks shared ?_
          intro segment child hc
          rw [Forest.pairing]
          cases ho : m.children.find? segment with
          | none => exact .nil
          | some other =>
              exact ih (segment, child) (hn.top.ordered.mem_toList.mpr hc) (hn.child hc)
                (hm.child ho) _
        · refine hm.top.ordered.pairwise_flatMap walks theirs ?_
          intro segment other ho
          dsimp only
          split
          · exact pairwise_liveKeys walks (hm.child ho) _
          · exact .nil
        · intro a ha b hb
          obtain ⟨⟨s, child⟩, he, ha⟩ := List.mem_flatMap.mp ha
          obtain ⟨⟨u, other⟩, -, hb⟩ := List.mem_flatMap.mp hb
          have hs := hn.top.ordered.mem_toList.mp he
          have hu : n.children.find? u = none := by
            by_contra h
            simp [h] at hb
          obtain ⟨path, rfl⟩ := (shared (s, child)).of_child a ha
          obtain ⟨rest, rfl⟩ := (theirs (u, other)).of_child b hb
          refine key.not_contains_across path rest ?_
          rintro rfl
          rw [hs] at hu
          cases hu

end Node

end Concord
