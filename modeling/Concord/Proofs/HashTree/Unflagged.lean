import Concord.Proofs.HashTree.CanonicalForm
import Concord.Proofs.HashTree.Contents
import Concord.Proofs.HashTree.Drift

/-! Trees without flags. Only a change that sets a flag brings one into a tree, and unflagged trees
that hold the same agree in all nodes and hashes, whatever changes led to them.
-/

namespace Concord

/-- The change is one of a flag. -/
def TreeEvent.flags : TreeEvent → Bool
  | .markError _ _ => true
  | .upsert _ _ _ | .delete _ => false

namespace HashTree

variable {t u : HashTree} {root : String} {k : Key}

theorem unflagged_iff : t.Unflagged ↔ ∀ k c, t.content? k = some c → c.error = false := by
  constructor
  · intro h k c hc
    obtain ⟨n, hn, rfl⟩ := Option.map_eq_some_iff.mp hc
    exact h k n hn
  · intro h k n hn
    exact h k n.content (by rw [content?, hn]; rfl)

theorem Unflagged.addWith (h : t.Unflagged) (rooted : t.RootedAt root) (hk : k.root? = some root)
    {attributes : Attributes} {metadata : Metadata}
    (added : t.addWith k attributes metadata = .ok u)
    : u.Unflagged := by
  rw [unflagged_iff] at h ⊢
  intro j c hc
  obtain ⟨v, hv, contents⟩ := content?_addWith rooted hk attributes metadata
  cases hv.symm.trans added
  rw [contents] at hc
  split at hc
  · cases hc
    cases hn : t.content? k with
    | none => rfl
    | some old => exact h k old hn
  · split at hc
    · cases hn : t.content? j with
      | none =>
          rw [hn] at hc
          cases hc
          rfl
      | some old =>
          rw [hn] at hc
          cases hc
          exact h j _ hn
    · exact h j c hc

theorem Unflagged.clear (h : t.Unflagged) (ht : t.Shaped) (k : Key) : (t.clear k).Unflagged := by
  cases hn : t.find? k with
  | none =>
      rw [clear_of_absent hn]
      exact h
  | some n =>
      have here := h k n hn
      rw [unflagged_iff] at h ⊢
      intro j c hc
      rw [content?_clear ht hn] at hc
      split at hc
      · split at hc
        · cases hc
        · exact h j c hc
      · split at hc
        · cases hc
          exact here
        · exact h j c hc

/-- A change that is not one of a flag flags nothing. -/
theorem Unflagged.apply {e : TreeEvent} (h : t.Unflagged) (ht : t.Shaped) (rooted : t.RootedAt root)
    (fits : e.Fits root) (plain : e.flags = false) (applied : t.apply e = .ok u)
    : u.Unflagged := by
  cases e with
  | upsert key attributes metadata => exact h.addWith rooted fits applied
  | delete key =>
      cases applied
      rw [discard_eq_clear]
      exact h.clear ht key
  | markError key error => cases plain

/-- Unflagged trees that hold the same agree. -/
theorem Unflagged.agree (h : t.Unflagged) (h' : u.Unflagged) (ht : t.WellFormed)
    (hu : u.WellFormed) (live : ∀ k, t.live? k = u.live? k)
    : t.Agree u := by
  refine agree_of_live ht hu live fun k => ?_
  have plain {t : HashTree} (h : t.Unflagged) : t.flagged k = false := by
    rw [flagged, Option.any_eq_false]
    intro n hn
    simp [h k n hn]
  rw [plain h, plain h']

end HashTree

end Concord
