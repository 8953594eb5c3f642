import Std.Data.ExtTreeMap
import Std.Data.ExtTreeSet

/-!
Hierarchical keys: ordered paths of text segments whose prefixes name their ancestors. The first
segment is the root that every key of one tree shares. Keys order segment by segment, so an
ancestor sorts right before its descendants.
-/

namespace Concord

/-- A path of segments. -/
structure Key where
  segments : List String
deriving DecidableEq, Repr, Inhabited

namespace Key

/-- Segments compare by code point, keys lexicographically, and a prefix comes first. -/
instance : Ord Key :=
  ⟨compareOn Key.segments⟩

instance : Std.TransOrd Key :=
  inferInstanceAs (Std.TransCmp (compareOn Key.segments))

instance : Std.LawfulEqOrd Key where
  eq_of_compare {a b} h := by
    cases a; cases b
    exact congrArg Key.mk (Std.LawfulEqCmp.eq_of_compare (h : compare _ _ = .eq))

/-- The number of segments. -/
def depth (k : Key) : Nat :=
  k.segments.length

/-- Whether the key has no segments. -/
def isEmpty (k : Key) : Bool :=
  k.segments.isEmpty

/-- The first segment. -/
def root? (k : Key) : Option String :=
  k.segments.head?

/-- The last segment. -/
def leaf? (k : Key) : Option String :=
  k.segments.getLast?

/-- The part of the last segment before its first bar, which is the whole segment if it has
none. -/
def kind? (k : Key) : Option String :=
  k.leaf?.map fun leaf => String.ofList (leaf.toList.takeWhile (· ≠ '|'))

/-- The key of the first `n` segments, the key itself if it is shorter. -/
def take (k : Key) (n : Nat) : Key :=
  ⟨k.segments.take n⟩

/-- The key without its last segment; a key of at most one segment has no parent. -/
def parent? (k : Key) : Option Key :=
  if k.depth ≤ 1 then none else some ⟨k.segments.dropLast⟩

/-- The key one segment below `k`. -/
def child (k : Key) (segment : String) : Key :=
  ⟨k.segments ++ [segment]⟩

/-- The segment that leads from `parent` to `k`, where `k` is one of its children. -/
def segmentBelow? (k parent : Key) : Option String :=
  if k.parent? = some parent then k.leaf? else none

/-- Whether `k` is `other` or an ancestor of it. -/
def contains (k other : Key) : Bool :=
  k.segments.isPrefixOf other.segments

/-- Whether `k` is a strict ancestor of `other`. -/
def isAncestorOf (k other : Key) : Bool :=
  k.depth < other.depth && k.contains other

/-- The segments with slashes between them. -/
def toText (k : Key) : String :=
  String.intercalate "/" k.segments

end Key

/-- A set of keys. -/
abbrev KeySet :=
  Std.ExtTreeSet Key

end Concord
