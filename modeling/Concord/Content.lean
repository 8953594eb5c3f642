import Std.Data.ExtTreeMap
import Concord.Digest
import Concord.Key

/-!
What a tree node holds of its own, and the bytes that stand for it under the digest. Every
variable-length part of those bytes is preceded by its length and every scalar by a tag, so that
different contents have different bytes.
-/

namespace Concord

/-- An attribute value. -/
inductive Scalar where
  | null
  | bool (value : Bool)
  | int (value : Int64)
  | text (value : String)
deriving DecidableEq, Repr

namespace Scalar

/-- The value as people read it, without quotes. -/
def toText : Scalar → String
  | .null => "null"
  | .bool value => if value then "true" else "false"
  | .int value => toString value.toInt
  | .text value => value

/-- The place of the value's form among the forms: null, truth values, integers, texts. -/
def rank : Scalar → Nat
  | .null => 0
  | .bool _ => 1
  | .int _ => 2
  | .text _ => 3

/-- Values order by form first, then within the form; `false` is below `true`. -/
def le : Scalar → Scalar → Bool
  | .bool a, .bool b => !a || b
  | .int a, .int b => a ≤ b
  | .text a, .text b => (compare a b).isLE
  | a, b => a.rank ≤ b.rank

end Scalar

/-- The properties of a resource by name. -/
abbrev Attributes :=
  Std.ExtTreeMap String Scalar

/-- Tags of a node by name. They are never part of its digest. -/
abbrev Metadata :=
  Std.ExtTreeMap String String

/-- What a node holds apart from its place in the tree. A `dummy` only holds up the nodes below
it; a node flagged `error` keeps its subtree out of comparisons. -/
structure Content where
  attributes : Attributes := ∅
  metadata : Metadata := ∅
  dummy : Bool := false
  error : Bool := false
deriving DecidableEq

namespace Content

/-- The content of a node that was never written: no attributes, no tags, a dummy. -/
def placeholder : Content :=
  { dummy := true }

/-- New attributes and tags; the node is no dummy from then on, and its error flag stays. -/
def write (c : Content) (attributes : Attributes) (metadata : Metadata) : Content :=
  { c with attributes, metadata, dummy := false }

/-- The attributes are gone and a dummy is left; tags and error flag stay. -/
def tombstone (c : Content) : Content :=
  { c with attributes := ∅, dummy := true }

end Content

namespace Encoding

/-- A length as eight bytes, most significant first. -/
def length (n : Nat) : List UInt8 :=
  Digest.bigEndian 8 n

/-- The UTF-8 bytes of a text. -/
def utf8 (s : String) : List UInt8 :=
  s.toUTF8.data.toList

/-- A text after its length in bytes. -/
def text (s : String) : List UInt8 :=
  length (utf8 s).length ++ utf8 s

/-- A truth value as one byte. -/
def flag (b : Bool) : UInt8 :=
  if b then 1 else 0

/-- A value after the tag of its form; integers are eight bytes in two's complement. -/
def scalar : Scalar → List UInt8
  | .null => [0]
  | .bool value => [1, flag value]
  | .int value => 2 :: Digest.bigEndian 8 value.toUInt64.toNat
  | .text value => 3 :: text value

/-- A key: the number of its segments, then each of them. -/
def key (k : Key) : List UInt8 :=
  length k.depth ++ k.segments.flatMap text

/-- Attributes: their number, then name and value of each in name order. -/
def attributes (a : Attributes) : List UInt8 :=
  length a.size ++ a.toList.flatMap fun entry => text entry.1 ++ scalar entry.2

/-- What is digested for a node's own hash: its key, attributes and two flags, but no tags. -/
def content (k : Key) (c : Content) : List UInt8 :=
  key k ++ attributes c.attributes ++ [flag c.dummy, flag c.error]

/-- What is digested for the hash of a node with children: its own hash, then theirs in order. -/
def subtree (partialHash : String) (children : List String) : List UInt8 :=
  utf8 partialHash ++ children.flatMap utf8

end Encoding

end Concord
