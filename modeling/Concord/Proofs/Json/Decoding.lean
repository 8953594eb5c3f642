import Mathlib.Data.List.Basic
import Concord.Json.Decoder

/-! Decoding what was encoded. Lists, maps and records of fields are decoded to what they were made
of, as long as one more array or object may be open, and are refused otherwise.
-/

namespace Concord.Decoder

-----------------------------------------------------------------------------------------
-- Lists
-----------------------------------------------------------------------------------------

/-- Encoded items are all decoded if each of them is, by list induction. -/
theorem mapM_map {f : α → β} {d : β → Option α} {l : List α} (each : ∀ a ∈ l, d (f a) = some a)
    : (l.map f).mapM d = some l := by
  induction l with
  | nil => rfl
  | cons a rest ih =>
      obtain ⟨here, below⟩ := List.forall_mem_cons.mp each
      simp [List.mapM_cons, here, ih below]

/-- Encoded items are refused if one of them is, by list induction. -/
theorem mapM_eq_none {d : α → Option β} {l : List α} {a : α} (member : a ∈ l)
    (refused : d a = none)
    : l.mapM d = none := by
  induction l with
  | nil => cases member
  | cons b rest ih =>
      rw [List.mapM_cons]
      rcases List.mem_cons.mp member with rfl | member
      · simp [refused]
      · cases d b <;> simp [ih member]

theorem list_ofList {f : α → Json} {d : Decoder α} {depth : Nat} {l : List α}
    (each : ∀ a ∈ l, d depth (f a) = some a)
    : list d (depth + 1) (.ofList f l) = some l :=
  mapM_map each

-----------------------------------------------------------------------------------------
-- Maps
-----------------------------------------------------------------------------------------

theorem foldl_insert (l : List (String × α)) (m : Std.ExtTreeMap String α)
    : l.foldl (fun found entry => found.insert entry.1 entry.2) m = m.insertMany l := by
  induction l generalizing m with
  | nil => rw [List.foldl_nil, Std.ExtTreeMap.insertMany_nil]
  | cons e rest ih => rw [List.foldl_cons, ih, Std.ExtTreeMap.insertMany_cons]

/-- The entries of a map make up the same map. -/
theorem ofList_toList (m : Std.ExtTreeMap String α) : Std.ExtTreeMap.ofList m.toList = m := by
  refine Std.ExtTreeMap.ext_getElem? fun name => ?_
  cases found : m[name]? with
  | some value =>
      exact Std.ExtTreeMap.getElem?_ofList_of_mem Std.ReflCmp.compare_self
        Std.ExtTreeMap.distinct_keys_toList
        (Std.ExtTreeMap.mem_toList_iff_getElem?_eq_some.mpr found)
  | none =>
      refine Std.ExtTreeMap.getElem?_ofList_of_contains_eq_false ?_
      rw [Bool.eq_false_iff]
      intro present
      obtain ⟨⟨_, value⟩, entry, rfl⟩ := List.mem_map.mp (List.contains_iff_mem.mp present)
      rw [Std.ExtTreeMap.mem_toList_iff_getElem?_eq_some.mp entry] at found
      cases found

/-- A map is decoded from the object of its entries in name order. -/
theorem dict_record {f : α → Json} {d : Decoder α} {depth : Nat} {m : Std.ExtTreeMap String α}
    (each : ∀ a, d depth (f a) = some a)
    : dict d (depth + 1) (.record (m.toList.map fun e => (e.1, f e.2))) = some m := by
  have entries
      : ((m.toList.map fun e => (e.1, f e.2)).map fun e => (some e.1, e.2)).mapM
          (fun e => do return (← e.1, ← d depth e.2))
        = some m.toList := by
    rw [List.map_map]
    exact mapM_map fun e _ => by simp [each]
  rw [Json.record, dict, entries]
  simp only [Option.bind_eq_bind, Option.bind_some, foldl_insert]
  rw [← Std.ExtTreeMap.ofList_eq_insertMany_empty, ofList_toList]
  rfl

-----------------------------------------------------------------------------------------
-- Records and numbers
-----------------------------------------------------------------------------------------

/-- The fields of an object are all its members, where each name is known and given once. -/
theorem fields?_record {names : List String} {members : List (String × Json)} (depth : Nat)
    (known : ∀ m ∈ members, m.1 ∈ names) (distinct : (members.map Prod.fst).Nodup)
    : fields? names (depth + 1) (.record members) = some ⟨depth, members⟩ := by
  have named : (members.map fun m => (some m.1, m.2)).mapM
        (fun m => do return (← m.1, m.2))
      = some members :=
    mapM_map fun m _ => rfl
  have all : members.filter (fun m => names.contains m.1) = members :=
    List.filter_eq_self.mpr fun m hm => List.contains_iff_mem.mpr (known m hm)
  rw [Json.record, fields?, known?, named]
  simp only [Option.bind_eq_bind, Option.bind_some, all, distinct, if_true, Option.map_some]

/-- An integer of a range of signed sixty-four bit numbers is decoded from its digits. -/
theorem int_ofInt {i low high : Int} (depth : Nat) (within : low ≤ i ∧ i ≤ high)
    (least : Int64.minValue.toInt ≤ low) (most : high < UInt64.size)
    : int low high depth (.ofInt i) = some i := by
  have number : (Json.Number.ofInt i).toInt? = some i := by
    have range : Int64.minValue.toInt ≤ i ∧ i < UInt64.size := by omega
    have magnitude : (if i < 0 then -(i.natAbs : Int) else i.natAbs) = i := by
      split <;> omega
    rw [Json.Number.toInt?, if_neg (by simp [Json.Number.ofInt]; omega)]
    simp only [Json.Number.ofInt, decide_eq_true_eq, magnitude, if_pos range]
  rw [Json.ofInt, int, number, Option.bind_some, if_pos within]

end Concord.Decoder
