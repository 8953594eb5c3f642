import Concord.Document.Files
import Concord.Proofs.HashTree.RecordShapes
import Mathlib.Data.List.Basic

/-! Files that were written. Writing a file takes no directory away that the path leads through: the
name was that of a file before, or of nothing. Main statement: a file that was written is read back.
-/

namespace Concord.Files

variable {f : Files} {target names : List String} {path text name : String} {place : Place}

/-- The files with the text of one of them written anew. -/
def overwrite (f : Files) (target : List String) (text : String) : Files :=
  { f with texts := f.texts.insert target text }

theorem getElem?_overwrite (names : List String)
    : (f.overwrite target text).texts[names]?
      = if target = names then some text else f.texts[names]? := by
  simp [overwrite, Std.ExtTreeMap.getElem?_insert]

theorem contains_overwrite (names : List String)
    : (f.overwrite target text).texts.contains names
      = (decide (target = names) || f.texts.contains names) := by
  rw [← Std.ExtTreeMap.isSome_getElem?_eq_contains, ← Std.ExtTreeMap.isSome_getElem?_eq_contains,
    getElem?_overwrite]
  split <;> simp [*]

/-- What was a directory is one after a file was written. -/
theorem isDirectory_overwrite (h : f.isDirectory names = true)
    : (f.overwrite target text).isDirectory names = true := by
  obtain ⟨entry, member, below⟩ := List.any_eq_true.mp h
  rw [Std.ExtTreeMap.mem_toList_iff_getElem?_eq_some] at member
  have kept : (f.overwrite target text).texts[entry.1]?.isSome := by
    rw [getElem?_overwrite]
    split
    · rfl
    · rw [member]
      rfl
  obtain ⟨now, found⟩ := Option.isSome_iff_exists.mp kept
  exact List.any_eq_true.mpr
    ⟨(entry.1, now), Std.ExtTreeMap.mem_toList_iff_getElem?_eq_some.mpr found, below⟩

/-- Dots lead to the same place among any files. -/
theorem enter_dots (g : Files) (dots : isDots name = true)
    : g.enter place name = f.enter place name := by
  cases place with
  | file _ => rfl
  | directory start =>
      rcases (by simpa [isDots] using dots : name = "." ∨ name = "..") with rfl | rfl <;> rfl

/-- Any other name leads to what is below a directory under it. -/
theorem enter_below {start : List String} (plain : isDots name = false)
    : f.enter (.directory start) name
      = if longestName < name.utf8ByteSize then .error .nameTooLong
        else if f.texts.contains (start ++ [name]) then .ok (.file (start ++ [name]))
        else if f.isDirectory (start ++ [name]) then .ok (.directory (start ++ [name]))
        else .error .notFound := by
  obtain ⟨dot, dots⟩ : name ≠ "." ∧ name ≠ ".." := by simpa [isDots] using plain
  rw [enter, if_neg dot, if_neg dots]

/-- Where a name led to a directory it does so after a file was written, unless the file was written
in the place of a directory. -/
theorem enter_overwrite (free : f.texts.contains target = true ∨ f.isDirectory target = false)
    (entered : f.enter place name = .ok (.directory names))
    : (f.overwrite target text).enter place name = .ok (.directory names) := by
  cases dots : isDots name with
  | true => rw [enter_dots _ dots, entered]
  | false =>
      cases place with
      | file _ => cases entered
      | directory start =>
          rw [enter_below dots] at entered ⊢
          split_ifs at entered with long file directory <;> cases entered
          have apart : target ≠ start ++ [name] := by
            rintro rfl
            simp [file, directory] at free
          simp [long, contains_overwrite, apart, file, isDirectory_overwrite directory]

/-- Names that lead to a directory lead through directories alone. -/
theorem follow_cons {way : List String}
    (followed : (name :: way).foldlM f.enter place = .ok (.directory names))
    : ∃ next, f.enter place name = .ok (.directory next)
      ∧ way.foldlM f.enter (.directory next) = .ok (.directory names) := by
  rw [List.foldlM_cons] at followed
  cases entered : f.enter place name with
  | error fault =>
      rw [entered] at followed
      cases followed
  | ok next =>
      rw [entered] at followed
      cases next with
      | directory next => exact ⟨next, rfl, followed⟩
      | file next => cases way <;> cases followed

/-- The names of a path lead to the same directory after a file was written, by induction on
them. -/
theorem follow_overwrite (free : f.texts.contains target = true ∨ f.isDirectory target = false)
    {way : List String} (followed : way.foldlM f.enter place = .ok (.directory names))
    : way.foldlM (f.overwrite target text).enter place = .ok (.directory names) := by
  induction way generalizing place with
  | nil => exact followed
  | cons name rest ih =>
      obtain ⟨next, entered, later⟩ := follow_cons followed
      rw [List.foldlM_cons, enter_overwrite free entered]
      exact ih later

/-- A file is written where the directory of its path is there: at its name, which no directory
has. -/
theorem write_eq_ok {after : Files} (written : f.write path text = .ok after)
    : ∃ directory name, check path = .ok () ∧ path.endsWith "/" = false
      ∧ (namesOf path).getLast? = some name ∧ isDots name = false
      ∧ ¬ longestName < name.utf8ByteSize
      ∧ f.follow path (namesOf path).dropLast = .ok (.directory directory)
      ∧ (f.texts.contains (directory ++ [name]) = true
        ∨ f.isDirectory (directory ++ [name]) = false)
      ∧ after = f.overwrite (directory ++ [name]) text := by
  obtain ⟨_, checked, written⟩ := bind_eq_ok_iff.mp written
  obtain ⟨place, followed, written⟩ := bind_eq_ok_iff.mp written
  cases last : (namesOf path).getLast? with
  | none =>
      rw [last] at written
      cases written
  | some name =>
      rw [last] at written
      cases place with
      | file _ => cases written
      | directory directory =>
          by_cases refused : (isDots name || path.endsWith "/") = true
          · simp only [refused, if_true] at written
            cases written
          · obtain ⟨plain, file⟩ : isDots name = false ∧ path.endsWith "/" = false := by
              simpa using refused
            simp only [plain, file, Bool.or_false, Bool.false_eq_true, if_false,
              enter_below plain] at written
            split_ifs at written with long known above <;> cases written
            · exact ⟨directory, name, checked, file, rfl, plain, long, followed, .inl known, rfl⟩
            · have free : f.isDirectory (directory ++ [name]) = false := by simpa using above
              exact ⟨directory, name, checked, file, rfl, plain, long, followed, .inr free, rfl⟩

/-- A file that was written is read back. -/
theorem read_of_write {after : Files} (written : f.write path text = .ok after)
    : after.read path = .ok text := by
  obtain ⟨directory, name, checked, file, last, plain, short, followed, free, rfl⟩ :=
    write_eq_ok written
  have entered : (f.overwrite (directory ++ [name]) text).enter (.directory directory) name
      = .ok (.file (directory ++ [name])) := by
    rw [enter_below plain, if_neg short, if_pos (by simp [contains_overwrite])]
  have reached : (f.overwrite (directory ++ [name]) text).follow path (namesOf path)
      = .ok (.file (directory ++ [name])) := by
    have way := List.dropLast_append_getLast? name last
    rw [follow, ← way, List.foldlM_append, follow_overwrite free followed]
    exact (bind_pure _).trans entered
  have held : (f.overwrite (directory ++ [name]) text).texts[directory ++ [name]]? = some text := by
    rw [getElem?_overwrite, if_pos rfl]
  rw [read, checked, reached]
  simp only [bind, Except.bind, file, held, Bool.false_eq_true, if_false, Option.getD_some]

end Concord.Files
