import Std.Data.ExtTreeMap

/-!
Text files that are addressed by paths relative to a directory. Of the directories outside of it
only those on the way up are known, and a path that leads to any other finds nothing there.
-/

namespace Concord

/-- Why a file could not be opened. -/
inductive FileFault where
  | notFound
  | notDirectory
  | isDirectory
  | nameTooLong
  /-- No file can have a name with the character of number zero. -/
  | nulInName
  /-- Something else, in the words of the system. -/
  | other (reason : String)
deriving DecidableEq, Repr

/-- The wording of a fault, with its number if the system has one for it. -/
def FileFault.message : FileFault → String
  | .notFound => "No such file or directory (os error 2)"
  | .notDirectory => "Not a directory (os error 20)"
  | .isDirectory => "Is a directory (os error 21)"
  | .nameTooLong => "File name too long (os error 36)"
  | .nulInName => "file name contained an unexpected NUL byte"
  | .other reason => reason

/-- Reads the text of the file at a path. -/
abbrev FileReader :=
  String → Except FileFault String

/-- The texts of files by the names that lead to them. Names that lead out of the directory start
with ".." for each step up, or with "/" from the top. -/
structure Files where
  texts : Std.ExtTreeMap (List String) String := ∅

/-- Where a path leads to. -/
inductive Place where
  | file (names : List String)
  | directory (names : List String)
deriving DecidableEq, Repr

namespace Files

/-- The longest name in bytes. -/
def longestName : Nat :=
  255

/-- The longest path in bytes. -/
def longestPath : Nat :=
  4095

/-- Whether names lead to a directory: some file is below it. -/
def isDirectory (f : Files) (names : List String) : Bool :=
  f.texts.toList.any fun entry => names.isPrefixOf entry.1 && names.length < entry.1.length

/-- The directory above one. The one at the top is above itself. -/
def above (names : List String) : List String :=
  if names = ["/"] then names
  else if names.all (· = "..") then names ++ [".."]
  else names.dropLast

/-- Where a name leads to from a place. -/
def enter (f : Files) (place : Place) (name : String) : Except FileFault Place :=
  match place with
  | .file _ => .error .notDirectory
  | .directory names =>
      if name = "." then .ok place
      else if name = ".." then .ok (.directory (above names))
      else if longestName < name.utf8ByteSize then .error .nameTooLong
      else if f.texts.contains (names ++ [name]) then .ok (.file (names ++ [name]))
      else if f.isDirectory (names ++ [name]) then .ok (.directory (names ++ [name]))
      else .error .notFound

/-- The names of a path. -/
def namesOf (path : String) : List String :=
  (path.splitOn "/").filter (· ≠ "")

/-- Refuses what cannot be a path at all. -/
def check (path : String) : Except FileFault Unit :=
  if path.toList.contains '\x00' then .error .nulInName
  else if path.isEmpty then .error .notFound
  else if longestPath < path.utf8ByteSize then .error .nameTooLong
  else .ok ()

/-- The directory that a path starts from: the one at the top if it starts with a slash. -/
def origin (path : String) : List String :=
  if path.startsWith "/" then ["/"] else []

/-- Where the names of a path lead to one after the other. -/
def follow (f : Files) (path : String) (names : List String) : Except FileFault Place :=
  names.foldlM f.enter (.directory (origin path))

/-- The text of the file at a path. One that ends with a slash leads to no file. -/
def read (f : Files) : FileReader := fun path => do
  check path
  match ← f.follow path (namesOf path) with
  | .file names =>
      if path.endsWith "/" then .error .notDirectory else .ok ((f.texts[names]?).getD "")
  | .directory _ => .error .isDirectory

/-- Whether a name stands for a directory wherever it is. -/
def isDots (name : String) : Bool :=
  name = "." || name = ".."

/-- Writes the file at a path anew. Its directory has to be there, and a path that ends with a slash
can only be that of a directory. -/
def write (f : Files) (path text : String) : Except FileFault Files := do
  check path
  match (namesOf path).getLast?, ← f.follow path (namesOf path).dropLast with
  | none, _ => .error .isDirectory
  | some _, .file _ => .error .notDirectory
  | some name, .directory names =>
      if isDots name || path.endsWith "/" then .error .isDirectory
      else
        match f.enter (.directory names) name with
        | .ok (.directory _) => .error .isDirectory
        | .ok (.file _) => .ok { f with texts := f.texts.insert (names ++ [name]) text }
        | .error .notFound => .ok { f with texts := f.texts.insert (names ++ [name]) text }
        | .error fault => .error fault

/-- The names that a path comes to if there are directories wherever it needs them. -/
def plainNames (path : String) : List String :=
  (namesOf path).foldl
    (fun names name =>
      if name = "." then names else if name = ".." then above names else names ++ [name])
    (origin path)

/-- The files with one more, whatever directories lead to it. -/
def put (f : Files) (path text : String) : Files :=
  { f with texts := f.texts.insert (plainNames path) text }

end Files

end Concord
