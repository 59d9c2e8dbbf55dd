import ModelText.Source.Basic
import ModelText.Source.Files

/-!
# Units in a directory

The units of a directory are its files of one extension. A unit is named by the
directories on the way to its file and the stem of the file, with dots between
them; a name that is itself the path of a file means that file.
-/

namespace ModelText

/-- A directory of units. -/
structure UnitDirectory where
  /-- The path of the directory. -/
  root : String
  /-- The extension of its units. -/
  extension : String
  deriving DecidableEq, Inhabited

namespace UnitDirectory

/-- The path of the file of a unit whose name is not itself a path: each dot in
the name leads one directory further. -/
def dottedPath (d : UnitDirectory) (name : String) : String :=
  Path.withExtension ((Text.splitOn '.' name).foldl Path.join d.root)
    d.extension

/-- The path of the file of a unit. -/
def path (d : UnitDirectory) (files : Files) (name : String) : String :=
  let direct := Path.join d.root name
  if files.isFile direct then direct else d.dottedPath name

/-- The text of a unit. -/
def fetch (d : UnitDirectory) (files : Files) (name : String) :
    Option String :=
  (files.readText (d.path files name)).toOption

/-- The directory as a supply of texts. -/
def sources (d : UnitDirectory) (files : Files) : Sources where
  fetch := d.fetch files
  texts := files.texts
  mem_texts {name text} h := by
    unfold fetch at h
    cases hr : files.readText (d.path files name) with
    | error e => simp [hr, Except.toOption] at h
    | ok found =>
      obtain rfl : found = text := by simpa [hr, Except.toOption] using h
      exact Files.readText_mem_texts hr

/-- The name of a unit or directory inside the one named `outer`; the topmost
directory has no name. -/
def innerName (outer entry : String) : String :=
  if outer = "" then Path.stem entry else outer ++ "." ++ Path.stem entry

/-- The name of the unit in a file, if the file has the extension. -/
def namesOfFile (extension outer entry : String) : List String :=
  if Path.extension? entry = some extension then [innerName outer entry]
  else []

mutual

/-- The names of the units in an entry of the directory named `outer`, which
lies at `path`. A directory whose own path is too long is not seen to be
one. -/
def namesInEntry (extension path outer entry : String) :
    FileTree → List String
  | .file _ => namesOfFile extension outer entry
  | .directory entries =>
    let inner := Path.join path entry
    if Path.isTooLong inner then namesOfFile extension outer entry
    else namesIn extension inner (innerName outer entry) entries

/-- The names of the units in the directory named `outer`, which lies at
`path`. -/
def namesIn (extension path outer : String) :
    List (String × FileTree) → List String
  | [] => []
  | (entry, tree) :: rest =>
    namesInEntry extension path outer entry tree ++
      namesIn extension path outer rest

end

/-- The names of all units, in the order of the names of their files. What is
not a directory has none. -/
def names (d : UnitDirectory) (tree : FileTree) : List String :=
  match tree.sorted.subtree d.root with
  | .ok (.directory entries) => namesIn d.extension d.root "" entries
  | _ => []

end UnitDirectory

end ModelText
