import ModelText.Source.Path

/-!
# Files

A `FileTree` is a directory with all that is in it, and `FileTree.find` follows
a path through it. What a program sees of a file system is less than the tree:
for each path the content of a file or the reason why there is none. That view
is `Files`; like a supply of texts it knows all the contents it can give.
-/

namespace ModelText

/-- Why a path gives no text. -/
inductive FileFault where
  /-- There is nothing at the path. -/
  | missing
  /-- The path leads on from a file. -/
  | notDirectory
  /-- There is a directory at the path. -/
  | isDirectory
  /-- The file may not be read. -/
  | denied
  /-- The path has a zero character, which no path may have. -/
  | zeroInPath
  /-- The path is too long, or one of its parts is. -/
  | nameTooLong
  /-- The content of the file is no encoded text. -/
  | notText
  deriving DecidableEq, Inhabited

/-- The reason in words. -/
def FileFault.message : FileFault → String
  | .missing => "No such file or directory (os error 2)"
  | .notDirectory => "Not a directory (os error 20)"
  | .isDirectory => "Is a directory (os error 21)"
  | .denied => "Permission denied (os error 13)"
  | .zeroInPath => "file name contained an unexpected NUL byte"
  | .nameTooLong => "File name too long (os error 36)"
  | .notText => "stream did not contain valid UTF-8"

/-- What a program sees of a file system. -/
structure Files where
  /-- The content of the file at a path. -/
  find : String → Except FileFault ByteArray
  /-- The contents of all files. -/
  contents : List ByteArray
  /-- There are no other contents. -/
  mem_contents : ∀ {path content}, find path = .ok content → content ∈ contents

namespace Files

theorem mem_of_lookup {α : Type} {entries : List (String × α)} {name : String}
    {value : α} (h : entries.lookup name = some value) :
    (name, value) ∈ entries := by
  induction entries with
  | nil => simp at h
  | cons entry rest ih =>
    obtain ⟨other, first⟩ := entry
    rw [List.lookup_cons] at h
    split at h
    · rename_i he
      obtain rfl : first = value := by simpa using h
      simp [eq_of_beq he]
    · exact List.mem_cons_of_mem _ (ih h)

/-- Whether there is a file at a path. -/
def isFile (f : Files) (path : String) : Bool :=
  match f.find path with
  | .ok _ => true
  | .error _ => false

/-- Whether there is a file or a directory at a path. -/
def isPresent (f : Files) (path : String) : Bool :=
  match f.find path with
  | .ok _ => true
  | .error e => e = .isDirectory || e = .denied

/-- The text of the file at a path. -/
def readText (f : Files) (path : String) : Except FileFault String := do
  let content ← f.find path
  match String.fromUTF8? content with
  | some text => return text
  | none => throw .notText

/-- The files that were looked up beforehand; there are no others. -/
def ofList (found : List (String × Except FileFault ByteArray)) : Files where
  find path := (found.lookup path).getD (.error .missing)
  contents := found.filterMap fun (_, content) => content.toOption
  mem_contents {path content} h := by
    refine List.mem_filterMap.2 ⟨(path, .ok content), ?_, rfl⟩
    cases hl : found.lookup path with
    | none => simp [hl] at h
    | some value =>
      obtain rfl : value = .ok content := by simpa [hl] using h
      exact mem_of_lookup hl

/-- The texts of all files that hold one. -/
def texts (f : Files) : List String := f.contents.filterMap String.fromUTF8?

theorem readText_mem_texts {f : Files} {path text : String}
    (h : f.readText path = .ok text) : text ∈ f.texts := by
  unfold readText at h
  cases hf : f.find path with
  | error e => rw [hf] at h; cases h
  | ok content =>
    rw [hf] at h
    refine List.mem_filterMap.2 ⟨content, f.mem_contents hf, ?_⟩
    cases ht : String.fromUTF8? content with
    | none => simp [ht, bind, Except.bind, throw, throwThe, MonadExceptOf.throw]
        at h
    | some found => simpa [ht, bind, Except.bind, pure, Except.pure] using h

end Files

/-- A file with its content, or a directory with its named entries. -/
inductive FileTree where
  | file (content : ByteArray)
  | directory (entries : List (String × FileTree))

namespace FileTree

mutual

/-- The contents of all files. -/
def contents : FileTree → List ByteArray
  | .file content => [content]
  | .directory entries => entryContents entries

/-- The contents of all files in a directory. -/
def entryContents : List (String × FileTree) → List ByteArray
  | [] => []
  | (_, tree) :: rest => tree.contents ++ entryContents rest

end

/-- The directories around a tree: nothing is found in them. -/
def outside : FileTree := .directory []

/-- The tree at the end of a path, given by its parts, that starts at `here`;
`above` are the directories around it, the nearest first, and around them is
the outside. Whether a part is too long shows only in the directory where its
entry should be. -/
def follow (above : List FileTree) (here : FileTree) :
    List String → Except FileFault FileTree
  | [] => .ok here
  | part :: rest =>
    match here with
    | .file _ => .error .notDirectory
    | .directory entries =>
      if Path.isStay part then follow above here rest
      else if part = ".." then
        match above with
        | [] => follow [] outside rest
        | outer :: further => follow further outer rest
      else if Path.isPartTooLong part then .error .nameTooLong
      else
        match entries.lookup part with
        | none => .error .missing
        | some inner => follow (here :: above) inner rest

/-- The tree at the end of a path. The tree is where a program runs, and where it
lies itself is not said: an absolute path starts outside, where nothing is found.
The empty path leads nowhere. -/
def subtree (t : FileTree) (path : String) : Except FileFault FileTree :=
  if path.toList.contains '\x00' then .error .zeroInPath
  else if Path.isTooLong path then .error .nameTooLong
  else if path = "" then .error .missing
  else if Path.isAbsolute path then outside.follow [] (Text.splitOn '/' path)
  else t.follow [] (Text.splitOn '/' path)

/-- The content of the file at a path. -/
def find (t : FileTree) (path : String) : Except FileFault ByteArray := do
  match ← t.subtree path with
  | .file content => return content
  | .directory _ => throw .isDirectory

theorem contents_of_lookup {entries : List (String × FileTree)} {name : String}
    {tree : FileTree} (h : entries.lookup name = some tree) :
    ∀ content ∈ tree.contents, content ∈ entryContents entries := by
  induction entries with
  | nil => simp at h
  | cons entry rest ih =>
    obtain ⟨other, first⟩ := entry
    rw [List.lookup_cons] at h
    intro content hc
    simp only [entryContents, List.mem_append]
    split at h
    · cases h
      exact .inl hc
    · exact .inr (ih h content hc)

/-- Following a path leads to no contents but those one started among. -/
theorem follow_contents {all : List ByteArray} {parts : List String}
    {above : List FileTree} {here found : FileTree}
    (ha : ∀ t ∈ above, ∀ content ∈ t.contents, content ∈ all)
    (hh : ∀ content ∈ here.contents, content ∈ all)
    (h : follow above here parts = .ok found) :
    ∀ content ∈ found.contents, content ∈ all := by
  induction parts generalizing above here with
  | nil =>
    cases h
    exact hh
  | cons part rest ih =>
    unfold follow at h
    split at h
    · cases h
    · rename_i entries
      split at h
      · exact ih ha hh h
      · split at h
        · split at h
          · exact ih (by simp) (by simp [outside, contents, entryContents]) h
          · rename_i outer further
            exact ih (fun t ht => ha t (List.mem_cons_of_mem _ ht))
              (ha outer List.mem_cons_self) h
        · split at h
          · cases h
          · split at h
            · cases h
            · rename_i inner hl
              refine ih (fun t ht => ?_) (fun c hc => ?_) h
              · rcases List.mem_cons.1 ht with rfl | ht
                · exact hh
                · exact ha t ht
              · exact hh c
                  (by simpa [contents] using contents_of_lookup hl c hc)

theorem find_mem_contents {t : FileTree} {path : String} {content : ByteArray}
    (h : t.find path = .ok content) : content ∈ t.contents := by
  unfold find at h
  cases hs : t.subtree path with
  | error e => rw [hs] at h; cases h
  | ok found =>
    rw [hs] at h
    unfold subtree at hs
    split at hs
    · cases hs
    split at hs
    · cases hs
    split at hs
    · cases hs
    cases found with
    | directory entries => cases h
    | file c =>
      cases h
      have hc : content ∈ (FileTree.file content).contents := by
        simp [contents]
      split at hs
      · refine follow_contents (by simp) (fun other hm => ?_) hs content hc
        simp [outside, contents, entryContents] at hm
      · exact follow_contents (by simp) (fun _ => id) hs content hc

/-- The tree as a program sees it. -/
def files (t : FileTree) : Files where
  find := t.find
  contents := t.contents
  mem_contents := find_mem_contents

mutual

/-- The tree with the entries of each directory in the order of their names,
compared character by character. -/
def sorted : FileTree → FileTree
  | .file content => .file content
  | .directory entries =>
    .directory ((sortedEntries entries).mergeSort fun a b => a.1 ≤ b.1)

/-- Named trees, each sorted. -/
def sortedEntries : List (String × FileTree) → List (String × FileTree)
  | [] => []
  | (name, tree) :: rest => (name, tree.sorted) :: sortedEntries rest

end

/-- The empty directory. -/
def empty : FileTree := .directory []

instance : Inhabited FileTree := ⟨empty⟩

/-- Puts a tree at the end of a path, given by its parts, and the directories
on the way there; what was at the end before is replaced. -/
def put (tree : FileTree) : List String → FileTree → FileTree
  | [], _ => tree
  | part :: rest, .file _ => .directory [(part, put tree rest empty)]
  | part :: rest, .directory entries =>
    let inner := put tree rest ((entries.lookup part).getD empty)
    .directory (entries.filter (·.1 != part) ++ [(part, inner)])

end FileTree

end ModelText
