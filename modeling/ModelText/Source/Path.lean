import ModelText.Text.Split

/-!
# Paths

A path names a file by the directories on the way to it, with a slash between
them. Paths are put together and changed here as texts, without a look at any
directory: what a path leads to is another question.
-/

namespace ModelText.Path

/-- Whether a path starts at the top of all directories. -/
def isAbsolute (path : String) : Bool := path.toList.head? == some '/'

/-- The path that leads on along `name`. An absolute path leads nowhere else
than by itself. -/
def join (path name : String) : String :=
  if isAbsolute name then name
  else if path.toList.getLast?.all (· == '/') then path ++ name
  else path ++ "/" ++ name

/-- Whether a path is too long to be followed, in bytes. -/
def isTooLong (path : String) : Bool := 4095 < path.utf8ByteSize

/-- Whether a part of a path is too long to name something, in bytes. -/
def isPartTooLong (part : String) : Bool := 255 < part.utf8ByteSize

/-- What stands before and behind the last dot of a name. -/
def cutAtLastDot : List Char → Option (List Char × List Char)
  | [] => none
  | c :: rest =>
    match cutAtLastDot rest with
    | some (before, after) => some (c :: before, after)
    | none => if c = '.' then some ([], rest) else none

/-- A file name without its extension, and the extension. A name whose only
dot is its first character has none. -/
def stemAndExtension (name : String) : String × Option String :=
  match cutAtLastDot name.toList with
  | some (b :: before, after) =>
    (String.ofList (b :: before), some (String.ofList after))
  | _ => (name, none)

/-- A file name without its extension. -/
def stem (name : String) : String := (stemAndExtension name).1

/-- The extension of a file name. -/
def extension? (name : String) : Option String := (stemAndExtension name).2

/-- Whether a part of a path stays where it is. -/
def isStay (part : String) : Bool := part = "" || part = "."

/-- The path with another extension, which is put in place of the one it has.
Parts at the end that stay where they are do not count; a path that then ends
nowhere or one level up keeps its form. -/
def withExtension (path extension : String) : String :=
  match (Text.splitOn '/' path).reverse.dropWhile isStay with
  | [] => path
  | last :: before =>
    if last = ".." then path
    else
      let ending := if extension = "" then "" else "." ++ extension
      "/".intercalate (before.reverse ++ [stem last ++ ending])

theorem cutAtLastDot_eq_some {name before after : List Char}
    (h : cutAtLastDot name = some (before, after)) :
    name = before ++ '.' :: after ∧ '.' ∉ after := by
  induction name generalizing before with
  | nil => simp [cutAtLastDot] at h
  | cons c rest ih =>
    unfold cutAtLastDot at h
    split at h
    · rename_i b a hr
      obtain ⟨rfl, rfl⟩ : c :: b = before ∧ a = after := by simpa using h
      simpa using ih hr
    · rename_i hr
      split at h
      · rename_i hc
        obtain ⟨rfl, rfl⟩ : [] = before ∧ rest = after := by simpa using h
        refine ⟨by simp [hc], ?_⟩
        clear ih h
        induction rest with
        | nil => simp
        | cons d rest ih =>
          unfold cutAtLastDot at hr
          split at hr
          · simp at hr
          · rename_i hr'
            split at hr
            · simp at hr
            · rename_i hd
              simpa [Ne.symm hd] using ih hr'
      · simp at h

end ModelText.Path
