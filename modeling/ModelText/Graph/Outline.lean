import ModelText.Graph.Basic

/-!
# Outlines

The outline of an object shows it and all it holds, line by line: a heading
with type and name, the values of the slots, the names of the objects referred
to, and under each feature the outlines of the objects it holds. A record is
shown in full where a slot has it for a value.

What is held lies inside what holds it, so an outline is no deeper than the
graph has objects; that number bounds the recursion.
-/

namespace ModelText

/-- What a line of an outline shows. -/
inductive OutlineEntry where
  /-- An object; what follows further in belongs to it. -/
  | heading (object : ObjectId)
  /-- A value of a slot. -/
  | value (slot : String) (value : Value)
  /-- A slot whose value is the record that follows. -/
  | record (slot : String)
  /-- An object that a feature refers to. -/
  | target (reference : String) (object : ObjectId)
  /-- A feature that holds the objects that follow. -/
  | block (composition : String)
  deriving DecidableEq, Inhabited

/-- A line of an outline. -/
structure OutlineLine where
  /-- How far the line is set in. -/
  depth : Nat
  /-- What it shows. -/
  entry : OutlineEntry
  deriving DecidableEq, Inhabited

namespace Graph

/-- The outline of an object down to so many levels. -/
def outlineTo (g : Graph) : Nat → Nat → ObjectId → List OutlineLine
  | 0, _, _ => []
  | levels + 1, depth, id =>
    match g.object? id with
    | none => []
    | some o =>
      let values := o.slots.entries.flatMap fun (slot, values) =>
        values.flatMap fun
          | .record object => ⟨depth + 1, .record slot⟩ ::
              g.outlineTo levels (depth + 2) object
          | value => [⟨depth + 1, .value slot value⟩]
      let targets := o.references.entries.flatMap fun (reference, objects) =>
        objects.map fun object => ⟨depth + 1, .target reference object⟩
      let blocks := o.compositions.entries.flatMap fun (composition, objects) =>
        ⟨depth + 1, .block composition⟩ ::
          objects.flatMap (g.outlineTo levels (depth + 2))
      ⟨depth, .heading id⟩ :: (values ++ targets ++ blocks)

/-- The outline of an object. -/
def outline (g : Graph) (id : ObjectId) : List OutlineLine :=
  g.outlineTo g.size 0 id

/-- An object as a reference shows it: by its name, or by its number if it has
none. -/
def label (g : Graph) (id : ObjectId) : String :=
  (g.name? id).getD ("#" ++ id.text)

/-- A heading: the type, and the name if there is one. -/
def heading (g : Graph) (id : ObjectId) : String :=
  match g.object? id with
  | none => ""
  | some o =>
    match o.name with
    | some name => o.type.name ++ " " ++ name
    | none => o.type.name

/-- What a line of an outline shows, in writing. -/
def entryText (g : Graph) : OutlineEntry → String
  | .heading object => g.heading object
  | .value slot value => slot ++ " = " ++ value.text
  | .record slot => slot ++ " ="
  | .target reference object => reference ++ " -> " ++ g.label object
  | .block composition => composition ++ ":"

/-- A line of an outline, set in by two blanks for each step of depth. -/
def lineText (g : Graph) (line : OutlineLine) : String :=
  String.ofList (List.replicate (2 * line.depth) ' ') ++ g.entryText line.entry

/-- The outline of an object in writing. -/
def outlineText (g : Graph) (id : ObjectId) : String :=
  String.join ((g.outline id).map fun line => g.lineText line ++ "\n")

end Graph

end ModelText
