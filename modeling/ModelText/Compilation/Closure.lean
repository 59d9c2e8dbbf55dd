import ModelText.Compilation.Config
import ModelText.Construction.Unit
import ModelText.Source.Basic

/-!
# Units and their imports

Compilation starts with the units asked for and goes on with what they import,
batch by batch: a batch holds the units that the batch before it imports and
that were not built yet, in the order in which they are first mentioned. So
every unit is built once.

Every batch but the first holds a unit that some text imports and that no
earlier batch held. There are thus no more further batches than imports in all
texts, and that number bounds the recursion.
-/

namespace ModelText

/-- The units that a text imports. -/
def importsOf (text : String) : List String :=
  match Event.ofSource text with
  | .error _ => []
  | .ok events => events.filterMap fun event =>
    match event.value with
    | .importUnit name => some name
    | _ => none

/-- The number of imports in all texts of a supply. -/
def Sources.importCount (s : Sources) : Nat := (s.texts.flatMap importsOf).length

/-- What the units of a compilation are built from. -/
structure Workspace where
  /-- The types. -/
  metamodel : Metamodel
  /-- Which fatal problems keep elements from becoming roots. -/
  fatalScope : FatalScope
  /-- The text of a unit, if there is one. -/
  fetch : String → Option String

/-- What building a unit of a workspace depends on. -/
def Workspace.context (w : Workspace) (name text : String) : BuildContext :=
  ⟨w.metamodel, w.fatalScope, ⟨name, text⟩⟩

/-- The units that were built, and the state in which the last one left the
session and the builder. -/
structure Progress where
  /-- The session and the builder. -/
  construction : Construction
  /-- The units and their elements at the top level, in the order of building. -/
  built : List (String × List ObjectId)
  /-- The units that the current batch imports. -/
  discovered : NameSet

/-- A problem of a unit that has no text. -/
def Problem.missingUnit (name : String) : Problem :=
  .ofUnit name
    { severity := .fatal
      category := .missingElement
      message := "No source found for unit `" ++ name ++ "`"
      labels := []
      help := none }

namespace Progress

/-- Before any unit is built. -/
def start : Progress := ⟨.new, [], .empty⟩

/-- The names of the units that were built. -/
def processed (p : Progress) : List String := p.built.map Prod.fst

/-- Builds one more unit. -/
def addUnit (w : Workspace) (p : Progress) (name : String) : Progress :=
  match w.fetch name with
  | none =>
    { p with
      construction := { p.construction with
        toSession := p.construction.toSession.report (.missingUnit name) }
      built := p.built ++ [(name, [])] }
  | some text =>
    let (outcome, construction) := p.construction.build (w.context name text)
    { construction := construction
      built := p.built ++ [(name, outcome.roots)]
      discovered := p.discovered.insertAll outcome.imports }

/-- Builds a batch of units. -/
def addBatch (w : Workspace) (p : Progress) (names : List String) : Progress :=
  names.foldl (addUnit w) { p with discovered := .empty }

/-- The units of the next batch. -/
def next (p : Progress) : List String :=
  p.discovered.toList.filter (· ∉ p.processed)

/-- Builds a batch of units, and up to so many further batches. -/
def close (w : Workspace) : Nat → List String → Progress → Progress
  | _, [], p => p
  | 0, names, p => p.addBatch w names
  | further + 1, names, p =>
    let p := p.addBatch w names
    close w further p.next p

@[simp] theorem close_nil (w : Workspace) (further : Nat) (p : Progress) :
    close w further [] p = p := by
  unfold close
  rfl

theorem processed_addUnit (w : Workspace) (p : Progress) (name : String) :
    (p.addUnit w name).processed = p.processed ++ [name] := by
  unfold addUnit
  split <;> simp [processed]

theorem processed_addBatch (w : Workspace) (p : Progress)
    (names : List String) :
    (p.addBatch w names).processed = p.processed ++ names := by
  have h : ∀ (names : List String) (q : Progress),
      (names.foldl (addUnit w) q).processed = q.processed ++ names := by
    intro names
    induction names with
    | nil => simp
    | cons name names ih =>
      intro q
      simp [ih, processed_addUnit]
  exact h names _

end Progress

/-- Builds units and all that they import, in up to so many further batches. -/
def Workspace.build (w : Workspace) (further : Nat) (names : List String) :
    Progress :=
  Progress.close w further names .start

end ModelText
