import ModelText.Compilation.Closure
import ModelText.Construction.Link

/-!
# Results of a compilation

`compile` builds the units asked for and all that they import, makes the links
between them, and gives each unit its share of the outcome: its roots and its
problems. A unit with errors may still have roots; only a result without errors
is authoritative.
-/

namespace ModelText

/-- What became of a unit. -/
structure UnitResult where
  /-- The name of the unit. -/
  source : String
  /-- Its elements at the top level. -/
  roots : List ObjectId
  /-- Its problems, those of its links included. -/
  problems : List Problem
  deriving DecidableEq

namespace UnitResult

/-- Whether a problem is more than a warning. -/
def hasErrors (r : UnitResult) : Bool := r.problems.any (·.severity.isError)

/-- Whether a problem is fatal. -/
def hasFatal (r : UnitResult) : Bool := r.problems.any (·.severity.isFatal)

/-- Whether the roots can be relied on. -/
def isAuthoritative (r : UnitResult) : Bool := !r.hasErrors

end UnitResult

/-- The graph of a compilation and the results of its units. -/
structure Compilation where
  /-- The objects. -/
  graph : Graph
  /-- The results, in the order in which the units were built. -/
  results : List UnitResult

namespace Compilation

/-- Whether a unit has errors. -/
def hasErrors (c : Compilation) : Bool := c.results.any (·.hasErrors)

/-- All problems, unit by unit. -/
def problems (c : Compilation) : List Problem :=
  c.results.flatMap (·.problems)

end Compilation

/-- The result of a unit from its roots and its problems. -/
def Config.result (config : Config) (source : String) (roots : List ObjectId)
    (problems : List Problem) : UnitResult where
  source := source
  roots :=
    if config.suppressRootsOnError && problems.any (·.severity.isError) then []
    else roots
  problems := problems

/-- The results of units, each with the problems that wait for it, and the
problems that are left. -/
def Config.results (config : Config) :
    List (String × List ObjectId) → Sink → List UnitResult × Sink
  | [], sink => ([], sink)
  | (source, roots) :: rest, sink =>
    let (problems, sink) := sink.take source
    let (others, sink) := config.results rest sink
    (config.result source roots problems :: others, sink)

/-- Why nothing was compiled. -/
inductive CompileError where
  /-- No unit was asked for. -/
  | noEntryPoints
  deriving DecidableEq

/-- The reason in words. -/
def CompileError.message : CompileError → String
  | .noEntryPoints => "No entry points given"

/-- What a compilation is about: the types, the settings and the texts. -/
def Config.workspace (config : Config) (m : Metamodel)
    (fetch : String → Option String) : Workspace where
  metamodel := m
  fatalScope := config.fatalScope
  fetch := fetch

/-- The texts of a compilation. The units that come with the languages are
looked for first. -/
def Metamodel.supply (m : Metamodel) (sources : Sources) : Sources :=
  m.builtIns.sources.orElse sources

/-- The units a compilation starts with. -/
def Config.entries (config : Config) (m : Metamodel) (entries : List String) :
    List String :=
  let builtIns := if config.implicitBuiltIns then m.builtIns.names else []
  (NameSet.ofList (builtIns ++ entries)).toList

/-- The compilation of units that were built: their links are made, and each of
them has its result. A problem of a unit that was not built has a result of its
own, behind the others. -/
def Progress.finish (p : Progress) (config : Config) : Compilation :=
  let session := p.construction.toSession.link
  let (results, sink) := config.results p.built session.sink
  let (others, _) :=
    config.results (sink.sources.map fun source => (source, [])) sink
  ⟨session.graph, results ++ others⟩

/-- Compiles units and all that they import. -/
def compileUnits (m : Metamodel) (config : Config) (entries : List String)
    (sources : Sources) : Compilation :=
  let supply := m.supply sources
  ((config.workspace m supply.fetch).build supply.importCount
    (config.entries m entries)).finish config

/-- Compiles units if some are asked for. -/
def compile (m : Metamodel) (config : Config) (entries : List String)
    (sources : Sources) : Except CompileError Compilation :=
  if entries.isEmpty && !config.implicitBuiltIns then .error .noEntryPoints
  else .ok (compileUnits m config entries sources)

end ModelText
