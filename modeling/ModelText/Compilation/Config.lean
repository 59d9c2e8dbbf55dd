import ModelText.Construction.Session

/-!
# Settings of a compilation

How units are discovered and when their roots are kept.
-/

namespace ModelText

/-- The settings of a compilation. -/
structure Config where
  /-- Whether the units that come with the languages are compiled unasked. -/
  implicitBuiltIns : Bool
  /-- Which fatal problems keep an element from becoming a root. -/
  fatalScope : FatalScope
  /-- Whether a unit with errors has no roots. -/
  suppressRootsOnError : Bool
  /-- The extension of the files of units. -/
  sourceExtension : String
  deriving DecidableEq, Inhabited

/-- The settings where nothing is said. -/
def Config.default : Config := ⟨false, .session, false, "simon"⟩

end ModelText
