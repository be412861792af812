import NameGlob.Case.Table

/-!
# Locales

A locale says which letters correspond in case. It may know other letters than `Case.foldTable`,
and its two maps need not be inverse to each other.
-/

namespace NameGlob

/-- The case maps of a locale. A character without a counterpart is mapped to itself. -/
structure Locale where
  lower : CodePoint → CodePoint
  upper : CodePoint → CodePoint

namespace Locale

/-- The locale that maps the letters of ASCII, and nothing else. -/
def classic : Locale where
  lower c := if Case.asciiRow.hasUpper c then c + Case.asciiRow.delta else c
  upper c := if Case.asciiRow.hasLower c then c - Case.asciiRow.delta else c

/-- The second member of the first pair that begins with `c`, or `c` when there is none. -/
def mapThrough (pairs : List (CodePoint × CodePoint)) (c : CodePoint) : CodePoint :=
  (pairs.lookup c).getD c

/-- The locale that maps the listed characters, and nothing else. -/
def ofPairs (lower upper : List (CodePoint × CodePoint)) : Locale where
  lower := mapThrough lower
  upper := mapThrough upper

end Locale

end NameGlob
