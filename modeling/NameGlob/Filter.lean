import NameGlob.Glob

/-!
# Filters of names

A filter holds patterns that names must match and patterns that they must not match. A pattern that
is malformed is not added, and leaves the filter as it was.
-/

namespace NameGlob

/-- Patterns in the order in which they were added. -/
structure GlobSet where
  options : Options
  globs : List Glob := []

namespace GlobSet

/-- The number of patterns, repeated ones included. -/
def size (set : GlobSet) : Nat :=
  set.globs.length

/-- Adds a pattern, in the locale of the process. -/
def insert (set : GlobSet) (pattern : Bytes) (locale : Locale := .classic) : Except SyntaxError GlobSet :=
  match Glob.shared pattern set.options locale with
  | .ok g => .ok { set with globs := set.globs ++ [g] }
  | .error e => .error e

/-- Tells whether one of the globs accepts the text. All use the same scratch space, and the search
ends at the first that accepts. -/
def anyOf (text : Bytes) (s : Scratch) : List Glob → Bool
  | [] => false
  | g :: rest =>
    let (accepted, s) := g.runWith text s
    if accepted then true else anyOf text s rest

/-- Tells whether a pattern of the set accepts the text; for the empty set the answer is `default`. -/
def any (set : GlobSet) (text : Bytes) (default : Bool) : Bool :=
  if set.globs.isEmpty then default else anyOf text .fresh set.globs

end GlobSet

/-- Patterns that names must match and patterns that they must not match. -/
structure NameFilter where
  /-- A name must match one of these, unless there are none. -/
  includes : GlobSet
  /-- A name must match none of these. -/
  excludes : GlobSet

namespace NameFilter

/-- The filter without patterns, which accepts every name. -/
def empty (options : Options) : NameFilter :=
  ⟨⟨options, []⟩, ⟨options, []⟩⟩

def addInclude (f : NameFilter) (pattern : Bytes) (locale : Locale := .classic) :
    Except SyntaxError NameFilter :=
  (f.includes.insert pattern locale).map fun set => { f with includes := set }

def addExclude (f : NameFilter) (pattern : Bytes) (locale : Locale := .classic) :
    Except SyntaxError NameFilter :=
  (f.excludes.insert pattern locale).map fun set => { f with excludes := set }

/-- The filter of patterns to include and patterns to exclude, unless one of them is malformed. -/
def ofPatterns (options : Options) (locale : Locale) (includes excludes : List Bytes) :
    Except SyntaxError NameFilter := do
  let f ← includes.foldlM (·.addInclude · locale) (empty options)
  excludes.foldlM (·.addExclude · locale) f

def accepts (f : NameFilter) (name : Bytes) : Bool :=
  f.includes.any name true && !f.excludes.any name false

end NameFilter

end NameGlob
