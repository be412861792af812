import NameGlob.Pattern.Item

/-!
# Patterns as regular expressions

The regular expression is meant for a search in which `.` is any character. It is anchored on both
sides; an anchor is left out together with a `.*` beside it, since a search need not begin at the
beginning of a text nor end at its end.
-/

namespace NameGlob.Rendering.Regex

/-- The characters that have a special meaning outside bracket lists. -/
def special : List CodePoint := Utf8.ascii "()[.?*\x7b\x7d^$+|\\"

/-- A character that stands for itself outside bracket lists. -/
def char (c : CodePoint) : List CodePoint :=
  if special.contains c then [0x5C, c] else [c]

/-- A character that stands for itself in a bracket list. -/
def listChar (c : CodePoint) : List CodePoint :=
  if c = 0x5B then [0x5B]
  else if c = 0x5D then [0x5C, 0x5D]
  else if c = 0x2D then Utf8.ascii "\\x2d"
  else char c

def member : Member → List CodePoint
  | .single c => listChar c
  | .range lo hi => listChar lo ++ 0x2D :: listChar hi

def item : Item → List CodePoint
  | .literal c => char c
  | .anyOne => [0x2E]
  | .anySequence => [0x2E, 0x2A]
  | .oneOf members => 0x5B :: members.flatMap member ++ [0x5D]

/-- The regular expression with both anchors. -/
def anchored (items : List Item) : List CodePoint :=
  0x5E :: items.flatMap item ++ [0x24]

/-- Leaves out an anchor together with the `.*` beside it. An expression that accepts everything becomes
empty. -/
def loosen (regex : List CodePoint) : List CodePoint :=
  if regex = Utf8.ascii "^.*$" then []
  else
    let head := (Utf8.ascii "^.*").isPrefixOf regex
    let tail := (Utf8.ascii ".*$").isSuffixOf regex
    let cut := if tail then regex.take (regex.length - 3) else regex
    if head then cut.drop 3 else cut

def codePoints (items : List Item) : List CodePoint :=
  loosen (anchored items)

end NameGlob.Rendering.Regex
