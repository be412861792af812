import NameGlob.Options
import NameGlob.Text.Utf8

/-!
# Items of a pattern

A wildcard pattern is a sequence of items. Each item takes part of a text: a literal takes one given
character, `?` one arbitrary character, a bracket list one character out of a list, and `*` any run
of characters.
-/

namespace NameGlob

inductive Member where
  | single (c : CodePoint)
  /-- The characters from `lo` to `hi`, both included. -/
  | range (lo hi : CodePoint)
  deriving Repr, DecidableEq

inductive Item where
  | literal (c : CodePoint)
  | anyOne
  | anySequence
  /-- Takes one character that a member of the list admits. -/
  | oneOf (members : List Member)
  deriving Repr, DecidableEq

/-- A step of the flat account of a pattern. -/
inductive Event where
  | start (pattern : Bytes) (options : Options)
  | literal (c : CodePoint)
  | anyOne
  | anySequence
  | listStart
  | listSingle (c : CodePoint)
  | listRange (lo hi : CodePoint)
  | listEnd
  | finish
  deriving Repr, DecidableEq

/-- The step that a member of a bracket list makes. -/
def Member.event : Member → Event
  | .single c => .listSingle c
  | .range lo hi => .listRange lo hi

/-- The steps that an item makes. -/
def Item.events : Item → List Event
  | .literal c => [.literal c]
  | .anyOne => [.anyOne]
  | .anySequence => [.anySequence]
  | .oneOf members => .listStart :: members.map Member.event ++ [.listEnd]

end NameGlob
