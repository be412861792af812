import NameGlob.Pattern.Item

/-!
# Patterns for WQL

The operand of `LIKE` in the query language WQL has `%` for any run of characters, `_` for one character
and `[x]` for the character `x`. A bracket list becomes `_`, which accepts more, so the answers to the query
have to be filtered afterwards.
-/

namespace NameGlob.Rendering.Wql

/-- A character that stands for itself. -/
def char (c : CodePoint) : List CodePoint :=
  if c = 0x25 ∨ c = 0x5F ∨ c = 0x5B then [0x5B, c, 0x5D] else [c]

def item : Item → List CodePoint
  | .literal c => char c
  | .anyOne => [0x5F]
  | .anySequence => [0x25]
  | .oneOf _ => [0x5F]

def codePoints (items : List Item) : List CodePoint :=
  items.flatMap item

def isList : Item → Bool
  | .oneOf _ => true
  | _ => false

/-- Tells whether the operand accepts more than the items, because a bracket list is among them. -/
def needsFilter (items : List Item) : Bool :=
  items.any isList

end NameGlob.Rendering.Wql
