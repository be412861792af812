import NameGlob.Pattern.Item

/-!
# Patterns for DOS

DOS knows `*` and `?` and cannot quote. Bracket lists become `?`, and a quoted wildcard becomes active, so
the result accepts at least the names that the pattern accepts.
-/

namespace NameGlob.Rendering.Dos

def item : Item → CodePoint
  | .literal c => c
  | .anyOne => 0x3F
  | .anySequence => 0x2A
  | .oneOf _ => 0x3F

def codePoints (items : List Item) : List CodePoint :=
  items.map item

end NameGlob.Rendering.Dos
