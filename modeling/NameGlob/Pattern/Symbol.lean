import NameGlob.Text.Utf8

/-!
# Symbols of a pattern

A backtick takes away the special meaning of the character behind it. The symbols of a pattern are its
characters once the backticks are paired with the characters that they quote.
-/

namespace NameGlob

/-- The character that quotes the next one. -/
def backtick : CodePoint := 0x60

/-- A character of a pattern. -/
structure Symbol where
  char : CodePoint
  /-- A backtick takes away its special meaning. -/
  quoted : Bool
  /-- The byte offset of the character in the pattern. -/
  offset : Nat
  deriving Repr, DecidableEq

namespace Symbol

/-- Tells whether the symbol is the character `c` with its special meaning. -/
def isPlain (s : Symbol) (c : CodePoint) : Bool :=
  !s.quoted && s.char == c

/-- Characters with their byte offsets, of which the first is `offset`. -/
def locate (offset : Nat) : List (CodePoint × Nat) → List (CodePoint × Nat)
  | [] => []
  | (c, size) :: rest => (c, offset) :: locate (offset + size) rest

/-- Pairs each backtick with the character behind it. A backtick without such a character quotes
itself. -/
def pair : List (CodePoint × Nat) → List Symbol
  | [] => []
  | [(c, offset)] => [⟨c, c == backtick, offset⟩]
  | (c, offset) :: (d, next) :: rest =>
    if c = backtick then ⟨d, true, next⟩ :: pair rest
    else ⟨c, false, offset⟩ :: pair ((d, next) :: rest)

/-- The symbols of a pattern. A backtick alone is the empty pattern. -/
def ofPattern (pattern : Bytes) : List Symbol :=
  if pattern = [0x60] then [] else pair (locate 0 (Utf8.chars pattern))

end Symbol

end NameGlob
