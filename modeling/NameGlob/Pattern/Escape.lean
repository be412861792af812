import NameGlob.Bytes

/-!
# Escaping names

A name is escaped so that a pattern takes it literally, and a pattern without wildcards is unescaped to
the name that it stands for. Both work on bytes; a name ends before its first NUL byte.
-/

namespace NameGlob

/-- A needed argument that a call does not give. -/
inductive MissingArgument where
  /-- The pattern, or the name to escape. -/
  | pattern
  /-- The characters that are not escaped. -/
  | keptChars
  deriving Repr, DecidableEq

namespace MissingArgument

/-- The text of the error. -/
def message : MissingArgument → Bytes
  | pattern => Bytes.ascii "wildcard: argument pattern is NULL"
  | keptChars => Bytes.ascii "wildcard: argument chars_not_to_escape is NULL"

/-- The value of an argument that a call has to give. -/
def require (missing : MissingArgument) : Option Bytes → Except MissingArgument Bytes
  | some bytes => .ok bytes
  | none => .error missing

end MissingArgument

namespace Escape

/-- The byte of a backtick. -/
def quote : UInt8 := 0x60

/-- The characters that escaping quotes: `*`, `?`, `[` and `]`. -/
def isSpecial (b : UInt8) : Bool :=
  b == 0x2A || b == 0x3F || b == 0x5B || b == 0x5D

/-- The wildcard characters that begin an item of their own: `*`, `?` and `[`. -/
def isWildcard (b : UInt8) : Bool :=
  b == 0x2A || b == 0x3F || b == 0x5B

/-- One byte of an escaped name: a special character that is not `kept` is quoted. -/
def escapeByte (kept : Bytes) (b : UInt8) : Bytes :=
  if isSpecial b && !kept.contains b then [quote, b] else [b]

/-- The name with its special characters quoted, apart from those in `kept`. -/
def escape (name kept : Bytes) : Bytes :=
  name.untilNul.flatMap (escapeByte kept.untilNul)

/-- Takes away the backticks that quote a backtick or a special character. Any other backtick is
left where it is. -/
def unquote : Bytes → Bytes
  | [] => []
  | [b] => [b]
  | b :: c :: rest =>
    if b = quote then
      if c = quote || isSpecial c then c :: unquote rest else b :: c :: unquote rest
    else b :: unquote (c :: rest)

/-- The pattern without the backticks that quote a backtick or a special character. -/
def unescape (pattern : Bytes) : Bytes :=
  unquote pattern.untilNul

/-- Tells whether a wildcard occurs that is not quoted. -/
def findsWildcard : Bytes → Bool
  | [] => false
  | [b] => isWildcard b
  | b :: c :: rest =>
    if isWildcard b then true
    else if b = quote then findsWildcard rest
    else findsWildcard (c :: rest)

/-- Tells whether a pattern has a wildcard that is not quoted. -/
def hasWildcards (pattern : Bytes) : Bool :=
  findsWildcard pattern.untilNul

end Escape

end NameGlob
