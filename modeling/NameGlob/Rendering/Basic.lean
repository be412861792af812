import NameGlob.Pattern.Reading
import NameGlob.Rendering.Dos
import NameGlob.Rendering.Regex
import NameGlob.Rendering.Wql

/-!
# Renderings of patterns

A pattern is rendered in the languages of other programs: as a regular expression, as a DOS pattern, and
as an operand for WQL.
-/

namespace NameGlob

/-- A pattern that a target language cannot express. -/
structure ConversionError where
  pattern : Bytes
  /-- The name of the target language. -/
  target : Option Bytes
  deriving Repr, DecidableEq

namespace ConversionError

/-- The identifier of all conversion errors. -/
def identifier : Bytes := Bytes.ascii "UnsupportedWildcardToWqlConversion"

/-- The name of the target language, which ends before its first NUL byte; empty when it is not given. -/
def targetName (e : ConversionError) : Bytes :=
  (e.target.getD []).untilNul

/-- The whole text of an error. -/
def text (e : ConversionError) : Bytes :=
  Bytes.ascii "cannot convert wildcard pattern \"" ++ e.pattern ++ Bytes.ascii "\" to "
    ++ (if e.target.isSome then e.targetName else Bytes.ascii "the target language")
    ++ Bytes.ascii " without filtering on the client side"

/-- The text of an error as it is reported: it ends before its first NUL byte. -/
def message (e : ConversionError) : Bytes :=
  e.text.untilNul

end ConversionError

namespace Rendering

/-- Why a pattern has no rendering. -/
inductive Error where
  | malformed (error : SyntaxError)
  /-- The target language cannot express the pattern. -/
  | inexact (error : ConversionError)
  deriving Repr, DecidableEq

/-- The text of an error as it is reported. -/
def Error.message : Error → Bytes
  | .malformed e => e.message
  | .inexact e => e.message

def regex (pattern : Bytes) : Except SyntaxError Bytes :=
  (Pattern.parse pattern).map (Utf8.encodeAll ∘ Regex.codePoints)

/-- The regular expression of a pattern, if the library that is to read it takes it. -/
def takenRegex (takes : Bytes → Bool) (pattern : Bytes) : Except SyntaxError Bytes :=
  match regex pattern with
  | .error e => .error e
  | .ok expression =>
    if takes expression then .ok expression else .error ⟨.refusedRegex, pattern, 0⟩

def dos (pattern : Bytes) : Except SyntaxError Bytes :=
  (Pattern.parse pattern).map (Utf8.encodeAll ∘ Dos.codePoints)

/-- The WQL operand of a pattern, and whether the answers to the query have to be filtered. -/
def wql (pattern : Bytes) : Except SyntaxError (Bytes × Bool) :=
  (Pattern.parse pattern).map fun items =>
    (Utf8.encodeAll (Wql.codePoints items), Wql.needsFilter items)

def wqlName : Bytes := Bytes.ascii "WQL"

/-- The WQL operand of a pattern. It is refused when the answers would have to be filtered. -/
def exactWql (pattern : Bytes) : Except Error Bytes :=
  match wql pattern with
  | .error e => .error (.malformed e)
  | .ok (operand, filter) =>
    if filter then .error (.inexact ⟨pattern, some wqlName⟩) else .ok operand

end Rendering

end NameGlob
