import NameGlob.Text.Utf8

/-!
# Syntax errors of patterns

A syntax error names its cause, the pattern, and the byte offset of the fault. Its message shows an
excerpt of the pattern around the fault, and below it a marker that points at the fault.
-/

namespace NameGlob

inductive SyntaxError.Cause where
  | unclosedList
  | invertedRange
  /-- A regular expression library refuses the regular expression of the pattern. -/
  | refusedRegex
  /-- A cause without a description. -/
  | other (code : Int)
  deriving Repr, DecidableEq

structure SyntaxError where
  cause : SyntaxError.Cause
  pattern : Bytes
  /-- The byte offset of the fault. It may lie beyond the end of the pattern. -/
  offset : Nat
  deriving Repr, DecidableEq

namespace SyntaxError

namespace Cause

def code : Cause → Int
  | unclosedList => 0
  | invertedRange => 1
  | refusedRegex => 2
  | other code => code

/-- The cause with a given number. -/
def ofCode (code : Int) : Cause :=
  if code = 0 then unclosedList
  else if code = 1 then invertedRange
  else if code = 2 then refusedRegex
  else other code

def description : Cause → Bytes
  | unclosedList => Bytes.ascii "mismatched [ ]"
  | invertedRange => Bytes.ascii "invalid character class range"
  | refusedRegex => Bytes.ascii "invalid regex"
  | other _ => Bytes.ascii "invalid pattern"

@[simp] theorem code_ofCode (n : Int) : (ofCode n).code = n := by
  unfold ofCode
  split
  · simp [code, *]
  · split
    · simp [code, *]
    · split <;> simp [code, *]

end Cause

/-- The identifier of all syntax errors. -/
def identifier : Bytes := Bytes.ascii "WildcardPattern_Invalid"

/-- The offset of the fault, or the end of the pattern when it lies beyond. -/
def place (e : SyntaxError) : Nat :=
  min e.offset e.pattern.length

/-- Goes back from `offset` while a continuation byte stands there. -/
def backToLead (pattern : Bytes) : Nat → Nat
  | 0 => 0
  | offset + 1 =>
    if (pattern[offset + 1]?).any Utf8.isContinuation then backToLead pattern offset else offset + 1

/-- Where the excerpt begins: at the beginning of the pattern when the fault lies within its first 40
bytes, otherwise 20 bytes before the fault, or earlier so as not to begin within a character. -/
def excerptStart (e : SyntaxError) : Nat :=
  if e.place < 40 then 0 else backToLead e.pattern (e.place - 20)

/-- Where the excerpt ends: 60 bytes after its beginning, or later so as not to end within a
character. -/
def excerptEnd (e : SyntaxError) : Nat :=
  let upto := min (e.excerptStart + 60) e.pattern.length
  upto + ((e.pattern.drop upto).takeWhile Utf8.isContinuation).length

/-- The part of the pattern that the message shows. -/
def excerpt (e : SyntaxError) : Bytes :=
  e.pattern.slice e.excerptStart e.excerptEnd

/-- The number of characters before the first NUL byte. Continuation bytes do not count. -/
def columns (bytes : Bytes) : Nat :=
  (bytes.untilNul.filter (! Utf8.isContinuation ·)).length

/-- The column of the excerpt in which the fault lies. -/
def column (e : SyntaxError) : Nat :=
  columns (e.pattern.slice e.excerptStart e.place)

/-- The line below the excerpt, with a marker in the given column. The description stands to the right
of the marker, or to the left of it where there is room. -/
def markerLine (column : Nat) (description : Bytes) : Bytes :=
  if description.length + 4 ≤ column then
    Bytes.blanks (column - description.length - 4) ++ description ++ Bytes.ascii "___/\n"
  else
    Bytes.blanks column ++ Bytes.ascii "\\___" ++ description ++ Bytes.ascii "\n"

/-- The whole text of an error. -/
def text (e : SyntaxError) : Bytes :=
  Bytes.ascii "invalid wildcard pattern at position " ++ Bytes.decimal e.place
    ++ Bytes.ascii "\n" ++ e.excerpt ++ Bytes.ascii "\n" ++ markerLine e.column e.cause.description

/-- The text of an error as it is reported: it ends before its first NUL byte. -/
def message (e : SyntaxError) : Bytes :=
  e.text.untilNul

end SyntaxError

end NameGlob
