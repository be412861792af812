import NameGlob.Case.Locale
import NameGlob.Lines.File

/-!
# Files as the tool sees them

A path may lead to nothing that can be opened. Where it leads to a file, reading delivers bytes, and then the end of
the file or an error. What else a run depends on belongs to its host: the libraries that are linked to the tool, and
the locale of the process.
-/

namespace NameGlob.Tool

inductive OpenError where
  | missing
  /-- A component of the path that must be a directory is none. -/
  | notDirectory
  /-- The path, or a component of it, is too long. -/
  | tooLong
  | denied
  deriving Repr, DecidableEq

/-- The text of an error as systems give it. -/
def OpenError.message : OpenError → Bytes
  | .missing => Bytes.ascii "No such file or directory"
  | .notDirectory => Bytes.ascii "Not a directory"
  | .tooLong => Bytes.ascii "File name too long"
  | .denied => Bytes.ascii "Permission denied"

/-- Why a file that was opened cannot be read, or not to its end. -/
inductive ReadFailure where
  | isDirectory
  | inputOutput
  deriving Repr, DecidableEq

/-- The text of a failure as systems give it. -/
def ReadFailure.message : ReadFailure → Bytes
  | .isDirectory => Bytes.ascii "Is a directory"
  | .inputOutput => Bytes.ascii "Input/output error"

/-- What reading a file delivers. -/
structure Delivery where
  bytes : Bytes
  /-- Why reading fails behind these bytes, if it does. -/
  failure : Option ReadFailure
  deriving Repr, DecidableEq

/-- Bytes that are delivered without a failure. -/
instance : Coe Bytes Delivery where
  coe bytes := ⟨bytes, none⟩

namespace Delivery

/-- The lines of what is delivered. -/
def lines (d : Delivery) (decompress : Bool) (inflate : Inflater) : LineReading :=
  .ofBytes decompress d.bytes (d.failure.map fun _ => .failed) inflate

/-- What is delivered where everything has been read. A failure stays. -/
def spent (d : Delivery) : Delivery :=
  ⟨[], d.failure⟩

end Delivery

inductive Opened where
  | file (delivery : Delivery)
  /-- A directory. It can be opened but not read. -/
  | directory
  | refused (error : OpenError)
  deriving Repr, DecidableEq

/-- What reading delivers of what was opened. -/
def Opened.delivery : Opened → Delivery
  | .file d => d
  | .directory => ⟨[], some .isDirectory⟩
  | .refused _ => ⟨[], none⟩

/-- What the tool is linked with, and the locale that it runs in. -/
class Host where
  /-- The locale of the process. -/
  locale : Locale
  inflate : Inflater
  /-- The version of the library that inflates. -/
  zlibVersion : Bytes
  /-- Tells whether the regex library takes an expression, with or without regard to case. -/
  acceptsRegex (ignoreCase : Bool) (expression : Bytes) : Bool

/-- A host without libraries, in the classic locale. No regular expression is refused. -/
instance : Host where
  locale := .classic
  inflate := .absent
  zlibVersion := []
  acceptsRegex _ _ := true

structure Environment where
  /-- The home directory, when it is set. -/
  home : Option Bytes
  stdin : Delivery
  /-- What opening a path gives. -/
  opened : Bytes → Opened
  [host : Host]

/-- Where names or options are read from. -/
inductive Source where
  | stdin
  | path (path : Bytes)
  deriving Repr, DecidableEq

def Source.name : Source → Bytes
  | .stdin => Bytes.ascii "(standard input)"
  | .path p => p

end NameGlob.Tool
