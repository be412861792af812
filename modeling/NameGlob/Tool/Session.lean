import NameGlob.Options
import NameGlob.Tool.Directive
import NameGlob.Tool.Files

/-!
# Sessions

A session is what the tool has learned from its options so far, together with what it has reported. A
run ends in an outcome.

## Main definitions

- `Settings` — what the options ask for
- `Session` — the settings with the reports and the files consulted so far
- `LoadedFile` — a configuration file that was read
- `Outcome` — the result of a run
-/

namespace NameGlob.Tool

structure Settings where
  count : Bool := false
  cultureInvariant : Bool := false
  decompress : Bool := false
  dos : Bool := false
  escape : Bool := false
  hasWildcards : Bool := false
  ignoreCase : Bool := false
  invertMatch : Bool := false
  regex : Bool := false
  unescape : Bool := false
  wql : Bool := false
  /-- The characters that escaping leaves as they are. -/
  keptChars : Bytes := []
  includes : List Bytes := []
  excludes : List Bytes := []
  operands : List Bytes := []
  deriving Repr, DecidableEq

namespace Settings

def set (s : Settings) : Flag → Settings
  | .count => { s with count := true }
  | .cultureInvariant => { s with cultureInvariant := true }
  | .decompress => { s with decompress := true }
  | .dos => { s with dos := true }
  | .escape => { s with escape := true }
  | .hasWildcards => { s with hasWildcards := true }
  | .ignoreCase => { s with ignoreCase := true }
  | .invertMatch => { s with invertMatch := true }
  | .regex => { s with regex := true }
  | .unescape => { s with unescape := true }
  | .wql => { s with wql := true }

def addPattern (s : Settings) (value : Bytes) : Role → Settings
  | .including => { s with includes := s.includes ++ [value] }
  | .excluding => { s with excludes := s.excludes ++ [value] }

def options (s : Settings) : Options :=
  .ofFlags s.ignoreCase s.cultureInvariant

/-- Tells whether patterns are to be printed or tested instead of names being selected. -/
def converts (s : Settings) : Bool :=
  s.regex || s.dos || s.wql || s.escape || s.unescape || s.hasWildcards

/-- Without a pattern to include, the first operand is one. -/
def promoteOperand (s : Settings) : Settings :=
  match s.includes, s.operands with
  | [], first :: rest => { s with includes := [first], operands := rest }
  | _, _ => s

end Settings

structure LoadedFile where
  path : Bytes
  /-- The number of configuration files that were open while it was read, itself included. -/
  depth : Nat
  deriving Repr, DecidableEq

structure Outcome where
  status : Nat
  stdout : Bytes
  stderr : Bytes
  /-- The sources that were opened or tried, in this order. -/
  consulted : List Source
  /-- The configuration files that were read, in this order. -/
  loaded : List LoadedFile
  deriving Repr, DecidableEq

/-- What the tool has learned and reported so far. -/
structure Session where
  settings : Settings := {}
  warnings : Nat := 0
  /-- The configuration files that were read, the latest first. -/
  loaded : List LoadedFile := []
  /-- What was written to standard error, the latest first. -/
  reports : List Bytes := []
  /-- The sources that were opened or tried, the latest first. -/
  consulted : List Source := []
  deriving Repr, DecidableEq

namespace Session

def report (s : Session) (text : Bytes) : Session :=
  { s with reports := text :: s.reports }

def consult (s : Session) (path : Bytes) : Session :=
  { s with consulted := .path path :: s.consulted }

def stop (s : Session) (status : Nat) (stdout : Bytes) : Outcome :=
  ⟨status, stdout, s.reports.reverse.flatten, s.consulted.reverse, s.loaded.reverse⟩

def fail (s : Session) (what : Bytes) : Outcome :=
  (s.report (Bytes.ascii "wcmatch: error: " ++ what ++ Bytes.ascii "\n\n")).stop 2 []

/-- Reports a misuse. This ends the run, unless a configuration file is being read. -/
def misuse (s : Session) (inConfig : Bool) (e : UsageError) : Except Outcome Session :=
  let s := s.report e.message
  if inConfig then .ok { s with warnings := s.warnings + 1 } else .error (s.stop 2 [])

end Session

end NameGlob.Tool
