import NameGlob.Filter
import NameGlob.Tool.Conversion
import NameGlob.Tool.Session

/-!
# Selecting names

The names are the lines of the sources in the order of the command line. A source that cannot be opened, or
not be read to its end, gives a warning and does not keep the others from being read. Standard input is read
once; where it is named again, nothing is left of it.
-/

namespace NameGlob.Tool

namespace Settings

/-- Where names are read from: the operands, of which `-` stands for standard input, or standard input when
there are none. -/
def sources (s : Settings) : List Source :=
  if s.operands.isEmpty then [.stdin]
  else s.operands.map fun operand => if operand = [0x2D] then .stdin else .path operand

def filter (s : Settings) (locale : Locale) : Except SyntaxError NameFilter :=
  NameFilter.ofPatterns s.options locale s.includes s.excludes

def selects (s : Settings) (f : NameFilter) (name : Bytes) : Bool :=
  f.accepts name != s.invertMatch

end Settings

structure Input where
  source : Source
  /-- Its names, or the reason why it cannot be opened. -/
  reading : Except OpenError LineReading

namespace Input

/-- Reads sources. `stdin` is what is left of standard input. -/
def ofSources (env : Environment) (decompress : Bool) (stdin : Delivery) : List Source → List Input
  | [] => []
  | .stdin :: rest =>
    ⟨.stdin, .ok (stdin.lines decompress env.host.inflate)⟩ :: ofSources env decompress stdin.spent rest
  | .path path :: rest =>
    let reading := match env.opened path with
      | .refused e => .error e
      | found => .ok (found.delivery.lines decompress env.host.inflate)
    ⟨.path path, reading⟩ :: ofSources env decompress stdin rest

def names (i : Input) : List Bytes :=
  match i.reading with
  | .ok reading => reading.lines
  | .error _ => []

/-- The warning about a source that cannot be opened or read. -/
def warning (i : Input) : Option Bytes :=
  match i.reading with
  | .error e => some (Bytes.ascii "wcmatch: warning: cannot read " ++ i.source.name
      ++ Bytes.ascii ": " ++ e.message ++ Bytes.ascii "\n")
  | .ok reading => reading.error.map fun e =>
      Bytes.ascii "wcmatch: warning: " ++ e.message ++ Bytes.ascii " " ++ i.source.name
        ++ Bytes.ascii "  \n"

end Input

namespace Session

def warn (s : Session) (text : Bytes) : Session :=
  { s.report text with warnings := s.warnings + 1 }

/-- Selects the names of the sources. Nothing is read unless all patterns are well formed. -/
def select (env : Environment) (s : Session) : Outcome :=
  match s.settings.filter env.host.locale with
  | .error e => s.fail e.message
  | .ok f =>
    let sources := s.settings.sources
    let inputs := Input.ofSources env s.settings.decompress env.stdin sources
    let selected := inputs.flatMap fun i => i.names.filter (s.settings.selects f)
    let s := (inputs.filterMap Input.warning).foldl warn
      { s with consulted := sources.reverse ++ s.consulted }
    let stdout :=
      if s.settings.count then Bytes.decimal selected.length ++ [0x0A] else unlines selected
    s.stop (if s.warnings = 0 then (if selected.isEmpty then 1 else 0) else 2) stdout

end Session

end NameGlob.Tool
