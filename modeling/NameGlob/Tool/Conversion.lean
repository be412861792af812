import NameGlob.Glob
import NameGlob.Rendering.Basic
import NameGlob.Tool.Session

/-!
# Converting patterns

Instead of selecting names, the tool can print each pattern in another form, or test the patterns for
wildcards. Where several options ask for this, the test comes first, then the forms in the order of `Form`.
-/

namespace NameGlob.Tool

inductive Form where
  | escaped
  /-- Without the backticks that quote. -/
  | unescaped
  | regex
  | dos
  | wql
  deriving Repr, DecidableEq

inductive Task where
  | select
  /-- Tell whether a pattern has wildcards. -/
  | findWildcards
  | convert (form : Form)
  deriving Repr, DecidableEq

def Settings.task (s : Settings) : Task :=
  if s.hasWildcards then .findWildcards
  else if s.escape then .convert .escaped
  else if s.unescape then .convert .unescaped
  else if s.regex then .convert .regex
  else if s.dos then .convert .dos
  else if s.wql then .convert .wql
  else .select

namespace Form

/-- A pattern in a form. A pattern must be well formed, unless it is only escaped or unescaped. -/
def render (host : Host) (settings : Settings) (pattern : Bytes) : Form → Except Rendering.Error Bytes
  | escaped => .ok (Escape.escape pattern settings.keptChars)
  | unescaped => .ok (Escape.unescape pattern)
  | regex => (Rendering.takenRegex (host.acceptsRegex settings.ignoreCase) pattern).mapError .malformed
  | dos => (Rendering.dos pattern).mapError .malformed
  | wql => Rendering.exactWql pattern

end Form

/-- The patterns that were printed, up to the first error. -/
structure Conversion where
  lines : List Bytes
  /-- The error of the pattern behind them. -/
  error : Option Rendering.Error
  deriving Repr, DecidableEq

/-- Prints patterns up to the first that has no rendering. -/
def Conversion.ofPatterns (render : Bytes → Except Rendering.Error Bytes) :
    List Bytes → Conversion
  | [] => ⟨[], none⟩
  | pattern :: rest =>
    match render pattern with
    | .error e => ⟨[], some e⟩
    | .ok line =>
      let c := ofPatterns render rest
      { c with lines := line :: c.lines }

/-- Lines of output, each with its newline. -/
def unlines (lines : List Bytes) : Bytes :=
  lines.flatMap (· ++ [0x0A])

namespace Session

/-- Prints the patterns to include in a form. -/
def convert (env : Environment) (s : Session) (form : Form) : Outcome :=
  let c := Conversion.ofPatterns (form.render env.host s.settings) s.settings.includes
  match c.error with
  | none => s.stop (if s.warnings = 0 then 0 else 2) (unlines c.lines)
  | some e => { s.fail e.message with stdout := unlines c.lines }

/-- Tells by the exit status whether one of the patterns to include has wildcards. -/
def findWildcards (s : Session) : Outcome :=
  let found := s.settings.includes.any Escape.hasWildcards
  s.stop (if s.warnings = 0 then (if found then 0 else 1) else 2) []

end Session

end NameGlob.Tool
