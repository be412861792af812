import NameGlob.Tool.Config
import NameGlob.Tool.Conversion
import NameGlob.Tool.Selection

/-!
# The tool

The tool selects the lines of files that match wildcard patterns, or prints patterns in other forms. It
is a function from its arguments and its surroundings to what it writes and its exit status.
-/

namespace NameGlob.Tool

/-- A run of the tool with the given arguments. -/
def run (env : Environment) (arguments : List Bytes) : Outcome :=
  match Session.ofArguments env arguments with
  | .error outcome => outcome
  | .ok s =>
    match s.settings.task with
    | .select => s.select env
    | .findWildcards => s.findWildcards
    | .convert form => s.convert env form

end NameGlob.Tool
