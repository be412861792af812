import NameGlob.Tool.Arguments
import NameGlob.Tool.Help
import NameGlob.Tool.Session

/-!
# Carrying out directives

Directives change the settings of a session one after the other. A configuration file holds a long option
on each line, without the leading dashes. A file may name one further file, but the option is refused in
that one, and no file is read twice. A misuse in a file is counted as a warning; the run ends after the
file when it has any.

## Main definitions

- `Config.trim` — a line without the white space around it
- `Config.load` — reads a configuration file
- `Config.loadNested` — the same, with a bound on the nesting
- `Session.perform` — carries out directives
- `Session.ofArguments` — the session after the options of the command line
-/

namespace NameGlob.Tool

namespace Config

/-- The configuration file that is read when none is named. -/
def defaultName : Bytes := Bytes.ascii ".wcmatch"

/-- The number of configuration files that may be open at a time. -/
def maxDepth : Nat := 2

def isBlank (b : UInt8) : Bool :=
  b == 0x20 || (0x09 ≤ b.toNat && b.toNat ≤ 0x0D)

/-- A line without the white space around it. -/
def trim (line : Bytes) : Bytes :=
  ((line.dropWhile isBlank).reverse.dropWhile isBlank).reverse

/-- Tells whether a trimmed line holds an option: it is not empty and no comment. -/
def holdsOption (line : Bytes) : Bool :=
  !line.isEmpty && line.head? != some 0x23

/-- The directives of a trimmed line that holds an option. -/
def directives (line : Bytes) : List Directive :=
  Directive.ofArguments [0x2D :: 0x2D :: line]

/-- Where a file is looked for in the home directory. A path that begins with `~` or `/` is not. -/
def inHome? (home : Option Bytes) (name : Bytes) : Option Bytes :=
  if name.head? = some 0x7E ∨ name.head? = some 0x2F then none
  else home.map fun directory => directory ++ 0x2F :: name

/-- Opens a configuration file, first under its name and then in the home directory. Gives back the path
that could be opened with what was opened, or the last error. -/
def openNamed (env : Environment) (name : Bytes) (s : Session) :
    Except OpenError (Bytes × Opened) × Session :=
  let s := s.consult name
  match env.opened name with
  | .refused e =>
    match inHome? env.home name with
    | none => (.error e, s)
    | some path =>
      let s := s.consult path
      match env.opened path with
      | .refused e => (.error e, s)
      | found => (.ok (path, found), s)
  | found => (.ok (name, found), s)

/-- Carries out the lines of a configuration file, of which the first has the number `number`. Tells
whether one of them gave a warning. -/
def performLines (perform : List Directive → Session → Except Outcome Session) (path : Bytes)
    (number : Nat) (lines : List Bytes) (s : Session) : Except Outcome (Bool × Session) :=
  match lines with
  | [] => .ok (false, s)
  | line :: rest => do
    let line := trim line
    if holdsOption line then
      let after ← perform (directives line) s
      if s.warnings < after.warnings then
        let text := Bytes.ascii "wcmatch: error in " ++ path ++ Bytes.ascii " at line "
          ++ Bytes.decimal number ++ Bytes.ascii "\n"
        let (_, last) ← performLines perform path (number + 1) rest (after.report text)
        .ok (true, last)
      else performLines perform path (number + 1) rest after
    else performLines perform path (number + 1) rest s

/-- Reads a configuration file, or the default one when the name is empty, as the file number `depth`
that is open. Only the default one may be missing. A file that was read before is not read again. -/
def load (env : Environment) (depth : Nat)
    (perform : List Directive → Session → Except Outcome Session) (name : Bytes) (s : Session) :
    Except Outcome Session :=
  let named := if name.isEmpty then defaultName else name
  match openNamed env named s with
  | (.error e, s) =>
    if name.isEmpty then .ok s
    else .error (s.fail (Bytes.ascii "option --config: cannot read " ++ named
      ++ Bytes.ascii ": " ++ e.message))
  | (.ok (path, found), s) =>
    if s.loaded.any (·.path == path) then .ok s
    else do
      let (faulty, s) ← performLines perform path 1 (found.delivery.lines false env.host.inflate).lines
        { s with loaded := ⟨path, depth⟩ :: s.loaded }
      match found.delivery.failure with
      | some failure =>
        .error (s.fail (Bytes.ascii "error while reading " ++ path
          ++ Bytes.ascii ": " ++ failure.message))
      | none => if faulty then .error (s.stop 2 []) else .ok s

end Config

namespace Session

def performOne (env : Environment) (inConfig : Bool) (loadConfig : Bytes → Session → Except Outcome Session)
    (s : Session) (directive : Directive) : Except Outcome Session :=
  match directive with
  | .set flag => .ok { s with settings := s.settings.set flag }
  | .keep chars => .ok { s with settings := { s.settings with escape := true, keptChars := chars } }
  | .pattern role value => .ok { s with settings := s.settings.addPattern value role }
  | .config name => loadConfig name s
  | .help => .error (s.stop 0 helpText)
  | .version => .error (s.stop 0 (versionText env.host.zlibVersion))
  | .misuse e => s.misuse inConfig e
  | .operand value =>
    .ok { s with settings := { s.settings with operands := s.settings.operands ++ [value] } }

/-- Carries out directives, up to one that ends the run. -/
def perform (env : Environment) (inConfig : Bool) (loadConfig : Bytes → Session → Except Outcome Session)
    (directives : List Directive) (s : Session) : Except Outcome Session :=
  directives.foldlM (performOne env inConfig loadConfig) s

end Session

/-- Reads a configuration file while at most `room` of them may be opened. The option is refused when there
is no room left. -/
def Config.loadNested (env : Environment) : Nat → Bytes → Session → Except Outcome Session
  | 0, _, s => s.misuse true .recursiveConfig
  | room + 1, name, s =>
    load env (maxDepth - room) (Session.perform env true (loadNested env room)) name s

/-- The session after the options of the command line. Without a pattern to include, the first operand is
one. -/
def Session.ofArguments (env : Environment) (arguments : List Bytes) : Except Outcome Session := do
  let s ← Session.perform env false (Config.loadNested env Config.maxDepth)
    (Directive.ofArguments arguments) {}
  let s := { s with settings := s.settings.promoteOperand }
  if s.settings.includes.isEmpty && s.settings.converts then s.misuse false .missingPattern
  else .ok s

end NameGlob.Tool
