import NameGlob.Tool.Directive

/-!
# Reading argument lists

An argument that begins with `-` and is longer than that holds options, until `--` ends them. Behind the
`-` stand the letters of short options. A further `-` at any place begins the name of a long option. The
letters `e` and `x` take the rest of the argument as their pattern, or the next argument when there is
no rest; a long option takes its value behind `=`.
-/

namespace NameGlob.Tool

/-- How the next argument is to be read. -/
inductive Expecting where
  /-- It may hold options. -/
  | options
  /-- It is the pattern of an option. -/
  | value (role : Role)
  /-- Options have ended, so it is an operand. -/
  | operands
  deriving Repr, DecidableEq

namespace Directive

/-- The long options that take no value. -/
def plainLong : List (String × Directive) :=
  [ ("config", .config []),
    ("count", .set .count),
    ("culture-invariant", .set .cultureInvariant),
    ("decompress", .set .decompress),
    ("dos", .set .dos),
    ("escape", .set .escape),
    ("has-wildcards", .set .hasWildcards),
    ("help", .help),
    ("ignore-case", .set .ignoreCase),
    ("invert-match", .set .invertMatch),
    ("regex", .set .regex),
    ("unescape", .set .unescape),
    ("version", .version),
    ("wql", .set .wql) ]

/-- The directives of a long option without a value. -/
def ofLongName (name : Bytes) : List Directive × Expecting :=
  if name = Bytes.ascii "include" then ([], .value .including)
  else if name = Bytes.ascii "exclude" then ([], .value .excluding)
  else
    match plainLong.find? fun entry => Bytes.ascii entry.1 = name with
    | some entry => ([entry.2], .options)
    | none => ([.misuse (.unknownLong name)], .options)

/-- The directive of a pattern option with a value. An empty value stands in the next argument. -/
def ofPatternValue (role : Role) (value : Bytes) : List Directive × Expecting :=
  if value.isEmpty then ([], .value role) else ([.pattern role value], .options)

/-- The directives of the long option `name=value`. -/
def ofLongValue (name value : Bytes) : List Directive × Expecting :=
  if name = Bytes.ascii "config" then ([.config value], .options)
  else if name = Bytes.ascii "escape" then ([.keep value], .options)
  else if name = Bytes.ascii "include" then ofPatternValue .including value
  else if name = Bytes.ascii "exclude" then ofPatternValue .excluding value
  else ([.misuse (.unknownLong (name ++ 0x3D :: value))], .options)

/-- The directives of a long option, which may hold a value behind its first `=`. -/
def ofLong (option : Bytes) : List Directive × Expecting :=
  match option.dropWhile (· != 0x3D) with
  | [] => ofLongName option
  | _ :: value => ofLongValue (option.takeWhile (· != 0x3D)) value

/-- The directive of a short option without a value. -/
def ofLetter (letter : UInt8) : Directive :=
  if letter = 0x63 then .set .count
  else if letter = 0x68 then .help
  else if letter = 0x49 then .set .cultureInvariant
  else if letter = 0x69 then .set .ignoreCase
  else if letter = 0x56 then .version
  else if letter = 0x76 then .set .invertMatch
  else if letter = 0x7A then .set .decompress
  else .misuse (.unknownShort letter)

/-- The pattern option that a letter stands for. -/
def roleOf? (letter : UInt8) : Option Role :=
  if letter = 0x65 then some .including
  else if letter = 0x78 then some .excluding
  else none

/-- The text behind the letter of a pattern option, without one leading `=`. -/
def attached : Bytes → Bytes
  | [] => []
  | b :: rest => if b = 0x3D then rest else b :: rest

/-- The directives of an argument behind its `-`. -/
def ofLetters : Bytes → List Directive × Expecting
  | [] => ([], .options)
  | letter :: rest =>
    if letter = 0x2D then
      if rest.isEmpty then ([], .operands) else ofLong rest
    else
      match roleOf? letter with
      | some role => ofPatternValue role (attached rest)
      | none =>
        let (directives, expecting) := ofLetters rest
        (ofLetter letter :: directives, expecting)

/-- The directives of an argument that may hold options. -/
def ofArgument (argument : Bytes) : List Directive × Expecting :=
  match argument with
  | 0x2D :: letter :: rest => ofLetters (letter :: rest)
  | _ => ([.operand argument], .options)

/-- The directives of arguments, of which the first is read as `expecting` says. A pattern that is still
awaited at the end is empty. -/
def ofArgumentsFrom : Expecting → List Bytes → List Directive
  | .value role, [] => [.pattern role []]
  | _, [] => []
  | .operands, argument :: rest => .operand argument :: ofArgumentsFrom .operands rest
  | .value role, argument :: rest => .pattern role argument :: ofArgumentsFrom .options rest
  | .options, argument :: rest =>
    let (directives, expecting) := ofArgument argument
    directives ++ ofArgumentsFrom expecting rest

/-- The directives of an argument list. An argument ends before its first NUL byte. -/
def ofArguments (arguments : List Bytes) : List Directive :=
  ofArgumentsFrom .options (arguments.map Bytes.untilNul)

end Directive

end NameGlob.Tool
