import NameGlob.Bytes

/-!
# Directives of the command line

An argument list is read as a list of directives before anything is done. A directive may also record
that an option is unknown; whether that ends the program is decided when the directive is carried out.
-/

namespace NameGlob.Tool

/-- The options without a value. -/
inductive Flag where
  /-- Print only the number of selected names. -/
  | count
  /-- Fold case independently of the locale. -/
  | cultureInvariant
  /-- Look for compressed input. -/
  | decompress
  /-- Print DOS patterns. -/
  | dos
  /-- Print escaped names. -/
  | escape
  /-- Test for wildcards. -/
  | hasWildcards
  /-- Ignore case. -/
  | ignoreCase
  /-- Select the names that are not accepted. -/
  | invertMatch
  /-- Print regular expressions. -/
  | regex
  /-- Print unescaped names. -/
  | unescape
  /-- Print WQL operands. -/
  | wql
  deriving Repr, DecidableEq

inductive Role where
  | including
  | excluding
  deriving Repr, DecidableEq

inductive UsageError where
  | unknownLong (name : Bytes)
  | unknownShort (letter : UInt8)
  /-- Configuration files are nested too deeply. -/
  | recursiveConfig
  | missingPattern
  deriving Repr, DecidableEq

/-- What an argument asks for. -/
inductive Directive where
  | set (flag : Flag)
  /-- Print escaped names in which these characters are left as they are. -/
  | keep (chars : Bytes)
  | pattern (role : Role) (value : Bytes)
  /-- Read a configuration file, or the default one when the name is empty. -/
  | config (name : Bytes)
  | help
  | version
  | misuse (error : UsageError)
  | operand (value : Bytes)
  deriving Repr, DecidableEq

namespace UsageError

/-- The options among which the one that was meant may be, by the first letter of a long name. -/
def longSuggestion (letter : UInt8) : Option String :=
  if letter = 0x63 then some "--config, --count or --culture-invariant"
  else if letter = 0x64 then some "--decompress or --dos"
  else if letter = 0x65 then some "--escape or --exclude="
  else if letter = 0x68 then some "--has-wildcards or --help"
  else if letter = 0x69 then some "--ignore-case, --include= or --invert-match"
  else if letter = 0x72 then some "--regex"
  else if letter = 0x75 then some "--unescape"
  else if letter = 0x76 then some "--version"
  else if letter = 0x77 then some "--wql"
  else none

/-- The options among which the one that was meant may be. -/
def suggestion : UsageError → Option String
  | unknownLong name => name.head?.bind longSuggestion
  | unknownShort _ => some "-c, -e, -h, -I, -i, -V, -v, -x or -z"
  | recursiveConfig => none
  | missingPattern => none

def description : UsageError → Bytes
  | unknownLong name => Bytes.ascii "invalid option --" ++ name
  | unknownShort letter => Bytes.ascii "invalid option -" ++ [letter]
  | recursiveConfig => Bytes.ascii "recursive configuration --config"
  | missingPattern => Bytes.ascii "no PATTERN specified"

def message (e : UsageError) : Bytes :=
  Bytes.ascii "wcmatch: " ++ e.description
    ++ (match e.suggestion with
      | some options => Bytes.ascii ", did you mean " ++ Bytes.ascii options ++ Bytes.ascii "?"
      | none => [])
    ++ Bytes.ascii "\nFor more help on options, try `wcmatch --help'\n"

end UsageError

end NameGlob.Tool
