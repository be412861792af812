import NameGlob.Bytes

/-!
# Help
-/

namespace NameGlob.Tool

/-- The lines that `--help` prints. -/
def helpLines : List String :=
  [
    "Usage: wcmatch [OPTIONS] [PATTERN] [-e PATTERN] [-x PATTERN] [FILE ...]",
    "",
    "    Reads names, one per line, from the FILEs or from standard input when no",
    "    FILE or - is specified, and writes the names that match an include",
    "    PATTERN and no exclude PATTERN.  When no -e PATTERN is specified, the",
    "    first argument is the include PATTERN.",
    "",
    "    A wildcard PATTERN matches the entire name.  `*' matches any sequence of",
    "    characters, `?' matches any one character, `[abc]' and `[a-z]' match one",
    "    character in the list or range.  A backtick escapes the next character.",
    "",
    "    -c, --count",
    "            Only print the number of selected names.",
    "    --config[=FILE]",
    "            Use configuration FILE.  The default FILE is `.wcmatch' in the",
    "            working directory or in the home directory.  A configuration file",
    "            lists long options without the leading `--', one per line.  Lines",
    "            starting with a `#' are comments.",
    "    --dos",
    "            Print the DOS wildcard rendering of each PATTERN and exit.",
    "    -e PATTERN, --include=PATTERN",
    "            Select names that match PATTERN.  This option may be repeated.",
    "    --escape[=CHARS]",
    "            Print each PATTERN with its wildcard characters escaped, except",
    "            for those in CHARS, and exit.",
    "    --has-wildcards",
    "            Exit with status 0 when a PATTERN has unescaped wildcards, 1",
    "            otherwise.",
    "    -h, --help",
    "            Display this help and exit.",
    "    -I, --culture-invariant",
    "            Fold case independently of the current locale with -i.",
    "    -i, --ignore-case",
    "            Perform case insensitive matching.",
    "    --regex",
    "            Print the regex rendering of each PATTERN and exit.",
    "    --unescape",
    "            Print each PATTERN with its escapes removed and exit.",
    "    -V, --version",
    "            Display version information and exit.",
    "    -v, --invert-match",
    "            Select names that are not selected by the PATTERNs.",
    "    --wql",
    "            Print the WQL LIKE operand of each PATTERN and exit, fails when a",
    "            PATTERN has a bracket list.",
    "    -x PATTERN, --exclude=PATTERN",
    "            Do not select names that match PATTERN.  This option may be",
    "            repeated.",
    "    -z, --decompress",
    "            Decompress gzip compressed input.",
    "",
    "    The exit status is 0 if a name is selected, 1 if no names are selected",
    "    and 2 if an error occurred.",
    "" ]

def helpText : Bytes :=
  helpLines.flatMap fun line => Bytes.ascii line ++ [0x0A]

/-- What `--version` prints, with the version of the library that inflates. -/
def versionText (zlibVersion : Bytes) : Bytes :=
  Bytes.ascii "wcmatch 1.0.0; -z:zlib " ++ zlibVersion
    ++ Bytes.ascii "; --regex:boost_regex\nLicense: BSD-3-Clause\n"

end NameGlob.Tool
