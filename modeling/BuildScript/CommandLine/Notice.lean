import BuildScript.CommandLine.Options

/-!
# Notices

What the program prints when it is asked about itself, or when an argument is wrong.
-/

namespace BuildScript.CommandLine

/-- The lines of a notice, each with a line feed. -/
def unlines (lines : List String) : Text := lines.flatMap fun line ↦ line.toList ++ ['\n']

namespace Notice

/-- The short description of the options. -/
def summaryText : Text :=
  unlines [
    "Translate a Makefile into a self-contained Windows batch build script.",
    "",
    "Usage: makefile2batch [OPTIONS] [NAME=VALUE]...",
    "",
    "Arguments:",
    "  [NAME=VALUE]...  Macro overrides that win over definitions in the rule file",
    "",
    "Options:",
    "  -f, --file <FILE>      Rule file to translate [default: Makefile]",
    "  -o, --output <FILE>    Write the script to this file instead of standard output",
    "      --local-scope      Run every recipe line inside its own `setlocal`/`endlocal` pair",
    "      --newline <STYLE>  Force the line ending of the generated script [possible values: crlf, lf]",
    "  -v, --verbose          Enable verbose logging output",
    "  -h, --help             Print help (see more with '--help')",
    "  -V, --version          Print version"]

/-- The long description of the options. -/
def helpText : Text :=
  unlines [
    "Translate a Makefile into a self-contained Windows batch build script.",
    "",
    "Usage: makefile2batch [OPTIONS] [NAME=VALUE]...",
    "",
    "Arguments:",
    "  [NAME=VALUE]...",
    "          Macro overrides that win over definitions in the rule file",
    "",
    "Options:",
    "  -f, --file <FILE>",
    "          Rule file to translate",
    "          ",
    "          [default: Makefile]",
    "",
    "  -o, --output <FILE>",
    "          Write the script to this file instead of standard output",
    "",
    "      --local-scope",
    "          Run every recipe line inside its own `setlocal`/`endlocal` pair",
    "",
    "      --newline <STYLE>",
    "          Force the line ending of the generated script",
    "",
    "          Possible values:",
    "          - crlf: Carriage return and line feed",
    "          - lf:   Line feed only",
    "",
    "  -v, --verbose",
    "          Enable verbose logging output",
    "",
    "  -h, --help",
    "          Print help (see a summary with '-h')",
    "",
    "  -V, --version",
    "          Print version"]

def versionText : Text := unlines ["makefile2batch 0.1.0"]

def text : Notice → Text
  | summary => summaryText
  | help => helpText
  | version => versionText

end Notice

namespace Stop

/-- What is printed on standard output. -/
def output : Stop → Text
  | notice n => n.text
  | _ => []

/-- What is reported as an error. -/
def complaint : Stop → Text
  | notice _ => []
  | unknownFlag flag => "error: unexpected argument '".toList ++ flag ++ "' found\n".toList
  | missingValue s => "error: a value is required for '--".toList ++ s.name ++ "'\n".toList
  | badValue s value =>
    "error: invalid value '".toList ++ value ++ "' for '--".toList ++ s.name ++ "'\n".toList
  | repeated name => "error: '--".toList ++ name ++ "' cannot be used multiple times\n".toList
  | unexpectedValue name => "error: '--".toList ++ name ++ "' takes no value\n".toList
  | badOverride e => "error: ".toList ++ e.message ++ ['\n']

end Stop

end BuildScript.CommandLine
