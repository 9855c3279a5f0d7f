import ShellLine.CommandLine.Arguments

set_option autoImplicit false

namespace ShellLine.CommandLine

def summary : Action → String
  | .check => "Report the shell features a command line uses and its literal argv"
  | .dump => "Print the syntax tree of a command line"

def Action.name : Action → String
  | check => "check"
  | dump => "dump"

def programHelp : String :=
  "Parse shell command lines and report whether they need a shell\n" ++
    "\n" ++
    "Usage: shgate [OPTIONS] [COMMAND]\n" ++
    "\n" ++
    "Commands:\n" ++
    "  check  " ++ summary .check ++ "\n" ++
    "  dump   " ++ summary .dump ++ "\n" ++
    "  help   Print this message or the help of the given subcommand(s)\n" ++
    "\n" ++
    "Options:\n" ++
    "  -o, --output <OUTPUT>  Output format [default: text] [possible values: text, json]\n" ++
    "  -v, --verbose          Log parser decisions to stderr (overrides SHGATE_LOG)\n" ++
    "  -h, --help             Print help\n" ++
    "  -V, --version          Print version\n"

def actionHelp (action : Action) : String :=
  summary action ++ "\n" ++
    "\n" ++
    "Usage: shgate " ++ action.name ++ " [OPTIONS] [COMMAND]\n" ++
    "\n" ++
    "Arguments:\n" ++
    "  [COMMAND]  The shell command line to analyze\n" ++
    "\n" ++
    "Options:\n" ++
    "  -o, --output <OUTPUT>  Output format [default: text] [possible values: text, json]\n" ++
    "      --stdin            Read the command line from standard input\n" ++
    "      --bare             Print syntax errors without the source line and caret\n" ++
    "  -v, --verbose          Log parser decisions to stderr (overrides SHGATE_LOG)\n" ++
    "  -h, --help             Print help\n"

def helpHelp : String :=
  "Print this message or the help of the given subcommand(s)\n" ++
    "\n" ++
    "Usage: shgate help [COMMAND]...\n" ++
    "\n" ++
    "Arguments:\n" ++
    "  [COMMAND]...  Print help for the subcommand(s)\n"

def HelpTopic.text : HelpTopic → String
  | program => programHelp
  | action named => actionHelp named
  | help => helpHelp

def versionText : String := "shgate 0.1.0\n"

end ShellLine.CommandLine
