import ShellLine.CommandLine.Help

set_option autoImplicit false

namespace ShellLine.CommandLine

def Halt.outcome : Halt → Outcome
  | help topic => .exit 0 topic.text ""
  | version => .exit 0 versionText ""
  | misuse => .misuse

def bundled : Libraries where
  arguments := fun arguments => (read arguments).mapError Halt.outcome
  help := .ok programHelp
  pretty := fun value => .ok value.text

def run (arguments : List String) (environment : Environment) (stdin : ByteArray) : Outcome :=
  bundled.run arguments environment stdin

end ShellLine.CommandLine
