import ShellLine.CommandLine.Run

set_option autoImplicit false

namespace ShellLine.CommandLine

def misuseText : String := "error: invalid arguments\n\nFor more information, try '--help'.\n"

partial def readAll (stream : IO.FS.Stream) (taken : ByteArray) : IO ByteArray := do
  let chunk ← stream.read 65536
  if chunk.isEmpty then return taken else readAll stream (taken ++ chunk)

-- Standard input is read only when the arguments ask for it.
def wantsStdin (arguments : List String) : Bool :=
  match bundled.arguments arguments with
  | .ok ⟨_, _, some (_, input)⟩ => input.stdin
  | _ => false

end ShellLine.CommandLine

open ShellLine.CommandLine in
def main (arguments : List String) : IO UInt32 := do
  let environment : Environment :=
    { maxInput := ← IO.getEnv "SHGATE_MAX_INPUT", maxDepth := ← IO.getEnv "SHGATE_MAX_DEPTH" }
  let stdin ← if wantsStdin arguments then readAll (← IO.getStdin) .empty else pure .empty
  match run arguments environment stdin with
  | .exit code out err =>
      IO.print out
      IO.eprint err
      return UInt32.ofNat code
  | .misuse =>
      IO.eprint misuseText
      return 2
