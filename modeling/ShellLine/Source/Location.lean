import ShellLine.Text.Bytes

set_option autoImplicit false

namespace ShellLine

structure Location where
  line : Nat
  column : Nat
  lineContent : List Char
deriving DecidableEq, Repr

namespace Location

-- Moves over the characters that start less than `offset` bytes ahead. The line so far is
-- given by its number, the column reached and the text from its start to the end of the
-- source.
def advance (line column : Nat) (fromLineStart : List Char) : List Char → Nat → Location
  | [], _ => ⟨line, column, fromLineStart.takeWhile (· ≠ '\n')⟩
  | c :: rest, offset =>
      if offset = 0 then ⟨line, column, fromLineStart.takeWhile (· ≠ '\n')⟩
      else if c = '\n' then advance (line + 1) 1 rest rest (offset - c.utf8Size)
      else advance line (column + 1) fromLineStart rest (offset - c.utf8Size)

end Location

-- An offset past the end stands for the end.
def locate (source : String) (offset : Nat) : Location :=
  Location.advance 1 1 source.toList source.toList offset

def caretLine (column : Nat) : List Char := List.replicate (column - 1) ' ' ++ ['^']

def caretContext (source : String) (offset : Nat) : String :=
  let location := locate source offset
  String.ofList (location.lineContent ++ '\n' :: caretLine location.column)

def padLeft (width : Nat) (chars : List Char) : List Char :=
  List.replicate (width - chars.length) ' ' ++ chars

-- A block that names the position, then shows the numbered line and the caret beside a
-- ruler.
def diagnosticContext (source : String) (offset : Nat) (message : String) : String :=
  let location := locate source offset
  let number := Nat.toDigits 10 location.line
  String.ofList <|
    "error: ".toList ++ message.toList ++ "\n  --> line ".toList ++ number ++
      ", column ".toList ++ Nat.toDigits 10 location.column ++ "\n   |\n".toList ++
      padLeft 3 number ++ " | ".toList ++ location.lineContent ++ "\n   | ".toList ++
      caretLine location.column

end ShellLine
