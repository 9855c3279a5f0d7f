import ShellLine.Text.Quoted

set_option autoImplicit false

namespace ShellLine

open Text

inductive Token
  | unquoted
  | doubleQuoted
  | backquoted
  | singleQuoted
  | name
  | digit
  | newline
  | anyCharacter
  | commandName
  | parameter
  | dollarParameter
deriving DecidableEq, Repr

def Token.description : Token → String
  | unquoted => "unquoted character"
  | doubleQuoted => "[^\"\\\\`$]"
  | backquoted => "[^`\\\\]"
  | singleQuoted => "[^']"
  | name => "name"
  | digit => "[0-9]"
  | newline => "newline"
  | anyCharacter => "any character"
  | commandName => "command name"
  | parameter => "parameter"
  | dollarParameter =>
      "parameter (a literal \"$\" must be escaped as \"\\$\" or single-quoted)"

inductive Expected
  | literal (text : String)
  | token (shape : Token)
  | endOfInput
deriving DecidableEq, Repr

namespace Expected

def describe : Expected → List Char
  | literal text => quote text.toList
  | token shape => shape.description.toList
  | endOfInput => "end of input".toList

def key : Expected → List Nat
  | literal text => 0 :: text.toList.map Char.toNat
  | token shape => 1 :: shape.description.toList.map Char.toNat
  | endOfInput => [2]

def insert (e : Expected) : List Expected → List Expected
  | [] => [e]
  | f :: others =>
      if e = f then f :: others
      else if e.key < f.key then e :: f :: others
      else f :: insert e others

def sorted : List Expected → List Expected
  | [] => []
  | e :: others => insert e (sorted others)

-- Joins all but the last with commas and the last with "or".
def enumerate : List Expected → List Char
  | [] => "valid input".toList
  | [only] => only.describe
  | [e, last] => e.describe ++ " or ".toList ++ last.describe
  | e :: others => e.describe ++ ", ".toList ++ enumerate others

def describeFound : Option Char → List Char
  | some c => quote [c]
  | none => "end of input".toList

def message (expected : List Expected) (found : Option Char) : String :=
  String.ofList <|
    "Expected ".toList ++ enumerate expected ++ " but ".toList ++ describeFound found ++
      " found.".toList

end Expected

end ShellLine
