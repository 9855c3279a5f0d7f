import ShellLine.Parsing.Parser

set_option autoImplicit false

namespace ShellLine.Grammar

open ShellLine.Parser

def backtick : Char := '\x60'

-- The characters that end a word and a reserved word.
def isDelimiter (c : Char) : Bool :=
  c ∈ [' ', '\t', '\n', ';', '&', '|', '<', '>', '(', ')']

-- The number of characters of layout a text starts with: blanks, joined lines and comments,
-- and newlines too if `lines`. The flag tells whether the text is in a comment, which ends
-- in front of its newline.
def layoutLength (lines : Bool) : Bool → List Char → Nat
  | _, [] => 0
  | _, '\n' :: rest => if lines then 1 + layoutLength lines false rest else 0
  | true, _ :: rest => 1 + layoutLength lines true rest
  | false, ' ' :: rest => 1 + layoutLength lines false rest
  | false, '\t' :: rest => 1 + layoutLength lines false rest
  | false, '#' :: rest => 1 + layoutLength lines true rest
  | false, '\\' :: '\n' :: rest => 2 + layoutLength lines false rest
  | false, _ => 0

def blanks : Parser Unit := do
  skip (layoutLength false false (← look))

def newlines : Parser Unit := do
  let text ← look
  if text.head? = some '\n' then skip (layoutLength true false text)
  else refuse (.token .newline)

def lineBreak : Parser Unit := optional newlines

def literal (text : String) : Parser Unit := do
  if text.toList.isPrefixOf (← look) then skip text.length else refuse (.literal text)

def operator (text : String) : Parser Unit := do
  literal text
  blanks

-- An operator of one character that is not written twice here.
def loneOperator (c : Char) : Parser Unit := do
  match ← look with
  | first :: rest =>
      if first = c ∧ rest.head? ≠ some c then
        skip 1
        blanks
      else refuse (.literal (.singleton c))
  | [] => refuse (.literal (.singleton c))

def literalAmong : List (String × Kind) → Parser Kind
  | [] => fail
  | (text, kind) :: others => (do literal text; return kind) <|> literalAmong others

def startsReserved (word : List Char) (text : List Char) : Bool :=
  word.isPrefixOf text && (text.drop word.length).head?.all isDelimiter

def keyword (word : String) : Parser Unit := do
  if startsReserved word.toList (← look) then
    skip word.length
    blanks
  else refuse (.literal word)

def reservedWords : List String :=
  ["if", "then", "else", "elif", "fi", "while", "until", "do", "done", "case", "esac", "for",
    "in", "\x7b", "\x7d", "!"]

def reservedAhead (text : List Char) : Bool :=
  reservedWords.any fun word => startsReserved word.toList text

def startsName (c : Char) : Bool := c.isAlpha || c = '_'

def continuesName (c : Char) : Bool := c.isAlphanum || c = '_'

def name : Parser (List Char) := do
  if (← look).head?.any startsName then takeWhile continuesName else refuse (.token .name)

end ShellLine.Grammar
