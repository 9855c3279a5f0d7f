import ShellLine.Text.Glyph

set_option autoImplicit false

namespace ShellLine.Text

def escapeCode (c : Char) : List Char :=
  '\\' :: 'u' :: '\x7b' :: (Nat.toDigits 16 c.toNat ++ ['\x7d'])

def escapeQuoted (c : Char) : List Char :=
  if c = '\x00' then ['\\', '0']
  else if c = '\t' then ['\\', 't']
  else if c = '\r' then ['\\', 'r']
  else if c = '\n' then ['\\', 'n']
  else if c = '\\' ∨ c = '"' then ['\\', c]
  else if isGlyphless c then escapeCode c
  else [c]

def quote (chars : List Char) : List Char := '"' :: (chars.flatMap escapeQuoted ++ ['"'])

def quoted (text : String) : String := String.ofList (quote text.toList)

-- A list of texts: each quoted, between brackets, with a comma and a space between two.
def quoteList (texts : List String) : List Char :=
  '[' :: (", ".toList.intercalate (texts.map fun text => quote text.toList) ++ [']'])

end ShellLine.Text
