import ShellLine.Grammar.Expansion

set_option autoImplicit false

namespace ShellLine.Grammar

open ShellLine.Parser

-- The characters that end a run of unquoted text; inside braces a closing brace does too.
def isWordBreak (braced : Bool) (c : Char) : Bool :=
  isDelimiter c || c ∈ ['$', backtick, '\\', '"', '\''] || (braced && c = '\x7d')

-- The contents of a quote: texts that meet are joined and empty ones left out.
def joinTexts : List Child → Forest
  | [] => .nil
  | .text chars :: others =>
      match joinTexts others with
      | .text more rest => .text (chars ++ more) rest
      | rest => if chars = [] then rest else .text chars rest
  | child :: others => .cons child (joinTexts others)

def quotedNode (kind : Kind) (children : List Child) : Node := ⟨kind, joinTexts children, none⟩

def unquotedLiteral (braced : Bool) : Parser Node := do
  let chars ← takeWhile fun c => !isWordBreak braced c
  if chars = [] then refuse (.token .unquoted) else return .leaf .unquotedLiteral chars

def singleQuote : Parser Node :=
  atomic do
    skip 1
    let chars ← takeWhile (· ≠ '\'')
    match ← look with
    | [] =>
        expected (.literal "'")
        refuse (.token .singleQuoted)
    | _ =>
        skip 1
        return .leaf .singleQuote chars

-- An escaped newline joins two lines and is no text.
def bareEscape : Parser Node :=
  atomic do
    skip 1
    match ← look with
    | [] => refuse (.token .anyCharacter)
    | c :: _ =>
        skip 1
        return .leaf .bareEscape (if c = '\n' then [] else [c])

-- A backslash is kept as text in front of all but the characters it escapes.
def backquotedPart (inDoubleQuote : Bool) : Parser (Turn Child) := do
  match ← look with
  | [] =>
      expected (.literal "`")
      expected (.literal "\\")
      refuse (.token .backquoted)
  | '\\' :: rest =>
      match rest.head? with
      | some c =>
          if c = backtick ∨ c = '$' ∨ c = '\\' ∨ inDoubleQuote ∧ c = '"' then
            skip 2
            return .more (.node (.leaf .backquotedEscape [c]))
          else
            skip 1
            return .more (.text ['\\'])
      | none =>
          skip 1
          return .more (.text ['\\'])
  | c :: _ =>
      if c = backtick then
        skip 1
        return .stop
      else return .more (.text (← takeWhile fun c => c ≠ backtick && c ≠ '\\'))

def backquote (inDoubleQuote : Bool) : Parser Node :=
  atomic do
    skip 1
    let parts ← rounds (backquotedPart inDoubleQuote)
    return quotedNode (if inDoubleQuote then .doubleBackquote else .backquote) parts

def isDoubleQuotedText (c : Char) : Bool := c ∉ ['"', '\\', backtick, '$']

def doubleQuotedPart : Parser (Turn Child) := do
  match ← look with
  | [] =>
      expected (.literal "\"")
      expected (.literal "\\")
      expected (.literal "`")
      expected (.literal "$")
      refuse (.token .doubleQuoted)
  | '"' :: _ =>
      skip 1
      return .stop
  | '$' :: _ => return .more (.node (← dollarExpansion))
  | '\\' :: rest =>
      match rest.head? with
      | some c =>
          if c = '$' ∨ c = backtick ∨ c = '"' ∨ c = '\\' then
            skip 2
            return .more (.node (.leaf .doubleQuotedEscape [c]))
          else if c = '\n' then
            skip 2
            return .more (.node (.leaf .doubleQuotedEscape []))
          else
            skip 1
            return .more (.text ['\\'])
      | none =>
          skip 1
          return .more (.text ['\\'])
  | c :: _ =>
      if c = backtick then return .more (.node (← backquote true))
      else return .more (.text (← takeWhile isDoubleQuotedText))

def doubleQuote : Parser Node :=
  atomic do
    skip 1
    let parts ← rounds doubleQuotedPart
    return quotedNode .doubleQuote parts

def wordPart (braced : Bool) : Parser Node := do
  match (← look).head? with
  | some '\'' => singleQuote
  | some '"' => doubleQuote
  | some '\x60' => backquote false
  | some '$' => dollarExpansion
  | some '\\' => bareEscape
  | _ => unquotedLiteral braced

def wordParts (braced : Bool) : Parser (List Node) := many (wordPart braced)

def word : Parser Node := do
  match ← wordParts false with
  | [] => fail
  | parts =>
      blanks
      return .ofNodes .word parts

-- The word of a braced parameter, which may be empty and takes no blanks.
def operand : Parser Node := return .ofNodes .word (← wordParts true)

end ShellLine.Grammar
