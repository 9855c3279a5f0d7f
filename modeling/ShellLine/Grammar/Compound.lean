import ShellLine.Grammar.CommandList

set_option autoImplicit false

namespace ShellLine.Grammar

open ShellLine.Parser

def compoundList : Parser Node :=
  nested <| atomic do
    lineBreak
    termList true

def braceGroup : Parser Node :=
  atomic do
    keyword "\x7b"
    let body ← compoundList
    keyword "\x7d"
    return .wrap .braceGroup body

def subshell : Parser Node :=
  atomic do
    operator "("
    let body ← compoundList
    operator ")"
    return .wrap .subshell body

def doGroup : Parser Node :=
  atomic do
    keyword "do"
    let body ← compoundList
    keyword "done"
    return .wrap .loopBody body

def sequentialSeparator : Parser Unit := (do loneOperator ';'; lineBreak) <|> newlines

def inClause : Parser Node := do
  lineBreak
  keyword "in"
  let words ← many (call .word)
  sequentialSeparator
  return .ofNodes .inWords words

-- Without an `in` the loop has no node for its words.
def forClause : Parser Node :=
  atomic do
    keyword "for"
    let parameter ← name
    blanks
    let words ← attempt inClause
    if words.isNone then optional sequentialSeparator
    let body ← doGroup
    return ⟨.forLoop, .text parameter (.ofNodes (words.toList ++ [body])), none⟩

-- An item of a `case`; only the last may end without `;;`.
def caseItem : Parser (Turn Node) :=
  atomic do
    optional (operator "(")
    let first ← call .word
    let others ← many (do loneOperator '|'; call .word)
    operator ")"
    let patterns := Forest.ofNodes (first :: others)
    let body ← attempt compoundList
    if body.isNone then lineBreak
    let item : Node := ⟨.caseItem, .list patterns (.ofNodes body.toList), none⟩
    match ← attempt (operator ";;") with
    | some () =>
        lineBreak
        return .more item
    | none => return .last item

def caseItems : Parser (List Node) :=
  rounds do
    match ← attempt caseItem with
    | some item => return item
    | none => return .stop

def caseClause : Parser Node :=
  atomic do
    keyword "case"
    let subject ← call .word
    lineBreak
    keyword "in"
    lineBreak
    let items ← caseItems
    keyword "esac"
    return .ofNodes .caseChoice (subject :: items)

def elsePart : Parser Node :=
  atomic do
    match ← attempt (keyword "elif") with
    | some () => return .wrap .otherwise (← call .conditional)
    | none =>
        keyword "else"
        return .wrap .otherwise (← compoundList)

def conditional : Parser Node := do
  let condition ← compoundList
  keyword "then"
  let consequent ← compoundList
  let alternative ← attempt elsePart
  return .ofNodes .ifChoice
    ([.wrap .condition condition, .wrap .consequent consequent] ++ alternative.toList)

def ifClause : Parser Node :=
  atomic do
    keyword "if"
    let choice ← call .conditional
    keyword "fi"
    return choice

def loopClause (word : String) (kind : Kind) : Parser Node :=
  atomic do
    keyword word
    let condition ← compoundList
    let body ← doGroup
    return .ofNodes kind [.wrap .condition condition, body]

def compoundCommand : Parser Node := do
  match (← look).head? with
  | some '\x7b' => braceGroup
  | some '(' => subshell
  | some 'f' => forClause
  | some 'c' => caseClause
  | some 'i' => ifClause
  | some 'w' => loopClause "while" .whileLoop
  | some 'u' => loopClause "until" .untilLoop
  | _ => fail

-- Adds the redirections that follow a compound command to its contents.
def withRedirections (compound : Node) : Parser Node := do
  let redirections ← many (call .redirection)
  return { compound with contents := compound.contents.append (.ofNodes redirections) }

end ShellLine.Grammar
