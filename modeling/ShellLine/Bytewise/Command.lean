import ShellLine.Bytewise.Word
import ShellLine.Grammar.Rules

set_option autoImplicit false

namespace ShellLine.Bytewise

open Program

def compoundList : Program Node :=
  nested <| atomic do
    lineBreak
    termList true

def braceGroup : Program Node :=
  atomic do
    keyword "\x7b"
    let body ← compoundList
    keyword "\x7d"
    return .wrap .braceGroup body

def subshell : Program Node :=
  atomic do
    operator "("
    let body ← compoundList
    operator ")"
    return .wrap .subshell body

def doGroup : Program Node :=
  atomic do
    keyword "do"
    let body ← compoundList
    keyword "done"
    return .wrap .loopBody body

def sequentialSeparator : Program Unit := (do loneOperator ';'; lineBreak) <|> newlines

def inClause : Program Node := do
  lineBreak
  keyword "in"
  let words ← many (call .word)
  sequentialSeparator
  return .ofNodes .inWords words

def forClause : Program Node :=
  atomic do
    keyword "for"
    let parameter ← name
    blanks
    let words ← attempt inClause
    if words.isNone then optional sequentialSeparator
    let body ← doGroup
    return ⟨.forLoop, .text parameter (.ofNodes (words.toList ++ [body])), none⟩

def caseItem : Program (Turn Node) :=
  atomic do
    optional (operator "(")
    let first ← call .word
    let others ← attempts do loneOperator '|'; call .word
    operator ")"
    let patterns := Forest.ofNodes (first :: others)
    let body ← maybe compoundList
    if body.isNone then lineBreak
    let item : Node := ⟨.caseItem, .list patterns (.ofNodes body.toList), none⟩
    match ← maybe (operator ";;") with
    | some () =>
        lineBreak
        return .more item
    | none => return .last item

def caseItems : Program (List Node) :=
  rounds do
    match ← maybe caseItem with
    | some item => return item
    | none => return .stop

def caseClause : Program Node :=
  atomic do
    keyword "case"
    let subject ← call .word
    lineBreak
    keyword "in"
    lineBreak
    let items ← caseItems
    keyword "esac"
    return .ofNodes .caseChoice (subject :: items)

def elsePart : Program Node :=
  atomic do
    match ← maybe (keyword "elif") with
    | some () => return .wrap .otherwise (← call .conditional)
    | none =>
        keyword "else"
        return .wrap .otherwise (← compoundList)

def conditional : Program Node := do
  let condition ← compoundList
  keyword "then"
  let consequent ← compoundList
  let alternative ← maybe elsePart
  return .ofNodes .ifChoice
    ([.wrap .condition condition, .wrap .consequent consequent] ++ alternative.toList)

def ifClause : Program Node :=
  atomic do
    keyword "if"
    let choice ← call .conditional
    keyword "fi"
    return choice

def loopClause (word : String) (kind : Kind) : Program Node :=
  atomic do
    keyword word
    let condition ← compoundList
    let body ← doGroup
    return .ofNodes kind [.wrap .condition condition, body]

def compoundCommand : Program Node := do
  match ← peek with
  | some '\x7b' => braceGroup
  | some '(' => subshell
  | some 'f' => forClause
  | some 'c' => caseClause
  | some 'i' => ifClause
  | some 'w' => loopClause "while" .whileLoop
  | some 'u' => loopClause "until" .untilLoop
  | _ => miss

def withRedirections (compound : Node) : Program Node := do
  let redirections ← many (call .redirection)
  return { compound with contents := compound.contents.append (.ofNodes redirections) }

def functionDefinition : Program Node := do
  if ← reservedHere then miss
  else
    atomic do
      let chars ← name
      blanks
      operator "("
      operator ")"
      lineBreak
      let body ← withRedirections (← compoundCommand)
      return .ofNodes .functionDefinition [.leaf .functionName chars, body]

def assignment : Program Node :=
  atomic do
    let parameter ← name
    literal "="
    let value ← wordParts false
    blanks
    return ⟨.assignment, .text parameter (.ofNodes [.ofNodes .word value]), none⟩

def commandWord : Program Node := do
  if ← reservedHere then refuse (.token .commandName) else call .word

def simpleCommand : Program Node := do
  let items ← many (call .redirection <|> assignment)
  let lead := if items = [] then [] else [Node.ofNodes .commandLead items]
  match ← maybe commandWord with
  | some first =>
      let others ← many (call .redirection <|> call .word)
      return .ofNodes .simpleCommand (lead ++ first :: others)
  | none => if items = [] then miss else return .ofNodes .simpleCommand lead

def command : Program Node :=
  functionDefinition <|> (do withRedirections (← compoundCommand)) <|> simpleCommand

def pipeSequence : Program Node := do
  let first ← call .command
  match ← attempts (do loneOperator '|'; lineBreak; call .command) with
  | [] => return first
  | others => return .ofNodes .pipeline (first :: others)

def pipeline : Program Node :=
  atomic do
    let bang ← maybe (keyword "!")
    let stages ← pipeSequence
    return if bang.isSome then .wrap .bang stages else stages

def andOrLink : Program (Kind × Node) := do
  let kind ← (do operator "&&"; return .andIf) <|> (do operator "||"; return .orIf)
  lineBreak
  return (kind, ← pipeline)

def andOr : Program Node := do
  let first ← pipeline
  let links ← attempts andOrLink
  return links.foldl (fun left link => .ofNodes link.1 [left, link.2]) first

def rules : Rule → Program Node
  | .word => word
  | .redirection => redirection
  | .operand => operand
  | .command => command
  | .andOr => andOr
  | .conditional => conditional

-- The engine on the bytes of a text. It is cut short if calls nest or repetitions go on beyond the fuel.
def readProgram (fuel limit : Nat) (text : List Char) : Run Node :=
  (program.run text limit (evaluate rules text limit fuel) fuel 0 .start).map fun (trail, outcome) =>
    (.stands .start :: trail, outcome)

end ShellLine.Bytewise
