import ShellLine.Grammar.Word
import ShellLine.Grammar.Compound

set_option autoImplicit false

namespace ShellLine.Grammar

open ShellLine.Parser

def functionDefinition : Parser Node := do
  if reservedAhead (← look) then fail
  else
    atomic do
      let chars ← name
      blanks
      operator "("
      operator ")"
      lineBreak
      let body ← withRedirections (← compoundCommand)
      return .ofNodes .functionDefinition [.leaf .functionName chars, body]

-- A name, an equals sign and a value, which may be empty.
def assignment : Parser Node :=
  atomic do
    let parameter ← name
    literal "="
    let value ← wordParts false
    blanks
    return ⟨.assignment, .text parameter (.ofNodes [.ofNodes .word value]), none⟩

def commandWord : Parser Node := do
  if reservedAhead (← look) then refuse (.token .commandName) else call .word

-- Assignments and redirections, then a command word with arguments and redirections. One of
-- the two halves may be missing.
def simpleCommand : Parser Node := do
  let items ← many (call .redirection <|> assignment)
  let lead := if items = [] then [] else [Node.ofNodes .commandLead items]
  match ← attempt commandWord with
  | some first =>
      let others ← many (call .redirection <|> call .word)
      return .ofNodes .simpleCommand (lead ++ first :: others)
  | none => if items = [] then fail else return .ofNodes .simpleCommand lead

def command : Parser Node :=
  functionDefinition <|> (do withRedirections (← compoundCommand)) <|> simpleCommand

def pipeSequence : Parser Node := do
  let first ← call .command
  match ← many (do loneOperator '|'; lineBreak; call .command) with
  | [] => return first
  | others => return .ofNodes .pipeline (first :: others)

def pipeline : Parser Node :=
  atomic do
    let bang ← attempt (keyword "!")
    let stages ← pipeSequence
    return if bang.isSome then .wrap .bang stages else stages

def andOrLink : Parser (Kind × Node) := do
  let kind ← (do operator "&&"; return .andIf) <|> (do operator "||"; return .orIf)
  lineBreak
  return (kind, ← pipeline)

-- Both operators bind alike and group to the left.
def andOr : Parser Node := do
  let first ← pipeline
  let links ← many andOrLink
  return links.foldl (fun left link => .ofNodes link.1 [left, link.2]) first

end ShellLine.Grammar
