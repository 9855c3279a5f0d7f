import ShellLine.Grammar.Rules
import ShellLine.Proofs.Forms.Command

set_option autoImplicit false

namespace ShellLine.Canonical

open Grammar

-- A token starts with no layout, so the space in front of it ends where it starts.
def startsToken (ch : Char) : Bool := ch ∉ [' ', '\t', '#', '\\']

structure Token where
  chars : List Char
  starts : chars.head?.any startsToken = true

structure Quoted where
  text : List Char
  closed : '\'' ∉ text

structure Name where
  chars : List Char
  starts : chars.head?.any startsName = true
  continues : ∀ ch ∈ chars, continuesName ch = true

structure FunctionName extends Name where
  unreserved : String.ofList chars ∉ reservedWords

inductive Connective
  | both
  | either

inductive Ending : Bool → Type
  | semicolon {lines : Bool} : Ending lines
  | background {lines : Bool} : Ending lines
  | newline : Ending true

inductive Repeat
  | untilDone
  | whileDone

inductive Form
  | command
  | compound
  | stages
  | pipeline
  | links
  | chain
  | list (lines : Bool)
  | alternative
  | items

-- Abstract commands and their parts. Stages, links, lists and items are rows; an alternative is what
-- follows the consequent of a choice, and may be missing.
inductive Phrase : Form → Type
  | simple (first : Quoted) (others : List Quoted) : Phrase .command
  | grouped (inner : Phrase .compound) : Phrase .command
  | function (name : FunctionName) (body : Phrase .compound) : Phrase .command
  | lastStage : Phrase .stages
  | stage (next : Phrase .command) (others : Phrase .stages) : Phrase .stages
  | pipeline (negated : Bool) (first : Phrase .command) (others : Phrase .stages) : Phrase .pipeline
  | lastLink : Phrase .links
  | link (connective : Connective) (next : Phrase .pipeline) (others : Phrase .links) : Phrase .links
  | chain (first : Phrase .pipeline) (links : Phrase .links) : Phrase .chain
  | lastTerm {lines : Bool} (only : Phrase .chain) (ending : Ending lines) : Phrase (.list lines)
  | term {lines : Bool} (first : Phrase .chain) (ending : Ending lines)
      (others : Phrase (.list lines)) : Phrase (.list lines)
  | subshell (body : Phrase (.list true)) : Phrase .compound
  | braceGroup (body : Phrase (.list true)) : Phrase .compound
  | ifChoice (condition consequent : Phrase (.list true)) (alternative : Phrase .alternative) :
      Phrase .compound
  | loop (repeated : Repeat) (condition body : Phrase (.list true)) : Phrase .compound
  | forLoop (parameter : Name) (words : List Quoted) (body : Phrase (.list true)) : Phrase .compound
  | caseChoice (subject : Quoted) (items : Phrase .items) : Phrase .compound
  | noAlternative : Phrase .alternative
  | otherwise (body : Phrase (.list true)) : Phrase .alternative
  | elseIf (condition consequent : Phrase (.list true)) (alternative : Phrase .alternative) :
      Phrase .alternative
  | lastItem : Phrase .items
  | emptyItem (first : Quoted) (patterns : List Quoted) (others : Phrase .items) : Phrase .items
  | item (first : Quoted) (patterns : List Quoted) (body : Phrase (.list true))
      (others : Phrase .items) : Phrase .items

inductive Script
  | chain (only : Phrase .chain)
  | list (terms : Phrase (.list false))

section Texts

def sign (text : String) (starts : text.toList.head?.any startsToken = true := by decide) : Token :=
  ⟨text.toList, starts⟩

theorem esac_starts_token : "esac".toList.head?.any startsToken = true := by decide

theorem starts_token_of_name (ch : Char) (starts : startsName ch = true) : startsToken ch = true := by
  have every : ∀ ch ∈ [' ', '\t', '#', '\\'], startsName ch = false := by decide
  rw [startsToken, decide_eq_true_eq]
  intro layout
  cases starts.symm.trans (every ch layout)

def Quoted.token (word : Quoted) : Token := ⟨'\'' :: word.text ++ ['\''], rfl⟩

def Name.token (name : Name) : Token where
  chars := name.chars
  starts := by
    obtain ⟨ch, head, starts⟩ := (Option.any_eq_true _ _).mp name.starts
    exact (Option.any_eq_true _ _).mpr ⟨ch, head, starts_token_of_name ch starts⟩

def Connective.token : Connective → Token
  | both => sign "&&"
  | either => sign "||"

def Ending.token {lines : Bool} : Ending lines → Token
  | semicolon => sign ";"
  | background => sign "&"
  | newline => sign "\n"

def Repeat.token : Repeat → Token
  | untilDone => sign "until"
  | whileDone => sign "while"

-- The patterns of an item, in parentheses.
def patternTokens (first : Quoted) (others : List Quoted) : List Token :=
  sign "(" :: first.token :: others.flatMap (fun word => [sign "|", word.token]) ++ [sign ")"]

def Phrase.tokens {form : Form} : Phrase form → List Token
  | simple first others => first.token :: others.map Quoted.token
  | grouped inner => inner.tokens
  | function name body => name.token :: sign "(" :: sign ")" :: body.tokens
  | lastStage => []
  | stage next others => sign "|" :: next.tokens ++ others.tokens
  | pipeline negated first others =>
      (if negated then [sign "!"] else []) ++ first.tokens ++ others.tokens
  | lastLink => []
  | link connective next others => connective.token :: next.tokens ++ others.tokens
  | chain first links => first.tokens ++ links.tokens
  | lastTerm only ending => only.tokens ++ [ending.token]
  | term first ending others => first.tokens ++ ending.token :: others.tokens
  | subshell body => sign "(" :: body.tokens ++ [sign ")"]
  | braceGroup body => sign "\x7b" :: body.tokens ++ [sign "\x7d"]
  | ifChoice condition consequent alternative =>
      sign "if" :: condition.tokens ++ sign "then" :: consequent.tokens ++ alternative.tokens ++
        [sign "fi"]
  | loop repeated condition body =>
      repeated.token :: condition.tokens ++ sign "do" :: body.tokens ++ [sign "done"]
  | forLoop parameter words body =>
      sign "for" :: parameter.token :: sign "in" :: words.map Quoted.token ++
        sign ";" :: sign "do" :: body.tokens ++ [sign "done"]
  | caseChoice subject items => sign "case" :: subject.token :: sign "in" :: items.tokens ++ [sign "esac"]
  | noAlternative => []
  | otherwise body => sign "else" :: body.tokens
  | elseIf condition consequent alternative =>
      sign "elif" :: condition.tokens ++ sign "then" :: consequent.tokens ++ alternative.tokens
  | lastItem => []
  | emptyItem first patterns others =>
      patternTokens first patterns ++ sign ";;" :: others.tokens
  | item first patterns body others =>
      patternTokens first patterns ++ body.tokens ++ sign ";;" :: others.tokens

def spaced (tokens : List Token) : List Char := [' '].intercalate (tokens.map Token.chars)

def Script.text : Script → List Char
  | chain only => spaced only.tokens
  | list terms => spaced terms.tokens

example :
    let body : Phrase (.list true) := .lastTerm
      (.chain (.pipeline false (.simple ⟨['a'], by decide⟩ []) .lastStage) .lastLink) .semicolon
    String.ofList (spaced (Phrase.ifChoice body body (.elseIf body body .noAlternative)).tokens) =
      "if 'a' ; then 'a' ; elif 'a' ; then 'a' ; fi" := by
  decide

end Texts

section Trees

def Quoted.node (word : Quoted) : Node := .ofNodes .word [.leaf .singleQuote word.text]

def Connective.kind : Connective → Kind
  | both => .andIf
  | either => .orIf

def Repeat.kind : Repeat → Kind
  | untilDone => .untilLoop
  | whileDone => .whileLoop

def Ending.wrap {lines : Bool} (term : Node) : Ending lines → Node
  | background => .wrap .background term
  | semicolon | newline => term

def listNode (terms : List Node) : Node :=
  match terms with
  | [only] => only
  | terms => .ofNodes .list terms

def choiceNode (condition consequent : Node) (alternative : List Node) : Node :=
  .ofNodes .ifChoice ([.wrap .condition condition, .wrap .consequent consequent] ++ alternative)

def itemNode (patterns : List Quoted) (body : List Node) : Node :=
  ⟨.caseItem, .list (.ofNodes (patterns.map Quoted.node)) (.ofNodes body), none⟩

abbrev Form.Meaning : Form → Type
  | links => List (Kind × Node)
  | stages | list _ | alternative | items => List Node
  | command | compound | pipeline | chain => Node

def Phrase.meaning {form : Form} : Phrase form → form.Meaning
  | simple first others => Node.ofNodes .simpleCommand ((first :: others).map Quoted.node)
  | grouped inner => inner.meaning
  | function name body => Node.ofNodes .functionDefinition [.leaf .functionName name.chars, body.meaning]
  | lastStage => ([] : List Node)
  | stage next others => (next.meaning :: others.meaning : List Node)
  | pipeline negated first others =>
      if negated then Node.wrap .bang (stagesNode first.meaning others.meaning)
      else stagesNode first.meaning others.meaning
  | lastLink => ([] : List (Kind × Node))
  | link connective next others => ((connective.kind, next.meaning) :: others.meaning : List (Kind × Node))
  | chain first links => chainNode first.meaning links.meaning
  | lastTerm only ending => [ending.wrap only.meaning]
  | term first ending others => (ending.wrap first.meaning :: others.meaning : List Node)
  | subshell body => Node.wrap .subshell (listNode body.meaning)
  | braceGroup body => Node.wrap .braceGroup (listNode body.meaning)
  | ifChoice condition consequent alternative =>
      choiceNode (listNode condition.meaning) (listNode consequent.meaning) alternative.meaning
  | loop repeated condition body =>
      Node.ofNodes repeated.kind
        [.wrap .condition (listNode condition.meaning), .wrap .loopBody (listNode body.meaning)]
  | forLoop parameter words body =>
      (⟨.forLoop, .text parameter.chars (.ofNodes [.ofNodes .inWords (words.map Quoted.node),
        .wrap .loopBody (listNode body.meaning)]), none⟩ : Node)
  | caseChoice subject items => Node.ofNodes .caseChoice (subject.node :: items.meaning)
  | noAlternative => ([] : List Node)
  | otherwise body => [Node.wrap .otherwise (listNode body.meaning)]
  | elseIf condition consequent alternative =>
      [Node.wrap .otherwise
        (choiceNode (listNode condition.meaning) (listNode consequent.meaning) alternative.meaning)]
  | lastItem => ([] : List Node)
  | emptyItem first patterns others => (itemNode (first :: patterns) [] :: others.meaning : List Node)
  | item first patterns body others =>
      (itemNode (first :: patterns) [listNode body.meaning] :: others.meaning : List Node)

def Script.tree : Script → Node
  | chain only => .wrap .program (.wrap .completeCommand only.meaning)
  | list terms => .wrap .program (.wrap .completeCommand (listNode terms.meaning))

end Trees

end ShellLine.Canonical
