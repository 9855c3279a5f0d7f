set_option autoImplicit false

namespace ShellLine

inductive Kind
  | program
  | completeCommand
  | list
  | andIf
  | orIf
  | background
  | pipeline
  | bang
  | simpleCommand
  | commandLead
  | word
  | assignment
  | braceGroup
  | subshell
  | forLoop
  | inWords
  | caseChoice
  | caseItem
  | ifChoice
  | condition
  | consequent
  | otherwise
  | whileLoop
  | untilLoop
  | loopBody
  | functionDefinition
  | functionName
  | redirection
  | redirectedDescriptor
  | input
  | output
  | appendOutput
  | clobber
  | duplicateInput
  | duplicateOutput
  | readAndWrite
  | hereDocument
  | hereDocumentStripped
  | singleQuote
  | doubleQuote
  | bareEscape
  | unquotedLiteral
  | backquote
  | doubleBackquote
  | doubleQuotedEscape
  | backquotedEscape
  | specialParameter
  | positionalParameter
  | namedParameter
  | bracedParameter
  | stringLength
  | useDefault
  | useDefaultUnset
  | assignDefault
  | assignDefaultUnset
  | indicateError
  | indicateErrorUnset
  | useAlternative
  | useAlternativeUnset
  | removeSmallestSuffix
  | removeLargestSuffix
  | removeSmallestPrefix
  | removeLargestPrefix
  | arithmeticExpansion
  | commandExpansion
deriving DecidableEq, Repr

namespace Kind

def all : List Kind :=
  [.program, .completeCommand, .list, .andIf, .orIf, .background, .pipeline, .bang,
    .simpleCommand, .commandLead, .word, .assignment, .braceGroup, .subshell, .forLoop, .inWords,
    .caseChoice, .caseItem, .ifChoice, .condition, .consequent, .otherwise, .whileLoop,
    .untilLoop, .loopBody, .functionDefinition, .functionName, .redirection,
    .redirectedDescriptor, .input, .output, .appendOutput, .clobber, .duplicateInput,
    .duplicateOutput, .readAndWrite, .hereDocument, .hereDocumentStripped, .singleQuote,
    .doubleQuote, .bareEscape, .unquotedLiteral, .backquote, .doubleBackquote,
    .doubleQuotedEscape, .backquotedEscape, .specialParameter, .positionalParameter,
    .namedParameter, .bracedParameter, .stringLength, .useDefault, .useDefaultUnset,
    .assignDefault, .assignDefaultUnset, .indicateError, .indicateErrorUnset, .useAlternative,
    .useAlternativeUnset, .removeSmallestSuffix, .removeLargestSuffix, .removeSmallestPrefix,
    .removeLargestPrefix, .arithmeticExpansion, .commandExpansion]

-- The name under which a kind is written in dumps and reports.
def tag : Kind → String
  | program => "program"
  | completeCommand => "complete_command"
  | list => "list"
  | andIf => "and_if"
  | orIf => "or_if"
  | background => "background"
  | pipeline => "pipeline"
  | bang => "bang"
  | simpleCommand => "simple_command"
  | commandLead => "cmd_prefix"
  | word => "word"
  | assignment => "assignment"
  | braceGroup => "brace_group"
  | subshell => "subshell"
  | forLoop => "for"
  | inWords => "in"
  | caseChoice => "case"
  | caseItem => "case_item"
  | ifChoice => "if"
  | condition => "condition"
  | consequent => "consequent"
  | otherwise => "else"
  | whileLoop => "while"
  | untilLoop => "until"
  | loopBody => "do"
  | functionDefinition => "function_definition"
  | functionName => "function_name"
  | redirection => "io_redirect"
  | redirectedDescriptor => "io_subject"
  | input => "input"
  | output => "output"
  | appendOutput => "append_output"
  | clobber => "clobber"
  | duplicateInput => "duplicate_input"
  | duplicateOutput => "duplicate_output"
  | readAndWrite => "read_and_write"
  | hereDocument => "io_here"
  | hereDocumentStripped => "io_here_strip"
  | singleQuote => "single_quote"
  | doubleQuote => "double_quote"
  | bareEscape => "bare_escape"
  | unquotedLiteral => "unquoted_literal"
  | backquote => "backquote"
  | doubleBackquote => "double_backquote"
  | doubleQuotedEscape => "dquoted_escape"
  | backquotedEscape => "backquoted_escape"
  | specialParameter => "special_parameter"
  | positionalParameter => "positional_parameter"
  | namedParameter => "named_parameter"
  | bracedParameter => "braced_parameter_expansion"
  | stringLength => "string_length"
  | useDefault => "use_default"
  | useDefaultUnset => "use_default_unset"
  | assignDefault => "assign_default"
  | assignDefaultUnset => "assign_default_unset"
  | indicateError => "indicate_error"
  | indicateErrorUnset => "indicate_error_unset"
  | useAlternative => "use_alternative"
  | useAlternativeUnset => "use_alternative_unset"
  | removeSmallestSuffix => "remove_smallest_suffix"
  | removeLargestSuffix => "remove_largest_suffix"
  | removeSmallestPrefix => "remove_smallest_prefix"
  | removeLargestPrefix => "remove_largest_prefix"
  | arithmeticExpansion => "arithmetic_expansion"
  | commandExpansion => "command_expansion"

def ofTag? (tag : String) : Option Kind := all.find? fun kind => kind.tag = tag

-- The twelve forms of a braced parameter that carry an operator and a word.
def isParameterOperator : Kind → Bool
  | useDefault | useDefaultUnset | assignDefault | assignDefaultUnset | indicateError
  | indicateErrorUnset | useAlternative | useAlternativeUnset | removeSmallestSuffix
  | removeLargestSuffix | removeSmallestPrefix | removeLargestPrefix => true
  | _ => false

def isHereDocument : Kind → Bool
  | hereDocument | hereDocumentStripped => true
  | _ => false

-- The kinds of a list in declaration order, each once.
def sorted (kinds : List Kind) : List Kind := all.filter fun kind => kind ∈ kinds

theorem all_complete (kind : Kind) : kind ∈ all := by cases kind <;> decide

theorem of_tag_tag (kind : Kind) : ofTag? kind.tag = some kind := by
  have every : ∀ k ∈ all, ofTag? k.tag = some k := by decide +kernel
  exact every kind (all_complete kind)

theorem tag_injective (a b : Kind) (same : a.tag = b.tag) : a = b := by
  have found := of_tag_tag a
  rw [same, of_tag_tag b] at found
  exact (Option.some.inj found).symm

end Kind

end ShellLine
