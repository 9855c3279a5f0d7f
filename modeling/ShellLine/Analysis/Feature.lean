import ShellLine.Tree.Walk

set_option autoImplicit false

namespace ShellLine

inductive Feature
  | list
  | background
  | pipeline
  | compound
  | redirect
  | commandExpansion
  | parameter
  | exoticExpansion
  | assignment
deriving DecidableEq, Repr

namespace Feature

def all : List Feature :=
  [.list, .background, .pipeline, .compound, .redirect, .commandExpansion, .parameter,
    .exoticExpansion, .assignment]

def tag : Feature → String
  | list => "list"
  | background => "background"
  | pipeline => "pipeline"
  | compound => "compound"
  | redirect => "redirect"
  | commandExpansion => "command_expansion"
  | parameter => "parameter"
  | exoticExpansion => "exotic_expansion"
  | assignment => "assignment"

def ofTag? (tag : String) : Option Feature := all.find? fun feature => feature.tag = tag

theorem all_complete (feature : Feature) : feature ∈ all := by cases feature <;> decide

end Feature

-- The feature that a node of a kind implies.
def Kind.feature? : Kind → Option Feature
  | program | completeCommand | simpleCommand | commandLead | word => none
  | list | andIf | orIf => some .list
  | background => some .background
  | pipeline | bang => some .pipeline
  | assignment => some .assignment
  | braceGroup | subshell | forLoop | inWords | caseChoice | caseItem | ifChoice | condition
  | consequent | otherwise | whileLoop | untilLoop | loopBody | functionDefinition
  | functionName => some .compound
  | redirection | redirectedDescriptor | input | output | appendOutput | clobber
  | duplicateInput | duplicateOutput | readAndWrite | hereDocument
  | hereDocumentStripped => some .redirect
  | singleQuote | doubleQuote | bareEscape | unquotedLiteral | doubleQuotedEscape
  | backquotedEscape => none
  | backquote | doubleBackquote | commandExpansion => some .commandExpansion
  | specialParameter | positionalParameter | namedParameter => some .parameter
  | bracedParameter | stringLength | useDefault | useDefaultUnset | assignDefault
  | assignDefaultUnset | indicateError | indicateErrorUnset | useAlternative
  | useAlternativeUnset | removeSmallestSuffix | removeLargestSuffix | removeSmallestPrefix
  | removeLargestPrefix | arithmeticExpansion => some .exoticExpansion

namespace Node

-- The features of a tree in declaration order, each once.
def features (node : Node) : List Feature :=
  let found := node.descendants.filterMap fun inner => inner.kind.feature?
  Feature.all.filter fun feature => feature ∈ found

def hasFeature (node : Node) (feature : Feature) : Bool := feature ∈ node.features

end Node

end ShellLine
