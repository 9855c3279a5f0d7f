import ShellLine.Proofs.Grammar.Literal

set_option autoImplicit false

namespace ShellLine

namespace Kind

def opening : Kind → List Char
  | singleQuote => ['\'']
  | doubleQuote => ['"']
  | backquote | doubleBackquote => [Grammar.backtick]
  | bareEscape | doubleQuotedEscape | backquotedEscape => ['\\']
  | specialParameter | positionalParameter | namedParameter => ['$']
  | stringLength => ['$', '\x7b', '#']
  | bracedParameter | useDefault | useDefaultUnset | assignDefault | assignDefaultUnset | indicateError
  | indicateErrorUnset | useAlternative | useAlternativeUnset | removeSmallestSuffix | removeLargestSuffix
  | removeSmallestPrefix | removeLargestPrefix => ['$', '\x7b']
  | _ => []

def closing : Kind → List Char
  | singleQuote => ['\'']
  | doubleQuote => ['"']
  | backquote | doubleBackquote => [Grammar.backtick]
  | stringLength | bracedParameter | useDefault | useDefaultUnset | assignDefault | assignDefaultUnset
  | indicateError | indicateErrorUnset | useAlternative | useAlternativeUnset | removeSmallestSuffix
  | removeLargestSuffix | removeSmallestPrefix | removeLargestPrefix => ['\x7d']
  | _ => []

def operator : Kind → List Char
  | useDefault => [':', '-']
  | useDefaultUnset => ['-']
  | assignDefault => [':', '=']
  | assignDefaultUnset => ['=']
  | indicateError => [':', '?']
  | indicateErrorUnset => ['?']
  | useAlternative => [':', '+']
  | useAlternativeUnset => ['+']
  | removeSmallestSuffix => ['%']
  | removeLargestSuffix => ['%', '%']
  | removeSmallestPrefix => ['#']
  | removeLargestPrefix => ['#', '#']
  | _ => []

def isEscape : Kind → Bool
  | bareEscape | doubleQuotedEscape | backquotedEscape => true
  | _ => false

def writtenText (kind : Kind) (chars : List Char) : List Char :=
  if kind.isEscape && chars.isEmpty then ['\n'] else chars ++ kind.operator

-- The expansions that are not written back, as the tree leaves out the layout inside them.
def isSubstitution : Kind → Bool
  | commandExpansion | arithmeticExpansion => true
  | _ => false

def sign? : Kind → Option Char
  | removeSmallestSuffix => some '%'
  | removeSmallestPrefix => some '#'
  | _ => none

end Kind

namespace Forest

-- The children of a node written back, and then the next ones.
def written (kind : Kind) : Forest → List Char
  | nil => []
  | node inner _ contents others => inner.opening ++ contents.written inner ++ inner.closing ++ others.written kind
  | text chars others => kind.writtenText chars ++ others.written kind
  | list items others => items.written kind ++ others.written kind

def allText (forest : Forest) : List Char := ((forest.walk fun _ => true).filterMap Visit.text?).flatten

def opensWith (sign : Char) : Forest → Bool
  | node .unquotedLiteral _ (text (first :: _) _) _ => first = sign
  | _ => false

def operand : Forest → Forest
  | text _ (node .word _ parts _) => parts
  | _ => nil

end Forest

def Node.written (node : Node) : List Char :=
  node.kind.opening ++ node.contents.written node.kind ++ node.kind.closing

-- Behind an operator that is one sign there is no second sign, if not in quotes or escaped.
def Node.SignStands (node : Node) : Prop :=
  ∀ sign, node.kind.sign? = some sign → node.contents.operand.opensWith sign = false

namespace Child

def written (kind : Kind) : Child → List Char
  | node inner => inner.written
  | text chars => kind.writtenText chars
  | list items => items.written kind

def allText : Child → List Char
  | node inner => inner.contents.allText
  | text chars => chars
  | list items => items.allText

end Child

theorem node_texts (node : Node) : node.texts.flatten = node.contents.allText := by
  rw [Node.texts, Node.walk, List.filterMap_cons_none rfl]
  rfl

theorem forest_written (kind : Kind) (forest : Forest) :
    forest.written kind = forest.toList.flatMap (Child.written kind) := by
  induction forest with
  | nil => rfl
  | node inner mark contents others _ ih =>
      rw [Forest.written, ih, Forest.toList, List.flatMap_cons, Child.written, Node.written]
  | text chars others ih => rw [Forest.written, ih, Forest.toList, List.flatMap_cons, Child.written]
  | list items others _ ih => rw [Forest.written, ih, Forest.toList, List.flatMap_cons, Child.written]

theorem forest_all_text (forest : Forest) : forest.allText = forest.toList.flatMap Child.allText := by
  induction forest with
  | nil => rfl
  | node kind mark contents others _ ih =>
      rw [Forest.toList, List.flatMap_cons, ← ih, Forest.allText, Forest.walk, List.filterMap_cons_none rfl,
        List.filterMap_append, List.flatten_append]
      rfl
  | text chars others ih =>
      rw [Forest.toList, List.flatMap_cons, ← ih]
      rfl
  | list items others _ ih =>
      rw [Forest.toList, List.flatMap_cons, ← ih]
      simp [Forest.allText, Forest.walk, Child.allText]

theorem all_text_cons (child : Child) (others : Forest) :
    (Forest.cons child others).allText = child.allText ++ others.allText := by
  rw [forest_all_text, Forest.to_list_cons, List.flatMap_cons, ← forest_all_text]

theorem flat_map_join_texts {α : Type} {f : Child → List α} (empty : f (.text []) = [])
    (append : ∀ chars more, f (.text (chars ++ more)) = f (.text chars) ++ f (.text more))
    (children : List Child) : (Grammar.joinTexts children).toList.flatMap f = children.flatMap f := by
  induction children with
  | nil => rfl
  | cons child others ih =>
      rw [List.flatMap_cons, ← ih]
      cases child with
      | node inner | list items => simp only [Grammar.joinTexts, Forest.to_list_cons, List.flatMap_cons]
      | text chars =>
          rw [Grammar.joinTexts]
          cases Grammar.joinTexts others with
          | text more rest => simp [Forest.toList, append]
          | nil | node | list =>
              by_cases none : chars = []
              · simp [none, empty]
              · simp [none, Forest.toList]

end ShellLine
