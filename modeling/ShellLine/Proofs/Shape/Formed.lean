import ShellLine.Grammar.Rules
import ShellLine.Proofs.Tree.Descendants

set_option autoImplicit false

namespace ShellLine

namespace Kind

def isCompound (kind : Kind) : Bool :=
  kind ∈ [.braceGroup, .subshell, .forLoop, .caseChoice, .ifChoice, .whileLoop, .untilLoop]

def isCommand (kind : Kind) : Bool :=
  kind ∈ [.simpleCommand, .functionDefinition] || kind.isCompound

-- A side of a chain, and what may be a side of one to its left.
def isPipeline (kind : Kind) : Bool := kind ∈ [.pipeline, .bang] || kind.isCommand

def isChain (kind : Kind) : Bool := kind ∈ [.andIf, .orIf] || kind.isPipeline

def isTerm (kind : Kind) : Bool := kind ∈ [.list, .background] || kind.isChain

def isDollar (kind : Kind) : Bool := kind.isExpansion && kind ∉ [.backquote, .doubleBackquote]

def isPart (kind : Kind) : Bool :=
  kind ∈ [.singleQuote, .doubleQuote, .backquote, .bareEscape, .unquotedLiteral] || kind.isDollar

def isQuotedPart (kind : Kind) : Bool :=
  kind ∈ [.doubleQuotedEscape, .doubleBackquote] || kind.isDollar

end Kind

namespace Node

-- A word outside assignments and the operands of parameters has a part.
def isFullWord (node : Node) : Bool := node.kind = .word && node.children ≠ []

def isArgument (node : Node) : Bool := node.isFullWord || node.kind = .redirection

def isReserved (node : Node) : Bool :=
  match node.children with
  | [part] => part.kind = .unquotedLiteral && String.ofList part.text ∈ Grammar.reservedWords
  | _ => false

def isCommandLine : List Node → Bool
  | name :: arguments => name.isFullWord && !name.isReserved && arguments.all isArgument
  | [] => false

def isSimpleCommand : List Node → Bool
  | first :: others =>
      if first.kind = .commandLead then others = [] || isCommandLine others
      else isCommandLine (first :: others)
  | [] => false

def isCaseItem (contents : Forest) : Bool :=
  match contents with
  | .list patterns bodies =>
      patterns = .ofNodes patterns.nodes && bodies = .ofNodes bodies.nodes &&
        patterns.nodes ≠ [] && patterns.nodes.all isFullWord &&
        match bodies.nodes with
        | [] => true
        | [body] => body.kind.isTerm
        | _ => false
  | _ => false

def isQuoted (inside : Kind → Bool) (contents : Forest) : Bool :=
  contents.toList.all fun
    | .text _ => true
    | .node inner => inside inner.kind
    | .list _ => false

end Node

namespace Kind

def isSole (accepts : Kind → Bool) : List Kind → Bool
  | [only] => accepts only
  | _ => false

def areSeveral (accepts : Kind → Bool) (kinds : List Kind) : Bool :=
  2 ≤ kinds.length && kinds.all accepts

def areRedirections (kinds : List Kind) : Bool := kinds.all fun kind => kind = .redirection

-- The two sides of a link of a chain, which groups to the left.
def isLink : List Kind → Bool
  | [left, right] => left.isChain && right.isPipeline
  | _ => false

def isGroup : List Kind → Bool
  | term :: others => term.isTerm && areRedirections others
  | [] => false

def isFor : List Kind → Bool
  | .inWords :: .loopBody :: others | .loopBody :: others => areRedirections others
  | _ => false

def isCase : List Kind → Bool
  | .word :: others => areRedirections (others.dropWhile fun kind => kind = .caseItem)
  | _ => false

def isIf : List Kind → Bool
  | .condition :: .consequent :: .otherwise :: others => areRedirections others
  | .condition :: .consequent :: others => areRedirections others
  | _ => false

def isLoop : List Kind → Bool
  | .condition :: .loopBody :: others => areRedirections others
  | _ => false

def isFunction : List Kind → Bool
  | [.functionName, body] => body.isCompound
  | _ => false

def isRedirectionOperator (kind : Kind) : Bool :=
  kind ∈ Grammar.redirectionOperators.map Prod.snd

def isRedirection : List Kind → Bool
  | [operation] => operation.isRedirectionOperator
  | [descriptor, operation] => descriptor = .redirectedDescriptor && operation.isRedirectionOperator
  | _ => false

def literalsApart : List Kind → Bool
  | first :: second :: others =>
      !(first = .unquotedLiteral && second = .unquotedLiteral) && literalsApart (second :: others)
  | _ => true

end Kind

-- How the contents of a node are laid out: nodes in a row, perhaps behind a text, or patterns and a
-- body, or texts and nodes of some kinds, or one text.
inductive Layout
  | row
  | named
  | item
  | quote (accepts : Kind → Bool)
  | leaf

def Kind.layout (kind : Kind) : Layout :=
  match kind with
  | .caseItem => .item
  | .doubleQuote => .quote isQuotedPart
  | .backquote | .doubleBackquote => .quote fun inner => inner = .backquotedEscape
  | .assignment | .forLoop => .named
  | .functionName | .redirectedDescriptor | .singleQuote | .bareEscape | .unquotedLiteral
  | .doubleQuotedEscape | .backquotedEscape | .specialParameter | .positionalParameter
  | .namedParameter | .bracedParameter | .stringLength => .leaf
  | _ => if kind.isParameterOperator then .named else .row

namespace Node

open Kind

-- Whether nodes are what the grammar puts in a row under a node of a kind.
def isRow (kind : Kind) (children : List Node) : Bool :=
  let kinds := children.map Node.kind
  match kind with
  | .program | .commandExpansion => kinds.all fun kind => kind = .completeCommand
  | .completeCommand | .loopBody | .condition | .consequent | .otherwise => isSole isTerm kinds
  | .list => areSeveral (fun kind => kind = .background || kind.isChain) kinds
  | .background => isSole isChain kinds
  | .andIf | .orIf => isLink kinds
  | .pipeline => areSeveral isCommand kinds
  | .bang => isSole (fun kind => kind = .pipeline || kind.isCommand) kinds
  | .simpleCommand => isSimpleCommand children
  | .commandLead => kinds ≠ [] && kinds.all fun kind => kind = .assignment || kind = .redirection
  | .braceGroup | .subshell => isGroup kinds
  | .forLoop => isFor kinds
  | .caseChoice => isCase kinds && children.head?.any isFullWord
  | .ifChoice => isIf kinds
  | .whileLoop | .untilLoop => isLoop kinds
  | .functionDefinition => isFunction kinds
  | .redirection => isRedirection kinds
  | .inWords | .arithmeticExpansion => children.all isFullWord
  | .word => kinds.all isPart && literalsApart kinds
  | kind =>
      kinds = [.word] && (!kind.isRedirectionOperator || children.all isFullWord)

-- Whether the contents of a node are what the grammar puts under a node of its kind.
def isFormed (node : Node) : Bool :=
  match node.kind.layout with
  | .row => node.contents = .ofNodes node.children && isRow node.kind node.children
  | .named =>
      match node.contents with
      | .text _ others => others = .ofNodes node.children && isRow node.kind node.children
      | _ => false
  | .item => isCaseItem node.contents
  | .quote accepts => isQuoted accepts node.contents
  | .leaf => node.soleText?.isSome

def IsWhole (node : Node) : Prop := ∀ inner ∈ node.descendants, inner.isFormed = true

end Node

theorem mem_descendants_iff_below_nodes (forest : Forest) (inner : Node) :
    inner ∈ forest.descendants ↔ ∃ node ∈ forest.nodes, inner ∈ node.descendants := by
  constructor
  · intro member
    induction forest with
    | nil => cases member
    | text chars others ih => exact ih member
    | list items others itemsIh othersIh =>
        rw [descendants_of_list_row, List.mem_append] at member
        rcases member with inItems | inOthers
        · obtain ⟨node, here, below⟩ := itemsIh inItems
          exact ⟨node, List.mem_append_left _ here, below⟩
        · obtain ⟨node, here, below⟩ := othersIh inOthers
          exact ⟨node, List.mem_append_right _ here, below⟩
    | node kind mark contents others _ ih =>
        rw [descendants_of_node_row, ← List.cons_append, ← node_descendants ⟨kind, contents, mark⟩,
          List.mem_append] at member
        rcases member with first | later
        · exact ⟨_, List.mem_cons_self .., first⟩
        · obtain ⟨node, here, below⟩ := ih later
          exact ⟨node, List.mem_cons_of_mem _ here, below⟩
  · rintro ⟨node, here, below⟩
    exact forest_descendants_trans (mem_descendants_of_nodes here) below

theorem whole_of_children {node : Node} (formed : node.isFormed = true)
    (children : ∀ child ∈ node.children, child.IsWhole) : node.IsWhole := by
  intro inner member
  rw [node_descendants, List.mem_cons] at member
  rcases member with rfl | below
  · exact formed
  · obtain ⟨child, here, inside⟩ := (mem_descendants_iff_below_nodes _ inner).mp below
    exact children child here inner inside

theorem kind_of_full_word {node : Node} (full : node.isFullWord = true) : node.kind = .word := by
  simp only [Node.isFullWord, Bool.and_eq_true, decide_eq_true_eq] at full
  exact full.1

theorem row_of_operator {kind : Kind} (operator : kind.isParameterOperator = true)
    (children : List Node) : Node.isRow kind children = decide (children.map Node.kind = [.word]) := by
  cases kind <;> first | exact Bool.and_true _ | cases operator

theorem row_of_redirection_operator {kind : Kind} (operator : kind.isRedirectionOperator = true)
    (children : List Node) : Node.isRow kind children =
      (decide (children.map Node.kind = [.word]) && children.all Node.isFullWord) := by
  cases kind <;> first | rfl | cases operator

theorem formed_of_nodes {kind : Kind} (row : kind.layout = .row) (nodes : List Node)
    (mark : Option Nat) :
    (⟨kind, .ofNodes nodes, mark⟩ : Node).isFormed = Node.isRow kind nodes := by
  have children : (⟨kind, .ofNodes nodes, mark⟩ : Node).children = nodes :=
    Forest.nodes_of_nodes nodes
  rw [Node.isFormed, children]
  simp [row]

theorem formed_named {kind : Kind} (named : kind.layout = .named) (text : List Char)
    (nodes : List Node) :
    (⟨kind, .text text (.ofNodes nodes), none⟩ : Node).isFormed = Node.isRow kind nodes := by
  have children : (⟨kind, .text text (.ofNodes nodes), none⟩ : Node).children = nodes :=
    Forest.nodes_of_nodes nodes
  rw [Node.isFormed, children]
  simp [named]

theorem whole_of_nodes {kind : Kind} {nodes : List Node} {mark : Option Nat}
    (row : kind.layout = .row) (formed : Node.isRow kind nodes = true)
    (each : ∀ node ∈ nodes, node.IsWhole) : (⟨kind, .ofNodes nodes, mark⟩ : Node).IsWhole := by
  refine whole_of_children (by rwa [formed_of_nodes row]) ?_
  rwa [Node.children, Forest.nodes_of_nodes]

theorem whole_of_wrap {kind : Kind} {inner : Node} (row : kind.layout = .row)
    (formed : Node.isRow kind [inner] = true) (whole : inner.IsWhole) :
    (Node.wrap kind inner).IsWhole := whole_of_nodes row formed (List.forall_mem_singleton.mpr whole)

theorem whole_named {kind : Kind} {text : List Char} {nodes : List Node} (named : kind.layout = .named)
    (formed : Node.isRow kind nodes = true) (each : ∀ node ∈ nodes, node.IsWhole) :
    (⟨kind, .text text (.ofNodes nodes), none⟩ : Node).IsWhole := by
  refine whole_of_children (by rwa [formed_named named]) ?_
  rwa [Node.children, Forest.nodes, Forest.nodes_of_nodes]

theorem whole_leaf {kind : Kind} {chars : List Char} (formed : (Node.leaf kind chars).isFormed = true) :
    (Node.leaf kind chars).IsWhole := whole_of_children formed fun _ impossible => by cases impossible

section Redirections

def Node.redirected (node : Node) (redirections : List Node) : Node :=
  { node with contents := node.contents.append (.ofNodes redirections) }

structure Node.Grows (node : Node) : Prop where
  below : ∀ child ∈ node.children, child.IsWhole
  formed : ∀ redirections : List Node, (∀ inner ∈ redirections, inner.kind = .redirection) →
    (node.redirected redirections).isFormed = true

theorem redirected_children (node : Node) (redirections : List Node) :
    (node.redirected redirections).children = node.children ++ redirections := by
  simp [Node.redirected, Node.children]

theorem redirected_nil (node : Node) : node.redirected [] = node := by
  obtain ⟨kind, contents, mark⟩ := node
  exact congrArg (fun grown => (⟨kind, grown, mark⟩ : Node)) (Forest.append_nil contents)

theorem whole_of_grows {node : Node} {redirections : List Node} (grows : node.Grows)
    (kinds : ∀ inner ∈ redirections, inner.kind = .redirection)
    (each : ∀ inner ∈ redirections, inner.IsWhole) : (node.redirected redirections).IsWhole := by
  apply whole_of_children (grows.formed redirections kinds)
  rw [redirected_children]
  exact List.forall_mem_append.mpr ⟨grows.below, each⟩

theorem kinds_of_redirections {redirections : List Node}
    (kinds : ∀ inner ∈ redirections, inner.kind = .redirection) :
    redirections.map Node.kind = List.replicate redirections.length .redirection :=
  List.eq_replicate_iff.mpr ⟨List.length_map _, by simpa using kinds⟩

theorem are_redirections_replicate (count : Nat) :
    Kind.areRedirections (List.replicate count .redirection) = true := by
  simp [Kind.areRedirections]

theorem grows_of_nodes {kind : Kind} {nodes : List Node} (row : kind.layout = .row)
    (formed : ∀ count more, more.map Node.kind = List.replicate count .redirection →
      Node.isRow kind (nodes ++ more) = true)
    (each : ∀ node ∈ nodes, node.IsWhole) : (Node.ofNodes kind nodes).Grows where
  below := by rwa [Node.children_of_nodes]
  formed redirections kinds := by
    have redirected : (Node.ofNodes kind nodes).redirected redirections =
        ⟨kind, .ofNodes (nodes ++ redirections), none⟩ :=
      congrArg (fun contents => (⟨kind, contents, none⟩ : Node)) (Forest.of_nodes_append nodes redirections)
    rw [redirected, formed_of_nodes row]
    exact formed _ _ (kinds_of_redirections kinds)

end Redirections

end ShellLine
