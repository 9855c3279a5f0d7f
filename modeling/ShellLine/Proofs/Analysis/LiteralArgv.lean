import ShellLine.Proofs.Grammar.CommandList
import ShellLine.Proofs.Grammar.Literal

set_option autoImplicit false

namespace ShellLine

namespace Node

-- The tree of a program that is one command.
def programOf (command : Node) : Node := .wrap .program (.wrap .completeCommand command)

def completeCommands (tree : Node) : List Node :=
  tree.children.filter fun inner => inner.kind = .completeCommand

theorem program_of_injective {command other : Node} (same : programOf command = programOf other) :
    command = other := by
  obtain ⟨-, inner⟩ := of_nodes_injective _ _ _ _ same
  obtain ⟨-, inner⟩ := of_nodes_injective _ _ _ _ (List.singleton_inj.mp inner)
  exact List.singleton_inj.mp inner

theorem only_child_of_nodes {kind other : Kind} {nodes : List Node} {only : Node} :
    (ofNodes other nodes).onlyChild? kind = some only ↔ other = kind ∧ nodes = [only] := by
  have kinds : (ofNodes other nodes).kind = other := rfl
  rw [onlyChild?, kinds, contents_of_nodes]
  by_cases same : other = kind
  · cases nodes with
    | nil => simp
    | cons first others => cases others <;> simp [same]
  · simp [same]

theorem words_of_row (kind : Kind) (nodes : List Node) :
    (ofNodes kind nodes).words = nodes.filter fun node => node.kind = .word := by
  rw [words, contents_of_nodes]
  induction nodes with
  | nil => rfl
  | cons first others ih => by_cases isWord : first.kind = .word <;> simp [isWord, ih]

theorem words_of_nodes (kind : Kind) {nodes : List Node} (every : ∀ node ∈ nodes, node.kind = .word) :
    (ofNodes kind nodes).words = nodes := by
  rw [words_of_row, List.filter_eq_self]
  simpa using every

theorem literal_argv_program_of (command : Node) :
    (programOf command).literalArgv? =
      if command.kind = .simpleCommand then command.words.mapM unquote? else none := rfl

theorem features_program_of (command : Node) : (programOf command).features = command.features := by
  rw [programOf, features_wrap rfl, features_wrap rfl]

theorem no_here_document_program_of {command : Node} :
    (programOf command).firstHereDocument? = none ↔ command.firstHereDocument? = none := by
  rw [programOf, wrap, wrap, no_here_document_of_row rfl, List.forall_mem_singleton,
    no_here_document_of_row rfl, List.forall_mem_singleton]

theorem mem_words (node word : Node) :
    word ∈ node.words ↔ Child.node word ∈ node.contents.toList ∧ word.kind = .word := by
  rw [words, List.mem_filterMap]
  constructor
  · intro kept
    obtain ⟨child, member, found⟩ := kept
    cases child with
    | text chars => cases found
    | list items => cases found
    | node inner =>
        by_cases isWord : inner.kind = .word
        · simp only [if_pos isWord, Option.some.injEq] at found
          subst found
          exact ⟨member, isWord⟩
        · simp [isWord] at found
  · intro both
    exact ⟨_, both.1, if_pos both.2⟩

end Node

namespace Grammar

open ShellLine.Parser

theorem reads_program_of {c d : Cursor} {command : Node}
    (read : program.Reads c (.programOf command) d) :
    ∃ e, (termList false).Reads c.pastBlanks.pastBreak command e ∧ e.pastBreak = d := by
  obtain ⟨commands, e, found, ended, shape⟩ := program_form read
  obtain ⟨-, rfl⟩ := Node.of_nodes_injective _ _ _ _ shape
  cases found with
  | some given items =>
      cases items with
      | stop _ =>
          obtain ⟨inner, list, same⟩ := complete_command_form given
          obtain ⟨-, same⟩ := Node.of_nodes_injective _ _ _ _ same
          cases same
          exact ⟨e, list, ended⟩

-- A child of a simple command is a word, or stands aside: assignments and redirections in front of the
-- command, and redirections behind it.
inductive Aside (node : Node) : Prop
  | lead (kind : node.kind = .commandLead)
      (features : .redirect ∈ node.features ∨ .assignment ∈ node.features)
  | redirection (kind : node.kind = .redirection) (features : .redirect ∈ node.features)

theorem feature_of_child {node inner : Node} {feature : Feature}
    (member : Child.node inner ∈ node.contents.toList) (inside : feature ∈ inner.features) :
    feature ∈ node.features := by
  obtain ⟨below, member', implied⟩ := (mem_features inner feature).mp inside
  exact (mem_features node feature).mpr ⟨below, below_child member member', implied⟩

theorem redirection_aside {node : Node} (kind : node.kind = .redirection) : Aside node := by
  refine .redirection kind ((mem_features node _).mpr ⟨node, self_mem_descendants node, ?_⟩)
  rw [kind]
  rfl

theorem lead_aside {c d : Cursor} {items : List Node} {node : Node}
    (leads : Items (reading grammar) leadItem c items d) (member : node ∈ leadNodes items) :
    Aside node := by
  cases items with
  | nil => cases member
  | cons first others =>
      obtain rfl : node = .ofNodes .commandLead (first :: others) := by simpa [leadNodes] using member
      obtain ⟨e, f, given⟩ := items_given leads first (List.mem_cons_self ..)
      have inside := (Node.mem_of_nodes .commandLead (first :: others) first).mpr
        (List.mem_cons_self ..)
      have implies : ∀ feature, first.kind.feature? = some feature → feature ∈ first.features :=
        fun feature implied => (mem_features first _).mpr ⟨first, self_mem_descendants first, implied⟩
      apply Aside.lead rfl
      rcases lead_item_kind given with kind | kind
      · exact Or.inl (feature_of_child inside (implies _ (by rw [kind]; rfl)))
      · exact Or.inr (feature_of_child inside (implies _ (by rw [kind]; rfl)))

theorem child_of_simple_command {c d : Cursor} {command : Node} (read : SimpleRead c command d) :
    ∀ child ∈ command.contents.toList, ∃ node, child = .node node ∧
      (Aside node ∨ ∃ e f, word.Reads e node f) := by
  cases read with
  | @named _ e f items others first leads name arguments =>
      intro child member
      rw [Node.contents_of_nodes, List.mem_map] at member
      obtain ⟨node, member, rfl⟩ := member
      refine ⟨node, rfl, ?_⟩
      rw [List.mem_append, List.mem_cons] at member
      rcases member with lead | rfl | argument
      · exact Or.inl (lead_aside leads lead)
      · exact Or.inr ⟨e, f, name⟩
      · obtain ⟨g, h, given⟩ := items_given arguments node argument
        rcases reads_argument given with kind | wordRead
        · exact Or.inl (redirection_aside kind)
        · exact Or.inr ⟨g, h, wordRead⟩
  | bare leads nonempty =>
      intro child member
      rw [Node.contents_of_nodes, List.mem_map] at member
      obtain ⟨node, member, rfl⟩ := member
      exact ⟨node, rfl, Or.inl (lead_aside leads member)⟩

theorem aside_is_no_word {node : Node} (aside : Aside node) : node.kind ≠ .word := by
  intro isWord
  cases aside with
  | lead kind _ => cases isWord.symm.trans kind
  | redirection kind _ => cases isWord.symm.trans kind

theorem word_of_simple_command {c d : Cursor} {command inner : Node}
    (read : SimpleRead c command d) (member : inner ∈ command.words) :
    ∃ e f, word.Reads e inner f := by
  obtain ⟨inside, kind⟩ := (Node.mem_words command inner).mp member
  obtain ⟨node, same, aside | given⟩ := child_of_simple_command read _ inside
  · cases same
    exact absurd kind (aside_is_no_word aside)
  · cases same
    exact given

theorem simple_command_unquotes_iff {c d : Cursor} {command : Node}
    (read : SimpleRead c command d) :
    (command.words.mapM Node.unquote?).isSome ↔ ∀ word ∈ command.words, word.features = [] := by
  rw [map_m_is_some]
  apply forall₂_congr
  intro word member
  obtain ⟨e, f, given⟩ := word_of_simple_command read member
  exact word_unquotes_iff given

theorem reads_simple_program {c d : Cursor} {command : Node}
    (read : program.Reads c (.programOf command) d) (simple : command.kind = .simpleCommand) :
    ∃ e f, SimpleRead c.pastBlanks.pastBreak command e ∧
      (e = f ∨ SeparatorForm false e .sequential f) ∧ f.pastBreak = d := by
  obtain ⟨f, list, ended⟩ := reads_program_of read
  obtain ⟨e, given, separated⟩ := reads_plain_term_list list (by rw [simple]; rfl)
  exact ⟨e, f, given, separated, ended⟩

theorem literal_argv_eq_some {c d : Cursor} {tree : Node} (read : program.Reads c tree d)
    (argv : List String) :
    tree.literalArgv? = some argv ↔ ∃ command, tree = .programOf command ∧
      command.kind = .simpleCommand ∧ command.words.mapM Node.unquote? = some argv := by
  constructor
  · intro literal
    obtain ⟨commands, e, found, -, rfl⟩ := program_form read
    simp only [Node.literalArgv?, Option.bind_eq_bind, Option.bind_eq_some_iff] at literal
    obtain ⟨top, sole, command, inner, literal⟩ := literal
    obtain ⟨-, rfl⟩ := Node.only_child_of_nodes.mp sole
    obtain ⟨given, _, _, -, rfl⟩ := complete_command_of_form found top (List.mem_singleton_self _)
    obtain ⟨-, only⟩ := Node.only_child_of_nodes.mp inner
    cases only
    by_cases simple : command.kind = .simpleCommand
    · exact ⟨command, rfl, simple, by rwa [if_pos simple] at literal⟩
    · rw [if_neg simple] at literal
      cases literal
  · intro whole
    obtain ⟨command, rfl, simple, literal⟩ := whole
    rw [Node.literal_argv_program_of, if_pos simple]
    exact literal

theorem literal_argv_is_some {c d : Cursor} {tree : Node} (read : program.Reads c tree d) :
    tree.literalArgv?.isSome ↔ ∃ command, tree = .programOf command ∧
      command.kind = .simpleCommand ∧ ∀ word ∈ command.words, word.features = [] := by
  rw [Option.isSome_iff_exists]
  constructor
  · intro whole
    obtain ⟨argv, literal⟩ := whole
    obtain ⟨command, rfl, simple, unquoted⟩ := (literal_argv_eq_some read argv).mp literal
    obtain ⟨e, f, given, -⟩ := reads_simple_program read simple
    refine ⟨command, rfl, simple, (simple_command_unquotes_iff given).mp ?_⟩
    rw [unquoted]
    rfl
  · intro whole
    obtain ⟨command, rfl, simple, plain⟩ := whole
    obtain ⟨e, f, given, -⟩ := reads_simple_program read simple
    obtain ⟨argv, unquoted⟩ :=
      Option.isSome_iff_exists.mp ((simple_command_unquotes_iff given).mpr plain)
    exact ⟨argv, (literal_argv_eq_some read argv).mpr ⟨command, rfl, simple, unquoted⟩⟩

theorem reads_sole_command {c d : Cursor} {tree : Node} (read : program.Reads c tree d)
    (sole : tree.completeCommands.length = 1) : ∃ command, tree = .programOf command := by
  obtain ⟨commands, e, found, -, rfl⟩ := program_form read
  have complete := complete_command_of_form found
  have every : (Node.ofNodes .program commands).completeCommands = commands := by
    rw [Node.completeCommands, Node.children_of_nodes, List.filter_eq_self]
    intro command member
    obtain ⟨inner, _, _, -, rfl⟩ := complete command member
    rfl
  rw [every] at sole
  obtain ⟨only, rfl⟩ := List.length_eq_one_iff.mp sole
  obtain ⟨inner, _, _, -, rfl⟩ := complete only (List.mem_singleton_self _)
  exact ⟨inner, rfl⟩

theorem aside_features {command node : Node} (aside : Aside node)
    (member : Child.node node ∈ command.contents.toList) :
    .redirect ∈ command.features ∨ .assignment ∈ command.features := by
  cases aside with
  | lead _ features => exact features.imp (feature_of_child member) (feature_of_child member)
  | redirection _ features => exact Or.inl (feature_of_child member features)

section Bare

variable {c d : Cursor} {command : Node}

theorem simple_command_plain_iff (read : SimpleRead c command d)
    (noRedirect : .redirect ∉ command.features) (noAssignment : .assignment ∉ command.features) :
    command.features = [] ↔ ∀ word ∈ command.words, word.features = [] := by
  have kind : command.kind.feature? = none := by cases read <;> rfl
  constructor
  · intro plain word member
    rw [List.eq_nil_iff_forall_not_mem] at plain ⊢
    exact fun feature inside =>
      plain feature (feature_of_child ((Node.mem_words command word).mp member).1 inside)
  · intro plain
    rw [features_eq_nil]
    intro inner member
    rcases (mem_descendants command inner).mp member with rfl | ⟨child, inside, below⟩
    · exact kind
    · obtain ⟨node, rfl, aside | ⟨e, f, given⟩⟩ := child_of_simple_command read child inside
      · exact absurd (aside_features aside inside) (by simp [noRedirect, noAssignment])
      · have isWord := (Node.mem_words command node).mpr ⟨inside, word_kind given⟩
        exact (features_eq_nil node).mp (plain node isWord) inner below

theorem simple_command_has_word (read : SimpleRead c command d)
    (noRedirect : .redirect ∉ command.features) (noAssignment : .assignment ∉ command.features) :
    command.words ≠ [] := by
  obtain ⟨first, inside⟩ : ∃ node, Child.node node ∈ command.contents.toList := by
    cases read with
    | @named _ _ _ items others first _ _ _ =>
        exact ⟨first, (Node.mem_of_nodes _ _ first).mpr (by simp)⟩
    | @bare _ items _ nonempty =>
        exact ⟨.ofNodes .commandLead items, (Node.mem_of_nodes _ _ _).mpr (by simp [leadNodes, nonempty])⟩
  obtain ⟨node, same, aside | ⟨e, f, given⟩⟩ := child_of_simple_command read _ inside
  · cases same
    exact absurd (aside_features aside inside) (by simp [noRedirect, noAssignment])
  · cases same
    exact List.ne_nil_of_mem ((Node.mem_words command first).mpr ⟨inside, word_kind given⟩)

theorem reads_plain_simple_command (read : SimpleRead c command d) (plain : command.features = []) :
    ∃ e first others, command = .ofNodes .simpleCommand (first :: others) ∧
      word.Reads c first e ∧ Items (reading grammar) argumentItem e others d ∧
      ∀ node ∈ first :: others, node.kind = .word := by
  have everyWord : ∀ node, Child.node node ∈ command.contents.toList → node.kind = .word := by
    intro node inside
    obtain ⟨_, same, aside | ⟨e, f, given⟩⟩ := child_of_simple_command read _ inside
    · cases same
      exact absurd (aside_features aside inside) (by simp [plain])
    · cases same
      exact word_kind given
  cases read with
  | @named _ e _ items others first leads name arguments =>
      by_cases empty : items = []
      · subst empty
        cases leads with
        | stop _ =>
            exact ⟨_, first, others, rfl, name, arguments,
              fun node member => everyWord node ((Node.mem_of_nodes _ _ node).mpr member)⟩
      · have lead := everyWord (.ofNodes .commandLead items)
          ((Node.mem_of_nodes _ _ _).mpr (by simp [leadNodes, empty]))
        cases lead
  | @bare _ items _ nonempty =>
      have lead := everyWord (.ofNodes .commandLead items)
        ((Node.mem_of_nodes _ _ _).mpr (by simp [leadNodes, nonempty]))
      cases lead

end Bare

theorem nonempty_argv_iff_plain {c d : Cursor} {command : Node}
    (read : program.Reads c (.programOf command) d) (noRedirect : .redirect ∉ command.features)
    (noAssignment : .assignment ∉ command.features) :
    (∃ argv, argv ≠ [] ∧ (Node.programOf command).literalArgv? = some argv) ↔
      command.features = [] := by
  constructor
  · intro whole
    obtain ⟨argv, -, literal⟩ := whole
    obtain ⟨other, same, simple, plain⟩ :=
      (literal_argv_is_some read).mp (Option.isSome_iff_exists.mpr ⟨argv, literal⟩)
    obtain rfl := Node.program_of_injective same
    obtain ⟨e, f, given, -⟩ := reads_simple_program read simple
    exact (simple_command_plain_iff given noRedirect noAssignment).mpr plain
  · intro plain
    obtain ⟨f, list, -⟩ := reads_program_of read
    obtain ⟨e, given, -⟩ := reads_plain_term_list list
      ((features_eq_nil command).mp plain command (self_mem_descendants command))
    have kind : command.kind = .simpleCommand := by cases given <;> rfl
    have wordsPlain := (simple_command_plain_iff given noRedirect noAssignment).mp plain
    obtain ⟨argv, unquoted⟩ :=
      Option.isSome_iff_exists.mp ((simple_command_unquotes_iff given).mpr wordsPlain)
    refine ⟨argv, ?_, (literal_argv_eq_some read argv).mpr ⟨command, rfl, kind, unquoted⟩⟩
    intro empty
    rw [empty, map_m_eq_some] at unquoted
    exact simple_command_has_word given noRedirect noAssignment
      (List.forall₂_nil_right_iff.mp unquoted)

end Grammar

open Grammar

/-- A command line has an argument vector exactly if it is one simple command whose words have no
features, and then one argument for each word. Of the command lines without redirections and
assignments those without features have one that is not empty. -/
theorem literal_argv_agrees_with_features (config : Config) (input : String) (tree : Node)
    (parsed : parse config input = .ok tree) :
    (tree.literalArgv?.isSome ↔ ∃ command, tree = .programOf command ∧
        command.kind = .simpleCommand ∧ ∀ word ∈ command.words, word.features = []) ∧
      (∀ argv, tree.literalArgv? = some argv → ∃ command, tree = .programOf command ∧
        List.Forall₂ (fun word argument => word.unquote? = some argument) command.words argv) ∧
      (tree.completeCommands.length = 1 → .redirect ∉ tree.features →
        .assignment ∉ tree.features →
        ((∃ argv, argv ≠ [] ∧ tree.literalArgv? = some argv) ↔ tree.features = [])) := by
  obtain ⟨d, read, -, -⟩ := parse_ok config input tree parsed
  refine ⟨literal_argv_is_some read, ?_, ?_⟩
  · intro argv literal
    obtain ⟨command, same, -, unquoted⟩ := (literal_argv_eq_some read argv).mp literal
    exact ⟨command, same, (map_m_eq_some _ _ _).mp unquoted⟩
  · intro sole noRedirect noAssignment
    obtain ⟨command, rfl⟩ := reads_sole_command read sole
    rw [Node.features_program_of] at noRedirect noAssignment ⊢
    exact nonempty_argv_iff_plain read noRedirect noAssignment

theorem quoted_arguments_agree :
    ∃ tree, parse {} "echo 'a b'\"c\";" = .ok tree ∧ tree.features = [] ∧
      ∃ argv, argv ≠ [] ∧ tree.literalArgv? = some argv := by
  obtain ⟨tree, parsed, seen⟩ := parse_ok_of_view {} "echo 'a b'\"c\";"
    (fun tree => (tree.completeCommands.length, tree.features)) (1, []) (by decide +kernel)
  obtain ⟨sole, plain⟩ := Prod.mk.inj seen
  have agrees := (literal_argv_agrees_with_features {} _ tree parsed).2.2 sole
    (by simp [plain]) (by simp [plain])
  exact ⟨tree, parsed, plain, agrees.mpr plain⟩

end ShellLine
