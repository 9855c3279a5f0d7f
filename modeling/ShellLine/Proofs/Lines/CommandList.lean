import ShellLine.Proofs.Lines.Words

set_option autoImplicit false

namespace ShellLine.Lines

open ShellLine.Parser Grammar

-- The rules that stand below a bound are read in lockstep. Words and redirections are so anyway.
def RulesAgree (bound : Nat) : Prop :=
  ∀ rule c d, rule.height c < bound → rule ∉ [.word, .operand, .redirection] → Twin c d →
    Lockstep Twin Alike (reading grammar rule c) (reading grammar rule d)

variable {bound : Nat} {c d : Cursor}

theorem agrees_call (rules : RulesAgree bound) {rule : Rule}
    (structured : rule ∉ [.word, .operand, .redirection]) (twin : Twin c d) :
    Agrees bound Twin Alike (call rule) (call rule) c d :=
  fun under => rules rule c d under structured twin

theorem agrees_ended {ch : Char} (known : ch ∈ ['&', '|', ';']) (kind : Separator) {more : Parser Unit}
    (behind : ∀ e f, Twin e f → Agrees bound Twin Eq more more e f) (twin : Twin c d) :
    Agrees bound Twin Eq (do loneOperator ch; more; return kind) (do loneOperator ch; more; return kind)
      c d := by
  refine agrees_bind (agrees_lone_operator known twin.argument) fun _ _ e f _ both => ?_
  exact agrees_bind (behind e f both) fun _ _ _ _ _ last => agrees_pure rfl last

theorem agrees_separator (lines : Bool) (twin : Twin c d) :
    Agrees bound Twin Eq (separator lines) (separator lines) c d := by
  have more : ∀ e f, Twin e f → Agrees bound Twin Eq (if lines then lineBreak else pure () : Parser Unit)
      (if lines then lineBreak else pure ()) e f := by
    intro e f both
    cases lines with
    | false => exact agrees_pure rfl both
    | true => exact agrees_line_break both
  refine agrees_or_else (agrees_ended (by decide) .background more twin) ?_
  refine agrees_or_else (agrees_ended (by decide) .sequential more twin) ?_
  cases lines with
  | false => exact agrees_fail
  | true => exact agrees_bind (agrees_newlines twin.argument) fun _ _ _ _ _ last => agrees_pure rfl last

theorem agrees_term (rules : RulesAgree bound) (lines : Bool) (twin : Twin c d) :
    Agrees bound Twin (SameTurn Alike) (term lines) (term lines) c d := by
  refine agrees_attempt_bind (agrees_call rules (by decide) twin) (agrees_pure .stop twin) ?_
  intro node node' e f chain behind
  refine agrees_attempt_bind (agrees_separator lines behind) (agrees_pure (.last chain) behind) ?_
  intro kind kind' g h equal last
  subst equal
  cases kind with
  | background => exact agrees_pure (.more (alike_wrap (by decide) chain)) last
  | sequential => exact agrees_pure (.more chain) last

theorem agrees_term_list (rules : RulesAgree bound) (lines : Bool) (twin : Twin c d) :
    Agrees bound Twin Alike (termList lines) (termList lines) c d := by
  refine agrees_bind (agrees_rounds (term_moves lines) (term_moves lines) twin
    fun e f both => agrees_term rules lines both) fun terms terms' e f each behind => ?_
  cases each with
  | nil => exact agrees_fail
  | cons first others =>
      cases others with
      | nil => exact agrees_pure first behind
      | cons second more =>
          exact agrees_pure (alike_of_nodes (by decide) (.cons first (.cons second more))) behind

theorem agrees_compound_list (rules : RulesAgree bound) (twin : Twin c d) :
    Agrees bound Twin Alike compoundList compoundList c d := by
  refine agrees_nested (agrees_atomic ?_)
  exact agrees_bind (agrees_line_break twin) fun _ _ _ _ _ behind =>
    agrees_term_list rules true behind

inductive SameCommand : Node → Node → Prop
  | wrap {a b : Node} (inner : Alike a b) :
      SameCommand (.wrap .completeCommand a) (.wrap .completeCommand b)

theorem agrees_complete_command (rules : RulesAgree bound) (twin : Twin c d) :
    Agrees bound Twin SameCommand completeCommand completeCommand c d :=
  agrees_bind (agrees_term_list rules false twin) fun _ _ _ _ inner behind =>
    agrees_pure (.wrap inner) behind

theorem agrees_complete_commands (rules : RulesAgree bound) (twin : Twin c d) :
    Agrees bound Twin (List.Forall₂ SameCommand) completeCommands completeCommands c d := by
  refine agrees_attempt_bind (agrees_complete_command rules twin) (agrees_pure .nil twin) ?_
  intro first first' e f command behind
  have nextMoves : nextCommand.Moves := first_moves newlines_move
  have next : ∀ g h, Twin g h → Agrees bound Twin SameCommand nextCommand nextCommand g h :=
    fun g h both => agrees_bind (agrees_newlines both.argument) fun _ _ _ _ _ later =>
      agrees_complete_command rules later
  exact agrees_bind (agrees_many nextMoves nextMoves behind next) fun _ _ _ _ others last =>
    agrees_pure (.cons command others) last

end ShellLine.Lines
