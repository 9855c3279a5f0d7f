import ShellLine.Proofs.CommandLine.Documented
import ShellLine.Proofs.CommandLine.Faults

set_option autoImplicit false

namespace ShellLine

section Style

variable (config : Config) (style : ErrorStyle) (input : String)

theorem judge_with_style (result : Option Node) (s : State) :
    judge { config with errorStyle := style } input result s =
      (judge config input result s).mapError (ParseError.withStyle style) := by
  unfold judge
  cases s.tooDeep with
  | true => rfl
  | false =>
      rw [if_neg Bool.false_ne_true, if_neg Bool.false_ne_true]
      generalize s.cursor.rest = rest
      cases rest with
      | cons => rfl
      | nil =>
          cases result with
          | none => rfl
          | some tree =>
              dsimp only
              cases tree.firstHereDocument? <;> rfl

theorem parse_with_style :
    parse { config with errorStyle := style } input =
      (parse config input).mapError (ParseError.withStyle style) := by
  rw [parse, parse, parseWith, parseWith]
  dsimp only
  split
  · rfl
  · exact judge_with_style config style input _ _

variable {config input} in
theorem style_of_parse {e : SyntaxError} (malformed : parse config input = .error (.malformed e)) :
    e.style = config.errorStyle := by
  have told := parse_with_style config config.errorStyle input
  rw [malformed] at told
  have same : ParseError.malformed e = (ParseError.malformed e).withStyle config.errorStyle :=
    Except.error.inj told
  exact congrArg SyntaxError.style (ParseError.malformed.inj same)

end Style

namespace CommandLine

section Verdicts

-- What the parser says of a text under the limits that can be read and in the style that is asked for.
def verdict (environment : Environment) (bare : Bool) (text : String) : Except ParseError Node :=
  parse
    { maxInputLength := (environment.maxInput.bind limit?).getD 65536
      maxDepth := (environment.maxDepth.bind limit?).getD 64
      errorStyle := if bare then .bare else .context } text

theorem verdict_bare (environment : Environment) (text : String) :
    verdict environment true text = (verdict environment false text).mapError (ParseError.withStyle .bare) :=
  parse_with_style (environment.config false) .bare text

variable {environment : Environment} {text : String}

theorem verdict_bare_malformed {e : SyntaxError} (malformed : verdict environment false text = .error (.malformed e)) :
    verdict environment true text = .error (.malformed (e.withStyle .bare)) := by
  rw [verdict_bare, malformed]
  rfl

theorem verdict_bare_other (other : ∀ e, verdict environment false text ≠ .error (.malformed e)) :
    verdict environment true text = verdict environment false text := by
  rw [verdict_bare]
  cases said : verdict environment false text with
  | ok tree => rfl
  | error e =>
      cases e with
      | malformed e => exact absurd said (other e)
      | hereDocument | inputTooLong | nestingTooDeep => rfl

end Verdicts

inductive Answers (libraries : Libraries) (tree : Node) : Action → Format → String → Prop
  | report : Answers libraries tree .check .text tree.describe.text
  | jsonReport {text : String} (written : libraries.pretty tree.describe.toJson = .ok text) :
      Answers libraries tree .check .json (text ++ "\n")
  | dump : Answers libraries tree .dump .text (tree.dump ++ "\n")
  | jsonDump {text : String} (written : libraries.pretty tree.toJson = .ok text) :
      Answers libraries tree .dump .json (text ++ "\n")

-- How a run tells what the parser says: its answer or its error, and the exit code.
inductive Reports (libraries : Libraries) (action : Action) (format : Format) :
    Except ParseError Node → Outcome → Prop
  | answer {tree : Node} {out : String} (answers : Answers libraries tree action format out) :
      Reports libraries action format (.ok tree) (.exit 0 out "")
  | malformed (e : SyntaxError) :
      Reports libraries action format (.error (.malformed e)) (.exit 2 "" ("Error: " ++ e.render ++ "\n"))
  | refused {e : ParseError} (other : ∀ malformed, e ≠ .malformed malformed) :
      Reports libraries action format (.error e) (.exit 1 "" ("Error: " ++ e.message ++ "\n"))

section Runs

variable {libraries : Libraries} {arguments : List String} {environment : Environment} {stdin : ByteArray}
  {action : Action} {format : Format} {input : InputArgs} {bare : Bool} {text : String}

theorem run_of_read (read : libraries.Reads arguments action format input) :
    libraries.run arguments environment stdin =
      conclude ((libraries.handle environment stdin action input format).run.run "") := by
  obtain ⟨verbose, read⟩ := read
  rw [Libraries.run, read]
  rfl

theorem read_of_asked (documented : libraries.Documented) (read : libraries.Reads arguments action format input)
    (about : input.AsksAbout stdin text) : input.read stdin = .ok text := by
  rcases about with command | ⟨asked, rfl⟩
  · rw [InputArgs.read, command]
  · have decoded : readToString text.toUTF8 = .ok text := by
      rw [readToString]
      have whole : String.fromUTF8? text.toUTF8 = some text := dif_pos text.isValidUTF8
      rw [whole]
    rw [InputArgs.read, documented.single read asked, decoded, if_pos asked]
    rfl

theorem handle_of_read (read : input.read stdin = .ok text) :
    libraries.handle environment stdin action input format =
      ofExcept (input.parse environment text) >>= fun tree => libraries.answer tree action format := by
  rw [Libraries.handle, read]
  rfl

theorem print_json_written {value : Json} (written : libraries.pretty value = .ok text) :
    libraries.printJson value = Printing.print (text ++ "\n") := by
  rw [Libraries.printJson, written]
  rfl

theorem print_run (text : String) : (Printing.print text).run.run "" = (.ok (), text) :=
  Prod.ext rfl String.empty_append

theorem answer_run (documented : libraries.Documented) (tree : Node) (action : Action) (format : Format) :
    ∃ out, Answers libraries tree action format out ∧
      (libraries.answer tree action format).run.run "" = (.ok (), out) := by
  cases action <;> cases format
  case check.text => exact ⟨_, .report, print_run _⟩
  case check.json =>
    obtain ⟨text, written⟩ := documented.written tree.describe.toJson
    refine ⟨_, .jsonReport written, ?_⟩
    rw [Libraries.answer, print_json_written written, print_run]
  case dump.text => exact ⟨_, .dump, print_run _⟩
  case dump.json =>
    obtain ⟨text, written⟩ := documented.written tree.toJson
    refine ⟨_, .jsonDump written, ?_⟩
    rw [Libraries.answer, print_json_written written, print_run]

theorem refused_reported {e : ParseError} (other : ∀ malformed, e ≠ .malformed malformed)
    (plain : refusal e = .of (.parse e)) :
    Reports libraries action format (.error e) (conclude (.error (refusal e), "")) := by
  have message : (refusal e).message = e.message := by rw [plain]; exact message_of_single _
  rw [conclude_told _ (by rw [message]; exact parse_error_told e), message, plain]
  exact .refused other

theorem refusal_reported (e : ParseError) :
    Reports libraries action format (.error e) (conclude (.error (refusal e), "")) := by
  cases e with
  | malformed e =>
      have message : (refusal (.malformed e)).message = e.render := message_of_single _
      rw [conclude_told _ (by rw [message]; exact syntax_error_told e), message]
      exact .malformed e
  | hereDocument => exact refused_reported nofun rfl
  | inputTooLong => exact refused_reported nofun rfl
  | nestingTooDeep => exact refused_reported nofun rfl

variable (environment) in
theorem run_of_asked (documented : libraries.Documented)
    (read : libraries.Reads arguments action format input) (about : input.AsksAbout stdin text) :
    Reports libraries action format (verdict environment input.bare text)
      (libraries.run arguments environment stdin) := by
  have parse : input.parse environment text = (verdict environment input.bare text).mapError refusal := rfl
  rw [run_of_read read, handle_of_read (read_of_asked documented read about), parse]
  cases verdict environment input.bare text with
  | ok tree =>
      obtain ⟨out, answers, printed⟩ := answer_run documented tree action format
      change Reports libraries action format (.ok tree)
        (conclude ((libraries.answer tree action format).run.run ""))
      rw [printed]
      exact .answer answers
  | error e => exact refusal_reported e

variable (environment) in
theorem run_alike (documented : libraries.Documented) {arguments' : List String} {stdin' : ByteArray}
    {input' : InputArgs} (read : libraries.Reads arguments action format input)
    (read' : libraries.Reads arguments' action format input') (about : input.AsksAbout stdin text)
    (about' : input'.AsksAbout stdin' text)
    (same : verdict environment input.bare text = verdict environment input'.bare text) :
    libraries.run arguments environment stdin = libraries.run arguments' environment stdin' := by
  have parse : input.parse environment text = input'.parse environment text :=
    congrArg (Except.mapError refusal) same
  rw [run_of_read read, run_of_read read', handle_of_read (read_of_asked documented read about),
    handle_of_read (read_of_asked documented read' about'), parse]

theorem unread_reported {fault : Fault} (read : libraries.Reads arguments action format input)
    (unread : input.read stdin = .error fault) :
    libraries.run arguments environment stdin = conclude (.error fault, "") := by
  rw [run_of_read read, Libraries.handle, unread]
  rfl

theorem missing_command_line_reported (read : libraries.Reads arguments action format ⟨none, false, bare⟩) :
    libraries.run arguments environment stdin =
      .exit 1 "" "Error: no command line given; pass COMMAND or --stdin\n" := by
  rw [unread_reported read rfl]
  rfl

-- Why the reading failed is told behind what failed, which does not say it.
theorem unreadable_input_reported (read : libraries.Reads arguments action format ⟨none, true, bare⟩)
    (unreadable : String.fromUTF8? stdin = none) :
    libraries.run arguments environment stdin =
      .exit 1 "" ("Error: failed to read command line from stdin\n\nCaused by:\n" ++
        "    0: stream did not contain valid UTF-8\n") := by
  let failed : Cause := .told "failed to read command line from stdin"
  let cause : Cause := .told "stream did not contain valid UTF-8"
  have unread : InputArgs.read ⟨none, true, bare⟩ stdin = .error ⟨failed, [cause]⟩ := by
    rw [InputArgs.read, readToString, unreadable]
    rfl
  have untold : ¬ cause.message.toList <:+: failed.message.toList := by
    rw [← occurs_in_iff]
    decide
  have message : Fault.message ⟨failed, [cause]⟩ = failed.message ++ Fault.causeLines 0 [cause] :=
    message_of_untold List.mem_cons_self untold
  rw [unread_reported read unread, conclude_told _ (by rw [message]; exact append_told (by decide) _), message]
  rfl

end Runs

end CommandLine

end ShellLine
