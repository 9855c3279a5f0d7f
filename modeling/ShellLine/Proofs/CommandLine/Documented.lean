import ShellLine.CommandLine.Run

set_option autoImplicit false

namespace ShellLine.CommandLine

def Format.name : Format → String
  | text => "text"
  | json => "json"

def spelled (action : Action) (format : Format) (bare : Bool) (source : List String) : List String :=
  [action.name, "--output", format.name] ++ (if bare then ["--bare"] else []) ++ source

-- The command line that is asked about is one of the arguments or the standard input.
def InputArgs.AsksAbout (input : InputArgs) (stdin : ByteArray) (text : String) : Prop :=
  input.command = some text ∨ input.stdin = true ∧ stdin = text.toUTF8

namespace Libraries

variable (libraries : Libraries)

def Reads (arguments : List String) (action : Action) (format : Format) (input : InputArgs) : Prop :=
  ∃ verbose, libraries.arguments arguments = .ok ⟨format, verbose, some (action, input)⟩

-- What the libraries promise: a command line and the standard input are not both asked for, the
-- spelled arguments are read as what they spell, and every value can be written.
structure Documented : Prop where
  single : ∀ {arguments action format input},
    libraries.Reads arguments action format input → input.stdin = true → input.command = none
  marked : ∀ action format bare text,
    libraries.Reads (spelled action format bare ["--", text]) action format ⟨some text, false, bare⟩
  operand : ∀ action format bare text, text.toList.head? ≠ some '-' →
    libraries.Reads (spelled action format bare [text]) action format ⟨some text, false, bare⟩
  standardInput : ∀ action format bare,
    libraries.Reads (spelled action format bare ["--stdin"]) action format ⟨none, true, bare⟩
  written : ∀ value, ∃ text, libraries.pretty value = .ok text

end Libraries

section Reading

theorem request_of_read {arguments : List String} {given : Given} {cli : Cli} {asked : Action × InputArgs}
    (read : readProgram given arguments = .ok cli) (command : cli.command = some asked) :
    ∃ action before behind, request action before behind = .ok cli := by
  induction arguments generalizing given with
  | nil =>
      rw [readProgram] at read
      cases settled : given.settle with
      | error => simp [settled, bind, Except.bind] at read
      | ok last =>
          rw [settled] at read
          cases read
          cases command
  | cons argument others ih =>
      rw [readProgram] at read
      split at read
      · cases settled : given.settle with
        | error => simp [settled, bind, Except.bind] at read
        | ok last =>
          simp only [settled, bind, Except.bind] at read
          split at read
          · cases read
            cases command
          · cases read
      · rename_i text _
        cases taken : readLong none text given with
        | error => simp [taken, bind, Except.bind] at read
        | ok => exact ih (by simpa [taken, bind, Except.bind] using read)
      · rename_i letters _
        cases taken : readShort none letters given with
        | error => simp [taken, bind, Except.bind] at read
        | ok => exact ih (by simpa [taken, bind, Except.bind] using read)
      · split at read
        · exact ih read
        · split at read
          · cases read
          · split at read
            · rename_i action _
              cases taken : readAction action {} others with
              | error => simp [taken, bind, Except.bind] at read
              | ok behind =>
                  cases settled : given.settle with
                  | error => simp [taken, settled, bind, Except.bind] at read
                  | ok before =>
                      exact ⟨action, before, behind, by simpa [taken, settled, bind, Except.bind] using read⟩
            · cases read

theorem command_or_stdin {arguments : List String} {cli : Cli} {action : Action} {input : InputArgs}
    (accepted : read arguments = .ok cli) (asked : cli.command = some (action, input)) :
    input.stdin = true → input.command = none := by
  obtain ⟨_, before, behind, made⟩ := request_of_read accepted asked
  rw [request] at made
  split at made
  · cases made
  · rename_i single
    cases made
    cases asked
    intro fromStdin
    exact Option.not_isSome_iff_eq_none.mp fun given => single ⟨given, fromStdin⟩

theorem read_spelled_argument (action : Action) (format : Format) (bare : Bool) (text : String) :
    read (spelled action format bare ["--", text]) =
      .ok ⟨format, false, some (action, ⟨some text, false, bare⟩)⟩ := by
  cases action <;> cases format <;> cases bare <;> rfl

theorem read_spelled_stdin (action : Action) (format : Format) (bare : Bool) :
    read (spelled action format bare ["--stdin"]) = .ok ⟨format, false, some (action, ⟨none, true, bare⟩)⟩ := by
  cases action <;> cases format <;> cases bare <;> rfl

theorem read_spelled (action : Action) (format : Format) (bare : Bool) : ∃ given : Given,
    given.waiting = false ∧ ∀ source, read (spelled action format bare source) =
      readAction action given source >>= fun behind => request action {} behind := by
  cases bare with
  | false =>
      refine ⟨{ unchecked := some format.name.toList }, rfl, fun source => ?_⟩
      cases action <;> cases format <;> rfl
  | true =>
      refine ⟨{ format := some format, bare := true }, rfl, fun source => ?_⟩
      cases action <;> cases format <;> rfl

theorem shape_of_operand {text : String} (plain : text.toList.head? ≠ some '-') :
    Shape.ofArgument text = .operand := by
  rw [Shape.ofArgument]
  cases chars : text.toList with
  | nil => rfl
  | cons c rest =>
      rw [chars] at plain
      split <;> simp_all

theorem read_spelled_operand (action : Action) (format : Format) (bare : Bool) {text : String}
    (plain : text.toList.head? ≠ some '-') :
    read (spelled action format bare [text]) = read (spelled action format bare ["--", text]) := by
  obtain ⟨given, ready, readSource⟩ := read_spelled action format bare
  have marked : readAction action given ["--", text] = given.addOperand text >>= Given.settle := by
    rw [readAction]
    change (given.addOperand text >>= pure) >>= Given.settle = _
    rw [bind_pure]
  rw [readSource, readSource, marked, readAction, shape_of_operand plain, ready]
  rfl

theorem reads_iff {arguments : List String} {action : Action} {format : Format} {input : InputArgs} :
    bundled.Reads arguments action format input ↔
      ∃ verbose, read arguments = .ok ⟨format, verbose, some (action, input)⟩ := by
  refine exists_congr fun verbose => ?_
  change (read arguments).mapError Halt.outcome = _ ↔ _
  cases read arguments with
  | ok cli => exact ⟨fun same => by cases same; rfl, fun same => by cases same; rfl⟩
  | error halt => exact ⟨nofun, nofun⟩

theorem bundled_documented : bundled.Documented where
  single := by
    intro arguments action format input reads
    obtain ⟨verbose, accepted⟩ := reads_iff.mp reads
    exact command_or_stdin accepted rfl
  marked := fun action format bare text => reads_iff.mpr ⟨false, read_spelled_argument action format bare text⟩
  operand := by
    intro action format bare text plain
    refine reads_iff.mpr ⟨false, ?_⟩
    rw [read_spelled_operand action format bare plain, read_spelled_argument]
  standardInput := fun action format bare => reads_iff.mpr ⟨false, read_spelled_stdin action format bare⟩
  written := fun value => ⟨value.text, rfl⟩

end Reading

end ShellLine.CommandLine
