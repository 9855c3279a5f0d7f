import ShellLine.CommandLine.Program

set_option autoImplicit false

namespace ShellLine.CommandLine

inductive HelpTopic
  | program
  | action (action : Action)
  | help
deriving DecidableEq, Repr

inductive Halt
  | help (topic : HelpTopic)
  | version
  | misuse
deriving DecidableEq, Repr

-- What has been given so far before the action or behind it. The option for the format may
-- still wait for its value, or have a value that is not checked yet.
structure Given where
  format : Option Format := none
  waiting : Bool := false
  unchecked : Option (List Char) := none
  verbose : Bool := false
  fromStdin : Bool := false
  bare : Bool := false
  command : Option String := none
deriving DecidableEq, Repr

namespace Given

def setFormat (given : Given) (value : List Char) : Except Halt Given :=
  if given.format.isSome then .error .misuse
  else if value = "text".toList then .ok { given with format := some .text }
  else if value = "json".toList then .ok { given with format := some .json }
  else .error .misuse

def settle (given : Given) : Except Halt Given :=
  if given.waiting then .error .misuse
  else
    match given.unchecked with
    | some value => { given with unchecked := none }.setFormat value
    | none => .ok given

def awaitFormat (given : Given) : Except Halt Given := do
  return { ← given.settle with waiting := true }

def attachFormat (given : Given) (value : List Char) : Except Halt Given := do
  (← given.settle).setFormat value

def addOperand (given : Given) (operand : String) : Except Halt Given := do
  let settled ← given.settle
  if settled.command.isSome then .error .misuse
  else .ok { settled with command := some operand }

end Given

-- Options read before the action, or those of an action.
abbrev Scope := Option Action

def Scope.topic : Scope → HelpTopic
  | some action => .action action
  | none => .program

inductive Flag
  | verbose
  | fromStdin
  | bare
  | help
  | version
deriving DecidableEq, Repr

namespace Flag

def isKnownIn (scope : Scope) : Flag → Bool
  | verbose | help => true
  | fromStdin | bare => scope.isSome
  | version => scope.isNone

def ofName? (name : List Char) : Option Flag :=
  if name = "verbose".toList then some verbose
  else if name = "stdin".toList then some fromStdin
  else if name = "bare".toList then some bare
  else if name = "help".toList then some help
  else if name = "version".toList then some version
  else none

def ofLetter? : Char → Option Flag
  | 'v' => some verbose
  | 'h' => some help
  | 'V' => some version
  | _ => none

def raise (scope : Scope) (flag : Option Flag) (given : Given) : Except Halt Given := do
  let some flag := flag | .error .misuse
  if !flag.isKnownIn scope then .error .misuse
  else
    let settled ← given.settle
    match flag with
    | help => .error (.help scope.topic)
    | version => .error .version
    | verbose => if settled.verbose then .error .misuse else .ok { settled with verbose := true }
    | fromStdin =>
        if settled.fromStdin then .error .misuse else .ok { settled with fromStdin := true }
    | bare => if settled.bare then .error .misuse else .ok { settled with bare := true }

end Flag

-- An option written as `--name` or `--name=value`.
def readLong (scope : Scope) (text : List Char) (given : Given) : Except Halt Given :=
  let name := text.takeWhile (· ≠ '=')
  match text.drop name.length with
  | [] =>
      if name = "output".toList then given.awaitFormat
      else Flag.raise scope (Flag.ofName? name) given
  | _ :: value => if name = "output".toList then given.attachFormat value else .error .misuse

-- The letters behind a single hyphen. The letter of the format takes the rest as its value.
def readShort (scope : Scope) : List Char → Given → Except Halt Given
  | [], given => .ok given
  | ['o'], given => given.awaitFormat
  | 'o' :: '=' :: value, given => given.attachFormat value
  | 'o' :: value, given => given.attachFormat value
  | letter :: others, given => do
      readShort scope others (← Flag.raise scope (Flag.ofLetter? letter) given)

-- An argument by its shape: the end of options, an option, or an operand.
inductive Shape
  | endOfOptions
  | long (text : List Char)
  | short (letters : List Char)
  | operand
deriving DecidableEq, Repr

def Shape.ofArgument (argument : String) : Shape :=
  match argument.toList with
  | ['-', '-'] => .endOfOptions
  | '-' :: '-' :: text => .long text
  | ['-'] => .operand
  | '-' :: letters => .short letters
  | _ => .operand

def readAction (action : Action) (given : Given) : List String → Except Halt Given
  | [] => given.settle
  | argument :: others => do
      match Shape.ofArgument argument with
      | .endOfOptions => (← others.foldlM Given.addOperand given).settle
      | .long text => readAction action (← readLong (some action) text given) others
      | .short letters => readAction action (← readShort (some action) letters given) others
      | .operand =>
          if given.waiting then
            readAction action
              { given with waiting := false, unchecked := some argument.toList } others
          else readAction action (← given.addOperand argument) others

def helpTopic : List String → Halt
  | [] => .help .program
  | ["check"] => .help (.action .check)
  | ["dump"] => .help (.action .dump)
  | ["help"] => .help .help
  | _ => .misuse

-- What stands behind the action wins over what stands before it.
def request (action : Action) (before behind : Given) : Except Halt Cli :=
  if behind.command.isSome ∧ behind.fromStdin then .error .misuse
  else
    .ok
      { output := (behind.format.or before.format).getD .text
        verbose := before.verbose || behind.verbose
        command := some (action, ⟨behind.command, behind.fromStdin, behind.bare⟩) }

def Given.overview (given : Given) : Cli := ⟨given.format.getD .text, given.verbose, none⟩

def Action.ofName? : String → Option Action
  | "check" => some .check
  | "dump" => some .dump
  | _ => none

def readProgram (given : Given) : List String → Except Halt Cli
  | [] => do return (← given.settle).overview
  | argument :: others => do
      match Shape.ofArgument argument with
      | .endOfOptions =>
          let settled ← given.settle
          if others = [] then return settled.overview else .error .misuse
      | .long text => readProgram (← readLong none text given) others
      | .short letters => readProgram (← readShort none letters given) others
      | .operand =>
          if given.waiting then
            readProgram { given with waiting := false, unchecked := some argument.toList } others
          else if argument = "help" then .error (helpTopic others)
          else
            match Action.ofName? argument with
            | some action =>
                let behind ← readAction action {} others
                request action (← given.settle) behind
            | none => .error .misuse

def read (arguments : List String) : Except Halt Cli := readProgram {} arguments

end ShellLine.CommandLine
