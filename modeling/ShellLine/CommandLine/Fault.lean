import ShellLine.ParseError

set_option autoImplicit false

namespace ShellLine.CommandLine

-- An error that ends a run with a code of its own. Without a message nothing is said.
structure ExitError where
  code : Nat
  message : String
deriving DecidableEq, Repr

inductive Cause
  | exit (e : ExitError)
  | parse (e : ParseError)
  | told (message : String)
deriving DecidableEq, Repr

namespace Cause

def message : Cause → String
  | exit e => e.message
  | parse e => e.message
  | told message => message

def exitError? : Cause → Option ExitError
  | exit e => some e
  | parse _ | told _ => none

end Cause

-- Why a run fails: an error, and the chain of those that it was caused by.
structure Fault where
  top : Cause
  causes : List Cause
deriving DecidableEq, Repr

def occursIn (part : List Char) : List Char → Bool
  | [] => part.isPrefixOf []
  | c :: rest => part.isPrefixOf (c :: rest) || occursIn part rest

namespace Fault

def of (cause : Cause) : Fault := ⟨cause, []⟩

def chain (fault : Fault) : List Cause := fault.top :: fault.causes

def withContext (message : String) (fault : Fault) : Fault := ⟨.told message, fault.chain⟩

-- The code of the first exit error of the chain.
def code (fault : Fault) : Nat := ((fault.chain.findSome? Cause.exitError?).map ExitError.code).getD 1

def causeLines : Nat → List Cause → String
  | _, [] => ""
  | index, cause :: others =>
      "\n\nCaused by:\n    " ++ index.repr ++ ": " ++ cause.message ++ causeLines (index + 1) others

-- The causes are left out if the error tells them all.
def message (fault : Fault) : String :=
  let top := fault.top.message
  if fault.causes.all fun cause => occursIn cause.message.toList top.toList then top
  else top ++ causeLines 0 fault.causes

end Fault

end ShellLine.CommandLine
