import ShellLine.Config
import ShellLine.Json.Reader

set_option autoImplicit false

namespace ShellLine

open JsonText

def ErrorStyle.tag : ErrorStyle → String
  | context => "context"
  | bare => "bare"

def ErrorStyle.ofTag? (tag : List Char) : Option ErrorStyle :=
  [ErrorStyle.context, ErrorStyle.bare].find? fun style => style.tag.toList = tag

structure NamedSettings where
  maxInputLength : Option Nat := none
  maxDepth : Option Nat := none
  errorStyle : Option ErrorStyle := none
deriving DecidableEq, Repr

namespace NamedSettings

def toConfig (named : NamedSettings) : Config :=
  { maxInputLength := named.maxInputLength.getD Config.default.maxInputLength
    maxDepth := named.maxDepth.getD Config.default.maxDepth
    errorStyle := named.errorStyle.getD Config.default.errorStyle }

def readLimit? (text : List Char) : Option (Nat × List Char) := do
  let (limit, rest) ← readNatural? (skipSpace text)
  if limit ≤ Config.largestLimit then some (limit, rest) else none

-- A style is its name, or an object of that name alone with the value `null`.
def readStyle? (text : List Char) : Option (ErrorStyle × List Char) :=
  match skipSpace text with
  | '\x7b' :: inner => do
      let (tag, rest) ← readString? (skipSpace inner)
      let style ← ErrorStyle.ofTag? tag
      let colon ← skipLiteral? [':'] (skipSpace rest)
      let value ← skipLiteral? "null".toList (skipSpace colon)
      return (style, ← skipLiteral? ['\x7d'] (skipSpace value))
  | plain => do
      let (tag, rest) ← readString? plain
      return (← ErrorStyle.ofTag? tag, rest)

def readField? (named : NamedSettings) (key text : List Char) :
    Option (NamedSettings × List Char) :=
  if key = "max_input_len".toList then do
    guard named.maxInputLength.isNone
    let (limit, rest) ← readLimit? text
    return ({ named with maxInputLength := some limit }, rest)
  else if key = "max_depth".toList then do
    guard named.maxDepth.isNone
    let (limit, rest) ← readLimit? text
    return ({ named with maxDepth := some limit }, rest)
  else if key = "error_style".toList then do
    guard named.errorStyle.isNone
    let (style, rest) ← readStyle? text
    return ({ named with errorStyle := some style }, rest)
  else do
    return (named, ← skipValue? (2 * text.length + 2) text)

-- Reads fields up to the closing brace. The first argument bounds their number.
def readFields? : Nat → NamedSettings → List Char → Option (NamedSettings × List Char)
  | 0, _, _ => none
  | fuel + 1, named, text => do
      let (key, afterKey) ← readString? (skipSpace text)
      let value ← skipLiteral? [':'] (skipSpace afterKey)
      let (more, rest) ← readField? named key value
      match skipSpace rest with
      | ',' :: others => readFields? fuel more others
      | '\x7d' :: after => some (more, after)
      | _ => none

def readObject? (text : List Char) : Option (NamedSettings × List Char) :=
  match skipSpace text with
  | '\x7b' :: inner =>
      match skipSpace inner with
      | '\x7d' :: after => some ({}, after)
      | fields => readFields? text.length {} fields
  | _ => none

end NamedSettings

def Config.ofJson? (json : String) : Option Config := do
  let (named, rest) ← NamedSettings.readObject? json.toList
  guard (skipSpace rest = [])
  return named.toConfig

end ShellLine
