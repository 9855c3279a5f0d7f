set_option autoImplicit false

namespace ShellLine.JsonText

def skipSpace (text : List Char) : List Char :=
  text.dropWhile fun c => c = ' ' || c = '\n' || c = '\t' || c = '\r'

def splitString : List Char → Option (List Char × List Char)
  | [] => none
  | '"' :: rest => some ([], rest)
  | '\\' :: c :: rest => (splitString rest).map fun (body, after) => ('\\' :: c :: body, after)
  | c :: rest => (splitString rest).map fun (body, after) => (c :: body, after)

def hexDigit? (c : Char) : Option Nat :=
  if c.isDigit then some (c.toNat - '0'.toNat)
  else if 'a' ≤ c ∧ c ≤ 'f' then some (c.toNat - 'a'.toNat + 10)
  else if 'A' ≤ c ∧ c ≤ 'F' then some (c.toNat - 'A'.toNat + 10)
  else none

def unit? (a b c d : Char) : Option Nat := do
  return 4096 * (← hexDigit? a) + 256 * (← hexDigit? b) + 16 * (← hexDigit? c) + (← hexDigit? d)

def shortEscape? : Char → Option Char
  | '"' => some '"'
  | '\\' => some '\\'
  | '/' => some '/'
  | 'b' => some '\x08'
  | 'f' => some '\x0c'
  | 'n' => some '\n'
  | 'r' => some '\r'
  | 't' => some '\t'
  | _ => none

def isHighSurrogate (unit : Nat) : Bool := 0xd800 ≤ unit && unit < 0xdc00

def isLowSurrogate (unit : Nat) : Bool := 0xdc00 ≤ unit && unit < 0xe000

-- Whether the inside of a string keeps the rules of escapes and control characters.
def isStringBody : List Char → Bool
  | [] => true
  | '\\' :: 'u' :: a :: b :: c :: d :: rest => (unit? a b c d).isSome && isStringBody rest
  | '\\' :: c :: rest => (shortEscape? c).isSome && isStringBody rest
  | c :: rest => c ≠ '\\' && 32 ≤ c.toNat && isStringBody rest

def decodeBody? : List Char → Option (List Char)
  | [] => some []
  | '\\' :: 'u' :: a :: b :: c :: d :: rest =>
      match unit? a b c d with
      | none => none
      | some high =>
          if isHighSurrogate high then
            match rest with
            | '\\' :: 'u' :: e :: f :: g :: h :: others =>
                match unit? e f g h with
                | none => none
                | some low =>
                    if isLowSurrogate low then
                      (decodeBody? others).map
                        (Char.ofNat (0x10000 + 0x400 * (high - 0xd800) + (low - 0xdc00)) :: ·)
                    else none
            | _ => none
          else if isLowSurrogate high then none
          else (decodeBody? rest).map (Char.ofNat high :: ·)
  | '\\' :: c :: rest =>
      match shortEscape? c with
      | some escaped => (decodeBody? rest).map (escaped :: ·)
      | none => none
  | c :: rest => if c = '\\' ∨ c.toNat < 32 then none else (decodeBody? rest).map (c :: ·)

def readString? : List Char → Option (List Char × List Char)
  | '"' :: rest => do
      let (body, after) ← splitString rest
      return (← decodeBody? body, after)
  | _ => none

def skipString? (rest : List Char) : Option (List Char) := do
  let (body, after) ← splitString rest
  if isStringBody body then some after else none

-- A run of digits without a leading zero.
def readDigits? (text : List Char) : Option (List Char × List Char) :=
  let digits := text.takeWhile Char.isDigit
  if digits = [] ∨ digits.head? = some '0' ∧ digits ≠ ['0'] then none
  else some (digits, text.drop digits.length)

-- A natural number written without sign, fraction or exponent.
def readNatural? (text : List Char) : Option (Nat × List Char) := do
  let (digits, after) ← readDigits? text
  return (digits.foldl (fun value digit => 10 * value + (digit.toNat - '0'.toNat)) 0, after)

def skipDigits? (text : List Char) : Option (List Char) :=
  if text.head?.any Char.isDigit then some (text.dropWhile Char.isDigit) else none

def skipExponent? (text : List Char) : Option (List Char) :=
  match text with
  | c :: rest =>
      if c = 'e' ∨ c = 'E' then
        match rest with
        | '+' :: digits | '-' :: digits => skipDigits? digits
        | digits => skipDigits? digits
      else some text
  | [] => some text

def skipNumber? (text : List Char) : Option (List Char) := do
  let unsigned := match text with
    | '-' :: rest => rest
    | _ => text
  let (_, after) ← readDigits? unsigned
  match after with
  | '.' :: fraction => skipExponent? (← skipDigits? fraction)
  | _ => skipExponent? after

def skipLiteral? (literal text : List Char) : Option (List Char) :=
  if literal.isPrefixOf text then some (text.drop literal.length) else none

mutual
-- Passes over a value. The first argument bounds the nesting of calls.
def skipValue? : Nat → List Char → Option (List Char)
  | 0, _ => none
  | fuel + 1, text =>
      match skipSpace text with
      | '"' :: rest => skipString? rest
      | '[' :: rest =>
          match skipSpace rest with
          | ']' :: after => some after
          | items => skipItems? fuel items
      | '\x7b' :: rest =>
          match skipSpace rest with
          | '\x7d' :: after => some after
          | members => skipMembers? fuel members
      | 'n' :: rest => skipLiteral? "ull".toList rest
      | 't' :: rest => skipLiteral? "rue".toList rest
      | 'f' :: rest => skipLiteral? "alse".toList rest
      | number => skipNumber? number
def skipItems? : Nat → List Char → Option (List Char)
  | 0, _ => none
  | fuel + 1, text =>
      match skipValue? fuel text with
      | none => none
      | some rest =>
          match skipSpace rest with
          | ',' :: items => skipItems? fuel items
          | ']' :: after => some after
          | _ => none
def skipMembers? : Nat → List Char → Option (List Char)
  | 0, _ => none
  | fuel + 1, text =>
      match skipSpace text with
      | '"' :: key =>
          match (skipString? key).map skipSpace with
          | some (':' :: value) =>
              match (skipValue? fuel value).map skipSpace with
              | some (',' :: members) => skipMembers? fuel members
              | some ('\x7d' :: after) => some after
              | _ => none
          | _ => none
      | _ => none
end

end ShellLine.JsonText
