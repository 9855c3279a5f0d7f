set_option autoImplicit false

namespace ShellLine

mutual
inductive Json
  | null
  | string (chars : List Char)
  | array (items : JsonItems)
  | object (fields : JsonFields)
inductive JsonItems
  | nil
  | cons (head : Json) (tail : JsonItems)
inductive JsonFields
  | nil
  | cons (key : List Char) (value : Json) (tail : JsonFields)
end

def JsonItems.ofList : List Json → JsonItems
  | [] => nil
  | head :: tail => cons head (ofList tail)

namespace Json

def hexDigits4 (code : Nat) : List Char :=
  let digits := Nat.toDigits 16 code
  List.replicate (4 - digits.length) '0' ++ digits

-- All but the quote, the backslash and the control characters is written as it is.
def escapeChar (c : Char) : List Char :=
  if c = '"' ∨ c = '\\' then ['\\', c]
  else if c = '\x08' then ['\\', 'b']
  else if c = '\x0c' then ['\\', 'f']
  else if c = '\n' then ['\\', 'n']
  else if c = '\r' then ['\\', 'r']
  else if c = '\t' then ['\\', 't']
  else if c.toNat < 32 then '\\' :: 'u' :: hexDigits4 c.toNat
  else [c]

def quote (chars : List Char) : List Char := '"' :: (chars.flatMap escapeChar ++ ['"'])

def newLine (depth : Nat) : List Char := '\n' :: List.replicate (2 * depth) ' '

end Json

mutual
-- Every item and field has a line of its own, indented by two spaces a level.
def Json.pretty (depth : Nat) : Json → List Char
  | .null => "null".toList
  | .string chars => Json.quote chars
  | .array .nil => "[]".toList
  | .array (.cons head tail) =>
      '[' :: (Json.newLine (depth + 1) ++ head.pretty (depth + 1) ++ tail.pretty (depth + 1) ++
        Json.newLine depth ++ [']'])
  | .object .nil => "\x7b\x7d".toList
  | .object (.cons key value tail) =>
      '\x7b' :: (Json.newLine (depth + 1) ++ Json.quote key ++ ": ".toList ++
        value.pretty (depth + 1) ++ tail.pretty (depth + 1) ++ Json.newLine depth ++ ['\x7d'])
def JsonItems.pretty (depth : Nat) : JsonItems → List Char
  | .nil => []
  | .cons head tail => ',' :: (Json.newLine depth ++ head.pretty depth ++ tail.pretty depth)
def JsonFields.pretty (depth : Nat) : JsonFields → List Char
  | .nil => []
  | .cons key value tail =>
      ',' :: (Json.newLine depth ++ Json.quote key ++ ": ".toList ++ value.pretty depth ++
        tail.pretty depth)
end

def Json.text (value : Json) : String := String.ofList (value.pretty 0)

end ShellLine
