import GroupingPlanner.Decimal.Positional
import GroupingPlanner.Document.Basic
/-!
# Writing documents

A document is written as JSON text on one line, without blanks.  In texts, quotes, backslashes and
control characters are escaped and everything else stands for itself.  A double always shows a
point, so that it reads back as a double; what is not finite has no spelling and is written as null.
-/

namespace GroupingPlanner.Document

/-- A hexadecimal digit. -/
def hexDigit (n : Nat) : Char := (Nat.toDigits 16 n).headD '0'

/-- A character inside a text. -/
def escaped (c : Char) : List Char :=
  if c == '"' then ['\\', '"']
  else if c == '\\' then ['\\', '\\']
  else if c.toNat < 0x20 then
    ['\\', 'u', '0', '0', hexDigit (c.toNat / 16), hexDigit (c.toNat % 16)]
  else [c]

/-- A text between quotes. -/
def quoted (s : String) : String := String.ofList ('"' :: s.toList.flatMap escaped ++ ['"'])

/-- A double. -/
def doubleText (bits : UInt64) : String :=
  if Decimal.exponentField bits = 2047 then "null"
  else
    let t := Decimal.textOfBits bits
    if t.toList.contains '.' then t else t ++ ".0"

mutual

/-- A document as text. -/
def render : Document → String
  | null => "null"
  | bool b => if b then "true" else "false"
  | whole i => toString i
  | double bits => doubleText bits
  | text s => quoted s
  | list items => "[" ++ ",".intercalate (renderItems items) ++ "]"
  | object fields => "\x7b" ++ ",".intercalate (renderFields fields) ++ "\x7d"

/-- The items of a list as texts. -/
def renderItems : List Document → List String
  | [] => []
  | d :: ds => render d :: renderItems ds

/-- The fields of an object as texts. -/
def renderFields : List (String × Document) → List String
  | [] => []
  | (name, d) :: rest => (quoted name ++ ":" ++ render d) :: renderFields rest

end

end GroupingPlanner.Document
