import GroupingPlanner.Document.Basic
/-!
# Reading documents

A document is read from JSON text.  Every function below takes the characters that are left and
returns what it read together with the characters after it.

A number without point and exponent is whole if it fits 64 bits, except that a negative zero is a
double: only doubles have one.  Of the digits of a double those count that fit 64 bits.  A field
that is written twice counts with its later value.

The readers of nested values take a bound on the number of steps.  Each step uses up a character,
so the length of the text is enough (`Document.parse?`).
-/

namespace GroupingPlanner.Document

/-- The characters after leading blanks. -/
def skipBlanks (cs : List Char) : List Char :=
  cs.dropWhile fun c => c == ' ' || c == '\n' || c == '\r' || c == '\t'

/-! ## Texts -/

/-- The value of a hexadecimal digit. -/
def hexDigit? (c : Char) : Option Nat :=
  if '0' ≤ c ∧ c ≤ '9' then some (c.toNat - '0'.toNat)
  else if 'a' ≤ c ∧ c ≤ 'f' then some (c.toNat - 'a'.toNat + 10)
  else if 'A' ≤ c ∧ c ≤ 'F' then some (c.toNat - 'A'.toNat + 10)
  else none

/-- A unit of 16 bits, written in four hexadecimal digits. -/
def hexUnit? : List Char → Option (Nat × List Char)
  | a :: b :: c :: d :: rest => do
    let a ← hexDigit? a
    let b ← hexDigit? b
    let c ← hexDigit? c
    let d ← hexDigit? d
    return (((a * 16 + b) * 16 + c) * 16 + d, rest)
  | _ => none

/-- The character of a code point outside the surrogates. -/
def charOf? (code : Nat) : Option Char :=
  if h : code.isValidChar then some (Char.ofNatAux code h) else none

/-- The character that an escape stands for, after the backslash.  A character beyond the first
65536 is written as two units. -/
def escape? : List Char → Option (Char × List Char)
  | '"' :: rest => some ('"', rest)
  | '\\' :: rest => some ('\\', rest)
  | '/' :: rest => some ('/', rest)
  | 'b' :: rest => some ('\x08', rest)
  | 'f' :: rest => some ('\x0c', rest)
  | 'n' :: rest => some ('\n', rest)
  | 'r' :: rest => some ('\r', rest)
  | 't' :: rest => some ('\t', rest)
  | 'u' :: rest => do
    let (high, rest) ← hexUnit? rest
    if 0xD800 ≤ high ∧ high < 0xDC00 then
      match rest with
      | '\\' :: 'u' :: rest =>
        let (low, rest) ← hexUnit? rest
        if 0xDC00 ≤ low ∧ low < 0xE000 then
          let c ← charOf? (0x10000 + (high - 0xD800) * 0x400 + (low - 0xDC00))
          return (c, rest)
        else none
      | _ => none
    else
      let c ← charOf? high
      return (c, rest)
  | _ => none

/-- The characters of a text up to its closing quote. -/
def textBody? : (steps : Nat) → List Char → Option (List Char × List Char)
  | 0, _ => none
  | _ + 1, [] => none
  | _ + 1, '"' :: rest => some ([], rest)
  | steps + 1, '\\' :: rest => do
    let (c, rest) ← escape? rest
    let (body, rest) ← textBody? steps rest
    return (c :: body, rest)
  | steps + 1, c :: rest => do
    if c.toNat < 0x20 then none
    else
      let (body, rest) ← textBody? steps rest
      return (c :: body, rest)

/-! ## Numbers -/

/-- The digits at the front. -/
def digits (cs : List Char) : List Char × List Char :=
  (cs.takeWhile Char.isDigit, cs.dropWhile Char.isDigit)

/-- The number that a row of digits is. -/
def ofDigits (ds : List Char) : Nat := ds.foldl (fun n d => 10 * n + (d.toNat - '0'.toNat)) 0

/-- The digits after a point; without a point there are none. -/
def fraction? : List Char → Option (List Char × List Char)
  | '.' :: rest =>
    let (ds, rest) := digits rest
    if ds.isEmpty then none else some (ds, rest)
  | cs => some ([], cs)

/-- The exponent; `none` inside if none is written. -/
def exponent? : List Char → Option (Option Int × List Char)
  | c :: rest =>
    if c == 'e' || c == 'E' then
      let (negative, rest) : Bool × List Char := match rest with
        | '-' :: rest => (true, rest)
        | '+' :: rest => (false, rest)
        | _ => (false, rest)
      let (ds, rest) := digits rest
      if ds.isEmpty then none
      else
        let n : Int := ofDigits ds
        some (some (if negative then -n else n), rest)
    else some (none, c :: rest)
  | [] => some (none, [])

/-- The number whose first digits are `n` and whose next ones are given, taken as long as it fits 64
bits, and how many digits were taken. -/
def leading (n : Nat) : List Char → Nat × Nat
  | [] => (n, 0)
  | d :: ds =>
    let next := 10 * n + (d.toNat - '0'.toNat)
    if next < UInt64.size then
      let (m, taken) := leading next ds
      (m, taken + 1)
    else (n, 0)

/-- The largest power of ten that is a double. -/
def largestPower : Nat := 308

/-- A power of ten as a double. -/
def powerOfTen (e : Nat) : Float := Float.ofScientific 1 false e

/-- The double for `n · 10 ^ e`, in two roundings: `n` is rounded to a double, and then its product
with a power of ten, or its quotient by one.  A quotient by more than the largest power is taken in
two steps.  What is too large for a double has none. -/
def scaled? (n : UInt64) (e : Int) : Option Float :=
  let x := n.toFloat
  if n = 0 then some x
  else if largestPower < e then none
  else if 0 ≤ e then
    let y := x * powerOfTen e.toNat
    if y.isInf then none else some y
  else
    let places := (-e).toNat
    let first := min places largestPower
    some (x / powerOfTen first / powerOfTen (min (places - first) largestPower))

/-- A number. -/
def number? (cs : List Char) : Option (Document × List Char) := do
  let (negative, cs) : Bool × List Char := match cs with
    | '-' :: rest => (true, rest)
    | _ => (false, cs)
  let (front, cs) := digits cs
  -- a number starts with a digit, and with a zero only if that is all before the point
  if front.isEmpty || (front.head? == some '0' && front.length != 1) then none
  else
    let (places, cs) ← fraction? cs
    let (exponent, cs) ← exponent? cs
    let (n, taken) := leading 0 front
    let i : Int := if negative then -n else n
    let fits := taken == front.length && Int64.minValue.toInt ≤ i && !(negative && n == 0)
    if fits && places.isEmpty && exponent.isNone then return (whole i, cs)
    else
      let (m, placesTaken) := leading n places
      let e : Int := exponent.getD 0 + front.length - taken - placesTaken
      let x ← scaled? m.toUInt64 e
      return (double (if negative then -x else x).toBits, cs)

/-! ## Values -/

/-- The rest after a word. -/
def afterWord? : List Char → List Char → Option (List Char)
  | [], cs => some cs
  | w :: ws, c :: cs => if w == c then afterWord? ws cs else none
  | _ :: _, [] => none

mutual

/-- A value, after blanks. -/
def value? : (steps : Nat) → List Char → Option (Document × List Char)
  | 0, _ => none
  | steps + 1, cs =>
    match skipBlanks cs with
    | '"' :: rest => do
      let (body, rest) ← textBody? (rest.length + 1) rest
      return (text (String.ofList body), rest)
    | '[' :: rest =>
      match skipBlanks rest with
      | ']' :: rest => some (list [], rest)
      | rest => do
        let (items, rest) ← items? steps rest
        return (list items, rest)
    | '\x7b' :: rest =>
      match skipBlanks rest with
      | '\x7d' :: rest => some (object [], rest)
      | rest => do
        let (fields, rest) ← fields? steps rest
        -- of a name that occurs twice the later value counts
        let distinct := fields.foldl (fun r f => r.insert f.1 f.2) Registry.empty
        return (object distinct.entries, rest)
    | 'n' :: rest => (afterWord? ['u', 'l', 'l'] rest).map fun rest => (null, rest)
    | 't' :: rest => (afterWord? ['r', 'u', 'e'] rest).map fun rest => (bool true, rest)
    | 'f' :: rest => (afterWord? ['a', 'l', 's', 'e'] rest).map fun rest => (bool false, rest)
    | cs => number? cs

/-- One item or more, up to the closing bracket. -/
def items? : (steps : Nat) → List Char → Option (List Document × List Char)
  | 0, _ => none
  | steps + 1, cs => do
    let (item, rest) ← value? steps cs
    match skipBlanks rest with
    | ',' :: rest => do
      let (items, rest) ← items? steps rest
      return (item :: items, rest)
    | ']' :: rest => return ([item], rest)
    | _ => none

/-- One field or more, up to the closing brace. -/
def fields? : (steps : Nat) → List Char → Option (List (String × Document) × List Char)
  | 0, _ => none
  | steps + 1, cs =>
    match skipBlanks cs with
    | '"' :: rest => do
      let (name, rest) ← textBody? (rest.length + 1) rest
      match skipBlanks rest with
      | ':' :: rest => do
        let (value, rest) ← value? steps rest
        let field := (String.ofList name, value)
        match skipBlanks rest with
        | ',' :: rest => do
          let (fields, rest) ← fields? steps rest
          return (field :: fields, rest)
        | '\x7d' :: rest => return ([field], rest)
        | _ => none
      | _ => none
    | _ => none

end

/-- The document that a text holds; the text must hold nothing else. -/
def parse? (s : String) : Option Document :=
  let cs := s.toList
  match value? (cs.length + 1) cs with
  | some (d, rest) => if (skipBlanks rest).isEmpty then some d else none
  | none => none

end GroupingPlanner.Document
