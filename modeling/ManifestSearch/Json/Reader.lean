import ManifestSearch.Text.Pieces
import ManifestSearch.Json.Value

/-!
Reading values from text. `parse?` accepts one value with blanks around it. A value whose content
nobody asks for is read unchecked: its form has to be right, but a number may be out of range, an
escaped surrogate may stand alone and nesting is not limited.
-/

namespace ManifestSearch.Json

/-- A value nests at most this many arrays and objects. -/
def depthLimit : Nat := 127

def isBlank (char : Char) : Bool :=
  char = ' ' || char = '\t' || char = '\n' || char = '\r'

def skipBlank (text : List Char) : List Char := text.dropWhile isBlank

def digit? (char : Char) : Option Nat :=
  if char.isDigit then some (char.toNat - '0'.toNat) else none

def hexValue? (char : Char) : Option Nat :=
  if char.isDigit then some (char.toNat - '0'.toNat)
  else if 'a' ≤ char ∧ char ≤ 'f' then some (char.toNat - 'a'.toNat + 10)
  else if 'A' ≤ char ∧ char ≤ 'F' then some (char.toNat - 'A'.toNat + 10)
  else none

def unit? (a b c d : Char) : Option Nat := do
  let values ← [a, b, c, d].mapM hexValue?
  return values.foldl (fun unit value => unit * 16 + value) 0

def isLeading (unit : Nat) : Bool := 0xd800 ≤ unit && unit < 0xdc00
def isTrailing (unit : Nat) : Bool := 0xdc00 ≤ unit && unit < 0xe000

def pairValue (leading trailing : Nat) : Char :=
  Char.ofNat (0x10000 + (leading - 0xd800) * 0x400 + (trailing - 0xdc00))

def escape? : Char → Option Char
  | '"' => some '"'
  | '\\' => some '\\'
  | '/' => some '/'
  | 'b' => some '\x08'
  | 'f' => some '\x0c'
  | 'n' => some '\n'
  | 'r' => some '\r'
  | 't' => some '\t'
  | _ => none

def stringBody? (checked : Bool) : List Char → Option (List Char × List Char)
  | [] => none
  | '"' :: rest => some ([], rest)
  | '\\' :: 'u' :: a :: b :: c :: d :: rest =>
      match unit? a b c d with
      | none => none
      | some unit =>
          if isLeading unit then
            match rest with
            | '\\' :: 'u' :: e :: f :: g :: h :: rest =>
                match unit? e f g h with
                | none => none
                | some second =>
                    if isTrailing second then
                      (stringBody? checked rest).map fun body =>
                        (pairValue unit second :: body.1, body.2)
                    else if checked then none
                    else (stringBody? checked rest).map fun body => ('?' :: body.1, body.2)
            | rest =>
                if checked then none
                else (stringBody? checked rest).map fun body => ('?' :: body.1, body.2)
          else if isTrailing unit && checked then none
          else (stringBody? checked rest).map fun body => (Char.ofNat unit :: body.1, body.2)
  | '\\' :: char :: rest =>
      match escape? char with
      | none => none
      | some meant => (stringBody? checked rest).map fun body => (meant :: body.1, body.2)
  | char :: rest =>
      if char.toNat < 0x20 then none
      else (stringBody? checked rest).map fun body => (char :: body.1, body.2)

def string? (checked : Bool) : List Char → Option (String × List Char)
  | '"' :: rest => (stringBody? checked rest).map fun body => (String.ofList body.1, body.2)
  | _ => none

/-- The whole part of a number: its leading digits as far as they fit in 64 bits, the count of
the digits after those, and the rest. -/
def wholeDigits (value : Nat) : List Char → Nat × Nat × List Char
  | [] => (value, 0, [])
  | char :: rest =>
      match digit? char with
      | none => (value, 0, char :: rest)
      | some digit =>
          if value * 10 + digit < Nat.pow 2 64 then wholeDigits (value * 10 + digit) rest
          else (value, (rest.takeWhile Char.isDigit).length + 1, rest.dropWhile Char.isDigit)

/-- Digits after the point go on with the value while it fits in 64 bits, and are left out from
there on. The second part counts those that went in. -/
def fractionDigits (value : Nat) : List Char → Nat × Nat × List Char
  | [] => (value, 0, [])
  | char :: rest =>
      match digit? char with
      | none => (value, 0, char :: rest)
      | some digit =>
          if value * 10 + digit < Nat.pow 2 64 then
            let more := fractionDigits (value * 10 + digit) rest
            (more.1, more.2.1 + 1, more.2.2)
          else (value, 0, rest.dropWhile Char.isDigit)

def decimalValue (digits : List Char) : Nat :=
  digits.foldl (fun value char => value * 10 + (char.toNat - '0'.toNat)) 0

/-- The exponent behind its mark: sign, size and the rest. -/
def exponent? (text : List Char) : Option (Bool × Nat × List Char) :=
  let (negative, text) := match text with
    | '+' :: rest => (false, rest)
    | '-' :: rest => (true, rest)
    | rest => (false, rest)
  let digits := text.takeWhile Char.isDigit
  if digits = [] then none
  else some (negative, decimalValue digits, text.dropWhile Char.isDigit)

/-- A double from a value of 64 bits and a power of ten, rounded once for the value and once for
each power; too large a number is refused. -/
def doubleFrom? (steps : Nat) (value : Decimal.Double) (exponent : Int) : Option Decimal.Double :=
  if exponent.natAbs ≤ 308 then
    let power := Decimal.Double.ofDecimal false 1 exponent.natAbs
    if exponent < 0 then some (value.div power)
    else
      let product := value.mul power
      if product.isInfinite then none else some product
  else if value.isZero then some value
  else if exponent ≥ 0 then none
  else match steps with
    | 0 => some value
    | steps + 1 =>
        doubleFrom? steps (value.div (Decimal.Double.ofDecimal false 1 308)) (exponent + 308)

def signed (negative : Bool) (value : Decimal.Double) : Decimal.Double :=
  if negative then value.negate else value

def doubleNumber? (negative : Bool) (value : Nat) (exponent : Int) : Option Number :=
  (doubleFrom? 4 (Decimal.Double.ofRatio false value 1) exponent).map fun double =>
    .double (signed negative double)

/-- A whole number is kept as one where 64 bits hold it, and `-0` is a double. -/
def wholeNumber (negative : Bool) (value : Nat) : Number :=
  if negative then
    if bound : 0 < value ∧ value ≤ Nat.pow 2 63 then .belowZero ⟨value - 1, by omega⟩
    else .double (signed true (Decimal.Double.ofRatio false value 1))
  else .whole value.toUInt64

/-- The largest exponent that is computed with; beyond it only a zero value is read. -/
def exponentLimit : Nat := 2147483647

def unsigned? (checked negative : Bool) (text : List Char) : Option (Number × List Char) := do
  let leadingZero := match text with
    | '0' :: next :: _ => next.isDigit
    | _ => false
  guard (!leadingZero)
  guard ((text.head?.bind digit?).isSome)
  let (value, beyond, rest) := wholeDigits 0 text
  let (value, shift, rest, hasPoint) ← match rest with
    | '.' :: rest =>
        if (rest.head?.bind digit?).isSome then
          let (value, shift, rest) := fractionDigits value rest
          some (value, shift, rest, true)
        else none
    | rest => some (value, 0, rest, false)
  let place : Int := (beyond : Int) - (shift : Int)
  match rest with
  | mark :: after =>
      if mark = 'e' ∨ mark = 'E' then
        let (below, size, rest) ← exponent? after
        if !checked then return (.whole 0, rest)
        if size > exponentLimit then
          if value ≠ 0 ∧ !below then none
          else return (.double (signed negative (Decimal.Double.ofRatio false 0 1)), rest)
        else
          let exponent := if below then place - size else place + size
          return (← doubleNumber? negative value exponent, rest)
      else ending value beyond place rest hasPoint
  | [] => ending value beyond place rest hasPoint
where
  ending (value beyond : Nat) (place : Int) (rest : List Char) (hasPoint : Bool) :
      Option (Number × List Char) :=
    if !checked then some (.whole 0, rest)
    else if hasPoint ∨ beyond > 0 then
      (doubleNumber? negative value place).map fun number => (number, rest)
    else some (wholeNumber negative value, rest)

def number? (checked : Bool) : List Char → Option (Number × List Char)
  | '-' :: rest => unsigned? checked true rest
  | text => unsigned? checked false text

def word? (word : List Char) (value : Json) (text : List Char) : Option (Json × List Char) :=
  (Text.after? word text).map fun rest => (value, rest)

mutual

/-- One value and what follows it. `fuel` bounds the work and `depth` the nesting. -/
def value? (checked : Bool) : Nat → Nat → List Char → Option (Json × List Char)
  | 0, _, _ => none
  | fuel + 1, depth, text =>
      match skipBlank text with
      | '[' :: rest =>
          match depth with
          | 0 => none
          | depth + 1 =>
              match skipBlank rest with
              | ']' :: rest => some (.array [], rest)
              | rest => (items? checked fuel depth rest).map fun read => (.array read.1, read.2)
      | '{' :: rest =>
          match depth with
          | 0 => none
          | depth + 1 =>
              match skipBlank rest with
              | '}' :: rest => some (.object [], rest)
              | rest =>
                  (members? checked fuel depth rest).map fun read =>
                    (.object (Keyed.ofList read.1), read.2)
      | '"' :: rest =>
          (string? checked ('"' :: rest)).map fun read => (.string read.1, read.2)
      | 'n' :: rest => word? ['u', 'l', 'l'] .null rest
      | 't' :: rest => word? ['r', 'u', 'e'] (.bool true) rest
      | 'f' :: rest => word? ['a', 'l', 's', 'e'] (.bool false) rest
      | rest => (number? checked rest).map fun read => (.number read.1, read.2)

def items? (checked : Bool) : Nat → Nat → List Char → Option (List Json × List Char)
  | 0, _, _ => none
  | fuel + 1, depth, text =>
      match value? checked fuel depth text with
      | none => none
      | some (item, rest) =>
          match skipBlank rest with
          | ',' :: rest =>
              (items? checked fuel depth rest).map fun read => (item :: read.1, read.2)
          | ']' :: rest => some ([item], rest)
          | _ => none

def members? (checked : Bool) :
    Nat → Nat → List Char → Option (List (String × Json) × List Char)
  | 0, _, _ => none
  | fuel + 1, depth, text =>
      match string? checked (skipBlank text) with
      | none => none
      | some (name, rest) =>
          match skipBlank rest with
          | ':' :: rest =>
              match value? checked fuel depth rest with
              | none => none
              | some (value, rest) =>
                  match skipBlank rest with
                  | ',' :: rest =>
                      (members? checked fuel depth rest).map fun read =>
                        ((name, value) :: read.1, read.2)
                  | '}' :: rest => some ([(name, value)], rest)
                  | _ => none
          | _ => none

end

/-- Enough for any text: no call goes two steps without taking a character. -/
def fuelFor (text : List Char) : Nat := 2 * text.length + 2

def parseWithin? (depth : Nat) (text : List Char) : Option Json :=
  match value? true (fuelFor text) depth text with
  | some (value, rest) => if skipBlank rest = [] then some value else none
  | none => none

def parse? (text : String) : Option Json := parseWithin? depthLimit text.toList

def valueText? (text : List Char) : Option (List Char × List Char) :=
  (value? false (fuelFor text) text.length text).map fun read =>
    (text.take (text.length - read.2.length), read.2)

def itemTexts? : Nat → List Char → Option (List (List Char) × List Char)
  | 0, _ => none
  | fuel + 1, text =>
      match valueText? text with
      | none => none
      | some (item, rest) =>
          match skipBlank rest with
          | ',' :: rest => (itemTexts? fuel rest).map fun read => (item :: read.1, read.2)
          | ']' :: rest => some ([item], rest)
          | _ => none

def memberTexts? : Nat → List Char → Option (List (String × List Char) × List Char)
  | 0, _ => none
  | fuel + 1, text =>
      match string? true (skipBlank text) with
      | none => none
      | some (name, rest) =>
          match skipBlank rest with
          | ':' :: rest =>
              match valueText? rest with
              | none => none
              | some (value, rest) =>
                  match skipBlank rest with
                  | ',' :: rest =>
                      (memberTexts? fuel rest).map fun read => ((name, value) :: read.1, read.2)
                  | '}' :: rest => some ([(name, value)], rest)
                  | _ => none
          | _ => none

/-- A document taken apart one level deep. -/
inductive Outline where
  | items (texts : List (List Char))
  | members (texts : List (String × List Char))
  | scalar (value : Json)

def outline? (text : String) : Option Outline :=
  let chars := text.toList
  match skipBlank chars with
  | '[' :: rest =>
      match skipBlank rest with
      | ']' :: rest => closed rest (.items [])
      | rest =>
          match itemTexts? (fuelFor rest) rest with
          | some (texts, rest) => closed rest (.items texts)
          | none => none
  | '{' :: rest =>
      match skipBlank rest with
      | '}' :: rest => closed rest (.members [])
      | rest =>
          match memberTexts? (fuelFor rest) rest with
          | some (texts, rest) => closed rest (.members texts)
          | none => none
  | _ => (parse? text).map .scalar
where
  closed (rest : List Char) (outline : Outline) : Option Outline :=
    if skipBlank rest = [] then some outline else none

end ManifestSearch.Json
