import ManifestSearch.Decimal.Shortest
import ManifestSearch.Json.Value

/-!
The compact text of a value: no blanks, and in a string only the quote, the backslash and the
control characters below U+0020 are escaped.
-/

namespace ManifestSearch.Json

def hexDigit (value : Nat) : Char := Nat.digitChar value

def escaped (char : Char) : List Char :=
  match char with
  | '"' => ['\\', '"']
  | '\\' => ['\\', '\\']
  | '\n' => ['\\', 'n']
  | '\r' => ['\\', 'r']
  | '\t' => ['\\', 't']
  | '\x08' => ['\\', 'b']
  | '\x0c' => ['\\', 'f']
  | _ =>
      if char.toNat < 0x20 then
        ['\\', 'u', '0', '0', hexDigit (char.toNat / 16), hexDigit (char.toNat % 16)]
      else [char]

def quoted (text : String) : List Char :=
  '"' :: (text.toList.flatMap escaped ++ ['"'])

/-- Between these places of the first digit a double is written without an exponent. -/
def positionalFrom : Int := -5
def positionalTo : Int := 15

/-- The text of a finite double: the shortest digits, and always a point or an exponent. -/
def doubleText (value : Decimal.Double) : List Char :=
  let sign := if value.isNegative then ['-'] else []
  let shortest := value.shortest
  let digits := (Nat.repr shortest.digits).toList
  let place := (digits.length : Int) + shortest.exponent - 1
  let body :=
    if shortest.digits = 0 then ['0', '.', '0']
    else if place < positionalFrom ∨ place > positionalTo then
      let fraction := match digits with
        | first :: second :: rest => first :: '.' :: second :: rest
        | few => few
      let mark := if place < 0 then ['e', '-'] else ['e', '+']
      fraction ++ mark ++ (Nat.repr place.natAbs).toList
    else if shortest.exponent ≥ 0 then
      digits ++ List.replicate shortest.exponent.toNat '0' ++ ['.', '0']
    else if place ≥ 0 then
      digits.take (place + 1).toNat ++ '.' :: digits.drop (place + 1).toNat
    else ['0', '.'] ++ List.replicate (-place - 1).toNat '0' ++ digits
  sign ++ body

/-- A double that is no number has no text of its own and is written as `null`. -/
def Number.print : Number → List Char
  | .whole value => (Nat.repr value.toNat).toList
  | .belowZero value => '-' :: (Nat.repr (value.val + 1)).toList
  | .double value =>
      if value.isFinite then doubleText value else ['n', 'u', 'l', 'l']

mutual

def print : Json → List Char
  | .null => ['n', 'u', 'l', 'l']
  | .bool true => ['t', 'r', 'u', 'e']
  | .bool false => ['f', 'a', 'l', 's', 'e']
  | .number value => value.print
  | .string value => quoted value
  | .array items => '[' :: printItems items
  | .object members => '{' :: printMembers members

def printItems : List Json → List Char
  | [] => [']']
  | [item] => print item ++ [']']
  | item :: next :: rest => print item ++ ',' :: printItems (next :: rest)

def printMembers : List (String × Json) → List Char
  | [] => ['}']
  | [(name, value)] => quoted name ++ ':' :: (print value ++ ['}'])
  | (name, value) :: next :: rest =>
      quoted name ++ ':' :: (print value ++ ',' :: printMembers (next :: rest))

end

def text (value : Json) : String := String.ofList value.print

end ManifestSearch.Json
