import ManifestSearch.Json.Reader
import ManifestSearch.Toml.Value

/-!
The words of the configuration language: blanks and line ends, keys, strings, numbers, dates and
times. Each reader takes its word off the front of a text and answers what is left.
-/

namespace ManifestSearch.Toml

open ManifestSearch.Decimal (Double)

/-- A character that may stand in comments and strings. -/
def isText (char : Char) : Bool :=
  char = '\t' || (0x20 ≤ char.toNat && char.toNat ≠ 0x7f)

def isSpace (char : Char) : Bool := char = ' ' || char = '\t'

def skipSpace (text : List Char) : List Char := text.dropWhile isSpace

def newline? : List Char → Option (List Char)
  | '\n' :: rest => some rest
  | '\r' :: '\n' :: rest => some rest
  | _ => none

/-- Blanks, a comment if there is one, and the end of the line or of the text. -/
def lineEnd? (text : List Char) : Option (List Char) :=
  let rest := match skipSpace text with
    | '#' :: rest => rest.dropWhile isText
    | rest => rest
  if rest = [] then some [] else newline? rest

/-- Blanks, line ends and whole comments, as they may stand between the items of an array. -/
def skipFill? (inComment : Bool) : List Char → Option (List Char)
  | [] => if inComment then none else some []
  | '\n' :: rest => skipFill? false rest
  | '\r' :: '\n' :: rest => skipFill? false rest
  | char :: rest =>
      if inComment then (if isText char then skipFill? true rest else none)
      else if isSpace char then skipFill? false rest
      else if char = '#' then skipFill? true rest
      else some (char :: rest)

def scalar? (code : Nat) : Option Char :=
  if code < 0xd800 ∨ (0xe000 ≤ code ∧ code < 0x110000) then some (Char.ofNat code) else none

def hexDigits? (count : Nat) (text : List Char) : Option (Nat × List Char) :=
  match count with
  | 0 => some (0, text)
  | count + 1 => do
      let char ← text.head?
      let high ← Json.hexValue? char
      let (low, rest) ← hexDigits? count text.tail
      return (high * Nat.pow 16 count + low, rest)

/-- What a backslash and the characters after it stand for. -/
def escape? : List Char → Option (Char × List Char)
  | 'b' :: rest => some ('\x08', rest)
  | 't' :: rest => some ('\t', rest)
  | 'n' :: rest => some ('\n', rest)
  | 'f' :: rest => some ('\x0c', rest)
  | 'r' :: rest => some ('\r', rest)
  | '"' :: rest => some ('"', rest)
  | '\\' :: rest => some ('\\', rest)
  | 'u' :: rest => do
      let (code, rest) ← hexDigits? 4 rest
      return (← scalar? code, rest)
  | 'U' :: rest => do
      let (code, rest) ← hexDigits? 8 rest
      return (← scalar? code, rest)
  | _ => none

/-- A string on one line, from behind its opening quote. -/
def basicBody? : Nat → List Char → Option (List Char × List Char)
  | 0, _ => none
  | fuel + 1, text =>
      match text with
      | [] => none
      | '"' :: rest => some ([], rest)
      | '\\' :: rest =>
          match escape? rest with
          | none => none
          | some (char, rest) => (basicBody? fuel rest).map fun body => (char :: body.1, body.2)
      | char :: rest =>
          if isText char then (basicBody? fuel rest).map fun body => (char :: body.1, body.2)
          else none

def literalBody? : List Char → Option (List Char × List Char)
  | [] => none
  | '\'' :: rest => some ([], rest)
  | char :: rest =>
      if isText char then (literalBody? rest).map fun body => (char :: body.1, body.2) else none

/-- The end of a string in three quotes: of the quotes that stand there, three close it and up
to two before them belong to it. -/
def closing? (quote : Char) (text : List Char) : Option (List Char × List Char) :=
  let count := (text.takeWhile (· = quote)).length
  if count < 3 then none
  else
    let own := min (count - 3) 2
    some (List.replicate own quote, text.drop (own + 3))

def skipLines : List Char → List Char
  | [] => []
  | '\r' :: '\n' :: rest => skipLines rest
  | char :: rest => if isSpace char ∨ char = '\n' then skipLines rest else char :: rest

/-- What follows a backslash at the end of a line: the next text that is not blank. -/
def continued? (text : List Char) : Option (List Char) :=
  (newline? (skipSpace text)).map skipLines

/-- A string of several lines, from behind its quotes. Line ends of both kinds are one
character in it. -/
def longBody? (quote : Char) (escapes : Bool) : Nat → List Char → Option (List Char × List Char)
  | 0, _ => none
  | fuel + 1, text =>
      match text with
      | [] => none
      | '\r' :: '\n' :: rest =>
          (longBody? quote escapes fuel rest).map fun body => ('\n' :: body.1, body.2)
      | char :: rest =>
          if char = quote then
            match closing? quote text with
            | some closed => some closed
            | none =>
                (longBody? quote escapes fuel rest).map fun body => (char :: body.1, body.2)
          else if char = '\\' ∧ escapes then
            match continued? rest with
            | some rest => longBody? quote escapes fuel rest
            | none =>
                match escape? rest with
                | none => none
                | some (char, rest) =>
                    (longBody? quote escapes fuel rest).map fun body => (char :: body.1, body.2)
          else if isText char ∨ char = '\n' then
            (longBody? quote escapes fuel rest).map fun body => (char :: body.1, body.2)
          else none

def long? (quote : Char) (escapes : Bool) (text : List Char) : Option (String × List Char) :=
  let body := (newline? text).getD text
  (longBody? quote escapes (text.length + 1) body).map fun read =>
    (String.ofList read.1, read.2)

def shortString? : List Char → Option (String × List Char)
  | '"' :: rest => (basicBody? (rest.length + 1) rest).map fun read =>
      (String.ofList read.1, read.2)
  | '\'' :: rest => (literalBody? rest).map fun read => (String.ofList read.1, read.2)
  | _ => none

def quoted? (text : List Char) : Option (String × List Char) :=
  match text with
  | '"' :: '"' :: '"' :: rest => long? '"' true rest
  | '\'' :: '\'' :: '\'' :: rest => long? '\'' false rest
  | _ => shortString? text

def isBare (char : Char) : Bool :=
  char.isAlphanum || char = '-' || char = '_'

def simpleKey? (text : List Char) : Option (String × List Char) :=
  match text with
  | '"' :: _ => shortString? text
  | '\'' :: _ => shortString? text
  | _ =>
      let name := text.takeWhile isBare
      if name = [] then none else some (String.ofList name, text.dropWhile isBare)

def key? : Nat → List Char → Option (List String × List Char)
  | 0, _ => none
  | fuel + 1, text =>
      match simpleKey? (skipSpace text) with
      | none => none
      | some (name, rest) =>
          match skipSpace rest with
          | '.' :: rest => (key? fuel rest).map fun read => (name :: read.1, read.2)
          | rest => some ([name], rest)

/-- Digits of a kind, between which single underscores may stand. -/
def digitRun (kind : Char → Bool) : List Char → List Char × List Char
  | [] => ([], [])
  | [char] => if kind char then ([char], []) else ([], [char])
  | char :: next :: rest =>
      if kind char then
        match next, rest with
        | '_', follower :: _ =>
            if kind follower then
              let more := digitRun kind rest
              (char :: more.1, more.2)
            else ([char], next :: rest)
        | _, _ =>
            let more := digitRun kind (next :: rest)
            (char :: more.1, more.2)
      else ([], char :: next :: rest)

def isHex (char : Char) : Bool := (Json.hexValue? char).isSome

def isOctal (char : Char) : Bool := '0' ≤ char && char ≤ '7'

def isBinary (char : Char) : Bool := char = '0' || char = '1'

def inBase (base : Nat) (digits : List Char) : Nat :=
  digits.foldl (fun value char => value * base + (Json.hexValue? char).getD 0) 0

def integer? (value : Int) : Option Toml :=
  if -0x8000000000000000 ≤ value ∧ value < 0x8000000000000000 then some (.integer value) else none

def based? (base : Nat) (kind : Char → Bool) (text : List Char) : Option (Toml × List Char) :=
  let (digits, rest) := digitRun kind text
  if digits = [] then none
  else (integer? (inBase base digits)).map fun value => (value, rest)

/-- The whole part of a decimal number: a zero alone, or digits that start with no zero. -/
def wholePart (text : List Char) : List Char × List Char :=
  match text with
  | '0' :: rest => (['0'], rest)
  | _ => digitRun Char.isDigit text

def exponent? (text : List Char) : Option (Int × List Char) :=
  match text with
  | mark :: rest =>
      if mark = 'e' ∨ mark = 'E' then
        let (negative, rest) := match rest with
          | '+' :: rest => (false, rest)
          | '-' :: rest => (true, rest)
          | rest => (false, rest)
        let (digits, rest) := digitRun Char.isDigit rest
        if digits = [] then none
        else
          let size : Int := inBase 10 digits
          some (if negative then -size else size, rest)
      else none
  | [] => none

/-- A number with a point or an exponent. One that is too large is refused, unless negative. -/
def float? (negative : Bool) (digits : List Char) (exponent : Int) : Option Toml :=
  let value := Double.ofDecimal negative (inBase 10 digits) exponent
  if value.isInfinite ∧ !negative then none else some (.float value)

def decimal? (negative : Bool) (text : List Char) : Option (Toml × List Char) := do
  let (whole, rest) := wholePart text
  guard (whole ≠ [])
  let fraction := match rest with
    | '.' :: after =>
        let (digits, after) := digitRun Char.isDigit after
        if digits = [] then none else some (digits, after)
    | _ => none
  match fraction with
  | some (digits, rest) =>
      let (exponent, rest) := (exponent? rest).getD (0, rest)
      return (← float? negative (whole ++ digits) (exponent - digits.length), rest)
  | none =>
      match exponent? rest with
      | some (exponent, rest) => return (← float? negative whole exponent, rest)
      | none =>
          let size : Int := inBase 10 whole
          return (← integer? (if negative then -size else size), rest)

def special? (negative : Bool) : List Char → Option (Toml × List Char)
  | 'i' :: 'n' :: 'f' :: rest => some (.float (Double.infinity negative), rest)
  | 'n' :: 'a' :: 'n' :: rest => some (.float Double.nan, rest)
  | _ => none

def signed? (negative : Bool) (text : List Char) : Option (Toml × List Char) :=
  match special? negative text with
  | some read => some read
  | none => decimal? negative text

def number? : List Char → Option (Toml × List Char)
  | '0' :: 'x' :: rest => based? 16 isHex rest
  | '0' :: 'o' :: rest => based? 8 isOctal rest
  | '0' :: 'b' :: rest => based? 2 isBinary rest
  | '+' :: rest => signed? false rest
  | '-' :: rest => signed? true rest
  | text => signed? false text

def digits? (count : Nat) (text : List Char) : Option (Nat × List Char) :=
  let digits := text.take count
  if digits.length = count ∧ digits.all Char.isDigit then
    some (inBase 10 digits, text.drop count)
  else none

def daysIn (year month : Nat) : Nat :=
  if month = 2 then
    if year % 4 = 0 ∧ (year % 100 ≠ 0 ∨ year % 400 = 0) then 29 else 28
  else if month = 4 ∨ month = 6 ∨ month = 9 ∨ month = 11 then 30
  else 31

def padded (width value : Nat) : List Char :=
  let digits := (Nat.repr value).toList
  List.replicate (width - digits.length) '0' ++ digits

def date? (text : List Char) : Option (List Char × List Char) := do
  let (year, rest) ← digits? 4 text
  let rest ← Text.after? ['-'] rest
  let (month, rest) ← digits? 2 rest
  let rest ← Text.after? ['-'] rest
  let (day, rest) ← digits? 2 rest
  guard (1 ≤ month ∧ month ≤ 12 ∧ 1 ≤ day ∧ day ≤ daysIn year month)
  return (padded 4 year ++ '-' :: padded 2 month ++ '-' :: padded 2 day, rest)

/-- A fraction of a second keeps nine digits, and no zeros at its end. -/
def fraction (text : List Char) : List Char × List Char :=
  match text with
  | '.' :: after =>
      let digits := after.takeWhile Char.isDigit
      if digits = [] then ([], text)
      else
        let kept := Text.dropEnd (· = '0') (digits.take 9)
        (if kept = [] then [] else '.' :: kept, after.dropWhile Char.isDigit)
  | _ => ([], text)

def time? (text : List Char) : Option (List Char × List Char) := do
  let (hour, rest) ← digits? 2 text
  let rest ← Text.after? [':'] rest
  let (minute, rest) ← digits? 2 rest
  let rest ← Text.after? [':'] rest
  let (second, rest) ← digits? 2 rest
  guard (hour ≤ 23 ∧ minute ≤ 59 ∧ second ≤ 60)
  let (part, rest) := fraction rest
  return (padded 2 hour ++ ':' :: padded 2 minute ++ ':' :: padded 2 second ++ part, rest)

/-- An offset behind a time. One of no minutes is written with a plus. -/
def offset? (text : List Char) : Option (List Char × List Char) :=
  match text with
  | 'Z' :: rest => some (['Z'], rest)
  | 'z' :: rest => some (['Z'], rest)
  | sign :: rest =>
      if sign = '+' ∨ sign = '-' then do
        let (hour, rest) ← digits? 2 rest
        let rest ← Text.after? [':'] rest
        let (minute, rest) ← digits? 2 rest
        guard (hour ≤ 23 ∧ minute ≤ 59)
        let shown := if hour = 0 ∧ minute = 0 then '+' else sign
        return (shown :: padded 2 hour ++ ':' :: padded 2 minute, rest)
      else none
  | [] => none

/-- A date, a time, or a date and a time with or without an offset. -/
def moment? (text : List Char) : Option (Toml × List Char) := do
  match date? text with
  | none =>
      let (time, rest) ← time? text
      return (.moment (String.ofList time), rest)
  | some (date, rest) =>
      let clock := match rest with
        | mark :: after =>
            if mark = 'T' ∨ mark = 't' ∨ mark = ' ' then time? after else none
        | [] => none
      match clock with
      | none => return (.moment (String.ofList date), rest)
      | some (time, rest) =>
          match offset? rest with
          | some (offset, rest) =>
              return (.moment (String.ofList (date ++ 'T' :: time ++ offset)), rest)
          | none => return (.moment (String.ofList (date ++ 'T' :: time)), rest)

/-- Whether the text starts as a date or a time does and not as a number. -/
def looksTimed (text : List Char) : Bool :=
  let digits := text.takeWhile Char.isDigit
  match text.drop digits.length with
  | '-' :: _ => digits.length = 4
  | ':' :: _ => digits.length = 2
  | _ => false

def word? (text : List Char) : Option (Toml × List Char) :=
  match text with
  | 't' :: rest => (Text.after? ['r', 'u', 'e'] rest).map fun rest => (.boolean true, rest)
  | 'f' :: rest => (Text.after? ['a', 'l', 's', 'e'] rest).map fun rest => (.boolean false, rest)
  | _ => if looksTimed text then moment? text else number? text

end ManifestSearch.Toml
