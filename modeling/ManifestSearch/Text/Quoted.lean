import ManifestSearch.Text.Pieces
import ManifestSearch.Text.Printable

/-!
Text in quotes as diagnostics show it: what cannot be seen is written as an escape.
-/

namespace ManifestSearch.Text

def hexDigits (value : Nat) : List Char := Nat.toDigits 16 value

def shown (char : Char) : List Char :=
  match char with
  | '\x00' => ['\\', '0']
  | '\t' => ['\\', 't']
  | '\r' => ['\\', 'r']
  | '\n' => ['\\', 'n']
  | '"' => ['\\', '"']
  | '\\' => ['\\', '\\']
  | _ =>
      if isPrintable char then [char]
      else '\\' :: 'u' :: '{' :: (hexDigits char.toNat ++ ['}'])

def quoted (text : String) : String :=
  String.ofList ('"' :: (text.toList.flatMap shown ++ ['"']))

def listed (texts : List String) : String := String.intercalate ", " texts

def quotedList (texts : List String) : String := "[" ++ listed (texts.map quoted) ++ "]"

end ManifestSearch.Text
