import ManifestSearch.Text.Pieces

/-!
Path texts as the file system reads them: a backslash is part of a name, and nothing is settled
beyond what joining and taking the parent need.
-/

namespace ManifestSearch

/-- Whether a text starts at the root whatever the working directory. -/
def startsAtRoot (text : String) : Bool := text.toList.head? = some '/'

namespace RawText

/-- Goes on from a text; a text that starts at the root stands for itself. -/
def join (base text : String) : String :=
  if startsAtRoot text ∨ base = "" then text
  else if base.toList.getLast? = some '/' then base ++ text
  else base ++ "/" ++ text

/-- Leaves out the pieces at the end that name no step. -/
def settleEnd (rooted : Bool) (reversed : List (List Char)) : List (List Char) :=
  match reversed with
  | [] => []
  | piece :: before =>
      if piece = [] ∨ (piece = ['.'] ∧ (rooted ∨ before ≠ [])) then settleEnd rooted before
      else piece :: before

def parent? (text : String) : Option String :=
  let rooted := startsAtRoot text
  let body := if rooted then text.toList.tail else text.toList
  match settleEnd rooted (Text.pieces '/' body).reverse with
  | [] => none
  | _ :: before =>
      let body := Text.joined '/' (settleEnd rooted before).reverse
      some (String.ofList (if rooted then '/' :: body else body))

def ancestors : Nat → String → List String
  | 0, _ => []
  | fuel + 1, text =>
      if text = "" then []
      else text :: match parent? text with
        | none => []
        | some above => ancestors fuel above

end RawText

end ManifestSearch
