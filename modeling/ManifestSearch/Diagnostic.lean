import ManifestSearch.Strategy.Synthesis
import ManifestSearch.Text.Quoted

/-!
How values look in diagnostics.
-/

namespace ManifestSearch

namespace Json

mutual

def shown : Json → String
  | .null => "Null"
  | .bool true => "Bool(true)"
  | .bool false => "Bool(false)"
  | .number value => "Number(" ++ String.ofList value.print ++ ")"
  | .string value => "String(" ++ Text.quoted value ++ ")"
  | .array items => "Array [" ++ Text.listed (shownItems items) ++ "]"
  | .object members => "Object \x7b" ++ Text.listed (shownMembers members) ++ "\x7d"

def shownItems : List Json → List String
  | [] => []
  | item :: rest => shown item :: shownItems rest

def shownMembers : List (String × Json) → List String
  | [] => []
  | (name, value) :: rest => (Text.quoted name ++ ": " ++ shown value) :: shownMembers rest

end

end Json

def Synthesis.shown (synthesis : Synthesis) : String :=
  "SynthesisStrategy \x7b folder: NormalizedPath \x7b inner: " ++
    Text.quoted synthesis.folder.dir.text ++ " \x7d, compiler_options: \x7b" ++
    Text.listed (Json.shownMembers synthesis.options) ++ "\x7d, prefix: " ++
    Text.quoted synthesis.affixes.1 ++ ", suffix: " ++ Text.quoted synthesis.affixes.2 ++
    ", .. \x7d"

def Walk.shown (walk : Walk) : String :=
  "Files \x7b root: " ++ Text.quoted walk.root.text ++ " \x7d"

end ManifestSearch
