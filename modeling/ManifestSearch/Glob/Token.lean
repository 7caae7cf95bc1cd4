/-!
The parts of a glob pattern, and why a text is none.
-/

namespace ManifestSearch.Glob

/-- `leadingDirs`, `innerDirs` and `allBelow` are the readings of two stars: any directories at
the start, any directories after a slash, and everything below. -/
inductive Token where
  | char (char : Char)
  | anyByte
  | anyRun
  | leadingDirs
  | innerDirs
  | allBelow
  | oneOf (negated : Bool) (ranges : List (Char × Char))
  | choice (branches : List (List Token))
deriving BEq, Inhabited

inductive Reason where
  | unclosedClass
  | invalidRange (low high : Char)
  | unopenedChoice
  | unclosedChoice
deriving DecidableEq

def Reason.text : Reason → String
  | unclosedClass => "unclosed character class; missing ']'"
  | invalidRange low high =>
      "invalid range; '" ++ low.toString ++ "' > '" ++ high.toString ++ "'"
  | unopenedChoice =>
      "unopened alternate group; missing '\x7b' (maybe escape '\x7d' with '[\x7d]'?)"
  | unclosedChoice =>
      "unclosed alternate group; missing '\x7d' (maybe escape '\x7b' with '[\x7b]'?)"

end ManifestSearch.Glob
