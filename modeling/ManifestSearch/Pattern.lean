import ManifestSearch.Glob.Parser
import ManifestSearch.Glob.Shape
import ManifestSearch.Report
import ManifestSearch.Walk

/-!
What a declared pattern stands for. A pattern that names a file stands for that file. Any other
pattern is a glob, matched against the files below the directory that its plain segments lead to.
-/

namespace ManifestSearch

inductive Finding where
  | file (path : Path)
  | plain
  | malformed (glob : String) (reason : Glob.Reason)
  | noDirectory
  | matched (outcome : Except Failure (List Path))

namespace Finding

def outcome : Finding → Except Failure (List Path)
  | file path => .ok [path]
  | plain | malformed _ _ | noDirectory => .ok []
  | matched outcome => outcome

def events (pattern : String) : Finding → List Event
  | file _ | noDirectory | matched _ => []
  | plain => [.noFile pattern]
  | malformed glob reason => [.invalidPattern pattern glob reason]

end Finding

namespace Pattern

/-- The path that a pattern names below `base`, unless it starts at a root or a drive itself. -/
def anchor (base : Path) (pattern : String) : Path :=
  let path := Path.ofText pattern
  if path.isAbsolute then path else base.join pattern

/-- The file that a pattern names, wildcards taken as plain characters. -/
def literal? (disk : Disk) (base : Path) (pattern : String) : Option Path :=
  if disk.isFile (anchor base pattern).text then some (anchor base pattern) else none

def isWild (char : Char) : Bool :=
  char == '*' || char == '?' || char == '[' || char == '{'

/-- The segments in front of the last one, up to the first that has a wildcard in it. -/
def plainDirs (glob : List Char) : List (List Char) :=
  (Text.pieces '/' glob).dropLast.takeWhile fun segment => !segment.any isWild

/-- The directory below which all matches of a glob lie, relative to where the glob is. -/
def plainStart (glob : List Char) : List Char :=
  let start := Text.joined '/' (plainDirs glob)
  if start = [] ∧ glob.head? = some '/' then ['/'] else start

/-- A glob and the files that it is matched against: those below `start`, by their texts
relative to `base` if there is one. -/
structure Scope where
  glob : String
  start : Path
  base : Option Path

/-- A pattern anchored below `base` is matched relative to it, any other as it stands. -/
def scope (base anchored : Path) : Scope :=
  match anchored.relativeTo? base with
  | some glob => ⟨glob, base.join (String.ofList (plainStart glob.toList)), some base⟩
  | none =>
      let glob := anchored.text
      ⟨glob, Path.ofText (String.ofList (plainStart glob.toList)), none⟩

def Scope.subject? (scope : Scope) (file : Path) : Option String :=
  match scope.base with
  | some base => file.relativeTo? base
  | none => some file.text

def Scope.selects (scope : Scope) (tokens : List Glob.Token) (file : Path) : Bool :=
  match scope.subject? file with
  | some subject => Glob.isMatch tokens subject
  | none => false

def Scope.finding (scope : Scope) (disk : Disk) : Finding :=
  if !scope.glob.toList.any isWild then .plain
  else match Glob.parse scope.glob with
    | .error reason => .malformed scope.glob reason
    | .ok tokens =>
        if !disk.isDir scope.start.text then .noDirectory
        else .matched ((Walk.files { root := scope.start } disk).map fun files =>
          files.filter (scope.selects tokens))

def finding (disk : Disk) (base : Path) (pattern : String) : Finding :=
  match literal? disk base pattern with
  | some file => .file file
  | none => (scope base (anchor base pattern)).finding disk

def resolve (disk : Disk) (base : Path) (pattern : String) : Report (List Path) :=
  let found := finding disk base pattern
  ⟨found.outcome, .readingPattern pattern base :: found.events pattern⟩

def resolveEach (disk : Disk) (base : Path) : List String → Report (List Path)
  | [] => .ok []
  | pattern :: rest =>
      (resolve disk base pattern).bind fun found =>
        (resolveEach disk base rest).map (found ++ ·)

def resolveAll (disk : Disk) (base : Path) (patterns : List String) : Report (List Path) :=
  (resolveEach disk base patterns).map Text.distinct

end Pattern

end ManifestSearch
