import ManifestSearch.Json.Printer
import ManifestSearch.Json.Reader
import ManifestSearch.Path

/-!
Generated manifests: a list of files and the options of the compiler, written as one object with
the members `files` and `compilerOptions`. `read?` accepts what `print` writes, and more.
-/

namespace ManifestSearch

structure Manifest where
  files : List String
  options : Keyed Json
deriving BEq

namespace Manifest

def ofPaths (paths : List Path) (options : Keyed Json) : Manifest :=
  ⟨paths.map Path.text, options⟩

/-- The text of a manifest, `files` first. -/
def print (manifest : Manifest) : List Char :=
  '{' :: Json.printMembers [("files", Json.strings manifest.files),
    ("compilerOptions", .object manifest.options)]

def text (manifest : Manifest) : String := String.ofList manifest.print

/-- The manifest stands one level above its members. -/
def memberDepth : Nat := Json.depthLimit - 1

def files? (text : List Char) : Option (List String) :=
  match Json.parseWithin? memberDepth text with
  | some (.array items) => items.mapM fun item =>
      match item with
      | .string file => some file
      | _ => none
  | _ => none

def options? (text : List Char) : Option (Keyed Json) :=
  match Json.parseWithin? memberDepth text with
  | some (.object members) => some members
  | _ => none

def only? (name : String) (members : List (String × List Char)) : Option (List Char) :=
  match members.filter fun member => member.1 = name with
  | [(_, text)] => some text
  | _ => none

/-- Reads a manifest from an object, where members of other names are passed over, or from a
list of the two fields. -/
def read? (text : String) : Option Manifest :=
  match Json.outline? text with
  | some (.members members) => do
      let files ← (only? "files" members).bind files?
      let options ← (only? "compilerOptions" members).bind options?
      return ⟨files, options⟩
  | some (.items [files, options]) => do
      return ⟨← files? files, ← options? options⟩
  | _ => none

end Manifest

end ManifestSearch
