import ManifestSearch.Path

/-!
Which files a generated manifest lists. A selector also names directories that hold no file it
selects, so that the search need not enter them.
-/

namespace ManifestSearch

structure Selector where
  selects : Path → Bool
  skippedDirs : List String := []

namespace Selector

/-- Files with one of the extensions, outside directories with one of the excluded names. -/
def byExtension (extensions excluded : List String) : Selector where
  selects path :=
    match path.extension? with
    | none => false
    | some extension =>
        extension ∈ extensions && !excluded.any fun dir => path.hasSegment dir
  skippedDirs := excluded

def standard : Selector := byExtension ["ts", "tsx"] ["node_modules"]

def byName (names : List String) : Selector where
  selects path :=
    match path.fileName? with
    | none => false
    | some name => name ∈ names

def everything : Selector where
  selects _ := true

end Selector

end ManifestSearch
