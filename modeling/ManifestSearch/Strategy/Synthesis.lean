import ManifestSearch.Convention
import ManifestSearch.Manifest
import ManifestSearch.Selector
import ManifestSearch.Strategy
import ManifestSearch.TempFolder
import ManifestSearch.Walk

/-!
A generated manifest that lists every selected file. The files are listed before the manifest is
written, so that it never lists itself.
-/

namespace ManifestSearch

structure Synthesis where
  folder : TempFolder
  selector : Selector
  options : Keyed Json := []
  /-- What stands before and after the random part of a generated name. -/
  affixes : String × String := Convention.standard.affixes

namespace Synthesis

def namedAfter (synthesis : Synthesis) (convention : Convention) : Synthesis :=
  { synthesis with affixes := convention.affixes }

def selected (synthesis : Synthesis) (disk : Disk) (base : Path) : Except Failure (List Path) :=
  (Walk.files ⟨base, synthesis.selector.skippedDirs⟩ disk).map fun files =>
    files.filter synthesis.selector.selects

def write (synthesis : Synthesis) (files : List Path) (world : World) : Reply World :=
  let manifest := Manifest.ofPaths files synthesis.options
  match synthesis.folder.writeNew synthesis.affixes.1 synthesis.affixes.2 manifest.text world with
  | (.error failure, world) => ⟨.fail failure, world⟩
  | (.ok path, world) => ⟨⟨.ok [path], [.generated path files.length]⟩, world⟩

def run (synthesis : Synthesis) (context : Context) (world : World) : Reply World :=
  if !context.mode.allowsTempFiles then ⟨⟨.ok [], [.noTempFiles context.mode]⟩, world⟩
  else match synthesis.selected world.disk context.base with
    | .error failure => ⟨.fail failure, world⟩
    | .ok files => synthesis.write files world

def strategy (synthesis : Synthesis) : Strategy World where
  name := "synthesis"
  run := synthesis.run

end Synthesis

end ManifestSearch
