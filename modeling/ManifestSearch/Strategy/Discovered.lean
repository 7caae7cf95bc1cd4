import ManifestSearch.Convention
import ManifestSearch.Strategy
import ManifestSearch.Tree.World
import ManifestSearch.Walk

/-!
Manifests that are found by their name. Nothing inside an excluded directory is found, and
nothing at all if the search starts inside one.
-/

namespace ManifestSearch.Discovered

structure Target where
  fileName : String
  excluded : String
deriving DecidableEq

def targetOf (convention : Convention) : Target :=
  ⟨convention.fileName, convention.excludedDir⟩

def Target.isNameOf (target : Target) (file : Path) : Bool :=
  file.fileName? == some target.fileName

def search (target : Target) (disk : Disk) (context : Context) : Report (List Path) :=
  if context.base.hasSegment target.excluded then
    ⟨.ok [], [.excludedBase context.base target.excluded]⟩
  else
    (Report.ofExcept (Walk.files ⟨context.base, [target.excluded]⟩ disk)).bind fun files =>
      let found := files.filter target.isNameOf
      ⟨.ok found, [.foundNamed target.fileName found]⟩

def strategy (convention : Convention) : Strategy World :=
  .observing "discovery" fun context world => search (targetOf convention) world.disk context

end ManifestSearch.Discovered
