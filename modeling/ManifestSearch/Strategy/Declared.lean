import ManifestSearch.Convention
import ManifestSearch.Pattern
import ManifestSearch.Strategy
import ManifestSearch.Tree.World

/-!
Manifests that a property declares. The alias counts only if the key is not declared at all.
-/

namespace ManifestSearch.Declared

structure Keys where
  key : String
  keyAlias : String
deriving DecidableEq

def keysOf (convention : Convention) : Keys :=
  ⟨convention.propertyKey, convention.propertyAlias⟩

def Keys.selected? (keys : Keys) (properties : Properties) : Option String :=
  if properties.hasKey keys.key then some keys.key
  else if properties.hasKey keys.keyAlias then some keys.keyAlias
  else none

def Keys.events (keys : Keys) (properties : Properties) : List Event :=
  if properties.hasKey keys.key ∧ properties.hasKey keys.keyAlias then
    [.bothKeys keys.key keys.keyAlias]
  else []

def search (keys : Keys) (disk : Disk) (context : Context) : Report (List Path) :=
  match keys.selected? context.properties with
  | none => .ok []
  | some key =>
      let patterns := Text.distinct ((context.properties.get? key).getD [])
      let report := (Pattern.resolveAll disk context.base patterns).bind fun files =>
        ⟨.ok files, [.foundDeclared files]⟩
      report.after (keys.events context.properties ++ [.readingProperty key patterns])

def strategy (convention : Convention) : Strategy World :=
  .observing "property" fun context world => search (keysOf convention) world.disk context

end ManifestSearch.Declared
