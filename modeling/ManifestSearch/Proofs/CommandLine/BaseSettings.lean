import ManifestSearch.CommandLine.Search
import ManifestSearch.Proofs.Tree.Settling

/-!
Which settings a search starts from. The file of the settings is looked up in the directory that the
argument names as the file system reads it, and the search goes through the directory of the settled
path. They are the same directory if the argument takes back only segments that are directories by
themselves; `..` behind a link leads elsewhere.
-/

namespace ManifestSearch

variable {disk : Disk} {left right content : String} {config : Config} {context : Context}

theorem Disk.node_congr {throughLast : Bool}
    (same : disk.reach throughLast left = disk.reach throughLast right) :
    disk.node throughLast left = disk.node throughLast right := by
  rw [node, node, same]

namespace Config

theorem load_toOption (disk : Disk) (place : String) :
    (load disk place).outcome.toOption = (disk.read place).toOption.bind parse? := by
  rw [load]
  cases disk.read place with
  | error fault => rfl
  | ok content =>
      simp only [Except.toOption, Option.bind_some]
      cases parse? content with
      | none => rfl
      | some config => rfl

/-- What is read for the settings depends on where their file is, and only a failure shows the
text. -/
theorem discover_congr (same : disk.reach true (RawText.join left fileName) =
      disk.reach true (RawText.join right fileName)) :
    (discover disk left).outcome.toOption = (discover disk right).outcome.toOption := by
  have node := Disk.node_congr same
  have file : disk.isFile (RawText.join left fileName) = disk.isFile (RawText.join right fileName) := by
    rw [Disk.isFile, Disk.isFile, node]
  have read : disk.read (RawText.join left fileName) = disk.read (RawText.join right fileName) := by
    rw [Disk.read, Disk.read, node]
  simp only [discover, file]
  split
  · rw [load_toOption, load_toOption, read]
  · rfl

theorem discover_of_file (found : disk.node true (RawText.join left fileName) =
      .ok (.leaf (.file content))) :
    (discover disk left).outcome.toOption = parse? content := by
  have file : disk.isFile (RawText.join left fileName) := by simp [Disk.isFile, found]
  have read : disk.read (RawText.join left fileName) = .ok content := by simp [Disk.read, found]
  simp only [discover, if_pos file, load_toOption, read]
  rfl

theorem isEntryName_fileName : IsEntryName fileName := by decide +kernel

end Config

namespace CommandLine.Arguments

variable {arguments : Arguments}

/-- Without a file of its own, the search starts from the settings in the directory that it goes
through. -/
theorem baseConfig_of_context (sound : disk.Sound) (unset : arguments.config? = none)
    (started : config.context disk arguments.base = .ok context)
    (free : '\\' ∉ disk.fromHere arguments.base) (noNul : '\x00' ∉ arguments.base.toList)
    (retraces : Disk.Retraces disk.root (disk.standing arguments.base).reverse
      (Text.pieces '/' arguments.base.toList))
    (short : (RawText.join arguments.base Config.fileName).utf8ByteSize < Disk.pathLimit)
    (shortBase : (RawText.join context.base.text Config.fileName).utf8ByteSize < Disk.pathLimit) :
    disk.reach true (RawText.join arguments.base Config.fileName) =
        disk.reach true (RawText.join context.base.text Config.fileName) ∧
      (arguments.baseConfig disk).outcome.toOption =
        (Config.discover disk context.base.text).outcome.toOption ∧
      ∀ inside content, disk.node true context.base.text = .ok (.dir inside) →
        inside.find? Config.fileName = some (.leaf (.file content)) →
        (arguments.baseConfig disk).outcome.toOption = Config.parse? content := by
  have read : disk.absolute arguments.base = .ok context.base := by
    simp only [Config.context, Context.at?] at started
    split at started
    · rename_i base read
      cases started
      exact read
    · contradiction
  have name := Config.isEntryName_fileName
  have same := Disk.reach_absolute true sound read free noNul retraces name.segment name.noNul short
    shortBase
  have looked : arguments.baseConfig disk = Config.discover disk arguments.base := by
    rw [baseConfig, unset]
  have discovered := Config.discover_congr same
  rw [looked]
  refine ⟨same, discovered, fun inside content there held => ?_⟩
  obtain ⟨start, spelling⟩ := Disk.absolute_spelled sound read free
  have entry : inside.at? [Config.fileName] = some (.leaf (.file content)) := by
    rw [Listing.at?_singleton, held]
  have node : disk.node true (RawText.descend context.base.text [Config.fileName]) =
      .ok (.leaf (.file content)) :=
    Disk.node_descend spelling there (by simp)
      (fun other member => List.mem_singleton.mp member ▸ name) shortBase entry (by simp)
  rw [discovered]
  exact Config.discover_of_file node

def settledListing : Listing :=
  .leaf "link" (.link "p/q") (.dir "p"
    (.leaf "manifest-resolver.toml" (.file "mode = \"restricted\"\n") (.dir "q" .nil .nil)) .nil)

def settledDisk : Disk := ⟨.dir "w" settledListing .nil, ["w"], false⟩

theorem baseConfig_of_context_above :
    let arguments : Arguments := { base? := some "p/q/.." }
    Config.standard.context settledDisk arguments.base = .ok { base := ⟨"/w/p"⟩ } ∧
      (arguments.baseConfig settledDisk).outcome.toOption =
        (Config.discover settledDisk "/w/p").outcome.toOption ∧
      (arguments.baseConfig settledDisk).outcome.toOption =
        Config.parse? "mode = \"restricted\"\n" := by
  intro arguments
  have started : Config.standard.context settledDisk arguments.base =
      .ok { base := ⟨"/w/p"⟩ } := by decide +kernel
  have settings := baseConfig_of_context (by decide +kernel) rfl started (by decide +kernel)
    (by decide +kernel) (by decide +kernel) (by decide +kernel) (by decide +kernel)
  have there : settledDisk.node true "/w/p" = .ok (.dir (.leaf "manifest-resolver.toml"
      (.file "mode = \"restricted\"\n") (.dir "q" .nil .nil))) := by decide +kernel
  exact ⟨started, settings.2.1, settings.2.2 _ _ there (by decide +kernel)⟩

/-- Behind a link, `..` leads to the directory that holds what the link leads to, and its settings
are taken for a search of another one. -/
example :
    let arguments : Arguments := { base? := some "link/.." }
    (arguments.baseConfig settledDisk).outcome.map Config.mode = .ok .restricted ∧
      Config.standard.context settledDisk arguments.base = .ok { base := ⟨"/w"⟩ } ∧
      (Config.discover settledDisk "/w").outcome.map Config.mode = .ok .standard := by
  decide +kernel

end CommandLine.Arguments

end ManifestSearch
