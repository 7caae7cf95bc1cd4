import ManifestSearch.CommandLine.Program

/-!
The program. It takes a picture of the part of the file system that a search can see, runs the
search on the picture, and then makes the manifests that the search made there.
-/

namespace ManifestSearch.Picture

/-- What a name stands for, files without their contents. A link is pictured as leading straight
to its end, and one that leads nowhere as leading to itself. -/
partial def node (place : String) : IO Node := do
  let path := (← IO.currentDir) / place
  match (← path.symlinkMetadata).type with
  | .dir =>
      let mut listing := Listing.nil
      for entry in ← path.readDir do
        let inside ← node (RawText.join place entry.fileName)
        listing := listing.put entry.fileName inside
      return .dir listing
  | .symlink =>
      try return .leaf (.link (← IO.FS.realPath path).toString)
      catch _ => return .leaf (.link place)
  | _ => return .leaf (.file "")

def linkEnds : Listing → List String
  | .nil => []
  | .leaf _ (.link target) rest => target :: linkEnds rest
  | .leaf _ (.file _) rest => linkEnds rest
  | .dir _ inside rest => linkEnds inside ++ linkEnds rest

/-- Adds what is found at a place, and the links and directories on the way to it. -/
partial def withPlace (disk : Disk) (place : String) : IO Disk := do
  let mut disk := disk
  for text in (RawText.ancestors (place.length + 1) place).reverse do
    if !disk.found text then
      let path := (← IO.currentDir) / text
      let kind ← try pure (some (← path.symlinkMetadata).type) catch _ => pure none
      match kind with
      | none => return disk
      | some .dir => disk := (disk.makeDirs text).2
      | some .symlink =>
          let target ← try pure (← IO.FS.realPath path).toString catch _ => pure text
          if target ≠ text then disk ← withPlace disk target
          disk := (disk.link text target).toOption.getD disk
      | some _ =>
          let content ← try IO.FS.readFile path catch _ => pure ""
          disk := (disk.write text content).toOption.getD disk
  return disk

def withTree (disk : Disk) (place : String) : IO Disk := do
  let disk ← withPlace disk place
  match disk.isDir place, disk.reach true place with
  | true, .ok (.taken location) =>
      let path ← IO.FS.realPath ((← IO.currentDir) / place)
      match ← node path.toString with
      | .leaf _ => return disk
      | .dir listing =>
          let whole := { disk with root := disk.root.change (fun _ => listing) location }
          (linkEnds listing).foldlM withPlace whole
  | _, _ => return disk

def settingsPlace (arguments : CommandLine.Arguments) : String :=
  arguments.config?.getD (RawText.join arguments.base Config.fileName)

def withSettings (disk : Disk) (arguments : CommandLine.Arguments) : IO Disk := do
  let place := settingsPlace arguments
  let disk ← withPlace disk place
  if disk.isFile place then
    let content ← try IO.FS.readFile ((← IO.currentDir) / place) catch _ => pure ""
    return (disk.write place content).toOption.getD disk
  else return disk

def patternStarts (disk : Disk) (arguments : CommandLine.Arguments) : List String :=
  match (arguments.config disk).outcome, disk.absolute arguments.base with
  | .ok config, .ok base =>
      let patterns := config.properties.entries.flatMap Prod.snd
      patterns.flatMap fun pattern =>
        let anchored := Pattern.anchor base pattern
        [anchored.text, (Pattern.scope base anchored).start.text]
  | _, _ => []

def take (environment : CommandLine.Environment) (texts : List String) : IO Disk := do
  let here := Step.ofText (← IO.currentDir).toString
  let names := here.filterMap fun step =>
    match step with
    | .into name => some name
    | _ => none
  let start ← withPlace { root := .nil, here := names } (← IO.currentDir).toString
  match CommandLine.parse environment.tempDir texts with
  | .error _ => return start
  | .ok arguments =>
      let folder := arguments.tempDir?.getD environment.systemTemp
      let base := match start.absolute arguments.base with
        | .ok path => path.text
        | .error _ => arguments.base
      let seen ← withSettings (← withPlace start folder) arguments
      let seen ← (base :: patternStarts seen arguments).foldlM
        (fun disk place => do if disk.isFile place then return disk else withTree disk place) seen
      withSettings seen arguments

end ManifestSearch.Picture

namespace ManifestSearch

def Tag.drawSupply : IO (Nat → Tag) := do
  let mut tags : List Tag := []
  for _ in [0:64] do
    let value ← IO.rand 0 (Nat.pow 62 6 - 1)
    let place (index : Nat) : Fin 62 := ⟨value / Nat.pow 62 index % 62, Nat.mod_lt _ (by decide)⟩
    tags := ⟨[place 0, place 1, place 2, place 3, place 4, place 5], rfl⟩ :: tags
  let drawn := tags
  return fun index => drawn.getD index default

namespace CommandLine

/-- Makes what a run has made and prints what it prints; the answer is the exit code. -/
def ProgramRun.carryOut (run : ProgramRun) : IO UInt32 := do
  for event in run.shownEvents do
    IO.eprintln event.line
  for (path, content) in run.generated do
    if let some above := path.parent? then IO.FS.createDirAll above.text
    let file ← IO.FS.Handle.mk path.text .writeNew
    file.putStr content
  IO.print run.ending.stdout
  if run.ending.stderr ≠ "" then IO.eprintln run.ending.stderr
  return run.ending.exit.toUInt32

end CommandLine

end ManifestSearch

open ManifestSearch in
def main (texts : List String) : IO UInt32 := do
  let environment : CommandLine.Environment := {
    systemTemp := (← IO.getEnv "TMPDIR").getD "/tmp"
    tempDir := ← IO.getEnv "MANIFEST_RESOLVER_TEMP_DIR" }
  let disk ← Picture.take environment texts
  (CommandLine.program environment texts ⟨disk, ← Tag.drawSupply⟩).carryOut
