import ManifestSearch.CommandLine.Search

/-!
A whole run of the program: from its arguments and its surroundings to what it prints and how it
exits.
-/

namespace ManifestSearch.CommandLine

structure Environment where
  systemTemp : String
  tempDir : Option String := none

inductive Ending where
  | halted (reason : Halt)
  | failed (failure : Failure)
  | printed (text : String)
deriving DecidableEq

structure ProgramRun where
  ending : Ending
  verbose : Bool := false
  events : List Event := []
  world : World

namespace Ending

def versionText : String := "manifest-resolve 0.1.0\n"

def helpText : String :=
  String.intercalate "\n" [
    "Resolve the project manifests an analyzer should load for a directory",
    "",
    "Usage: manifest-resolve [OPTIONS] [BASE_DIR]",
    "",
    "  -c, --config <FILE>         Config file",
    "  -D, --property <KEY=VALUE>  Set a property",
    "      --restricted            Never generate a manifest",
    "      --no-synthesis          Stop after discovery",
    "  -e, --extension <EXT>       Source extension for generated manifests",
    "  -o, --option <KEY=VALUE>    Compiler option for generated manifests",
    "      --temp-dir <DIR>        Directory receiving generated manifests",
    "      --json                  Output as a JSON array",
    "  -v, --verbose               Enable verbose output",
    "  -h, --help                  Print help",
    "  -V, --version               Print version",
    ""]

def exit : Ending → UInt8
  | halted .usage => 2
  | halted _ | printed _ => 0
  | failed _ => 1

def stdout : Ending → String
  | halted .help => helpText
  | halted .version => versionText
  | halted .usage | failed _ => ""
  | printed text => text

def stderr : Ending → String
  | halted .usage => "error: invalid arguments; for more information, try '--help'."
  | halted _ | printed _ => ""
  | failed failure => "error: " ++ failure.message

end Ending

namespace ProgramRun

/-- The events that are shown: all of them, or without `verbose` those that matter most. -/
def shownEvents (run : ProgramRun) : List Event :=
  run.events.filter fun event => run.verbose || event.level ≠ .debug

def generated (run : ProgramRun) : List (Path × String) :=
  run.events.filterMap fun event =>
    match event with
    | .generated path _ =>
        match run.world.disk.read path.text with
        | .ok content => some (path, content)
        | .error _ => none
    | _ => none

end ProgramRun

def program (environment : Environment) (texts : List String) (world : World) : ProgramRun :=
  match parse environment.tempDir texts with
  | .error reason => { ending := .halted reason, world }
  | .ok arguments =>
      let reply := arguments.run environment.systemTemp world
      let ending : Ending := match reply.report.outcome with
        | .error failure => .failed failure
        | .ok files => .printed (render arguments.json files)
      { ending
        verbose := arguments.verbose
        events := .verbose :: reply.report.events
        world := reply.state }

end ManifestSearch.CommandLine
