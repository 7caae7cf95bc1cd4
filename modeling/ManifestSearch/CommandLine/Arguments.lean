/-!
What a command line asks for. Arguments are read in order, and the first that cannot stand, or
that asks for help or the version, ends the reading.
-/

namespace ManifestSearch.CommandLine

structure Arguments where
  base? : Option String := none
  config? : Option String := none
  properties : List String := []
  restricted : Bool := false
  noSynthesis : Bool := false
  extensions : List String := []
  options : List String := []
  tempDir? : Option String := none
  json : Bool := false
  verbose : Bool := false
deriving DecidableEq

/-- Without an argument the search starts in the working directory. -/
def Arguments.base (arguments : Arguments) : String := arguments.base?.getD "."

inductive Halt where
  | usage
  | help
  | version
deriving DecidableEq

inductive Valued where
  | config
  | property
  | extension
  | compilerOption
  | tempDir
deriving DecidableEq

inductive Flag where
  | restricted
  | noSynthesis
  | json
  | verbose
deriving DecidableEq

inductive Switch where
  | valued (option : Valued)
  | flag (flag : Flag)
  | halt (reason : Halt)
deriving DecidableEq

namespace Switch

def ofLong? (name : String) : Option Switch :=
  match name with
  | "config" => some (.valued .config)
  | "property" => some (.valued .property)
  | "extension" => some (.valued .extension)
  | "option" => some (.valued .compilerOption)
  | "temp-dir" => some (.valued .tempDir)
  | "restricted" => some (.flag .restricted)
  | "no-synthesis" => some (.flag .noSynthesis)
  | "json" => some (.flag .json)
  | "verbose" => some (.flag .verbose)
  | "help" => some (.halt .help)
  | "version" => some (.halt .version)
  | _ => none

def ofShort? (letter : Char) : Option Switch :=
  match letter with
  | 'c' => some (.valued .config)
  | 'D' => some (.valued .property)
  | 'e' => some (.valued .extension)
  | 'o' => some (.valued .compilerOption)
  | 'v' => some (.flag .verbose)
  | 'h' => some (.halt .help)
  | 'V' => some (.halt .version)
  | _ => none

end Switch

namespace Arguments

/-- Fills a place that holds one text at most, and no empty one. -/
def fill (place : Option String) (value : String) : Except Halt (Option String) :=
  if place.isSome ∨ value = "" then .error .usage else .ok (some value)

/-- Sets a flag that is not set yet. -/
def raise (flag : Bool) : Except Halt Bool := if flag then .error .usage else .ok true

def withValue (arguments : Arguments) (option : Valued) (value : String) :
    Except Halt Arguments :=
  match option with
  | .config => (fill arguments.config? value).map fun place => { arguments with config? := place }
  | .tempDir =>
      (fill arguments.tempDir? value).map fun place => { arguments with tempDir? := place }
  | .property => .ok { arguments with properties := arguments.properties ++ [value] }
  | .extension => .ok { arguments with extensions := arguments.extensions ++ [value] }
  | .compilerOption => .ok { arguments with options := arguments.options ++ [value] }

def withFlag (arguments : Arguments) (flag : Flag) : Except Halt Arguments :=
  match flag with
  | .restricted =>
      (raise arguments.restricted).map fun raised => { arguments with restricted := raised }
  | .noSynthesis =>
      (raise arguments.noSynthesis).map fun raised => { arguments with noSynthesis := raised }
  | .json => (raise arguments.json).map fun raised => { arguments with json := raised }
  | .verbose => (raise arguments.verbose).map fun raised => { arguments with verbose := raised }

def withBase (arguments : Arguments) (value : String) : Except Halt Arguments :=
  (fill arguments.base? value).map fun place => { arguments with base? := place }

end Arguments

/-- How far the reading has come: what it has read, the option that waits for its value, and
whether a lone `--` has ended the options. -/
structure Reading where
  arguments : Arguments := {}
  waiting : Option Valued := none
  ended : Bool := false

namespace Reading

def attach (reading : Reading) (option : Valued) (value : String) : Except Halt Reading :=
  (reading.arguments.withValue option value).map fun arguments =>
    { reading with arguments, waiting := none }

def raise (reading : Reading) (flag : Flag) : Except Halt Reading :=
  (reading.arguments.withFlag flag).map fun arguments => { reading with arguments }

/-- Reads `--name` or `--name=value`; no flag takes a value. -/
def takeLong (reading : Reading) (name : String) (value : Option String) :
    Except Halt Reading :=
  match Switch.ofLong? name, value with
  | some (.valued option), none => .ok { reading with waiting := some option }
  | some (.valued option), some value => reading.attach option value
  | some (.flag flag), none => reading.raise flag
  | some (.halt reason), none => .error reason
  | _, _ => .error .usage

/-- Reads the letters behind one dash. What stands behind an option that takes a value is its
value, an equals sign in front of it left out. -/
def takeShort (reading : Reading) : List Char → Except Halt Reading
  | [] => .ok reading
  | letter :: rest =>
      match Switch.ofShort? letter with
      | none => .error .usage
      | some (.halt reason) => .error reason
      | some (.flag flag) =>
          match reading.raise flag with
          | .error reason => .error reason
          | .ok reading => reading.takeShort rest
      | some (.valued option) =>
          match rest with
          | [] => .ok { reading with waiting := some option }
          | '=' :: value => reading.attach option (String.ofList value)
          | value => reading.attach option (String.ofList value)

def cutLong : List Char → List Char × Option (List Char)
  | [] => ([], none)
  | char :: rest =>
      if char = '=' then ([], some rest)
      else ((char :: (cutLong rest).1), (cutLong rest).2)

/-- Reads one argument. A value of its own does not start with a dash, unless it is a dash. -/
def take (reading : Reading) (text : String) : Except Halt Reading :=
  let positional :=
    (reading.arguments.withBase text).map fun arguments => { reading with arguments }
  if reading.ended then positional
  else match reading.waiting, text.toList with
    | some option, '-' :: _ =>
        if text = "-" then reading.attach option text else .error .usage
    | some option, _ => reading.attach option text
    | none, ['-', '-'] => .ok { reading with ended := true }
    | none, '-' :: '-' :: long =>
        let cut := cutLong long
        reading.takeLong (String.ofList cut.1) (cut.2.map String.ofList)
    | none, '-' :: letter :: letters => reading.takeShort (letter :: letters)
    | none, _ => positional

def takeAll (reading : Reading) : List String → Except Halt Reading
  | [] => .ok reading
  | text :: rest =>
      match reading.take text with
      | .error reason => .error reason
      | .ok reading => reading.takeAll rest

def finish (reading : Reading) : Except Halt Arguments :=
  match reading.waiting with
  | some _ => .error .usage
  | none => .ok reading.arguments

end Reading

def Arguments.withEnvironment (arguments : Arguments) (tempDir : Option String) :
    Except Halt Arguments :=
  match arguments.tempDir?, tempDir with
  | none, some value => arguments.withValue .tempDir value
  | _, _ => .ok arguments

/-- Reads the arguments of a command line; `tempDir` is what the environment says about the
directory for generated manifests. -/
def parse (tempDir : Option String) (texts : List String) : Except Halt Arguments :=
  match Reading.takeAll {} texts with
  | .error reason => .error reason
  | .ok reading =>
      match reading.finish with
      | .error reason => .error reason
      | .ok arguments => arguments.withEnvironment tempDir

end ManifestSearch.CommandLine
