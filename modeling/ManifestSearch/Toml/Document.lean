import ManifestSearch.Toml.Scalar

/-!
Whole documents. A document is a list of sections, each a header and its keys; `ofSections?` puts
them together and refuses a key or a table that is defined twice.
-/

namespace ManifestSearch.Toml

/-- Arrays and tables in braces nest at most this deep, and a key has at most so many names. -/
def depthLimit : Nat := 79

abbrev Entries := List (String × Toml)

/-- Applies a change to the last item, which has to be a table. -/
def changeLast? (change : Entries → Option Entries) (items : List Toml) : Option (List Toml) :=
  match items.getLast? with
  | some (.table origin entries) =>
      (change entries).map fun entries => items.dropLast ++ [.table origin entries]
  | _ => none

/-- Assigns a value to a dotted key. `accepts` says whether the table at hand may take keys: the
open one and those that dotted keys opened may, those that headers name may not. -/
def assign? : List String → String → Toml → Bool → Entries → Option Entries
  | [], name, value, accepts, entries =>
      if !accepts ∨ Keyed.has name entries then none
      else some (Keyed.insert name value entries)
  | next :: path, name, value, _, entries =>
      match Keyed.get? next entries with
      | none =>
          (assign? path name value true []).map fun inner =>
            Keyed.insert next (.table .dotted inner) entries
      | some (.table .dotted inner) =>
          (assign? path name value true inner).map fun inner =>
            Keyed.insert next (.table .dotted inner) entries
      | some (.table .implied inner) =>
          (assign? path name value false inner).map fun inner =>
            Keyed.insert next (.table .implied inner) entries
      | some (.array true items) =>
          (changeLast? (assign? path name value false) items).map fun items =>
            Keyed.insert next (.array true items) entries
      | some _ => none

/-- Applies a change to the table that a header's path leads to, opening tables on the way. -/
def changeAt? (change : Entries → Option Entries) : List String → Entries → Option Entries
  | [], entries => change entries
  | next :: path, entries =>
      match Keyed.get? next entries with
      | none =>
          (changeAt? change path []).map fun inner =>
            Keyed.insert next (.table .implied inner) entries
      | some (.table .inline _) => none
      | some (.table origin inner) =>
          (changeAt? change path inner).map fun inner =>
            Keyed.insert next (.table origin inner) entries
      | some (.array true items) =>
          (changeLast? (changeAt? change path) items).map fun items =>
            Keyed.insert next (.array true items) entries
      | some _ => none

structure Pair where
  path : List String
  name : String
  value : Toml

def assignAll? (pairs : List Pair) (entries : Entries) : Option Entries :=
  pairs.foldlM (fun entries pair => assign? pair.path pair.name pair.value true entries) entries

/-- What opens a section: nothing for the first one, else the path and name in a header, whose
brackets are doubled for one more table of a list. -/
inductive Header where
  | top
  | single (path : List String) (name : String)
  | doubled (path : List String) (name : String)

structure Section where
  header : Header
  pairs : List Pair

/-- Adds a section. A table may be opened again by its header only if it was implied. -/
def Section.addTo? (part : Section) (document : Entries) : Option Entries :=
  match part.header with
  | .top => assignAll? part.pairs document
  | .single path name =>
      changeAt? (fun parent =>
        let held := match Keyed.get? name parent with
          | none => some []
          | some (.table .implied inner) => some inner
          | some _ => none
        held.bind fun inner => (assignAll? part.pairs inner).map fun inner =>
          Keyed.insert name (.table .stated inner) parent) path document
  | .doubled path name =>
      changeAt? (fun parent =>
        let held := match Keyed.get? name parent with
          | none => some []
          | some (.array true items) => some items
          | some _ => none
        held.bind fun items => (assignAll? part.pairs []).map fun inner =>
          Keyed.insert name (.array true (items ++ [.table .stated inner])) parent) path document

def ofSections? (sections : List Section) : Option Toml :=
  (sections.foldlM (fun document part => Section.addTo? part document) []).map (.table .stated)

def splitKey? (text : List Char) : Option (List String × String × List Char) :=
  match key? (text.length + 1) text with
  | none => none
  | some (names, rest) =>
      if names.length > depthLimit then none
      else names.getLast?.map fun name => (names.dropLast, name, rest)

mutual

def value? : Nat → Nat → List Char → Option (Toml × List Char)
  | 0, _, _ => none
  | fuel + 1, depth, text =>
      match text with
      | '[' :: rest =>
          match depth with
          | 0 => none
          | depth + 1 =>
              (itemsTo? fuel depth rest).map fun read => (.array false read.1, read.2)
      | '{' :: rest =>
          match depth with
          | 0 => none
          | depth + 1 =>
              let pairs := match skipSpace rest with
                | '}' :: rest => some ([], rest)
                | rest => pairsTo? fuel depth rest
              match pairs with
              | none => none
              | some (pairs, rest) =>
                  (assignAll? pairs []).map fun entries => (.table .inline entries, rest)
      | '"' :: _ => (quoted? text).map fun read => (.string read.1, read.2)
      | '\'' :: _ => (quoted? text).map fun read => (.string read.1, read.2)
      | _ => word? text

/-- The items up to the closing bracket; a comma may stand before it. -/
def itemsTo? : Nat → Nat → List Char → Option (List Toml × List Char)
  | 0, _, _ => none
  | fuel + 1, depth, text =>
      match skipFill? false text with
      | none => none
      | some (']' :: rest) => some ([], rest)
      | some text =>
          match value? fuel depth text with
          | none => none
          | some (item, rest) =>
              match skipFill? false rest with
              | some (',' :: rest) =>
                  (itemsTo? fuel depth rest).map fun read => (item :: read.1, read.2)
              | some (']' :: rest) => some ([item], rest)
              | _ => none

/-- The keys of a table in braces; there is at least one, and no comma before the brace. -/
def pairsTo? : Nat → Nat → List Char → Option (List Pair × List Char)
  | 0, _, _ => none
  | fuel + 1, depth, text =>
      match pair? fuel depth text with
      | none => none
      | some (pair, rest) =>
          match skipSpace rest with
          | ',' :: rest => (pairsTo? fuel depth rest).map fun read => (pair :: read.1, read.2)
          | '}' :: rest => some ([pair], rest)
          | _ => none

def pair? : Nat → Nat → List Char → Option (Pair × List Char)
  | 0, _, _ => none
  | fuel + 1, depth, text =>
      match splitKey? text with
      | some (path, name, '=' :: rest) =>
          (value? fuel depth (skipSpace rest)).map fun read => (⟨path, name, read.1⟩, read.2)
      | _ => none

end

def fuelFor (text : List Char) : Nat := 2 * text.length + 4

/-- The key in a header and what follows its closing brackets, up to the next line. -/
def header? (text : List Char) : Option (Header × List Char) :=
  match text with
  | '[' :: '[' :: rest =>
      match splitKey? rest with
      | some (path, name, ']' :: ']' :: rest) =>
          (lineEnd? rest).map fun rest => (.doubled path name, rest)
      | _ => none
  | '[' :: rest =>
      match splitKey? rest with
      | some (path, name, ']' :: rest) =>
          (lineEnd? rest).map fun rest => (.single path name, rest)
      | _ => none
  | _ => none

/-- One line of a document: a header, a key with its value, or nothing. -/
inductive Line where
  | header (header : Header)
  | pair (pair : Pair)

def lines? : Nat → List Char → Option (List Line)
  | 0, _ => none
  | fuel + 1, text =>
      match skipSpace text with
      | [] => some []
      | '[' :: rest =>
          match header? ('[' :: rest) with
          | none => none
          | some (header, rest) => (lines? fuel rest).map (.header header :: ·)
      | char :: rest =>
          if char = '#' ∨ char = '\n' ∨ char = '\r' then
            match lineEnd? (char :: rest) with
            | none => none
            | some rest => lines? fuel rest
          else
            let text := char :: rest
            match pair? (fuelFor text) depthLimit text with
            | none => none
            | some (pair, rest) =>
                match lineEnd? rest with
                | none => none
                | some rest => (lines? fuel rest).map (.pair pair :: ·)

def sections (current : Header) (pairs : List Pair) : List Line → List Section
  | [] => [⟨current, pairs⟩]
  | .pair pair :: rest => sections current (pairs ++ [pair]) rest
  | .header header :: rest => ⟨current, pairs⟩ :: sections header [] rest

/-- The table that a document describes. A byte order mark may stand in front. -/
def parse? (text : String) : Option Toml :=
  let chars := match text.toList with
    | '\ufeff' :: rest => rest
    | chars => chars
  match lines? (chars.length + 1) chars with
  | none => none
  | some lines => ofSections? (sections .top [] lines)

end ManifestSearch.Toml
