import ManifestSearch.Glob.Token

/-!
Reading a glob, one character after another. Two stars mean different things by what stands
around them, so stars wait for the character behind them.
-/

namespace ManifestSearch.Glob

/-- An open group of braces: the branch it stands in, and its finished branches. Lists are held
with their last item first. -/
structure Group where
  outer : List Token
  finished : List (List Token)

/-- An open class in brackets. `fresh` says that a mark of negation may follow, `first` that
nothing but such a mark has been read, and `dashed` that a dash waits for the end of its range. -/
structure Bracket where
  negated : Bool := false
  fresh : Bool := true
  first : Bool := true
  ranges : List (Char × Char) := []
  dashed : Bool := false

inductive Stage where
  | between
  | star
  | twoStars
  | inClass (bracket : Bracket)

/-- What has been read: the branch at hand, the groups around it, and the last character in front
of any stars that wait. -/
structure Reading where
  branch : List Token := []
  groups : List Group := []
  before : Option Char := none
  stage : Stage := .between

namespace Bracket

def add (bracket : Bracket) (char : Char) : Bracket :=
  { bracket with ranges := (char, char) :: bracket.ranges }

/-- Ends the range that a dash left open. -/
def endRange (bracket : Bracket) (char : Char) : Except Reason Bracket :=
  match bracket.ranges with
  | [] => .ok (bracket.add char)
  | (low, _) :: rest =>
      if char < low then .error (.invalidRange low char)
      else .ok { bracket with ranges := (low, char) :: rest, dashed := false }

/-- Takes one character that does not end the class. A bracket or a dash right at the start
stands for itself. -/
def take (bracket : Bracket) (char : Char) : Except Reason Bracket :=
  if bracket.fresh ∧ (char = '!' ∨ char = '^') then
    .ok { bracket with negated := true, fresh := false }
  else
    let begun := { bracket with fresh := false, first := false }
    if bracket.first then .ok (begun.add char)
    else if bracket.dashed then begun.endRange char
    else if char = '-' then .ok { begun with dashed := true }
    else .ok (begun.add char)

/-- The class that is read; a dash at its end stands for itself. -/
def token (bracket : Bracket) : Token :=
  let all := if bracket.dashed then ('-', '-') :: bracket.ranges else bracket.ranges
  .oneOf bracket.negated all.reverse

end Bracket

namespace Reading

def push (reading : Reading) (token : Token) : Reading :=
  { reading with branch := token :: reading.branch }

def openGroup (reading : Reading) : Reading :=
  { reading with branch := [], groups := ⟨reading.branch, []⟩ :: reading.groups }

def closeGroup (reading : Reading) : Except Reason Reading :=
  match reading.groups with
  | [] => .error .unopenedChoice
  | group :: groups =>
      let branches := (reading.branch.reverse :: group.finished).reverse
      .ok { reading with branch := .choice branches :: group.outer, groups }

/-- A comma parts the branches of a group, and outside of groups stands for itself. -/
def comma (reading : Reading) : Reading :=
  match reading.groups with
  | [] => reading.push (.char ',')
  | group :: groups =>
      { reading with
        branch := []
        groups := ⟨group.outer, reading.branch.reverse :: group.finished⟩ :: groups }

/-- Takes one character outside of a class with no stars waiting. -/
def take (reading : Reading) (char : Char) : Except Reason Reading :=
  if char = '*' then .ok { reading with stage := .star }
  else
    let reading := { reading with before := some char }
    match char with
    | '[' => .ok { reading with stage := .inClass {} }
    | '?' => .ok (reading.push .anyByte)
    | '{' => .ok reading.openGroup
    | '}' => reading.closeGroup
    | ',' => .ok reading.comma
    | _ => .ok (reading.push (.char char))

/-- Ends the wait of stars; what follows finds a star in front of it. -/
def passStars (reading : Reading) : Reading :=
  { reading with before := some '*', stage := .between }

def oneStar (reading : Reading) : Reading := (reading.push .anyRun).passStars

/-- Two stars in the midst of a word mean no more than one. -/
def plainStars (reading : Reading) : Reading :=
  ((reading.push .anyRun).push .anyRun).passStars

/-- Two stars that make up a segment take the place of the slash in front of them; behind others
of their kind they add nothing. -/
def segmentStars (reading : Reading) (token : Token) : Reading :=
  match reading.branch with
  | .leadingDirs :: _ => reading.passStars
  | .allBelow :: _ => reading.passStars
  | _ :: branch => { reading with branch := token :: branch }.passStars
  | [] => reading.passStars

def endsBefore (reading : Reading) (next : Option Char) : Prop :=
  next = none ∨ (reading.groups.isEmpty = false ∧ (next = some ',' ∨ next = some '}'))

instance (reading : Reading) (next : Option Char) : Decidable (reading.endsBefore next) :=
  inferInstanceAs (Decidable (_ ∨ _))

/-- Settles two stars by the character behind them. The answer says whether that character is a
slash that belongs to them. -/
def settleStars (reading : Reading) (next : Option Char) : Reading × Bool :=
  if reading.branch.isEmpty then
    if next = none then ((reading.push .leadingDirs).passStars, false)
    else if next = some '/' then ((reading.push .leadingDirs).passStars, true)
    else (reading.plainStars, false)
  else if reading.before ≠ some '/' then (reading.plainStars, false)
  else if reading.endsBefore next then (reading.segmentStars .allBelow, false)
  else if next = some '/' then (reading.segmentStars .innerDirs, true)
  else (reading.plainStars, false)

def step (reading : Reading) (char : Char) : Except Reason Reading :=
  match reading.stage with
  | .between => reading.take char
  | .star =>
      if char = '*' then .ok { reading with stage := .twoStars } else reading.oneStar.take char
  | .twoStars =>
      match reading.settleStars (some char) with
      | (settled, true) => .ok { settled with before := some char }
      | (settled, false) => settled.take char
  | .inClass bracket =>
      if char = ']' ∧ !bracket.first then
        .ok { reading.push bracket.token with before := some char, stage := .between }
      else (bracket.take char).map fun bracket => { reading with stage := .inClass bracket }

def closed (reading : Reading) : Except Reason (List Token) :=
  match reading.groups with
  | [] => .ok reading.branch.reverse
  | _ :: _ => .error .unclosedChoice

def finish (reading : Reading) : Except Reason (List Token) :=
  match reading.stage with
  | .between => reading.closed
  | .star => reading.oneStar.closed
  | .twoStars => (reading.settleStars none).1.closed
  | .inClass _ => .error .unclosedClass

end Reading

def readOn (reading : Reading) : List Char → Except Reason (List Token)
  | [] => reading.finish
  | char :: rest =>
      match reading.step char with
      | .error reason => .error reason
      | .ok reading => readOn reading rest

def parse (text : String) : Except Reason (List Token) := readOn {} text.toList

end ManifestSearch.Glob
