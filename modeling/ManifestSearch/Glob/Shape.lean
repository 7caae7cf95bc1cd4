import ManifestSearch.Glob.Token

/-!
What a glob matches. A shape is a small regular expression over bytes; `Matches` says which bytes
it describes. To decide that, `ends` moves marks along a text: from the places where a match may
start to those where it can end, all starts at once.
-/

namespace ManifestSearch.Glob

/-- A set of bytes: those in one of the ranges, or with `negated` those in none. -/
structure ByteSet where
  negated : Bool
  ranges : List (UInt8 × UInt8)
deriving DecidableEq

namespace ByteSet

def has (set : ByteSet) (byte : UInt8) : Bool :=
  set.negated != set.ranges.any fun range => range.1 ≤ byte && byte ≤ range.2

def all : ByteSet := ⟨true, []⟩

def slash : UInt8 := 0x2f

def only (byte : UInt8) : ByteSet := ⟨false, [(byte, byte)]⟩

def noSlash : ByteSet := ⟨true, [(slash, slash)]⟩

end ByteSet

inductive Shape where
  | empty
  | byte (set : ByteSet)
  | run (set : ByteSet)
  | both (first second : Shape)
  | either (left right : Shape)
deriving DecidableEq

namespace Shape

inductive Matches : Shape → List UInt8 → Prop where
  | empty : Matches .empty []
  | byte {set : ByteSet} {found : UInt8} (member : set.has found) : Matches (.byte set) [found]
  | run {set : ByteSet} {found : List UInt8} (members : ∀ byte ∈ found, set.has byte) :
      Matches (.run set) found
  | both {first second : Shape} {front back : List UInt8} (left : Matches first front)
      (right : Matches second back) : Matches (.both first second) (front ++ back)
  | left {left right : Shape} {found : List UInt8} (matched : Matches left found) :
      Matches (.either left right) found
  | right {left right : Shape} {found : List UInt8} (matched : Matches right found) :
      Matches (.either left right) found

/-- One shape after another, nothing added for an empty one. -/
def andThen (first second : Shape) : Shape :=
  if first = .empty then second else if second = .empty then first else .both first second

/-- Either of the shapes; `none` if there are none. -/
def anyOf : List Shape → Option Shape
  | [] => none
  | [shape] => some shape
  | shape :: rest =>
      match anyOf rest with
      | none => some shape
      | some others => some (.either shape others)

/-- Marks behind one byte of a set. A mark stands in front of each byte and one at the end;
`carried` is the mark that the byte before leaves. -/
def pastByte (set : ByteSet) (carried : Bool) : List UInt8 → List Bool → List Bool
  | head :: rest, mark :: marks => carried :: pastByte set (mark && set.has head) rest marks
  | _, _ => [carried]

def pastRun (set : ByteSet) (carried : Bool) : List UInt8 → List Bool → List Bool
  | head :: rest, mark :: marks =>
      (mark || carried) :: pastRun set ((mark || carried) && set.has head) rest marks
  | [], mark :: _ => [mark || carried]
  | _, [] => [carried]

/-- The places of a text where a match can end that starts at one of the marked places. -/
def ends (text : List UInt8) : Shape → List Bool → List Bool
  | .empty, marks => marks
  | .byte set, marks => pastByte set false text marks
  | .run set, marks => pastRun set false text marks
  | .both first second, marks => ends text second (ends text first marks)
  | .either left right, marks => List.zipWith or (ends text left marks) (ends text right marks)

def startMarks (text : List UInt8) : List Bool := true :: text.map fun _ => false

/-- Whether a shape describes the whole of a text. -/
def accepts (shape : Shape) (text : List UInt8) : Bool :=
  (shape.ends text (startMarks text)).getLast? = some true

def ofBytes (bytes : List UInt8) : Shape :=
  bytes.foldr (fun byte shape => andThen (.byte (.only byte)) shape) .empty

def slash : Shape := .byte (.only ByteSet.slash)

def toSlash : Shape := .both (.run .all) slash

end Shape

def bytesOf (char : Char) : List UInt8 := String.utf8EncodeChar char

def encoded (text : String) : List UInt8 := text.toList.flatMap bytesOf

/-- The ranges of bytes that a range of characters stands for: it runs from the last byte of its
low end to the first byte of its high end, and the other bytes of both ends count alone. -/
def byteRanges (range : Char × Char) : List (UInt8 × UInt8) :=
  let alone (byte : UInt8) := (byte, byte)
  let low := bytesOf range.1
  if range.1 = range.2 then low.map alone
  else
    match low.getLast?, bytesOf range.2 with
    | some last, first :: others =>
        low.dropLast.map alone ++ (last, first) :: others.map alone
    | _, _ => []

mutual

def Token.shape : Token → Shape
  | .char char => .ofBytes (bytesOf char)
  | .anyByte => .byte .noSlash
  | .anyRun => .run .noSlash
  | .leadingDirs => .either (.either .slash .empty) .toSlash
  | .innerDirs => .either .slash (.both .slash .toSlash)
  | .allBelow => .both .slash (.run .all)
  | .oneOf negated ranges => .byte ⟨negated, ranges.flatMap byteRanges⟩
  | .choice branches => ((Shape.anyOf (branchShapes branches))).getD .empty

def rowShape : List Token → Shape
  | [] => .empty
  | token :: rest => token.shape.andThen (rowShape rest)

/-- The branches that describe more than the empty text. -/
def branchShapes : List (List Token) → List Shape
  | [] => []
  | branch :: rest =>
      let shape := rowShape branch
      if shape = .empty then branchShapes rest else shape :: branchShapes rest

end

/-- The shape of a whole glob. Two stars alone match everything. -/
def shapeOf (tokens : List Token) : Shape :=
  match tokens with
  | [.leadingDirs] => .run .all
  | _ => rowShape tokens

def isMatch (tokens : List Token) (text : String) : Bool :=
  (shapeOf tokens).accepts (encoded text)

end ManifestSearch.Glob
