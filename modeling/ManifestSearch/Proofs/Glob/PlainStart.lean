import ManifestSearch.Proofs.Glob.Matching
import ManifestSearch.Proofs.Text.Bytes
import ManifestSearch.Pattern

/-!
Globs that start with plain segments. Once a plain front and a slash are read, nothing that is read
later takes them back: two stars may take the place of that slash, but they match a slash first. So
whatever such a glob matches begins with its front and a slash.
-/

namespace ManifestSearch.Glob

variable {reading after : Reading} {front : List Token} {plain text rest : List Char} {char : Char}
  {token : Token} {tokens : List Token} {found : List UInt8} {bracket : Bracket}

/-- A token whose matches begin with a slash. -/
def StartsWithSlash (token : Token) : Prop :=
  token = .char '/' ∨ token = .innerDirs ∨ token = .allBelow

/-- Tokens, held with the last one first, that begin with a front and a token for a slash. -/
def BeginsWith (front tokens : List Token) : Prop :=
  ∃ later token, tokens = later ++ token :: front ∧ StartsWithSlash token

theorem BeginsWith.cons (begins : BeginsWith front tokens) (token : Token) :
    BeginsWith front (token :: tokens) := by
  obtain ⟨later, slash, rfl, first⟩ := begins
  exact ⟨token :: later, slash, rfl, first⟩

theorem BeginsWith.replace {last : Token} (begins : BeginsWith front (last :: tokens))
    (first : StartsWithSlash token) : BeginsWith front (token :: tokens) := by
  obtain ⟨later, slash, whole, slashFirst⟩ := begins
  cases later with
  | nil =>
      cases whole
      exact ⟨[], token, rfl, first⟩
  | cons last later =>
      cases whole
      exact ⟨token :: later, slash, rfl, slashFirst⟩

namespace Reading

def outermost (branch : List Token) : List Group → List Token
  | [] => branch
  | group :: groups => outermost group.outer groups

/-- The glob that is read begins with a front and a slash. -/
def Keeps (front : List Token) (reading : Reading) : Prop :=
  BeginsWith front (outermost reading.branch reading.groups)

theorem Keeps.push (keeps : Keeps front reading) (token : Token) :
    Keeps front (reading.push token) := by
  obtain ⟨branch, groups, before, stage⟩ := reading
  cases groups with
  | nil => exact BeginsWith.cons keeps token
  | cons group groups => exact keeps

theorem Keeps.openGroup (keeps : Keeps front reading) : Keeps front reading.openGroup := by
  obtain ⟨branch, groups, before, stage⟩ := reading
  cases groups with
  | nil => exact keeps
  | cons group groups => exact keeps

theorem Keeps.closeGroup (keeps : Keeps front reading)
    (closed : reading.closeGroup = .ok after) : Keeps front after := by
  obtain ⟨branch, groups, before, stage⟩ := reading
  cases groups with
  | nil => contradiction
  | cons group groups =>
      cases closed
      cases groups with
      | nil => exact BeginsWith.cons keeps _
      | cons next groups => exact keeps

theorem Keeps.comma (keeps : Keeps front reading) : Keeps front reading.comma := by
  obtain ⟨branch, groups, before, stage⟩ := reading
  cases groups with
  | nil => exact BeginsWith.cons keeps _
  | cons group groups =>
      cases groups with
      | nil => exact keeps
      | cons next groups => exact keeps

theorem Keeps.take (keeps : Keeps front reading) (taken : reading.take char = .ok after) :
    Keeps front after := by
  have noted : Keeps front { reading with before := some char } := keeps
  simp only [Reading.take] at taken
  split at taken
  · cases taken
    exact keeps
  · split at taken
    · cases taken
      exact keeps
    · cases taken
      exact noted.push _
    · cases taken
      exact noted.openGroup
    · exact noted.closeGroup taken
    · cases taken
      exact noted.comma
    · cases taken
      exact noted.push _

theorem Keeps.segmentStars (keeps : Keeps front reading) (first : StartsWithSlash token) :
    Keeps front (reading.segmentStars token) := by
  obtain ⟨branch, groups, before, stage⟩ := reading
  simp only [Reading.segmentStars]
  split
  · exact keeps
  · exact keeps
  · cases groups with
    | nil => exact BeginsWith.replace keeps first
    | cons group groups => exact keeps
  · exact keeps

theorem Keeps.oneStar (keeps : Keeps front reading) : Keeps front reading.oneStar :=
  keeps.push .anyRun

theorem Keeps.plainStars (keeps : Keeps front reading) : Keeps front reading.plainStars :=
  (keeps.push .anyRun).push .anyRun

theorem Keeps.settleStars (keeps : Keeps front reading) (next : Option Char) :
    Keeps front (reading.settleStars next).1 := by
  -- Only two stars that make up a segment change what is there, and they put a slash for a slash.
  simp only [Reading.settleStars]
  split
  · split
    · exact keeps.push .leadingDirs
    · split
      · exact keeps.push .leadingDirs
      · exact keeps.plainStars
  · split
    · exact keeps.plainStars
    · split
      · exact keeps.segmentStars (.inr (.inr rfl))
      · split
        · exact keeps.segmentStars (.inr (.inl rfl))
        · exact keeps.plainStars

/-- Reading one more character takes back neither the front nor the slash behind it. -/
theorem Keeps.step (keeps : Keeps front reading) (next : reading.step char = .ok after) :
    Keeps front after := by
  simp only [Reading.step] at next
  split at next
  · exact keeps.take next
  · split at next
    · cases next
      exact keeps
    · exact Keeps.take keeps.oneStar next
  · have settled := keeps.settleStars (some char)
    split at next
    · rename_i stars consumed
      rw [consumed] at settled
      cases next
      exact settled
    · rename_i stars consumed
      rw [consumed] at settled
      exact settled.take next
  · rename_i bracket stage
    split at next
    · cases next
      exact keeps.push bracket.token
    · cases more : bracket.take char with
      | error reason => simp [more, Except.map] at next
      | ok bracket =>
          simp only [more, Except.map, Except.ok.injEq] at next
          cases next
          exact keeps

theorem Keeps.closed (keeps : Keeps front reading) (closed : reading.closed = .ok tokens) :
    BeginsWith front tokens.reverse := by
  obtain ⟨branch, groups, before, stage⟩ := reading
  cases groups with
  | nil =>
      cases closed
      rw [List.reverse_reverse]
      exact keeps
  | cons group groups => contradiction

theorem Keeps.finish (keeps : Keeps front reading) (finished : reading.finish = .ok tokens) :
    BeginsWith front tokens.reverse := by
  simp only [Reading.finish] at finished
  split at finished
  · exact keeps.closed finished
  · exact keeps.oneStar.closed finished
  · exact (keeps.settleStars none).closed finished
  · contradiction

theorem Keeps.readOn (keeps : Keeps front reading) (read : readOn reading text = .ok tokens) :
    BeginsWith front tokens.reverse := by
  induction text generalizing reading with
  | nil => exact keeps.finish read
  | cons char text ih =>
      simp only [Glob.readOn] at read
      split at read
      · contradiction
      · rename_i stepped
        exact ih (keeps.step stepped) read

theorem step_plain {branch : List Token} {before : Option Char}
    (plainChar : Pattern.isWild char = false)
    (stepped : step ⟨branch, [], before, .between⟩ char = .ok after) :
    after = ⟨.char char :: branch, [], some char, .between⟩ := by
  simp only [Pattern.isWild, Bool.or_eq_false_iff, beq_eq_false_iff_ne] at plainChar
  obtain ⟨⟨⟨notStar, notAny⟩, notClass⟩, notGroup⟩ := plainChar
  simp only [step, Reading.take, if_neg notStar] at stepped
  split at stepped
  · exact absurd rfl notClass
  · exact absurd rfl notAny
  · exact absurd rfl notGroup
  · contradiction
  · cases stepped
    rfl
  · cases stepped
    rfl

theorem readOn_plain {branch : List Token} {before : Option Char}
    (plainFront : ∀ char ∈ plain, Pattern.isWild char = false)
    (read : readOn ⟨branch, [], before, .between⟩ (plain ++ rest) = .ok tokens) :
    ∃ before, readOn ⟨(plain.map .char).reverse ++ branch, [], before, .between⟩ rest =
      .ok tokens := by
  induction plain generalizing branch before with
  | nil => exact ⟨before, read⟩
  | cons char plain ih =>
      rw [List.cons_append] at read
      simp only [readOn] at read
      split at read
      · contradiction
      · rename_i stepped
        rw [step_plain (plainFront char (by simp)) stepped] at read
        obtain ⟨before, further⟩ :=
          ih (fun other member => plainFront other (List.mem_cons_of_mem char member)) read
        exact ⟨before, by simpa using further⟩

end Reading

theorem readOn_front (plainFront : ∀ char ∈ plain, Pattern.isWild char = false)
    (read : readOn {} (plain ++ '/' :: rest) = .ok tokens) :
    ∃ token more, tokens = plain.map .char ++ token :: more ∧ StartsWithSlash token := by
  obtain ⟨before, further⟩ := Reading.readOn_plain plainFront read
  simp only [readOn] at further
  split at further
  · contradiction
  · rename_i after stepped
    rw [Reading.step_plain (by decide) stepped] at further
    have keeps : Reading.Keeps (plain.map .char).reverse
        ⟨.char '/' :: ((plain.map .char).reverse ++ []), [], some '/', .between⟩ :=
      ⟨[], .char '/', by simp [Reading.outermost], .inl rfl⟩
    obtain ⟨later, token, whole, first⟩ := keeps.readOn further
    refine ⟨token, later.reverse, ?_, first⟩
    rw [← List.reverse_reverse tokens, whole]
    simp

/-! What such tokens match. -/

theorem ByteSet.has_only {byte other : UInt8} : (ByteSet.only byte).has other ↔ other = byte := by
  simp [ByteSet.only, ByteSet.has, UInt8.le_antisymm_iff, and_comm]

theorem matches_ofBytes {bytes : List UInt8} :
    (Shape.ofBytes bytes).Matches found ↔ found = bytes := by
  induction bytes generalizing found with
  | nil => exact Shape.matches_empty
  | cons byte bytes ih =>
      simp only [Shape.ofBytes, List.foldr_cons, Shape.matches_andThen, Shape.matches_both,
        Shape.matches_byte, ByteSet.has_only]
      constructor
      · intro holds
        obtain ⟨front, back, rfl, ⟨other, rfl, rfl⟩, matched⟩ := holds
        rw [ih.mp matched]
        rfl
      · intro same
        subst same
        exact ⟨[byte], bytes, rfl, ⟨byte, rfl, rfl⟩, ih.mpr rfl⟩

theorem matches_chars (plain : List Char) (more : List Token) :
    (rowShape (plain.map .char ++ more)).Matches found ↔
      ∃ back, found = plain.flatMap bytesOf ++ back ∧ (rowShape more).Matches back := by
  induction plain generalizing found with
  | nil => simp
  | cons char plain ih =>
      simp only [List.map_cons, List.cons_append, rowShape, Token.shape, Shape.matches_andThen,
        Shape.matches_both, matches_ofBytes, ih, List.flatMap_cons]
      constructor
      · intro holds
        obtain ⟨_, _, rfl, rfl, back, rfl, matched⟩ := holds
        exact ⟨back, (List.append_assoc _ _ _).symm, matched⟩
      · intro holds
        obtain ⟨back, rfl, matched⟩ := holds
        exact ⟨_, _, List.append_assoc _ _ _, rfl, back, rfl, matched⟩

theorem StartsWithSlash.matched (first : StartsWithSlash token)
    (matched : token.shape.Matches found) : ∃ back, found = bytesOf '/' ++ back := by
  have slash (bytes : List UInt8) : Shape.slash.Matches bytes → bytes = bytesOf '/' := by
    intro matched
    cases matched with
    | byte member =>
        rw [ByteSet.has_only.mp member]
        rfl
  rcases first with rfl | rfl | rfl
  · exact ⟨[], by simpa using matches_ofBytes.mp matched⟩
  · simp only [Token.shape, Shape.matches_either, Shape.matches_both] at matched
    rcases matched with matched | ⟨front, back, rfl, matched, -⟩
    · exact ⟨[], by simpa using slash _ matched⟩
    · exact ⟨back, by rw [slash _ matched]⟩
  · simp only [Token.shape, Shape.matches_both] at matched
    obtain ⟨front, back, rfl, matched, -⟩ := matched
    exact ⟨back, by rw [slash _ matched]⟩

theorem shapeOf_front (first : StartsWithSlash token) (plain : List Char) (more : List Token) :
    shapeOf (plain.map .char ++ token :: more) = rowShape (plain.map .char ++ token :: more) := by
  unfold shapeOf
  split
  · rename_i whole
    cases plain with
    | nil =>
        cases whole
        rcases first with same | same | same <;> contradiction
    | cons char plain => simp at whole
  · rfl

/-- What a glob with a plain front and a slash behind it matches begins with them. -/
theorem front_of_isMatch {glob subject : String}
    (plainFront : ∀ char ∈ plain, Pattern.isWild char = false)
    (text : glob.toList = plain ++ '/' :: rest) (parsed : parse glob = .ok tokens)
    (matched : isMatch tokens subject) : plain ++ ['/'] <+: subject.toList := by
  rw [parse, text] at parsed
  obtain ⟨token, more, rfl, first⟩ := readOn_front plainFront parsed
  rw [isMatch, Shape.accepts_iff, shapeOf_front first, matches_chars] at matched
  obtain ⟨back, whole, matched⟩ := matched
  rw [rowShape, Shape.matches_andThen, Shape.matches_both] at matched
  obtain ⟨front, last, rfl, slash, -⟩ := matched
  obtain ⟨between, rfl⟩ := first.matched slash
  refine prefix_of_flatMap_bytesOf ⟨between ++ last, ?_⟩
  rw [encoded] at whole
  rw [whole]
  simp

end ManifestSearch.Glob
