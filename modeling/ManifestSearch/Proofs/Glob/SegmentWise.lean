import ManifestSearch.Proofs.Glob.SegmentTokens

/-!
Globs segment by segment. A glob whose segments are words and pairs of stars, without classes and
groups, matches a path exactly if its segments fit the names of the path one after another
(`isMatch_iff_fits`). Put behind a slash each, the names are told apart by their slashes, and no
word matches a slash.
-/

namespace ManifestSearch.Glob

open ManifestSearch.Path (IsSegment)

/-- The bytes that a word describes: a star stands for any bytes and `?` for any one. -/
inductive Describes : List Char → List UInt8 → Prop where
  | none : Describes [] []
  | run {word : List Char} {back : List UInt8} (run : List UInt8) (further : Describes word back) :
      Describes ('*' :: word) (run ++ back)
  | one {word : List Char} {back : List UInt8} (byte : UInt8) (further : Describes word back) :
      Describes ('?' :: word) (byte :: back)
  | char {char : Char} {word : List Char} {back : List UInt8} (notRun : char ≠ '*')
      (notOne : char ≠ '?') (further : Describes word back) :
      Describes (char :: word) (bytesOf char ++ back)

/-- The names that the segments of a glob stand for: a word for one name that it describes, two
stars for any names, and for at least one name if no segment follows. -/
inductive Fits : List (List Char) → Location → Prop where
  | none : Fits [] []
  | word {word : List Char} {name : String} {parts : List (List Char)} {names : Location}
      (single : word ≠ twoStars) (described : Describes word (encoded name))
      (further : Fits parts names) : Fits (word :: parts) (name :: names)
  | dirs {parts : List (List Char)} {names : Location} (above : Location) (inner : parts ≠ [])
      (further : Fits parts names) : Fits (twoStars :: parts) (above ++ names)
  | all {names : Location} (occupied : names ≠ []) : Fits [twoStars] names

variable {word : List Char} {char : Char} {parts : List (List Char)} {names : Location}
  {found bytes : List UInt8} {tokens : List Token} {name : String}

/-! What words describe, by their first character. -/

theorem describes_nil : Describes [] bytes ↔ bytes = [] := by
  constructor
  · intro described
    cases described
    rfl
  · rintro rfl
    exact .none

theorem describes_star : Describes ('*' :: word) bytes ↔
    ∃ run back, bytes = run ++ back ∧ Describes word back := by
  constructor
  · intro described
    cases described with
    | run run further => exact ⟨run, _, rfl, further⟩
    | char notRun => contradiction
  · rintro ⟨run, back, rfl, further⟩
    exact .run run further

theorem describes_one : Describes ('?' :: word) bytes ↔
    ∃ byte back, bytes = byte :: back ∧ Describes word back := by
  constructor
  · intro described
    cases described with
    | one byte further => exact ⟨byte, _, rfl, further⟩
    | char _ notOne => contradiction
  · rintro ⟨byte, back, rfl, further⟩
    exact .one byte further

theorem describes_char (notRun : char ≠ '*') (notOne : char ≠ '?') :
    Describes (char :: word) bytes ↔
      ∃ back, bytes = bytesOf char ++ back ∧ Describes word back := by
  constructor
  · intro described
    cases described with
    | run => contradiction
    | one => contradiction
    | char _ _ further => exact ⟨_, rfl, further⟩
  · rintro ⟨back, rfl, further⟩
    exact .char notRun notOne further

/-- A word without wildcards describes its own bytes. -/
theorem describes_plain (noRun : '*' ∉ word) (noOne : '?' ∉ word) :
    Describes word bytes ↔ bytes = word.flatMap bytesOf := by
  induction word generalizing bytes with
  | nil => exact describes_nil
  | cons char word ih =>
      simp only [List.mem_cons, not_or] at noRun noOne
      have later {back : List UInt8} := @ih back noRun.2 noOne.2
      rw [describes_char (Ne.symm noRun.1) (Ne.symm noOne.1), List.flatMap_cons]
      constructor
      · rintro ⟨back, rfl, further⟩
        rw [later.mp further]
      · rintro rfl
        exact ⟨_, rfl, later.mpr rfl⟩

/-! What segments stand for, by the first of them. -/

theorem fits_nil : Fits [] names ↔ names = [] := by
  constructor
  · intro fits
    cases fits
    rfl
  · rintro rfl
    exact .none

theorem fits_word (single : word ≠ twoStars) : Fits (word :: parts) names ↔
    ∃ name below, names = name :: below ∧ Describes word (encoded name) ∧ Fits parts below := by
  constructor
  · intro fits
    cases fits with
    | word _ described further => exact ⟨_, _, rfl, described, further⟩
    | dirs => contradiction
    | all => contradiction
  · rintro ⟨name, below, rfl, described, further⟩
    exact .word single described further

theorem fits_all : Fits [twoStars] names ↔ names ≠ [] := by
  constructor
  · intro fits
    cases fits with
    | word single => contradiction
    | dirs _ inner => contradiction
    | all occupied => exact occupied
  · exact .all

theorem fits_dirs (inner : parts ≠ []) : Fits (twoStars :: parts) names ↔
    ∃ above below, names = above ++ below ∧ Fits parts below := by
  constructor
  · intro fits
    cases fits with
    | word single => contradiction
    | dirs above _ further => exact ⟨above, _, rfl, further⟩
    | all => contradiction
  · rintro ⟨above, below, rfl, further⟩
    exact .dirs above inner further

/-- Two stars behind two stars add nothing. -/
theorem fits_dirs_dirs :
    Fits (twoStars :: twoStars :: parts) names ↔ Fits (twoStars :: parts) names := by
  rw [fits_dirs (by simp)]
  by_cases inner : parts = []
  · subst inner
    simp only [fits_all]
    constructor
    · rintro ⟨above, below, rfl, occupied⟩
      simp [occupied]
    · exact fun occupied => ⟨[], names, rfl, occupied⟩
  · simp only [fits_dirs inner]
    constructor
    · rintro ⟨above, _, rfl, further, below, rfl, fits⟩
      exact ⟨above ++ further, below, (List.append_assoc _ _ _).symm, fits⟩
    · exact fun fits => ⟨[], names, rfl, fits⟩

/-! Bytes of names, each behind a slash. -/

theorem slash_ne_ofNat {byte : Nat} (other : byte % 256 ≠ 0x2f) :
    ByteSet.slash ≠ UInt8.ofNat byte := by
  intro same
  have number := congrArg UInt8.toNat same
  rw [UInt8.toNat_ofNat'] at number
  exact other number.symm

theorem noSlash_bytesOf (notSlash : char ≠ '/') : ByteSet.slash ∉ bytesOf char := by
  have other : char.val.toNat ≠ 0x2f := fun same => notSlash (Char.ext (UInt32.toNat_inj.mp same))
  simp only [bytesOf, String.utf8EncodeChar]
  generalize char.val.toNat = number at other
  -- Behind the first 128 characters all bytes have their highest bit.
  split
  · simp [slash_ne_ofNat (show number % 256 ≠ 0x2f by omega)]
  · split
    · simp only [List.mem_cons, List.not_mem_nil, or_false, not_or]
      exact ⟨slash_ne_ofNat (by omega), slash_ne_ofNat (by omega)⟩
    · split
      · simp only [List.mem_cons, List.not_mem_nil, or_false, not_or]
        exact ⟨slash_ne_ofNat (by omega), slash_ne_ofNat (by omega), slash_ne_ofNat (by omega)⟩
      · simp only [List.mem_cons, List.not_mem_nil, or_false, not_or]
        exact ⟨slash_ne_ofNat (by omega), slash_ne_ofNat (by omega), slash_ne_ofNat (by omega),
          slash_ne_ofNat (by omega)⟩

theorem noSlash_encoded (free : '/' ∉ name.toList) : ByteSet.slash ∉ encoded name := by
  simp only [encoded, List.mem_flatMap, not_exists, not_and]
  intro char member
  exact noSlash_bytesOf fun same => free (same ▸ member)

/-- Bytes in front of a slash or of the end are known by having no slash. -/
theorem append_eq_append_of_noSlash {left right back more : List UInt8}
    (freeLeft : ByteSet.slash ∉ left) (freeRight : ByteSet.slash ∉ right)
    (ends : back = [] ∨ back.head? = some ByteSet.slash)
    (others : more = [] ∨ more.head? = some ByteSet.slash) :
    left ++ back = right ++ more ↔ left = right ∧ back = more := by
  induction left generalizing right with
  | nil =>
      cases right with
      | nil => simp
      | cons byte right =>
          simp only [List.nil_append, List.cons_append, List.nil_eq, reduceCtorEq, false_and,
            iff_false]
          rintro rfl
          have first : byte = ByteSet.slash := by simpa using ends
          simp [first] at freeRight
  | cons byte left ih =>
      cases right with
      | nil =>
          simp only [List.nil_append, List.cons_append, reduceCtorEq, false_and, iff_false]
          rintro rfl
          have first : byte = ByteSet.slash := by simpa using others
          simp [first] at freeLeft
      | cons other right =>
          simp only [List.mem_cons, not_or] at freeLeft freeRight
          simp [ih freeLeft.2 freeRight.2, and_assoc]

def onward (names : Location) : List UInt8 :=
  names.flatMap fun name => bytesOf '/' ++ encoded name

theorem onward_cons (name : String) (names : Location) :
    onward (name :: names) = ByteSet.slash :: (encoded name ++ onward names) :=
  rfl

theorem onward_append (above below : Location) :
    onward (above ++ below) = onward above ++ onward below :=
  List.flatMap_append

theorem onward_ends (names : Location) :
    onward names = [] ∨ (onward names).head? = some ByteSet.slash := by
  cases names with
  | nil => exact .inl rfl
  | cons name names => exact .inr rfl

theorem onward_eq_joined (occupied : names ≠ []) :
    onward names = bytesOf '/' ++ encoded (String.ofList (Text.joined '/' (segmentsOf names))) := by
  induction names with
  | nil => contradiction
  | cons name names ih =>
      by_cases last : names = []
      · subst last
        simp [onward, segmentsOf, Text.joined]
      · have more : segmentsOf names ≠ [] := by simpa [segmentsOf] using last
        have further := ih last
        simp only [encoded, String.toList_ofList] at further ⊢
        rw [onward_cons, further]
        simp only [segmentsOf, List.map_cons] at more ⊢
        rw [Text.joined_cons more]
        simp [encoded]
        rfl

/-- A slash among names begins one of them. -/
theorem onward_split {front back : List UInt8} (free : ∀ name ∈ names, '/' ∉ name.toList)
    (whole : onward names = front ++ ByteSet.slash :: back) :
    ∃ above below, names = above ++ below ∧ ByteSet.slash :: back = onward below := by
  induction names generalizing front with
  | nil => simp [onward] at whole
  | cons name names ih =>
      cases front with
      | nil => exact ⟨[], name :: names, rfl, whole.symm⟩
      | cons byte front =>
          rw [onward_cons, List.cons_append, List.cons.injEq] at whole
          have nameFree := noSlash_encoded (free name (by simp))
          rcases List.append_eq_append_iff.mp whole.2 with
            ⟨more, rfl, further⟩ | ⟨more, own, further⟩
          · obtain ⟨above, below, rfl, rest⟩ :=
              ih (fun other member => free other (List.mem_cons_of_mem name member)) further
            exact ⟨name :: above, below, rfl, rest⟩
          · cases more with
            | nil => exact ⟨[name], names, rfl, further⟩
            | cons first more =>
                cases further
                simp [own] at nameFree

/-! What the tokens match. -/

theorem has_noSlash (byte : UInt8) : ByteSet.noSlash.has byte ↔ ByteSet.slash ≠ byte := by
  have opposite : ByteSet.noSlash.has byte = !(ByteSet.only ByteSet.slash).has byte := by
    simp [ByteSet.noSlash, ByteSet.only, ByteSet.has]
  rw [opposite, Bool.not_eq_true', ← Bool.not_eq_true, ByteSet.has_only]
  exact not_congr eq_comm

theorem matches_anyRun : Token.anyRun.shape.Matches found ↔ ByteSet.slash ∉ found := by
  simp only [Token.shape, Shape.matches_run, has_noSlash]
  exact List.forall_mem_ne

theorem matches_anyByte : Token.anyByte.shape.Matches found ↔
    ∃ byte, found = [byte] ∧ ByteSet.slash ≠ byte := by
  simp only [Token.shape, Shape.matches_byte, has_noSlash]

theorem matches_char : (Token.char char).shape.Matches found ↔ found = bytesOf char := by
  rw [Token.shape, matches_ofBytes]

theorem matches_word (free : '/' ∉ word) :
    (rowShape (word.map wordToken)).Matches found ↔
      Describes word found ∧ ByteSet.slash ∉ found := by
  induction word generalizing found with
  | nil =>
      simp only [List.map_nil, rowShape, Shape.matches_empty, describes_nil]
      constructor
      · rintro rfl
        exact ⟨rfl, List.not_mem_nil⟩
      · exact And.left
  | cons char word ih =>
      simp only [List.mem_cons, not_or] at free
      simp only [List.map_cons, rowShape, Shape.matches_andThen, Shape.matches_both, ih free.2]
      by_cases star : char = '*'
      · subst star
        rw [describes_star, wordToken, if_pos rfl]
        simp only [matches_anyRun]
        constructor
        · rintro ⟨run, back, rfl, others, described, further⟩
          exact ⟨⟨run, back, rfl, described⟩, by simp [others, further]⟩
        · rintro ⟨⟨run, back, rfl, described⟩, further⟩
          simp only [List.mem_append, not_or] at further
          exact ⟨run, back, rfl, further.1, described, further.2⟩
      · by_cases one : char = '?'
        · subst one
          rw [describes_one, wordToken, if_neg star, if_pos rfl]
          simp only [matches_anyByte]
          constructor
          · rintro ⟨_, back, rfl, ⟨byte, rfl, other⟩, described, further⟩
            exact ⟨⟨byte, back, rfl, described⟩, by simp [other, further]⟩
          · rintro ⟨⟨byte, back, rfl, described⟩, further⟩
            simp only [List.mem_cons, not_or] at further
            exact ⟨[byte], back, rfl, ⟨byte, rfl, further.1⟩, described, further.2⟩
        · have other := noSlash_bytesOf (Ne.symm free.1)
          rw [describes_char star one, wordToken, if_neg star, if_neg one]
          simp only [matches_char]
          constructor
          · rintro ⟨_, back, rfl, rfl, described, further⟩
            exact ⟨⟨back, rfl, described⟩, by simp [other, further]⟩
          · rintro ⟨⟨back, rfl, described⟩, further⟩
            simp only [List.mem_append, not_or] at further
            exact ⟨_, back, rfl, rfl, described, further.2⟩

/-- What matches a row that begins with a slash begins with one, and an empty row matches nothing
else. -/
theorem ends_of_matches_behind (matched : (rowShape (behind parts)).Matches found) :
    found = [] ∨ found.head? = some ByteSet.slash := by
  rcases behind_start parts with none | ⟨token, tokens, whole, first⟩
  · rw [none] at matched
    exact .inl (Shape.matches_empty.mp matched)
  · rw [whole, rowShape, Shape.matches_andThen, Shape.matches_both] at matched
    obtain ⟨front, back, rfl, slash, -⟩ := matched
    obtain ⟨rest, rfl⟩ := first.matched slash
    exact .inr rfl

theorem matches_behind_word (free : '/' ∉ word) (single : word ≠ twoStars)
    (nameFree : ∀ name ∈ names, '/' ∉ name.toList) :
    (rowShape (behind (word :: parts))).Matches (onward names) ↔
      ∃ name below, names = name :: below ∧ Describes word (encoded name) ∧
        (rowShape (behind parts)).Matches (onward below) := by
  simp only [behind_word single, rowShape, Shape.matches_andThen, Shape.matches_both, matches_char,
    matches_append, matches_word free]
  constructor
  · rintro ⟨_, _, whole, rfl, left, right, rfl, ⟨described, own⟩, further⟩
    cases names with
    | nil => simp [onward, bytesOf_ne_nil] at whole
    | cons name below =>
        have text : encoded name ++ onward below = left ++ right := (List.cons.inj whole).2
        have noSlash := noSlash_encoded (nameFree name (by simp))
        obtain ⟨rfl, rfl⟩ := (append_eq_append_of_noSlash noSlash own (onward_ends below)
          (ends_of_matches_behind further)).mp text
        exact ⟨name, below, rfl, described, further⟩
  · rintro ⟨name, below, rfl, described, further⟩
    have own := noSlash_encoded (nameFree name (by simp))
    exact ⟨bytesOf '/', encoded name ++ onward below, rfl, rfl, encoded name, onward below, rfl,
      ⟨described, own⟩, further⟩

theorem matches_innerDirs_ends : Token.innerDirs.shape.Matches found ↔
    ∃ front, found = front ++ bytesOf '/' ∧ (front = [] ∨ front.head? = some ByteSet.slash) := by
  rw [matches_innerDirs]
  simp only [Token.shape, Shape.matches_either, Shape.matches_empty, matches_slash, matches_toSlash]
  constructor
  · rintro ⟨_, rfl, (rfl | rfl) | ⟨front, rfl⟩⟩
    · exact ⟨bytesOf '/', rfl, .inr rfl⟩
    · exact ⟨[], rfl, .inl rfl⟩
    · exact ⟨bytesOf '/' ++ front, (List.append_assoc _ _ _).symm, .inr rfl⟩
  · rintro ⟨front, rfl, rfl | slash⟩
    · exact ⟨[], rfl, .inl (.inr rfl)⟩
    · obtain ⟨rest, rfl⟩ := List.head?_eq_some_iff.mp slash
      exact ⟨rest ++ bytesOf '/', rfl, .inr ⟨rest, rfl⟩⟩

/-- Directories behind a slash take any names away from the front. -/
theorem matches_innerDirs_row (free : ∀ name ∈ names, '/' ∉ name.toList) :
    (rowShape (.innerDirs :: tokens)).Matches (onward names) ↔
      ∃ above below, names = above ++ below ∧
        (rowShape (.char '/' :: tokens)).Matches (onward below) := by
  simp only [rowShape, Shape.matches_andThen, Shape.matches_both, matches_char,
    matches_innerDirs_ends]
  constructor
  · rintro ⟨_, back, whole, ⟨front, rfl, -⟩, matched⟩
    rw [List.append_assoc] at whole
    obtain ⟨above, below, rfl, further⟩ := onward_split free whole
    exact ⟨above, below, rfl, bytesOf '/', back, further.symm, rfl, matched⟩
  · rintro ⟨above, below, rfl, _, back, whole, rfl, matched⟩
    refine ⟨onward above ++ bytesOf '/', back, ?_, ⟨_, rfl, onward_ends above⟩, matched⟩
    rw [onward_append, whole, List.append_assoc]

theorem matches_allBelow_row (names : Location) :
    (rowShape [.allBelow]).Matches (onward names) ↔ names ≠ [] := by
  simp only [matches_single, Token.shape, Shape.matches_both, matches_slash, Shape.matches_run]
  constructor
  · rintro ⟨_, back, whole, rfl, -⟩ rfl
    cases whole
  · intro occupied
    obtain ⟨name, below, rfl⟩ := List.exists_cons_of_ne_nil occupied
    exact ⟨bytesOf '/', _, rfl, rfl, fun byte _ => has_all byte⟩

/-- The tokens of segments match names, each behind a slash, exactly if the segments fit them. -/
theorem matches_behind (plain : ∀ part ∈ parts, '/' ∉ part)
    (free : ∀ name ∈ names, '/' ∉ name.toList) :
    (rowShape (behind parts)).Matches (onward names) ↔ Fits parts names := by
  induction parts generalizing names with
  | nil =>
      rw [behind, rowShape, Shape.matches_empty, fits_nil]
      cases names with
      | nil => simp [onward]
      | cons name names => simp [onward_cons]
  | cons part parts ih =>
      have others : ∀ part ∈ parts, '/' ∉ part := fun other member =>
        plain other (List.mem_cons_of_mem part member)
      have freeBelow (above below : Location) (whole : names = above ++ below) :
          ∀ name ∈ below, '/' ∉ name.toList := fun name member =>
        free name (whole ▸ List.mem_append_right above member)
      by_cases stars : part = twoStars
      · subst stars
        rw [behind_stars]
        cases parts with
        | nil => exact (matches_allBelow_row names).trans fits_all.symm
        | cons next parts =>
            by_cases again : next = twoStars
            · subst again
              rw [behind_stars, spanning_spanning, ← behind_stars, fits_dirs_dirs]
              exact ih others free
            · rw [behind_word again]
              refine (matches_innerDirs_row free).trans ?_
              rw [fits_dirs (by simp), ← behind_word again]
              refine exists_congr fun above => exists_congr fun below =>
                and_congr_right fun whole => ?_
              exact ih others (freeBelow above below whole)
      · rw [matches_behind_word (plain part (by simp)) stars free, fits_word stars]
        refine exists_congr fun name => exists_congr fun below => and_congr_right fun whole =>
          and_congr_right fun _ => ?_
        exact ih others (freeBelow [name] below whole)

theorem behind_ne_alone (parts : List (List Char)) : behind parts ≠ [.leadingDirs] := by
  rcases behind_start parts with none | ⟨token, tokens, whole, first⟩
  · simp [none]
  · rw [whole]
    rintro ⟨⟩
    rcases first with first | first | first <;> contradiction

theorem isMatch_iff_fits {glob : String}
    (plain : ∀ part ∈ Text.pieces '/' glob.toList, IsSegment part)
    (simple : ∀ part ∈ Text.pieces '/' glob.toList, ∀ char ∈ part, IsSimple char) :
    ∃ tokens, parse glob = .ok tokens ∧ ∀ names : Location, names ≠ [] →
      (∀ name ∈ names, '/' ∉ name.toList) →
      (isMatch tokens (String.ofList (Text.joined '/' (segmentsOf names))) ↔
        Fits (Text.pieces '/' glob.toList) names) := by
  obtain ⟨tokens, read, whole⟩ := readOn_joined (Text.pieces_ne_nil '/' glob.toList) plain simple
  rw [Text.joined_pieces] at read
  refine ⟨tokens, read, fun names occupied free => ?_⟩
  let subject := String.ofList ('/' :: Text.joined '/' (segmentsOf names))
  have bytes : encoded subject = onward names := by
    rw [onward_eq_joined occupied]
    simp [subject, encoded]
  have longer : isMatch (behind (Text.pieces '/' glob.toList)) subject ↔
      isMatch tokens (String.ofList (Text.joined '/' (segmentsOf names))) := by
    rw [← whole]
    simpa [subject] using @isMatch_grafted tokens [] subject
  rw [← longer, isMatch, Shape.accepts_iff, shapeOf_of_ne (behind_ne_alone _), bytes]
  exact matches_behind (fun part member => (plain part member).noSlash) free

end ManifestSearch.Glob
