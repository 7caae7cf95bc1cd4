import ManifestSearch.Proofs.Glob.Grafting
import ManifestSearch.Proofs.Path.Above

/-!
Reading a glob of words and pairs of stars. The reader does not cut a glob at its slashes, but
behind a slash each segment gives tokens of its own (`readOn_behind`): a word gives the slash and a
token for each character, and two stars give one token in the place of their slash.
-/

namespace ManifestSearch.Glob

open ManifestSearch.Path (IsSegment)

variable {word text : List Char} {char : Char} {parts : List (List Char)}
  {branch front tokens : List Token} {token : Token} {before : Option Char} {stage : Stage}
  {stars : List Char}

def twoStars : List Char := ['*', '*']

/-! The tokens of a glob behind a slash. -/

/-- A character that no class, group or segment begins or ends with. -/
def IsSimple (char : Char) : Prop := char ≠ '/' ∧ char ≠ '[' ∧ char ≠ '{' ∧ char ≠ '}'

def wordToken (char : Char) : Token :=
  if char = '*' then .anyRun else if char = '?' then .anyByte else .char char

/-- Two stars take the place of the slash behind them, and add nothing to stars there. -/
def spanning : List Token → List Token
  | [] => [.allBelow]
  | .char '/' :: tokens => .innerDirs :: tokens
  | tokens => tokens

/-- The tokens of segments, each behind a slash. -/
def behind : List (List Char) → List Token
  | [] => []
  | part :: parts =>
      if part = twoStars then spanning (behind parts)
      else .char '/' :: (part.map wordToken ++ behind parts)

theorem spanning_spanning (tokens : List Token) : spanning (spanning tokens) = spanning tokens := by
  fun_cases spanning tokens with
  | case1 => rfl
  | case2 => rfl
  | case3 tokens occupied others => rw [spanning.eq_3 tokens occupied others]

theorem behind_stars (parts : List (List Char)) :
    behind (twoStars :: parts) = spanning (behind parts) :=
  if_pos rfl

theorem behind_word (single : word ≠ twoStars) (parts : List (List Char)) :
    behind (word :: parts) = .char '/' :: (word.map wordToken ++ behind parts) :=
  if_neg single

theorem behind_start (parts : List (List Char)) :
    behind parts = [] ∨ ∃ token tokens, behind parts = token :: tokens ∧ StartsWithSlash token := by
  induction parts with
  | nil => exact .inl rfl
  | cons part parts ih =>
      refine .inr ?_
      by_cases stars : part = twoStars
      · subst stars
        rw [behind_stars]
        unfold spanning
        split
        · exact ⟨_, _, rfl, .inr (.inr rfl)⟩
        · exact ⟨_, _, rfl, .inr (.inl rfl)⟩
        · rename_i other others
          exact ih.resolve_left other
      · exact ⟨_, _, behind_word stars parts, .inl rfl⟩

/-! Reading a word. -/

/-- Stars that wait for what follows them. -/
inductive Waits : Stage → List Char → Prop where
  | none : Waits .between []
  | one : Waits .star ['*']
  | two : Waits .twoStars ['*', '*']

theorem take_simple (simple : IsSimple char) (notStar : char ≠ '*') :
    Reading.take ⟨branch, [], before, stage⟩ char =
      .ok ⟨wordToken char :: branch, [], some char, stage⟩ := by
  obtain ⟨-, notClass, notGroup, notEnd⟩ := simple
  rw [Reading.take, if_neg notStar]
  dsimp only
  split
  · contradiction
  · rfl
  · contradiction
  · contradiction
  · rfl
  · rename_i notOne _ _ _
    simp [Reading.push, wordToken, notStar, show char ≠ '?' from notOne]

/-- Two stars mean no more than one if the word goes on behind them, or began before them. -/
theorem settleStars_word {next : Option Char}
    (inWord : next ≠ none ∧ next ≠ some '/' ∨ branch ≠ [] ∧ before ≠ some '/') :
    Reading.settleStars ⟨branch, [], before, stage⟩ next =
      (⟨.anyRun :: .anyRun :: branch, [], some '*', .between⟩, false) := by
  rcases inWord with ⟨goesOn, notSlash⟩ | ⟨occupied, notBegun⟩
  · by_cases empty : branch = []
    · simp [Reading.settleStars, Reading.plainStars, Reading.push, Reading.passStars, empty, goesOn,
        notSlash]
    · simp [Reading.settleStars, Reading.plainStars, Reading.push, Reading.passStars,
        Reading.endsBefore, empty, goesOn, notSlash]
  · simp [Reading.settleStars, Reading.plainStars, Reading.push, Reading.passStars, occupied,
      notBegun]

/-- A character of a word is read behind the tokens of the stars that wait for it. -/
theorem step_word (waits : Waits stage stars) (simple : IsSimple char) (notStar : char ≠ '*') :
    Reading.step ⟨branch, [], before, stage⟩ char =
      .ok ⟨wordToken char :: ((stars.map wordToken).reverse ++ branch), [], some char,
        .between⟩ := by
  cases waits with
  | none => exact take_simple simple notStar
  | one =>
      rw [Reading.step, if_neg notStar]
      exact take_simple simple notStar
  | two =>
      have goesOn : some char ≠ none ∧ some char ≠ some '/' := ⟨by simp, by simpa using simple.1⟩
      simp only [Reading.step, settleStars_word (.inl goesOn)]
      exact take_simple simple notStar

/-- Stars that still wait at the end of a word belong to it, unless they are all of it. -/
theorem readOn_waiting (waits : Waits stage stars)
    (single : branch = [] ∨ before = some '/' → stars ≠ twoStars)
    (ends : text = [] ∨ text.head? = some '/') :
    ∃ last, readOn ⟨branch, [], before, stage⟩ text =
      readOn ⟨(stars.map wordToken).reverse ++ branch, [], last, .between⟩ text := by
  cases waits with
  | none => exact ⟨before, rfl⟩
  | one =>
      refine ⟨some '*', ?_⟩
      rcases ends with rfl | slash
      · rfl
      · obtain ⟨rest, rfl⟩ := List.head?_eq_some_iff.mp slash
        rfl
  | two =>
      have inWord : branch ≠ [] ∧ before ≠ some '/' := by
        rw [← not_or]
        exact fun begins => single begins rfl
      refine ⟨some '*', ?_⟩
      rcases ends with rfl | slash
      · simp only [readOn, Reading.finish, settleStars_word (.inr inWord)]
        rfl
      · obtain ⟨rest, rfl⟩ := List.head?_eq_some_iff.mp slash
        simp only [readOn, Reading.step, settleStars_word (.inr inWord)]
        rfl

/-- A word is read as one token for each character, also where stars of it wait already. -/
theorem readOn_word (waits : Waits stage stars) (simple : ∀ char ∈ word, IsSimple char)
    (single : branch = [] ∨ before = some '/' → stars ++ word ≠ twoStars)
    (ends : text = [] ∨ text.head? = some '/') :
    ∃ last, readOn ⟨branch, [], before, stage⟩ (word ++ text) =
      readOn ⟨((stars ++ word).map wordToken).reverse ++ branch, [], last, .between⟩ text := by
  induction word generalizing stage stars branch before with
  | nil =>
      rw [List.append_nil] at single ⊢
      exact readOn_waiting waits single ends
  | cons char word ih =>
      have first := simple char (by simp)
      have others : ∀ char ∈ word, IsSimple char := fun other member =>
        simple other (List.mem_cons_of_mem char member)
      by_cases star : char = '*'
      · subst star
        cases waits with
        | none => exact ih .one others single
        | one => exact ih .two others single
        | two =>
            have goesOn : some '*' ≠ none ∧ some '*' ≠ some '/' := by decide
            obtain ⟨last, further⟩ := @ih (.anyRun :: .anyRun :: branch) (some '*') .star ['*'] .one
              others (by simp)
            refine ⟨last, ?_⟩
            simp only [List.cons_append, readOn, Reading.step, settleStars_word (.inl goesOn)]
            simpa [Reading.take, wordToken] using further
      · obtain ⟨last, further⟩ := @ih (wordToken char :: ((stars.map wordToken).reverse ++ branch))
          (some char) .between [] .none others (by simp [first.1])
        refine ⟨last, ?_⟩
        rw [List.cons_append, readOn, step_word waits first star]
        simpa using further

/-! Reading segments behind a slash. -/

/-- A token that two stars behind it replace: a slash, or the directories below one. -/
def TakesStars (token : Token) : Prop := token = .char '/' ∨ token = .innerDirs

theorem readOn_stars_slash (takes : TakesStars token) :
    readOn ⟨token :: front, [], some '/', .between⟩ ('*' :: '*' :: '/' :: text) =
      readOn ⟨.innerDirs :: front, [], some '/', .between⟩ text := by
  rcases takes with rfl | rfl
  · rfl
  · rfl

theorem readOn_stars_end (takes : TakesStars token) :
    readOn ⟨token :: front, [], some '/', .between⟩ ['*', '*'] =
      .ok (front.reverse ++ [.allBelow]) := by
  rcases takes with rfl | rfl
  · exact congrArg Except.ok (List.reverse_cons ..)
  · exact congrArg Except.ok (List.reverse_cons ..)

/-- What such a token and the segments behind it come to. -/
def continued : Token → List (List Char) → List Token
  | .innerDirs, parts => spanning (behind parts)
  | _, parts => behind parts

theorem continued_word (takes : TakesStars token) (single : word ≠ twoStars) :
    continued token (word :: parts) = token :: (word.map wordToken ++ behind parts) := by
  rcases takes with rfl | rfl
  · exact behind_word single parts
  · exact congrArg spanning (behind_word single parts)

theorem continued_stars (takes : TakesStars token) :
    continued token (twoStars :: parts) = continued .innerDirs parts := by
  rcases takes with rfl | rfl
  · exact behind_stars parts
  · exact (congrArg spanning (behind_stars parts)).trans (spanning_spanning _)

theorem readOn_behind (takes : TakesStars token) (occupied : parts ≠ [])
    (simple : ∀ part ∈ parts, ∀ char ∈ part, IsSimple char) :
    readOn ⟨token :: front, [], some '/', .between⟩ (Text.joined '/' parts) =
      .ok (front.reverse ++ continued token parts) := by
  induction parts generalizing token front with
  | nil => contradiction
  | cons part parts ih =>
      have others : ∀ part ∈ parts, ∀ char ∈ part, IsSimple char := fun other member =>
        simple other (List.mem_cons_of_mem part member)
      by_cases stars : part = twoStars
      · subst stars
        rw [continued_stars takes]
        by_cases last : parts = []
        · subst last
          exact readOn_stars_end takes
        · rw [Text.joined_cons last]
          exact (readOn_stars_slash takes).trans (ih (.inr rfl) last others)
      · have word (text : List Char) := @readOn_word part text (token :: front) (some '/')
          .between [] .none (simple part (by simp)) fun _ => stars
        rw [continued_word takes stars]
        by_cases last : parts = []
        · subst last
          obtain ⟨before, further⟩ := word [] (.inl rfl)
          rw [List.append_nil] at further
          rw [Text.joined, further]
          simp [readOn, Reading.finish, Reading.closed, behind]
        · obtain ⟨before, further⟩ := word ('/' :: Text.joined '/' parts) (.inr rfl)
          rw [Text.joined_cons last, further, readOn, Reading.step_isPlain (by decide)]
          simp [ih (.inl rfl) last others, continued]

/-- Reading starts as if the glob stood behind a slash. -/
theorem readOn_joined (occupied : parts ≠ []) (plain : ∀ part ∈ parts, IsSegment part)
    (simple : ∀ part ∈ parts, ∀ char ∈ part, IsSimple char) :
    ∃ tokens, readOn {} (Text.joined '/' parts) = .ok tokens ∧
      grafted [] tokens = behind parts := by
  have some : Text.joined '/' parts ≠ [] := fun none =>
    occupied ((Text.joined_eq_nil fun part member => (plain part member).full).mp none)
  have read := @readOn_grafted [] (Text.joined '/' parts) (by simp) some
    (Path.getLast?_joined_ne_slash plain)
  rw [List.nil_append, readOn, Reading.step_isPlain (by decide)] at read
  have whole := (@readOn_behind parts [] (.char '/') (.inl rfl) occupied simple).symm.trans read
  cases tokens : readOn {} (Text.joined '/' parts) with
  | error reason => simp [tokens, Except.map] at whole
  | ok found =>
      simp only [tokens, Except.map, Except.ok.injEq] at whole
      exact ⟨found, rfl, whole.symm⟩

end ManifestSearch.Glob
