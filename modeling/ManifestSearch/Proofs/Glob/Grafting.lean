import ManifestSearch.Proofs.Glob.PlainStart

/-!
A glob behind a plain front. If a plain front and a slash are put before a glob, they stay in front
of everything that is read (`Reading.graft_step`): only two stars right behind that slash are read
otherwise than at the start of a text, and they mean the same directories. So the longer glob
matches exactly the texts that begin with the front and a slash and go on with a match of the
shorter one.
-/

namespace ManifestSearch.Glob

variable {front tokens : List Token} {token last : Token} {reading after : Reading} {char : Char}
  {plain text : List Char} {found : List UInt8}

/-- A character that stands for itself wherever a glob may begin. -/
def isPlain (char : Char) : Bool := !Pattern.isWild char && char != '}'

/-- Puts a front and a slash before tokens; each list is held with its last token first. -/
def graft (front : List Token) : List Token → List Token
  | [] => .char '/' :: front
  | [.leadingDirs] => .innerDirs :: front
  | token :: tokens => token :: graft front tokens

theorem graft_cons (others : token :: tokens ≠ [.leadingDirs]) :
    graft front (token :: tokens) = token :: graft front tokens := by
  rw [graft]
  rintro rfl rfl
  exact others rfl

theorem graft_cons_of_ne (other : token ≠ .leadingDirs) :
    graft front (token :: tokens) = token :: graft front tokens :=
  graft_cons fun same => other (List.cons.inj same).1

theorem graft_ne_nil (front tokens : List Token) : graft front tokens ≠ [] := by
  unfold graft
  split <;> simp

theorem graft_ne_alone (front tokens : List Token) : graft front tokens ≠ [.leadingDirs] := by
  unfold graft
  split
  · simp
  · simp
  · simp [graft_ne_nil]

namespace Reading

def graftGroups (front : List Token) : List Group → List Group
  | [] => []
  | [group] => [{ group with outer := Glob.graft front group.outer }]
  | group :: groups => group :: graftGroups front groups

/-- What stands before the next character once a slash stands before all that is read. -/
def graftBefore : List Token → Option Char → Stage → Option Char
  | [], before, .inClass _ => before
  | [], _, _ => some '/'
  | _, before, _ => before

/-- Puts a front and a slash before all that is read. -/
def graft (front : List Token) : Reading → Reading
  | ⟨branch, [], before, stage⟩ =>
      ⟨Glob.graft front branch, [], graftBefore branch before stage, stage⟩
  | ⟨branch, groups, before, stage⟩ => ⟨branch, graftGroups front groups, before, stage⟩

@[simp]
theorem graft_stage (reading : Reading) : (reading.graft front).stage = reading.stage := by
  obtain ⟨branch, groups, before, stage⟩ := reading
  cases groups <;> rfl

/-- The reading after a character, before it is acted upon. -/
def noted (reading : Reading) (char : Char) : Reading := { reading with before := some char }

theorem graft_push (other : token ≠ .leadingDirs) :
    ((reading.graft front).noted char).push token =
      ((reading.noted char).push token).graft front := by
  obtain ⟨branch, groups, before, stage⟩ := reading
  cases groups with
  | nil => simp [push, noted, graft, graft_cons_of_ne other, graftBefore]
  | cons group groups => rfl

theorem graft_openGroup : ((reading.graft front).noted char).openGroup =
    (reading.noted char).openGroup.graft front := by
  obtain ⟨branch, groups, before, stage⟩ := reading
  cases groups with
  | nil => rfl
  | cons group groups => rfl

theorem graft_closeGroup : ((reading.graft front).noted char).closeGroup =
    (reading.noted char).closeGroup.map (graft front) := by
  obtain ⟨branch, groups, before, stage⟩ := reading
  match groups with
  | [] => rfl
  | [group] =>
      simp [closeGroup, noted, graft, graftGroups, graft_cons_of_ne, graftBefore, Except.map]
  | group :: next :: groups => rfl

theorem graft_comma : ((reading.graft front).noted char).comma =
    (reading.noted char).comma.graft front := by
  obtain ⟨branch, groups, before, stage⟩ := reading
  match groups with
  | [] => exact graft_push (by simp)
  | [group] => rfl
  | group :: next :: groups => rfl

theorem graft_take (between : reading.stage = .between) (char : Char) :
    (reading.graft front).take char = (reading.take char).map (graft front) := by
  unfold take
  split
  · obtain ⟨branch, groups, before, stage⟩ := reading
    cases between
    cases groups with
    | nil => cases branch <;> rfl
    | cons group groups => rfl
  · dsimp only
    split
    · obtain ⟨branch, groups, before, stage⟩ := reading
      cases groups with
      | nil => cases branch <;> rfl
      | cons group groups => rfl
    · exact congrArg Except.ok (graft_push (by simp))
    · exact congrArg Except.ok graft_openGroup
    · exact graft_closeGroup
    · exact congrArg Except.ok graft_comma
    · exact congrArg Except.ok (graft_push (by simp))

/-- Two stars that take the place of a slash do so behind a front too, unless all that is read are
the stars at the start. -/
theorem graft_segmentStars {branch : List Token} {before : Option Char} {stage : Stage}
    (others : token :: branch ≠ [.leadingDirs]) (stars : StartsWithSlash last) :
    (graft front ⟨token :: branch, [], before, stage⟩).segmentStars last =
      (segmentStars ⟨token :: branch, [], before, stage⟩ last).graft front := by
  have replaced : graft front ⟨last :: branch, [], some '*', .between⟩ =
      ⟨last :: Glob.graft front branch, [], some '*', .between⟩ := by
    rcases stars with rfl | rfl | rfl <;> rfl
  cases token with
  | leadingDirs =>
      cases branch with
      | nil => exact absurd rfl others
      | cons next branch => rfl
  | allBelow => rfl
  | _ => exact replaced.symm

theorem graft_segmentStars_inside {branch : List Token} {group : Group} {groups : List Group}
    {before : Option Char} {stage : Stage} :
    (graft front ⟨branch, group :: groups, before, stage⟩).segmentStars token =
      (segmentStars ⟨branch, group :: groups, before, stage⟩ token).graft front := by
  simp only [graft, segmentStars]
  split <;> rfl

theorem graft_plainStars : (reading.graft front).plainStars = reading.plainStars.graft front := by
  obtain ⟨branch, groups, before, stage⟩ := reading
  cases groups with
  | nil => simp [plainStars, push, passStars, graft, graft_cons_of_ne, graftBefore]
  | cons group groups => rfl

theorem graft_oneStar : (reading.graft front).oneStar = reading.oneStar.graft front := by
  obtain ⟨branch, groups, before, stage⟩ := reading
  cases groups with
  | nil => simp [oneStar, push, passStars, graft, graft_cons_of_ne, graftBefore]
  | cons group groups => rfl

theorem graft_settleStars (waits : reading.stage = .twoStars) (char : Char) :
    (reading.graft front).settleStars (some char) =
      ((reading.settleStars (some char)).1.graft front, (reading.settleStars (some char)).2) := by
  have words := @graft_plainStars front reading
  obtain ⟨branch, groups, before, stage⟩ := reading
  cases waits
  match groups with
  | [] =>
      cases branch with
      | nil =>
          by_cases slash : char = '/'
          · subst slash
            rfl
          · simpa [settleStars, endsBefore, graft, graftBefore, graft_ne_nil, slash] using words
      | cons token branch =>
          have stars :
              (graft front ⟨token :: branch, [], before, .twoStars⟩).segmentStars .innerDirs =
                (segmentStars ⟨token :: branch, [], before, .twoStars⟩ .innerDirs).graft front := by
            by_cases alone : token :: branch = [.leadingDirs]
            · cases alone
              rfl
            · exact graft_segmentStars alone (.inr (.inl rfl))
          by_cases behindSlash : before = some '/'
          · by_cases slash : char = '/'
            · simpa [settleStars, endsBefore, graft, graftBefore, graft_ne_nil, behindSlash, slash]
                using stars
            · simpa [settleStars, endsBefore, graft, graftBefore, graft_ne_nil, behindSlash, slash]
                using words
          · simpa [settleStars, graft, graftBefore, graft_ne_nil, behindSlash] using words
  | group :: groups =>
      have inside : (graftGroups front (group :: groups)).isEmpty = false := by
        cases groups <;> rfl
      have below := @graft_segmentStars_inside front .allBelow branch group groups before .twoStars
      have inner := @graft_segmentStars_inside front .innerDirs branch group groups before .twoStars
      simp only [graft] at words below inner
      simp only [settleStars, endsBefore, graft, inside, List.isEmpty_cons, words, below, inner]
      split
      · split
        · rfl
        · split
          · rfl
          · rfl
      · split
        · rfl
        · split
          · rfl
          · split
            · rfl
            · rfl

/-- Two stars are settled within their group, and only a slash is taken together with them. -/
theorem settleStars_spec (reading : Reading) (next : Option Char) :
    (reading.settleStars next).1.stage = .between ∧
      (reading.settleStars next).1.groups = reading.groups ∧
      ((reading.settleStars next).2 → next = some '/') := by
  have segment (token : Token) : (reading.segmentStars token).stage = .between ∧
      (reading.segmentStars token).groups = reading.groups := by
    unfold segmentStars
    split <;> exact ⟨rfl, rfl⟩
  unfold settleStars
  split
  · split
    · exact ⟨rfl, rfl, nofun⟩
    · split
      · exact ⟨rfl, rfl, fun _ => ‹_›⟩
      · exact ⟨rfl, rfl, nofun⟩
  · split
    · exact ⟨rfl, rfl, nofun⟩
    · split
      · exact ⟨(segment _).1, (segment _).2, nofun⟩
      · split
        · exact ⟨(segment _).1, (segment _).2, fun _ => ‹_›⟩
        · exact ⟨rfl, rfl, nofun⟩

theorem graft_noted_slash :
    (reading.graft front).noted '/' = (reading.noted '/').graft front := by
  obtain ⟨branch, groups, before, stage⟩ := reading
  cases groups with
  | nil =>
      cases branch with
      | nil => cases stage <;> rfl
      | cons token branch => rfl
  | cons group groups => rfl

/-- Reading a character and putting a front before what is read may be exchanged. -/
theorem graft_step (reading : Reading) (char : Char) :
    (reading.graft front).step char = (reading.step char).map (graft front) := by
  unfold step
  rw [graft_stage]
  cases waits : reading.stage with
  | between => exact graft_take waits char
  | star =>
      dsimp only
      split
      · obtain ⟨branch, groups, before, stage⟩ := reading
        cases waits
        cases groups with
        | nil => cases branch <;> rfl
        | cons group groups => rfl
      · rw [graft_oneStar]
        exact graft_take rfl char
  | twoStars =>
      obtain ⟨between, -, slash⟩ := settleStars_spec reading (some char)
      rw [graft_settleStars waits]
      generalize reading.settleStars (some char) = settled at between slash
      obtain ⟨stars, consumed⟩ := settled
      cases consumed with
      | true =>
          cases slash rfl
          exact congrArg Except.ok graft_noted_slash
      | false => exact graft_take between char
  | inClass bracket =>
      obtain ⟨branch, groups, before, stage⟩ := reading
      cases waits
      dsimp only
      split
      · cases groups with
        | nil => simp [push, graft, graft_cons_of_ne, graftBefore, Bracket.token, Except.map]
        | cons group groups => rfl
      · cases bracket.take char with
        | error reason => rfl
        | ok taken =>
            cases groups with
            | nil => cases branch <;> rfl
            | cons group groups => rfl

/-- Nothing has been read but stars and a slash that belongs to them. -/
def IsStarsAlone (reading : Reading) : Prop :=
  reading.stage = .between ∧ reading.groups = [] ∧ reading.branch = [.leadingDirs]

theorem not_isStarsAlone_of_take (taken : reading.take char = .ok after) : ¬after.IsStarsAlone := by
  rintro ⟨between, outside, alone⟩
  unfold take at taken
  split at taken
  · cases taken
    contradiction
  · dsimp only at taken
    split at taken
    · cases taken
      contradiction
    · cases taken
      simp [push] at alone
    · cases taken
      simp [openGroup] at outside
    · unfold closeGroup at taken
      split at taken
      · contradiction
      · cases taken
        simp at alone
    · cases taken
      unfold comma at outside alone
      split at alone
      · simp [push] at alone
      · simp at alone
    · cases taken
      simp [push] at alone

theorem not_isStarsAlone_of_step (stepped : reading.step char = .ok after) (other : char ≠ '/') :
    ¬after.IsStarsAlone := by
  unfold step at stepped
  split at stepped
  · exact not_isStarsAlone_of_take stepped
  · split at stepped
    · cases stepped
      rintro ⟨between, -⟩
      contradiction
    · exact not_isStarsAlone_of_take stepped
  · split at stepped
    · rename_i stars consumed
      have slash := (settleStars_spec reading (some char)).2.2 (congrArg Prod.snd consumed)
      exact absurd (Option.some.inj slash) other
    · exact not_isStarsAlone_of_take stepped
  · split at stepped
    · cases stepped
      rintro ⟨-, -, alone⟩
      simp [push, Bracket.token] at alone
    · rename_i bracket _ _
      cases more : bracket.take char with
      | error reason => simp [more, Except.map] at stepped
      | ok taken =>
          simp only [more, Except.map, Except.ok.injEq] at stepped
          subst stepped
          rintro ⟨between, -⟩
          contradiction

end Reading

/-- The tokens of a glob behind a front. Two stars alone match everything, and behind a slash they
match everything below. -/
def grafted (front : List Token) (tokens : List Token) : List Token :=
  match tokens with
  | [.leadingDirs] => front.reverse ++ [.allBelow]
  | _ => (graft front tokens.reverse).reverse

theorem grafted_reverse (others : tokens ≠ [.leadingDirs]) :
    grafted front tokens.reverse = (graft front tokens).reverse := by
  unfold grafted
  split
  · rename_i alone
    exact absurd (List.reverse_eq_iff.mp alone) others
  · rw [List.reverse_reverse]

namespace Reading

theorem graft_closed (others : reading.groups = [] → reading.branch ≠ [.leadingDirs]) :
    (reading.graft front).closed = reading.closed.map (grafted front) := by
  obtain ⟨branch, groups, before, stage⟩ := reading
  match groups with
  | [] => exact congrArg Except.ok (grafted_reverse (others rfl)).symm
  | [group] => rfl
  | group :: next :: groups => rfl

theorem segmentStars_ne_alone {branch : List Token} {before : Option Char} {stage : Stage}
    (others : token :: branch ≠ [.leadingDirs]) :
    (segmentStars ⟨token :: branch, [], before, stage⟩ .allBelow).branch ≠ [.leadingDirs] := by
  cases token with
  | leadingDirs => exact others
  | _ => simp [segmentStars, passStars]

theorem closed_of_groups (inside : reading.groups ≠ []) :
    reading.closed = .error .unclosedChoice := by
  obtain ⟨branch, groups, before, stage⟩ := reading
  cases groups with
  | nil => exact absurd rfl inside
  | cons group groups => rfl

theorem settleStars_words (occupied : reading.branch ≠ []) (other : reading.before ≠ some '/') :
    (reading.settleStars none).1 = reading.plainStars := by
  simp [settleStars, occupied, other]

theorem settleStars_last (occupied : reading.branch ≠ []) (slash : reading.before = some '/') :
    (reading.settleStars none).1 = reading.segmentStars .allBelow := by
  simp [settleStars, endsBefore, occupied, slash]

theorem graft_settleStars_none (waits : reading.stage = .twoStars) :
    ((reading.graft front).settleStars none).1.closed =
      (reading.settleStars none).1.closed.map (grafted front) := by
  have words := @graft_plainStars front reading
  obtain ⟨branch, groups, before, stage⟩ := reading
  cases waits
  match groups with
  | [] =>
      cases branch with
      | nil => simp [settleStars, endsBefore, graft, Glob.graft, graftBefore, segmentStars, push,
          passStars, closed, grafted, Except.map]
      | cons token branch =>
          by_cases behindSlash : before = some '/'
          · subst behindSlash
            by_cases alone : token :: branch = [.leadingDirs]
            · cases alone
              simp [settleStars, endsBefore, graft, Glob.graft, graftBefore, segmentStars,
                passStars, closed, grafted, Except.map]
            · rw [settleStars_last (graft_ne_nil _ _) rfl, settleStars_last (by simp) rfl,
                graft_segmentStars alone (.inr (.inr rfl))]
              exact graft_closed fun _ => segmentStars_ne_alone alone
          · rw [settleStars_words (graft_ne_nil _ _) behindSlash,
              settleStars_words (by simp) behindSlash, words]
            exact graft_closed fun _ => by simp [plainStars, push, passStars]
  | group :: groups =>
      have inside : (graft front ⟨branch, group :: groups, before, .twoStars⟩).groups ≠ [] := by
        cases groups <;> simp [graft, graftGroups]
      have unclosed (reading : Reading) (inside : reading.groups ≠ []) :
          (reading.settleStars none).1.closed = .error .unclosedChoice :=
        closed_of_groups (by rwa [(settleStars_spec reading none).2.1])
      rw [unclosed _ inside, unclosed _ (by simp)]
      rfl

/-- At the end, too, reading and putting a front before may be exchanged. -/
theorem graft_finish (others : ¬reading.IsStarsAlone) :
    (reading.graft front).finish = reading.finish.map (grafted front) := by
  unfold finish
  rw [graft_stage]
  cases waits : reading.stage with
  | between => exact graft_closed fun outside alone => others ⟨waits, outside, alone⟩
  | star =>
      dsimp only
      rw [graft_oneStar]
      exact graft_closed fun _ => by simp [oneStar, push, passStars]
  | twoStars => exact graft_settleStars_none waits
  | inClass bracket => rfl

theorem graft_readOn (others : text = [] → ¬reading.IsStarsAlone)
    (ending : text.getLast? ≠ some '/') :
    readOn (reading.graft front) text = (readOn reading text).map (grafted front) := by
  induction text generalizing reading with
  | nil => exact graft_finish (others rfl)
  | cons char text ih =>
      rw [readOn, readOn, graft_step]
      cases stepped : reading.step char with
      | error reason => rfl
      | ok after =>
          refine ih ?_ ?_
          · rintro rfl
            exact not_isStarsAlone_of_step stepped (by simpa using ending)
          · cases text with
            | nil => simp
            | cons next text => simpa using ending

theorem step_isPlain {branch : List Token} {before : Option Char} (plainChar : isPlain char) :
    step ⟨branch, [], before, .between⟩ char =
      .ok ⟨.char char :: branch, [], some char, .between⟩ := by
  simp only [isPlain, Pattern.isWild, Bool.and_eq_true, Bool.not_eq_true', Bool.or_eq_false_iff,
    beq_eq_false_iff_ne, bne_iff_ne] at plainChar
  obtain ⟨⟨⟨⟨notStar, notAny⟩, notClass⟩, notGroup⟩, notEnd⟩ := plainChar
  simp only [step, take, if_neg notStar]
  split
  · exact absurd rfl notClass
  · exact absurd rfl notAny
  · exact absurd rfl notGroup
  · exact absurd rfl notEnd
  · rfl
  · rfl

theorem readOn_isPlain {branch : List Token} {before : Option Char}
    (plainFront : ∀ char ∈ plain, isPlain char) :
    ∃ last, readOn ⟨branch, [], before, .between⟩ (plain ++ text) =
      readOn ⟨(plain.map .char).reverse ++ branch, [], last, .between⟩ text := by
  induction plain generalizing branch before with
  | nil => exact ⟨before, rfl⟩
  | cons char plain ih =>
      obtain ⟨last, further⟩ := @ih (.char char :: branch) (some char) fun other member =>
        plainFront other (List.mem_cons_of_mem char member)
      refine ⟨last, ?_⟩
      rw [List.cons_append, readOn, step_isPlain (plainFront char (by simp))]
      simpa using further

end Reading

/-- A glob behind a plain front is read as the glob with the front before its tokens. -/
theorem readOn_grafted (plainFront : ∀ char ∈ plain, isPlain char) (occupied : text ≠ [])
    (ending : text.getLast? ≠ some '/') :
    readOn {} (plain ++ '/' :: text) =
      (readOn {} text).map (grafted (plain.map .char).reverse) := by
  obtain ⟨last, further⟩ := @Reading.readOn_isPlain plain ('/' :: text) [] none plainFront
  have whole : readOn (Reading.graft (plain.map .char).reverse {}) text = _ :=
    Reading.graft_readOn (fun empty => absurd empty occupied) ending
  rw [further, readOn, Reading.step_isPlain (by decide), List.append_nil]
  exact whole

theorem parse_grafted {glob longer : String} (plainFront : ∀ char ∈ plain, isPlain char)
    (text : longer.toList = plain ++ '/' :: glob.toList) (occupied : glob ≠ "")
    (ending : glob.toList.getLast? ≠ some '/') :
    parse longer = (parse glob).map (grafted (plain.map .char).reverse) := by
  rw [parse, parse, text]
  exact readOn_grafted plainFront (by simpa using occupied) ending

/-! What the longer glob matches. -/

theorem matches_append {more : List Token} :
    (rowShape (tokens ++ more)).Matches found ↔ ∃ left right, found = left ++ right ∧
      (rowShape tokens).Matches left ∧ (rowShape more).Matches right := by
  induction tokens generalizing found with
  | nil =>
      constructor
      · exact fun matched => ⟨[], found, rfl, .empty, matched⟩
      · rintro ⟨left, right, rfl, none, matched⟩
        rw [Shape.matches_empty.mp none]
        exact matched
  | cons token tokens ih =>
      simp only [List.cons_append, rowShape, Shape.matches_andThen, Shape.matches_both, ih]
      constructor
      · rintro ⟨first, _, rfl, matched, left, right, rfl, before, behind⟩
        exact ⟨first ++ left, right, (List.append_assoc _ _ _).symm,
          ⟨first, left, rfl, matched, before⟩, behind⟩
      · rintro ⟨_, right, rfl, ⟨first, left, rfl, matched, before⟩, behind⟩
        exact ⟨first, left ++ right, List.append_assoc _ _ _, matched,
          left, right, rfl, before, behind⟩

theorem matches_single : (rowShape [token]).Matches found ↔ token.shape.Matches found := by
  simp [rowShape]

theorem matches_slash : Shape.slash.Matches found ↔ found = bytesOf '/' := by
  simp only [Shape.slash, Shape.matches_byte, ByteSet.has_only, exists_eq_right]
  rfl

theorem has_all (byte : UInt8) : ByteSet.all.has byte := by
  simp [ByteSet.all, ByteSet.has]

theorem matches_toSlash : Shape.toSlash.Matches found ↔ ∃ front, found = front ++ bytesOf '/' := by
  simp [Shape.toSlash, has_all, matches_slash]

/-- Directories behind a slash are that slash and directories at the start. -/
theorem matches_innerDirs : Token.innerDirs.shape.Matches found ↔
    ∃ rest, found = bytesOf '/' ++ rest ∧ Token.leadingDirs.shape.Matches rest := by
  simp only [Token.shape, Shape.matches_either, Shape.matches_both, Shape.matches_empty,
    matches_slash, matches_toSlash]
  constructor
  · rintro (rfl | ⟨_, rest, rfl, rfl, further⟩)
    · exact ⟨[], (List.append_nil _).symm, .inl (.inr rfl)⟩
    · exact ⟨rest, rfl, .inr further⟩
  · rintro ⟨rest, rfl, (rfl | rfl) | further⟩
    · exact .inr ⟨_, _, rfl, rfl, [], rfl⟩
    · exact .inl (List.append_nil _)
    · exact .inr ⟨_, _, rfl, rfl, further⟩

theorem matches_graft (plain : List Char) (tokens : List Token) :
    (rowShape (graft (plain.map .char).reverse tokens).reverse).Matches found ↔
      ∃ rest, found = plain.flatMap bytesOf ++ (bytesOf '/' ++ rest) ∧
        (rowShape tokens.reverse).Matches rest := by
  induction tokens generalizing found with
  | nil =>
      rw [graft, List.reverse_cons, List.reverse_reverse, matches_chars]
      simp [Token.shape, matches_ofBytes, rowShape]
  | cons token tokens ih =>
      by_cases alone : token :: tokens = [.leadingDirs]
      · cases alone
        rw [graft, List.reverse_cons, List.reverse_reverse, matches_chars]
        simp only [List.reverse_singleton, matches_single, matches_innerDirs]
        constructor
        · rintro ⟨_, rfl, rest, rfl, matched⟩
          exact ⟨rest, rfl, matched⟩
        · rintro ⟨rest, rfl, matched⟩
          exact ⟨_, rfl, rest, rfl, matched⟩
      · simp only [graft_cons alone, List.reverse_cons, matches_append, ih]
        constructor
        · rintro ⟨_, last, rfl, ⟨rest, rfl, matched⟩, ending⟩
          exact ⟨rest ++ last, by simp, rest, last, rfl, matched, ending⟩
        · rintro ⟨_, rfl, rest, last, rfl, matched, ending⟩
          exact ⟨_, last, by simp, ⟨rest, rfl, matched⟩, ending⟩

theorem shapeOf_of_ne (others : tokens ≠ [.leadingDirs]) : shapeOf tokens = rowShape tokens := by
  unfold shapeOf
  split
  · exact absurd rfl others
  · rfl

theorem encoded_eq_append {front : List Char} {rest : List UInt8} {subject : String} :
    encoded subject = front.flatMap bytesOf ++ rest ↔
      ∃ back, subject.toList = front ++ back ∧ rest = encoded (String.ofList back) := by
  constructor
  · intro whole
    obtain ⟨back, text⟩ : front <+: subject.toList := prefix_of_flatMap_bytesOf ⟨rest, whole.symm⟩
    refine ⟨back, text.symm, ?_⟩
    rw [encoded, ← text, List.flatMap_append, List.append_cancel_left_eq] at whole
    rw [encoded, String.toList_ofList, whole]
  · rintro ⟨back, text, rfl⟩
    rw [encoded, encoded, text, List.flatMap_append, String.toList_ofList]

/-- A glob behind a plain front matches what begins with the front and a slash and goes on with a
match of the glob. -/
theorem isMatch_grafted {subject : String} :
    isMatch (grafted (plain.map .char).reverse tokens) subject ↔
      ∃ rest, subject.toList = plain ++ '/' :: rest ∧ isMatch tokens (String.ofList rest) := by
  have split (matched : List UInt8 → Prop) :
      (∃ rest, encoded subject = plain.flatMap bytesOf ++ (bytesOf '/' ++ rest) ∧ matched rest) ↔
        ∃ rest, subject.toList = plain ++ '/' :: rest ∧ matched (encoded (String.ofList rest)) := by
    have joined (rest : List UInt8) : plain.flatMap bytesOf ++ (bytesOf '/' ++ rest) =
        (plain ++ ['/']).flatMap bytesOf ++ rest := by simp
    simp only [joined, encoded_eq_append]
    constructor
    · rintro ⟨_, ⟨back, text, rfl⟩, further⟩
      exact ⟨back, by simp [text], further⟩
    · rintro ⟨back, text, further⟩
      exact ⟨_, ⟨back, by simp [text], rfl⟩, further⟩
  simp only [isMatch, Shape.accepts_iff]
  by_cases alone : tokens = [.leadingDirs]
  · subst alone
    have everything (rest : List UInt8) : (shapeOf [.leadingDirs]).Matches rest :=
      Shape.matches_run.mpr fun byte _ => has_all byte
    rw [← split, grafted, List.reverse_reverse, shapeOf_front (.inr (.inr rfl)), matches_chars]
    simp only [matches_single, Token.shape, Shape.matches_both, matches_slash]
    constructor
    · rintro ⟨_, whole, _, rest, rfl, rfl, -⟩
      exact ⟨rest, whole, everything rest⟩
    · rintro ⟨rest, whole, -⟩
      exact ⟨_, whole, _, rest, rfl, rfl, Shape.matches_run.mpr fun byte _ => has_all byte⟩
  · have longer : grafted (plain.map .char).reverse tokens =
        (graft (plain.map .char).reverse tokens.reverse).reverse := by
      rw [← grafted_reverse fun same => alone (List.reverse_eq_iff.mp same), List.reverse_reverse]
    have others : grafted (plain.map .char).reverse tokens ≠ [.leadingDirs] := fun same =>
      graft_ne_alone _ _ (List.reverse_eq_iff.mp (longer.symm.trans same))
    rw [← split, shapeOf_of_ne alone, shapeOf_of_ne others, longer, matches_graft,
      List.reverse_reverse]

end ManifestSearch.Glob
