import ManifestSearch.Glob.Shape

/-!
What moving marks decides. After a shape, a place is marked exactly if the shape describes what
lies between some place marked before and it (`ends_iff`), so a glob is accepted exactly if it
describes the whole text (`accepts_iff`).
-/

namespace ManifestSearch.Glob.Shape

variable {text found : List UInt8} {marks : List Bool} {set : ByteSet} {carried : Bool}
  {shape first second left right : Shape} {start middle stop : Nat}

/-! What the kinds of shapes describe. -/

@[simp]
theorem matches_empty : Matches .empty found ↔ found = [] := by
  constructor
  · intro matched
    cases matched with
    | empty => rfl
  · intro same
    subst same
    exact .empty

@[simp]
theorem matches_byte : Matches (.byte set) found ↔ ∃ byte, found = [byte] ∧ set.has byte := by
  constructor
  · intro matched
    cases matched with
    | byte member => exact ⟨_, rfl, member⟩
  · intro holds
    obtain ⟨byte, rfl, member⟩ := holds
    exact .byte member

@[simp]
theorem matches_run : Matches (.run set) found ↔ ∀ byte ∈ found, set.has byte := by
  constructor
  · intro matched
    cases matched with
    | run members => exact members
  · exact .run

@[simp]
theorem matches_both : Matches (.both first second) found ↔
    ∃ front back, found = front ++ back ∧ Matches first front ∧ Matches second back := by
  constructor
  · intro matched
    cases matched with
    | both left right => exact ⟨_, _, rfl, left, right⟩
  · intro holds
    obtain ⟨front, back, rfl, left, right⟩ := holds
    exact .both left right

@[simp]
theorem matches_either :
    Matches (.either left right) found ↔ Matches left found ∨ Matches right found := by
  constructor
  · intro matched
    cases matched with
    | left matched => exact .inl matched
    | right matched => exact .inr matched
  · intro either
    rcases either with matched | matched
    · exact .left matched
    · exact .right matched

@[simp]
theorem matches_andThen :
    Matches (andThen first second) found ↔ Matches (.both first second) found := by
  unfold andThen
  split
  · rename_i none
    simp only [none, matches_both, matches_empty]
    constructor
    · exact fun matched => ⟨[], found, rfl, rfl, matched⟩
    · intro holds
      obtain ⟨front, back, rfl, rfl, matched⟩ := holds
      exact matched
  · split
    · rename_i none
      simp [none]
    · rfl

/-! Stretches of a text. -/

def between (text : List UInt8) (start stop : Nat) : List UInt8 :=
  (text.drop start).take (stop - start)

@[simp]
theorem between_self (text : List UInt8) (start : Nat) : between text start start = [] := by
  simp [between]

@[simp]
theorem between_nil (start stop : Nat) : between [] start stop = [] := by
  simp [between]

@[simp]
theorem between_cons (head : UInt8) (rest : List UInt8) (stop : Nat) :
    between (head :: rest) 0 (stop + 1) = head :: between rest 0 stop := by
  simp [between]

@[simp]
theorem between_succ (head : UInt8) (rest : List UInt8) (start stop : Nat) :
    between (head :: rest) (start + 1) (stop + 1) = between rest start stop := by
  simp [between]

theorem between_append (before : start ≤ middle) (after : middle ≤ stop) :
    between text start middle ++ between text middle stop = between text start stop := by
  have split : stop - start = (middle - start) + (stop - middle) := by omega
  have shift : start + (middle - start) = middle := by omega
  rw [between, between, between, split, List.take_add, List.drop_drop, shift]

theorem length_between (start : Nat) (bound : stop ≤ text.length) :
    (between text start stop).length = stop - start := by
  rw [between, List.length_take, List.length_drop]
  omega

theorem between_eq_append {front back : List UInt8} (before : start ≤ stop)
    (bound : stop ≤ text.length) (whole : between text start stop = front ++ back) :
    ∃ middle, start ≤ middle ∧ middle ≤ stop ∧ between text start middle = front ∧
      between text middle stop = back := by
  have size := length_between start bound
  rw [whole, List.length_append] at size
  have within : start + front.length ≤ text.length := by omega
  have parts : between text start (start + front.length) ++ between text (start + front.length) stop =
      between text start stop := between_append (by omega) (by omega)
  have length := length_between start within
  obtain ⟨same, rest⟩ := List.append_inj (parts.trans whole) (by omega)
  exact ⟨start + front.length, by omega, by omega, same, rest⟩

/-! Moving marks. -/

theorem length_pastByte (fits : marks.length = text.length + 1) :
    (pastByte set carried text marks).length = text.length + 1 := by
  induction text generalizing carried marks with
  | nil => simp [pastByte]
  | cons head rest ih =>
      cases marks with
      | nil => simp at fits
      | cons mark marks => simp [pastByte, ih (Nat.succ.inj fits)]

theorem length_pastRun (fits : marks.length = text.length + 1) :
    (pastRun set carried text marks).length = text.length + 1 := by
  induction text generalizing carried marks with
  | nil =>
      cases marks with
      | nil => simp at fits
      | cons mark marks => simp [pastRun]
  | cons head rest ih =>
      cases marks with
      | nil => simp at fits
      | cons mark marks => simp [pastRun, ih (Nat.succ.inj fits)]

theorem length_ends (fits : marks.length = text.length + 1) :
    (ends text shape marks).length = text.length + 1 := by
  induction shape generalizing marks with
  | empty => exact fits
  | byte set => exact length_pastByte fits
  | run set => exact length_pastRun fits
  | both first second ihFirst ihSecond => exact ihSecond (ihFirst fits)
  | either left right ihLeft ihRight => simp [ends, ihLeft fits, ihRight fits]

theorem pastByte_iff (fits : marks.length = text.length + 1) :
    (pastByte set carried text marks)[stop]? = some true ↔
      (stop = 0 ∧ carried) ∨ ∃ start, marks[start]? = some true ∧ stop = start + 1 ∧
        ∃ byte, between text start stop = [byte] ∧ set.has byte := by
  induction text generalizing carried marks stop with
  | nil => cases stop <;> simp [pastByte]
  | cons head rest ih =>
      cases marks with
      | nil => simp at fits
      | cons mark marks =>
          cases stop with
          | zero => simp [pastByte]
          | succ stop =>
              rw [pastByte, List.getElem?_cons_succ, ih (Nat.succ.inj fits)]
              constructor
              · intro either
                rcases either with ⟨rfl, kept⟩ | ⟨start, marked, rfl, byte, stretch, member⟩
                · simp only [Bool.and_eq_true] at kept
                  exact .inr ⟨0, by simp [kept.1], rfl, head, by simp, kept.2⟩
                · exact .inr ⟨start + 1, marked, rfl, byte, by simpa using stretch, member⟩
              · intro either
                rcases either with ⟨impossible, -⟩ | ⟨start, marked, same, byte, stretch, member⟩
                · contradiction
                · cases start with
                  | zero =>
                      cases same
                      obtain rfl : head = byte := by simpa using stretch
                      have here : mark = true := by simpa using marked
                      exact .inl ⟨rfl, by simp [here, member]⟩
                  | succ start =>
                      cases same
                      exact .inr ⟨start, marked, rfl, byte, by simpa using stretch, member⟩

theorem pastRun_iff (fits : marks.length = text.length + 1) :
    (pastRun set carried text marks)[stop]? = some true ↔ stop ≤ text.length ∧
      ((carried ∧ ∀ byte ∈ between text 0 stop, set.has byte) ∨
        ∃ start ≤ stop, marks[start]? = some true ∧
          ∀ byte ∈ between text start stop, set.has byte) := by
  induction text generalizing carried marks stop with
  | nil =>
      cases marks with
      | nil => simp at fits
      | cons mark marks => cases stop <;> simp [pastRun, or_comm]
  | cons head rest ih =>
      cases marks with
      | nil => simp at fits
      | cons mark marks =>
          cases stop with
          | zero => simp [pastRun, or_comm]
          | succ stop =>
              rw [pastRun, List.getElem?_cons_succ, ih (Nat.succ.inj fits)]
              simp only [Bool.and_eq_true, Bool.or_eq_true, List.length_cons, Nat.succ_le_succ_iff]
              refine and_congr_right fun _ => ?_
              constructor
              · intro either
                rcases either with ⟨⟨here | carried, member⟩, members⟩ | ⟨start, before, marked, members⟩
                · exact .inr ⟨0, Nat.zero_le _, by simp [here], by simpa using ⟨member, members⟩⟩
                · exact .inl ⟨carried, by simpa using ⟨member, members⟩⟩
                · exact .inr ⟨start + 1, Nat.succ_le_succ before, marked, by simpa using members⟩
              · intro either
                rcases either with ⟨carried, members⟩ | ⟨start, before, marked, members⟩
                · simp only [between_cons, List.forall_mem_cons] at members
                  exact .inl ⟨⟨.inr carried, members.1⟩, members.2⟩
                · cases start with
                  | zero =>
                      simp only [between_cons, List.forall_mem_cons] at members
                      have here : mark = true := by simpa using marked
                      exact .inl ⟨⟨.inl here, members.1⟩, members.2⟩
                  | succ start =>
                      exact .inr ⟨start, Nat.le_of_succ_le_succ before, marked,
                        by simpa using members⟩

/-- A place is marked exactly if a match that starts at a marked place can end there. -/
theorem ends_iff (fits : marks.length = text.length + 1) :
    (ends text shape marks)[stop]? = some true ↔ stop ≤ text.length ∧
      ∃ start ≤ stop, marks[start]? = some true ∧ Matches shape (between text start stop) := by
  induction shape generalizing marks stop with
  | empty =>
      simp only [ends, matches_empty]
      constructor
      · intro marked
        have bound := (List.getElem?_eq_some_iff.mp marked).1
        exact ⟨by omega, stop, Nat.le_refl stop, marked, between_self text stop⟩
      · intro holds
        obtain ⟨bound, start, before, marked, stretch⟩ := holds
        have size := length_between start bound
        rw [stretch, List.length_nil] at size
        obtain rfl : start = stop := by omega
        exact marked
  | byte set =>
      simp only [ends, matches_byte, pastByte_iff fits, Bool.false_eq_true, and_false, false_or]
      constructor
      · intro holds
        obtain ⟨start, marked, rfl, byte, stretch, member⟩ := holds
        have bound : start + 1 ≤ text.length := by
          rcases Nat.lt_or_ge start text.length with within | beyond
          · exact within
          · simp [between, List.drop_eq_nil_of_le beyond] at stretch
        exact ⟨bound, start, Nat.le_succ start, marked, byte, stretch, member⟩
      · intro holds
        obtain ⟨bound, start, before, marked, byte, stretch, member⟩ := holds
        have size := length_between start bound
        rw [stretch, List.length_singleton] at size
        exact ⟨start, marked, by omega, byte, stretch, member⟩
  | run set => simp only [ends, matches_run, pastRun_iff fits, Bool.false_eq_true, false_and, false_or]
  | both first second ihFirst ihSecond =>
      -- The places marked after the first shape are those where the match falls in two.
      rw [ends, ihSecond (length_ends fits)]
      refine and_congr_right fun bound => ?_
      simp only [ihFirst fits, matches_both]
      constructor
      · intro holds
        obtain ⟨middle, after, ⟨-, start, before, marked, front⟩, back⟩ := holds
        exact ⟨start, Nat.le_trans before after, marked, _, _,
          (between_append before after).symm, front, back⟩
      · intro holds
        obtain ⟨start, before, marked, front, back, whole, matchedFront, matchedBack⟩ := holds
        obtain ⟨middle, lower, upper, rfl, rfl⟩ := between_eq_append before bound whole
        exact ⟨middle, upper, ⟨by omega, start, lower, marked, matchedFront⟩, matchedBack⟩
  | either left right ihLeft ihRight =>
      have zipped : (ends text (.either left right) marks)[stop]? = some true ↔
          (ends text left marks)[stop]? = some true ∨ (ends text right marks)[stop]? = some true := by
        have leftSize : (ends text left marks).length = text.length + 1 := length_ends fits
        have rightSize : (ends text right marks).length = text.length + 1 := length_ends fits
        by_cases bound : stop < text.length + 1
        · simp [ends, leftSize, rightSize, bound]
        · have leftNone : (ends text left marks)[stop]? = none := List.getElem?_eq_none (by omega)
          have rightNone : (ends text right marks)[stop]? = none := List.getElem?_eq_none (by omega)
          simp [ends, List.getElem?_zipWith, leftNone, rightNone]
      rw [zipped, ihLeft fits, ihRight fits]
      simp only [matches_either, and_or_left, exists_or]

theorem startMarks_iff : (startMarks text)[start]? = some true ↔ start = 0 := by
  constructor
  · intro marked
    cases start with
    | zero => rfl
    | succ start =>
        have behind : (text.map fun _ => false)[start]? = some true := marked
        have member := List.mem_of_getElem? behind
        simp at member
  · intro same
    subst same
    rfl

/-- A glob is accepted exactly if it describes the whole text. -/
theorem accepts_iff : accepts shape text ↔ Matches shape text := by
  have fits : (startMarks text).length = text.length + 1 := by simp [startMarks]
  have size : (ends text shape (startMarks text)).length = text.length + 1 := length_ends fits
  have last : (ends text shape (startMarks text)).getLast? =
      (ends text shape (startMarks text))[text.length]? := by
    rw [List.getLast?_eq_getElem?, size, Nat.add_sub_cancel]
  have whole : between text 0 text.length = text := by simp [between]
  rw [accepts, decide_eq_true_iff, last, ends_iff fits]
  constructor
  · intro holds
    obtain ⟨-, start, -, marked, matched⟩ := holds
    rw [startMarks_iff.mp marked, whole] at matched
    exact matched
  · intro matched
    exact ⟨Nat.le_refl _, 0, Nat.zero_le _, startMarks_iff.mpr rfl, by rwa [whole]⟩

end ManifestSearch.Glob.Shape
