import ManifestSearch.Proofs.Json.Scalars
import ManifestSearch.Proofs.Keyed.Insertion

/-!
Values read back from their text. A double is rounded on its way through the text, so this is about
values without one (`Exact`), as deep as the reader goes. A value that is read unchecked is only
measured: its text is taken, but its numbers are not kept.
-/

namespace ManifestSearch.Json

variable {checked : Bool} {rest : List Char} {fuel limit : Nat} {value item : Json}
  {items : List Json} {members : List (String × Json)}

mutual

/-- How many arrays and objects a value nests. -/
def depth : Json → Nat
  | .array items => itemsDepth items + 1
  | .object members => membersDepth members + 1
  | _ => 0

def itemsDepth : List Json → Nat
  | [] => 0
  | item :: items => max (depth item) (itemsDepth items)

def membersDepth : List (String × Json) → Nat
  | [] => 0
  | (_, value) :: members => max (depth value) (membersDepth members)

end

mutual

/-- No number is a double, and objects hold their members in the order of the names, each once. -/
def Exact : Json → Prop
  | .number (.double _) => False
  | .array items => ExactItems items
  | .object members => Keyed.Ordered members ∧ ExactMembers members
  | _ => True

def ExactItems : List Json → Prop
  | [] => True
  | item :: items => Exact item ∧ ExactItems items

def ExactMembers : List (String × Json) → Prop
  | [] => True
  | (_, value) :: members => Exact value ∧ ExactMembers members

end

/-! Where the parts of a text start and end. -/

theorem skipBlank_cons {char : Char} (shows : isBlank char = false) (rest : List Char) :
    skipBlank (char :: rest) = char :: rest :=
  List.dropWhile_cons_of_neg (by simp [shows])

theorem Number.print_start {number : Number} (whole : ∀ double, number ≠ .double double) :
    ∃ first more, number.print = first :: more ∧ (first.isDigit ∨ first = '-') := by
  cases number with
  | whole value =>
      obtain ⟨first, more, digits, -⟩ := toDigits_start value.toNat
      exact ⟨first, more, by rw [print, Nat.toList_repr, digits], .inl (isDigit_of_toDigits digits)⟩
  | belowZero value => exact ⟨'-', _, rfl, .inr rfl⟩
  | double double => exact absurd rfl (whole double)

theorem isBlank_of_isDigit {char : Char} (digit : char.isDigit) : isBlank char = false := by
  cases blank : isBlank char with
  | false => rfl
  | true =>
      simp only [isBlank, Bool.or_eq_true, decide_eq_true_eq] at blank
      rcases blank with ((rfl | rfl) | rfl) | rfl <;> contradiction

theorem Exact.whole {number : Number} (exact : Exact (.number number)) (double : Decimal.Double) :
    number ≠ .double double := by
  rintro rfl
  exact exact

/-- The text of a value shows from its first character on, and does not start like the end of an
array. -/
theorem print_start (exact : value.Exact) :
    ∃ first more, value.print = first :: more ∧ isBlank first = false ∧ first ≠ ']' := by
  cases value with
  | null => exact ⟨'n', _, rfl, rfl, by decide⟩
  | bool value => cases value <;> exact ⟨_, _, rfl, rfl, by decide⟩
  | number number =>
      obtain ⟨first, more, text, digit | rfl⟩ := Number.print_start exact.whole
      · refine ⟨first, more, text, isBlank_of_isDigit digit, ?_⟩
        rintro rfl
        contradiction
      · exact ⟨'-', more, text, rfl, by decide⟩
  | string text => exact ⟨'"', _, rfl, rfl, by decide⟩
  | array items => exact ⟨'[', _, by rw [print], rfl, by decide⟩
  | object members => exact ⟨'{', _, by rw [print], rfl, by decide⟩

theorem printItems_cons (item : Json) (items : List Json) :
    printItems (item :: items) =
      item.print ++ if items = [] then [']'] else ',' :: printItems items := by
  cases items with
  | nil => simp [printItems]
  | cons next items => rw [printItems, if_neg (List.cons_ne_nil next items)]

theorem printMembers_cons (member : String × Json) (members : List (String × Json)) :
    printMembers (member :: members) =
      quoted member.1 ++ ':' :: (member.2.print ++
        if members = [] then ['}'] else ',' :: printMembers members) := by
  cases members with
  | nil => simp [printMembers]
  | cons next members => rw [printMembers, if_neg (List.cons_ne_nil next members)]

/-! Reading. -/

/-- What the items of an array start with is neither a blank nor the end of the array. -/
theorem printItems_start (items : List Json) (exact : item.Exact) (rest : List Char) :
    ∃ first more, printItems (item :: items) ++ rest = first :: more ∧ isBlank first = false ∧
      first ≠ ']' := by
  obtain ⟨first, more, text, shows, close⟩ := print_start exact
  rw [printItems_cons, text]
  exact ⟨first, _, rfl, shows, close⟩

theorem printMembers_start (member : String × Json) (members : List (String × Json))
    (rest : List Char) :
    ∃ more, printMembers (member :: members) ++ rest = '"' :: more := by
  rw [printMembers_cons, quoted]
  exact ⟨_, rfl⟩

mutual

/-- A value reads back from its text, whatever closes it. -/
theorem value?_print (checked : Bool) (value : Json) (fuel limit : Nat) (rest : List Char)
    (exact : value.Exact) (deep : value.depth ≤ limit) (enough : 2 * value.print.length ≤ fuel)
    (stops : Stops rest) :
    ∃ read, value? checked fuel limit (value.print ++ rest) = some (read, rest) ∧
      (checked → read = value) := by
  obtain ⟨first, more, text, shows, -⟩ := print_start exact
  obtain ⟨fuel, rfl⟩ : ∃ less, fuel = less + 1 := ⟨fuel - 1, by grind⟩
  have shown : skipBlank (value.print ++ rest) = value.print ++ rest := by
    rw [text, List.cons_append, skipBlank_cons shows]
  rw [value?, shown]
  cases value with
  | null => exact ⟨.null, rfl, fun _ => rfl⟩
  | bool value => cases value <;> exact ⟨_, rfl, fun _ => rfl⟩
  | string value =>
      refine ⟨.string value, ?_, fun _ => rfl⟩
      have read := string?_quoted checked value rest
      rw [print]
      rw [quoted, List.cons_append] at read ⊢
      simp only [read, Option.map_some]
  | number number =>
      have read := number?_print checked exact.whole stops
      refine ⟨.number (if checked then number else .whole 0), ?_, fun kept => by rw [if_pos kept]⟩
      obtain ⟨first, more, text, start⟩ := Number.print_start exact.whole
      have other (char : Char) (open_ : char.isDigit = false ∧ char ≠ '-') : first ≠ char := by
        rintro rfl
        rcases start with digit | dash
        · simp [open_.1] at digit
        · exact open_.2 dash
      rw [print, text, List.cons_append]
      rw [text, List.cons_append] at read
      simp [other '[' (by decide), other '{' (by decide), other '"' (by decide),
        other 'n' (by decide), other 't' (by decide), other 'f' (by decide), read]
  | array items =>
      obtain ⟨limit, rfl⟩ : ∃ less, limit = less + 1 := ⟨limit - 1, by grind [depth]⟩
      cases items with
      | nil => exact ⟨.array [], rfl, fun _ => rfl⟩
      | cons item items =>
          rw [print] at enough ⊢
          rw [depth] at deep
          obtain ⟨read, found, same⟩ := items?_print checked item items fuel limit rest exact
            (Nat.le_of_succ_le_succ deep) (by grind)
          obtain ⟨first, more, start, shows, close⟩ := printItems_start items exact.1 rest
          refine ⟨.array read, ?_, fun kept => by rw [same kept]⟩
          rw [start] at found
          rw [List.cons_append, start]
          simp [skipBlank_cons shows, close, found]
  | object members =>
      obtain ⟨limit, rfl⟩ : ∃ less, limit = less + 1 := ⟨limit - 1, by grind [depth]⟩
      cases members with
      | nil => exact ⟨.object [], rfl, fun _ => rfl⟩
      | cons member members =>
          obtain ⟨name, value⟩ := member
          rw [print] at enough ⊢
          rw [depth] at deep
          obtain ⟨ordered, inner⟩ := exact
          obtain ⟨read, found, same⟩ := members?_print checked name value members fuel limit rest
            inner (Nat.le_of_succ_le_succ deep) (by grind)
          obtain ⟨more, start⟩ := printMembers_start (name, value) members rest
          refine ⟨.object (Keyed.ofList read), ?_, fun kept => ?_⟩
          · rw [start] at found
            rw [List.cons_append, start]
            simp [skipBlank_cons (show isBlank '"' = false from rfl), found]
          · rw [same kept, Keyed.ofList_of_ordered ordered]
termination_by fuel

theorem items?_print (checked : Bool) (item : Json) (items : List Json) (fuel limit : Nat)
    (rest : List Char) (exact : ExactItems (item :: items))
    (deep : itemsDepth (item :: items) ≤ limit)
    (enough : 2 * (printItems (item :: items)).length ≤ fuel) :
    ∃ read, items? checked fuel limit (printItems (item :: items) ++ rest) = some (read, rest) ∧
      (checked → read = item :: items) := by
  obtain ⟨head, tail⟩ := exact
  rw [itemsDepth] at deep
  rw [printItems_cons, List.length_append] at enough
  obtain ⟨fuel, rfl⟩ : ∃ less, fuel = less + 1 := ⟨fuel - 1, by grind⟩
  rw [printItems_cons, items?, List.append_assoc]
  cases items with
  | nil =>
      obtain ⟨read, first, same⟩ := value?_print checked item fuel limit (']' :: rest) head
        (by omega) (by grind) (by simp [Stops])
      refine ⟨[read], ?_, fun kept => by rw [same kept]⟩
      rw [if_pos rfl, List.singleton_append, first]
      rfl
  | cons next items =>
      obtain ⟨others, found, rest_same⟩ := items?_print checked next items fuel limit rest tail
        (by omega) (by grind)
      obtain ⟨read, first, same⟩ := value?_print checked item fuel limit
        (',' :: (printItems (next :: items) ++ rest)) head (by omega) (by grind) (by simp [Stops])
      refine ⟨read :: others, ?_, fun kept => by rw [same kept, rest_same kept]⟩
      rw [if_neg (List.cons_ne_nil next items), List.cons_append, first]
      simp only [skipBlank_cons (show isBlank ',' = false from rfl), found, Option.map_some]
termination_by fuel

theorem members?_print (checked : Bool) (name : String) (value : Json)
    (members : List (String × Json)) (fuel limit : Nat) (rest : List Char)
    (exact : ExactMembers ((name, value) :: members))
    (deep : membersDepth ((name, value) :: members) ≤ limit)
    (enough : 2 * (printMembers ((name, value) :: members)).length ≤ fuel) :
    ∃ read, members? checked fuel limit (printMembers ((name, value) :: members) ++ rest) =
        some (read, rest) ∧ (checked → read = (name, value) :: members) := by
  obtain ⟨head, tail⟩ := exact
  rw [membersDepth] at deep
  rw [printMembers_cons, List.length_append] at enough
  obtain ⟨fuel, rfl⟩ : ∃ less, fuel = less + 1 := ⟨fuel - 1, by grind⟩
  obtain ⟨more, start⟩ := printMembers_start (name, value) members rest
  rw [members?, start, skipBlank_cons (by rfl), ← start]
  rw [printMembers_cons, List.append_assoc, string?_quoted]
  simp only [List.cons_append, List.append_assoc, skipBlank_cons (show isBlank ':' = false from rfl)]
  cases members with
  | nil =>
      obtain ⟨read, first, same⟩ := value?_print checked value fuel limit ('}' :: rest) head
        (by omega) (by grind) (by simp [Stops])
      refine ⟨[(name, read)], ?_, fun kept => by rw [same kept]⟩
      rw [if_pos rfl, List.singleton_append, first]
      rfl
  | cons next members =>
      obtain ⟨other, held⟩ := next
      obtain ⟨others, found, rest_same⟩ := members?_print checked other held members fuel limit rest
        tail (by omega) (by grind)
      obtain ⟨read, first, same⟩ := value?_print checked value fuel limit
        (',' :: (printMembers ((other, held) :: members) ++ rest)) head (by omega) (by grind)
        (by simp [Stops])
      refine ⟨(name, read) :: others, ?_, fun kept => by rw [same kept, rest_same kept]⟩
      rw [if_neg (List.cons_ne_nil (other, held) members), List.cons_append, first]
      simp only [skipBlank_cons (show isBlank ',' = false from rfl), found, Option.map_some]
termination_by fuel

end

end ManifestSearch.Json
