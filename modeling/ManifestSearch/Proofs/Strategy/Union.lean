import ManifestSearch.Proofs.Strategy.Declaration

/-!
What declared patterns stand for together: the files of each pattern in turn, each file where it is
met first (`Pattern.union`). A pattern that is declared again adds nothing, so it makes no difference
that repeated patterns are left out before they are resolved. Apart from the base, only the values
under the key that counts bear on the answer.
-/

namespace ManifestSearch

namespace Text

variable {α : Type} [DecidableEq α]

theorem distinct_filter (test : α → Bool) (entries : List α) :
    distinct (entries.filter test) = (distinct entries).filter test := by
  induction entries with
  | nil => rfl
  | cons entry rest ih =>
      cases passed : test entry with
      | true =>
          simp only [List.filter_cons, passed, if_true, distinct, ih, List.filter_filter]
          congr 2
          funext other
          exact Bool.and_comm _ _
      | false =>
          simp only [List.filter_cons, passed, Bool.false_eq_true, if_false, distinct, ih,
            List.filter_filter]
          refine List.filter_congr fun other _ => ?_
          by_cases same : other = entry
          · simp [same, passed]
          · simp [same]

theorem distinct_eq_eraseDups (entries : List α) : distinct entries = entries.eraseDups := by
  -- Both take the first entry; behind it one drops equal entries before the rest and one after.
  induction size : entries.length using Nat.strongRecOn generalizing entries with
  | ind length ih =>
      cases entries with
      | nil => rfl
      | cons entry rest =>
          have shorter := List.length_filter_le (fun other => !other == entry) rest
          rw [List.length_cons] at size
          have later := ih (rest.filter fun other => !other == entry).length (by omega) _ rfl
          rw [List.eraseDups_cons, ← later, distinct_filter, distinct]
          congr 2
          funext other
          by_cases same : other = entry
          · simp [same]
          · simp [same]

theorem mem_distinct {entry : α} {entries : List α} : entry ∈ distinct entries ↔ entry ∈ entries := by
  rw [distinct_eq_eraseDups, List.mem_eraseDups]

theorem distinct_nodup (entries : List α) : (distinct entries).Nodup := by
  induction entries with
  | nil => exact .nil
  | cons entry rest ih =>
      refine List.nodup_cons.mpr ⟨?_, ih.filter _⟩
      simp

/-- What a list has beyond the entries of another one, each entry once. -/
def beyond (held entries : List α) : List α := (distinct entries).filter (· ∉ held)

theorem distinct_append (front back : List α) :
    distinct (front ++ back) = distinct front ++ beyond front back := by
  induction front with
  | nil => simp [beyond, distinct]
  | cons entry rest ih =>
      simp only [List.cons_append, distinct, ih, beyond, List.filter_append, List.filter_filter]
      congr 3
      funext other
      by_cases same : other = entry
      · simp [same]
      · simp [same]

theorem beyond_append (held front back : List α) :
    beyond held (front ++ back) = beyond held front ++ (beyond held back).filter (· ∉ front) := by
  simp only [beyond, distinct_append, List.filter_append, List.filter_filter]
  congr 2
  funext other
  exact Bool.and_comm _ _

theorem beyond_held (held entries : List α) : beyond held (held ++ entries) = beyond held entries := by
  rw [beyond, distinct_append, List.filter_append]
  have none : (distinct held).filter (· ∉ held) = [] :=
    List.filter_eq_nil_iff.mpr fun entry member => by simpa using mem_distinct.mp member
  rw [none, List.nil_append, beyond, List.filter_filter]
  simp

end Text

namespace Pattern

open Text (distinct beyond)

variable {disk : Disk} {base : Path} {pattern : String} {held : List Path}

/-- The files of patterns, one pattern after the other, each file where it is met first. The first
pattern that fails makes the whole fail. -/
def union (disk : Disk) (base : Path) (patterns : List String) : Except Failure (List Path) :=
  (patterns.mapM fun pattern => (resolve disk base pattern).outcome).map fun found =>
    found.flatten.eraseDups

theorem outcome_resolveEach_cons (disk : Disk) (base : Path) (pattern : String)
    (rest : List String) :
    (resolveEach disk base (pattern :: rest)).outcome =
      (resolve disk base pattern).outcome.bind fun found =>
        (resolveEach disk base rest).outcome.map (found ++ ·) := by
  simp only [resolveEach, Report.outcome_bind, Report.outcome_map]

theorem outcome_resolveEach (disk : Disk) (base : Path) (patterns : List String) :
    (resolveEach disk base patterns).outcome =
      (patterns.mapM fun pattern => (resolve disk base pattern).outcome).map List.flatten := by
  induction patterns with
  | nil => rfl
  | cons pattern rest ih =>
      rw [outcome_resolveEach_cons, ih, List.mapM_cons]
      cases (resolve disk base pattern).outcome with
      | error failure => rfl
      | ok found =>
          cases rest.mapM fun pattern => (resolve disk base pattern).outcome with
          | error failure => rfl
          | ok others => rfl

theorem union_eq (disk : Disk) (base : Path) (patterns : List String) :
    union disk base patterns = (resolveEach disk base patterns).outcome.map distinct := by
  rw [outcome_resolveEach, union]
  cases patterns.mapM fun pattern => (resolve disk base pattern).outcome with
  | error failure => rfl
  | ok found => exact congrArg Except.ok (Text.distinct_eq_eraseDups found.flatten).symm

theorem outcome_resolveAll (disk : Disk) (base : Path) (patterns : List String) :
    (resolveAll disk base patterns).outcome = union disk base patterns := by
  rw [union_eq, resolveAll, Report.outcome_map]

/-- Beyond the files of a pattern, further uses of the pattern add none. -/
theorem resolveEach_filter (found : (resolve disk base pattern).outcome = .ok held)
    (patterns : List String) :
    (resolveEach disk base (patterns.filter (· ≠ pattern))).outcome.map (beyond held) =
      (resolveEach disk base patterns).outcome.map (beyond held) := by
  induction patterns with
  | nil => rfl
  | cons other rest ih =>
      by_cases same : other = pattern
      · subst same
        rw [List.filter_cons_of_neg (by simp), ih, outcome_resolveEach_cons, found]
        cases (resolveEach disk base rest).outcome with
        | error failure => rfl
        | ok files => exact congrArg Except.ok (Text.beyond_held held files).symm
      · rw [List.filter_cons_of_pos (by simpa using same), outcome_resolveEach_cons,
          outcome_resolveEach_cons]
        cases (resolve disk base other).outcome with
        | error failure => rfl
        | ok front =>
            have split (outcome : Except Failure (List Path)) :
                (outcome.map (front ++ ·)).map (beyond held) =
                  (outcome.map (beyond held)).map fun files =>
                    beyond held front ++ files.filter (· ∉ front) := by
              cases outcome with
              | error failure => rfl
              | ok files => exact congrArg Except.ok (Text.beyond_append held front files)
            simp only [Except.bind, split, ih]

theorem union_distinct (disk : Disk) (base : Path) (patterns : List String) :
    union disk base (distinct patterns) = union disk base patterns := by
  simp only [union_eq]
  induction patterns with
  | nil => rfl
  | cons pattern rest ih =>
      rw [distinct, outcome_resolveEach_cons, outcome_resolveEach_cons]
      cases found : (resolve disk base pattern).outcome with
      | error failure => rfl
      | ok front =>
          have split (outcome : Except Failure (List Path)) :
              (outcome.map (front ++ ·)).map distinct =
                (outcome.map (beyond front)).map (distinct front ++ ·) := by
            cases outcome with
            | error failure => rfl
            | ok files => exact congrArg Except.ok (Text.distinct_append front files)
          have through (outcome : Except Failure (List Path)) :
              outcome.map (beyond front) =
                (outcome.map distinct).map fun files => files.filter (· ∉ front) := by
            cases outcome with
            | error failure => rfl
            | ok files => rfl
          simp only [Except.bind, split]
          rw [resolveEach_filter found, through, ih, ← through]

end Pattern

namespace Declared

/-- The values under the key that counts, or none. -/
def Keys.values (keys : Keys) (properties : Properties) : List String :=
  match keys.selected? properties with
  | none => []
  | some key => (properties.get? key).getD []

theorem Keys.selected?_eq (keys : Keys) (properties : Properties) :
    keys.selected? properties =
      if (properties.get? keys.key).isSome then some keys.key
      else if (properties.get? keys.keyAlias).isSome then some keys.keyAlias
      else none := rfl

theorem Keys.patterns_eq (keys : Keys) (properties : Properties) :
    keys.patterns properties = Text.distinct (keys.values properties) := by
  unfold patterns values
  cases keys.selected? properties with
  | none => rfl
  | some key => rfl

theorem outcome_search (keys : Keys) (disk : Disk) (context : Context) :
    (search keys disk context).outcome =
      Pattern.union disk context.base (keys.values context.properties) := by
  rw [search_outcome, Pattern.outcome_resolveAll, Keys.patterns_eq, Pattern.union_distinct]

theorem union_nodup {disk : Disk} {base : Path} {patterns : List String} {files : List Path}
    (found : Pattern.union disk base patterns = .ok files) : files.Nodup := by
  rw [Pattern.union_eq] at found
  cases resolved : (Pattern.resolveEach disk base patterns).outcome with
  | error failure => simp [resolved, Except.map] at found
  | ok all =>
      rw [resolved] at found
      cases found
      exact Text.distinct_nodup all

/-- Declared manifests are the union of the patterns under the first of two keys that is declared.
Equal patterns may be collapsed first, no file is listed twice, and nothing else in the context
bears on the answer. -/
theorem search_union (keys : Keys) (disk : Disk) (context : Context) :
    let declared := context.properties.get?
    let answer := (search keys disk context).outcome
    (∀ values, declared keys.key = some values →
        answer = Pattern.union disk context.base values) ∧
      (∀ values, declared keys.key = none → declared keys.keyAlias = some values →
        answer = Pattern.union disk context.base values) ∧
      (declared keys.key = none → declared keys.keyAlias = none → answer = .ok []) ∧
      (∀ values, Pattern.union disk context.base values.eraseDups =
        Pattern.union disk context.base values) ∧
      (∀ files, answer = .ok files → files.Nodup) ∧
      ∀ (other : Keys) (also : Context), also.base = context.base →
        other.values also.properties = keys.values context.properties →
        (search other disk also).outcome = answer := by
  intro declared answer
  have whole : answer = Pattern.union disk context.base (keys.values context.properties) :=
    outcome_search keys disk context
  have selected := keys.selected?_eq context.properties
  refine ⟨?_, ?_, ?_, ?_, ?_, ?_⟩
  · intro values primary
    rw [whole, Keys.values, selected]
    simp only [declared] at primary
    simp [primary]
  · intro values primary secondary
    rw [whole, Keys.values, selected]
    simp only [declared] at primary secondary
    simp [primary, secondary]
  · intro primary secondary
    rw [whole, Keys.values, selected]
    simp only [declared] at primary secondary
    simp only [primary, secondary]
    rfl
  · intro values
    rw [← Text.distinct_eq_eraseDups, Pattern.union_distinct]
  · intro files found
    exact union_nodup (whole.symm.trans found)
  · intro other also sameBase sameValues
    rw [outcome_search, sameBase, sameValues, whole]

end Declared

end ManifestSearch
