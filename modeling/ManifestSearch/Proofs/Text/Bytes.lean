import Mathlib.Data.Char
import ManifestSearch.Glob.Shape

/-!
The bytes of a text. Of two characters the smaller one has the smaller byte where their bytes first
differ, and neither ends before that place. So the order of texts is the order of their bytes, and a
text whose bytes begin with those of another begins with that other.
-/

namespace ManifestSearch.Glob

variable {low high : List UInt8} {left right : List Char}

/-- Two lists differ somewhere, and the first has the smaller byte there. -/
def Diverges (low high : List UInt8) : Prop :=
  ∃ front lowByte lowRest highByte highRest,
    low = front ++ lowByte :: lowRest ∧ high = front ++ highByte :: highRest ∧ lowByte < highByte

theorem diverges_head {lowByte highByte : UInt8} (less : lowByte < highByte) :
    Diverges (lowByte :: low) (highByte :: high) :=
  ⟨[], lowByte, low, highByte, high, rfl, rfl, less⟩

theorem Diverges.cons (diverges : Diverges low high) (byte : UInt8) :
    Diverges (byte :: low) (byte :: high) := by
  obtain ⟨front, lowByte, lowRest, highByte, highRest, rfl, rfl, less⟩ := diverges
  exact ⟨byte :: front, lowByte, lowRest, highByte, highRest, rfl, rfl, less⟩

theorem Diverges.append_lt_append (diverges : Diverges low high) (lowMore highMore : List UInt8) :
    low ++ lowMore < high ++ highMore := by
  obtain ⟨front, lowByte, lowRest, highByte, highRest, rfl, rfl, less⟩ := diverges
  rw [List.append_assoc, List.append_assoc]
  exact List.append_left_lt (List.cons_lt_cons_iff.mpr (.inl less))

theorem Diverges.append_ne_append (diverges : Diverges low high) (lowMore highMore : List UInt8) :
    low ++ lowMore ≠ high ++ highMore := by
  intro same
  have less := diverges.append_lt_append lowMore highMore
  rw [same] at less
  exact List.lt_irrefl _ less

theorem ofNat_lt_ofNat {low high : Nat} (less : low < high) (bound : high < 256) :
    UInt8.ofNat low < UInt8.ofNat high := by
  rw [UInt8.lt_iff_toNat_lt, UInt8.toNat_ofNat', UInt8.toNat_ofNat']
  omega

theorem diverges_of_le {lowByte highByte : Nat} (le : lowByte ≤ highByte) (bound : highByte < 256)
    (rest : lowByte = highByte → Diverges low high) :
    Diverges (UInt8.ofNat lowByte :: low) (UInt8.ofNat highByte :: high) := by
  by_cases same : lowByte = highByte
  · subst same
    exact (rest rfl).cons _
  · exact diverges_head (ofNat_lt_ofNat (Nat.lt_of_le_of_ne le same) bound)

theorem bytesOf_diverges {low high : Char} (less : low < high) :
    Diverges (bytesOf low) (bytesOf high) := by
  have order : low.val.toNat < high.val.toNat := UInt32.lt_iff_toNat_lt.mp less
  have bound : high.val.toNat < 0x110000 := by
    have valid := high.valid
    simp only [UInt32.isValidChar, Nat.isValidChar] at valid
    omega
  simp only [bytesOf, String.utf8EncodeChar]
  generalize low.val.toNat = small at order
  generalize high.val.toNat = large at order bound
  -- Of texts of unequal length the first bytes decide, of others the first place that differs.
  split
  · split
    · exact diverges_head (ofNat_lt_ofNat order (by omega))
    · split
      · exact diverges_head (ofNat_lt_ofNat (by omega) (by omega))
      · split
        · exact diverges_head (ofNat_lt_ofNat (by omega) (by omega))
        · exact diverges_head (ofNat_lt_ofNat (by omega) (by omega))
  · rw [if_neg (show ¬large ≤ 0x7f by omega)]
    split
    · split
      · refine diverges_of_le (by omega) (by omega) fun first => ?_
        exact diverges_head (ofNat_lt_ofNat (by omega) (by omega))
      · split
        · exact diverges_head (ofNat_lt_ofNat (by omega) (by omega))
        · exact diverges_head (ofNat_lt_ofNat (by omega) (by omega))
    · rw [if_neg (show ¬large ≤ 0x7ff by omega)]
      split
      · split
        · refine diverges_of_le (by omega) (by omega) fun first => ?_
          refine diverges_of_le (by omega) (by omega) fun second => ?_
          exact diverges_head (ofNat_lt_ofNat (by omega) (by omega))
        · exact diverges_head (ofNat_lt_ofNat (by omega) (by omega))
      · rw [if_neg (show ¬large ≤ 0xffff by omega)]
        refine diverges_of_le (by omega) (by omega) fun first => ?_
        refine diverges_of_le (by omega) (by omega) fun second => ?_
        refine diverges_of_le (by omega) (by omega) fun third => ?_
        exact diverges_head (ofNat_lt_ofNat (by omega) (by omega))

theorem bytesOf_ne_nil (char : Char) : bytesOf char ≠ [] := String.utf8EncodeChar_ne_nil

/-- The order of texts is that of their bytes. -/
theorem flatMap_bytesOf_lt (less : left < right) :
    left.flatMap bytesOf < right.flatMap bytesOf := by
  induction left generalizing right with
  | nil =>
      cases right with
      | nil => exact absurd less (List.lt_irrefl _)
      | cons char right =>
          cases found : bytesOf char with
          | nil => exact absurd found (bytesOf_ne_nil char)
          | cons byte rest => simp [found]
  | cons first left ih =>
      cases right with
      | nil => simp at less
      | cons second right =>
          rw [List.flatMap_cons, List.flatMap_cons]
          rcases List.cons_lt_cons_iff.mp less with smaller | ⟨rfl, later⟩
          · exact (bytesOf_diverges smaller).append_lt_append _ _
          · exact List.append_left_lt (ih later)

theorem encoded_lt {left right : String} (less : left < right) : encoded left < encoded right :=
  flatMap_bytesOf_lt (String.lt_iff.mp less)

theorem map_encoded_lt {left right : List String} (less : left < right) :
    left.map encoded < right.map encoded := by
  induction left generalizing right with
  | nil =>
      cases right with
      | nil => exact absurd less (List.lt_irrefl _)
      | cons second right => exact List.nil_lt_cons _ _
  | cons first left ih =>
      cases right with
      | nil => simp at less
      | cons second right =>
          rw [List.map_cons, List.map_cons]
          rcases List.cons_lt_cons_iff.mp less with smaller | ⟨rfl, later⟩
          · exact List.cons_lt_cons_iff.mpr (.inl (encoded_lt smaller))
          · exact List.cons_lt_cons_iff.mpr (.inr ⟨rfl, ih later⟩)

theorem prefix_of_flatMap_bytesOf (start : left.flatMap bytesOf <+: right.flatMap bytesOf) :
    left <+: right := by
  induction left generalizing right with
  | nil => exact List.nil_prefix
  | cons first left ih =>
      cases right with
      | nil =>
          have empty : bytesOf first = [] := by
            have none := List.prefix_nil.mp start
            exact (List.append_eq_nil_iff.mp none).1
          exact absurd empty (bytesOf_ne_nil first)
      | cons second right =>
          obtain ⟨more, whole⟩ := start
          rw [List.flatMap_cons, List.flatMap_cons, List.append_assoc] at whole
          rcases lt_trichotomy first second with smaller | rfl | larger
          · exact absurd whole ((bytesOf_diverges smaller).append_ne_append _ _)
          · exact (List.prefix_cons_inj first).mpr (ih ⟨more, List.append_cancel_left whole⟩)
          · exact absurd whole.symm ((bytesOf_diverges larger).append_ne_append _ _)

theorem encoded_inj {left right : String} : encoded left = encoded right ↔ left = right := by
  refine ⟨fun same => ?_, congrArg encoded⟩
  have starts {front whole : String} (same : encoded front = encoded whole) :
      front.toList <+: whole.toList :=
    prefix_of_flatMap_bytesOf ⟨[], by simpa [encoded] using same⟩
  exact String.toList_inj.mp ((starts same).eq_of_length_le (starts same.symm).length_le)

end ManifestSearch.Glob
