import Mathlib
import RouteBook.Text.Basic

/-! # Blanks around a text and the case of its letters

Trimming takes every blank from both ends, so blanks that are added there are lost again. No letter
is blank, so it does not matter whether a text is trimmed before or after its case is changed. -/

namespace RouteBook.Text

theorem isBlank_of_isAlpha {c : Char} (h : c.isAlpha = true) : isBlank c = false := by
  have hrange : 65 ≤ c.toNat ∧ c.toNat ≤ 122 := by
    simp only [Char.isAlpha, Char.isUpper, Char.isLower, UInt32.le_iff_toNat_le, Bool.or_eq_true,
      Bool.and_eq_true, decide_eq_true_eq] at h
    simp only [Char.reduceVal, UInt32.reduceToNat, Char.toNat_val] at h
    omega
  simp only [isBlank]
  grind

theorem isBlank_toUpper (c : Char) : isBlank c.toUpper = isBlank c := by
  by_cases h : c.isAlpha = true
  · rw [isBlank_of_isAlpha h, isBlank_of_isAlpha (by rw [Char.isAlpha_toUpper_eq_isAlpha, h])]
  · have hlower : ¬ c.isLower = true := by
      intro hl
      simp [Char.isAlpha, hl] at h
    rw [Char.toUpper_eq_of_not_isLower hlower]

theorem trimStart_asciiUpper (t : Text) : trimStart (asciiUpper t) = asciiUpper (trimStart t) := by
  have h : isBlank ∘ Char.toUpper = isBlank := funext isBlank_toUpper
  rw [trimStart, asciiUpper, List.dropWhile_map, h]
  rfl

theorem asciiUpper_reverse (t : Text) : asciiUpper t.reverse = (asciiUpper t).reverse :=
  List.map_reverse

theorem trim_asciiUpper (t : Text) : trim (asciiUpper t) = asciiUpper (trim t) := by
  rw [trim, trim, trimEnd, trimEnd, trimStart_asciiUpper, ← asciiUpper_reverse,
    trimStart_asciiUpper, asciiUpper_reverse]

variable {blank : Text}

theorem trim_blank_append (h : ∀ c ∈ blank, isBlank c = true) (t : Text) :
    trim (blank ++ t) = trim t := by
  rw [trim, trimStart, List.dropWhile_append_of_pos h]
  rfl

theorem trimEnd_append_blank (h : ∀ c ∈ blank, isBlank c = true) (t : Text) :
    trimEnd (t ++ blank) = trimEnd t := by
  rw [trimEnd, trimStart, List.reverse_append, List.dropWhile_append_of_pos (by simpa using h)]
  rfl

theorem trim_append_blank (h : ∀ c ∈ blank, isBlank c = true) (t : Text) :
    trim (t ++ blank) = trim t := by
  rw [trim, trimStart, List.dropWhile_append]
  split
  · next he =>
    -- The text is blank itself, so the scan from the front runs through both.
    have hb : blank.dropWhile isBlank = [] := List.dropWhile_eq_nil_iff.mpr h
    rw [hb, trim, trimStart, List.isEmpty_iff.mp he]
  · exact trimEnd_append_blank h (trimStart t)

/-- The value is the text with blanks around it. -/
def Padded (value t : Text) : Prop :=
  ∃ before after, (∀ c ∈ before, isBlank c = true) ∧ (∀ c ∈ after, isBlank c = true) ∧
    value = before ++ t ++ after

theorem takeWhile_append_trimStart (t : Text) : t.takeWhile isBlank ++ trimStart t = t :=
  List.takeWhile_append_dropWhile

/-- What trimming takes away is blank. -/
theorem padded_trim (value : Text) : Padded value (trim value) := by
  refine ⟨value.takeWhile isBlank, ((trimStart value).reverse.takeWhile isBlank).reverse,
    ?_, ?_, ?_⟩
  · exact fun c hc => List.mem_takeWhile_imp hc
  · exact fun c hc => List.mem_takeWhile_imp (List.mem_reverse.mp hc)
  · have hend : trim value ++ ((trimStart value).reverse.takeWhile isBlank).reverse =
        trimStart value := by
      rw [trim, trimEnd, ← List.reverse_append, takeWhile_append_trimStart, List.reverse_reverse]
    rw [List.append_assoc, hend, takeWhile_append_trimStart]

theorem trim_eq_self {t : Text} (h : ∀ c ∈ t, isBlank c = false) : trim t = t := by
  have hstart : ∀ {t : Text}, (∀ c ∈ t, isBlank c = false) → trimStart t = t := by
    intro t h
    cases t with
    | nil => rfl
    | cons c t => rw [trimStart, List.dropWhile_cons_of_neg (by simp [h c List.mem_cons_self])]
  rw [trim, trimEnd, hstart h, hstart (fun c hc => h c (List.mem_reverse.mp hc)),
    List.reverse_reverse]

theorem Padded.trim_eq {value t : Text} (h : Padded value t) (ht : ∀ c ∈ t, isBlank c = false) :
    trim value = t := by
  obtain ⟨before, after, hbefore, hafter, rfl⟩ := h
  rw [trim_append_blank hafter, trim_blank_append hbefore, trim_eq_self ht]

end RouteBook.Text
