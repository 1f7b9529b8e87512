import LazyLisp.Text.Basic

/-!
# Splitting a text

The pieces of a text between the occurrences of one character.
-/

set_option autoImplicit false

namespace LazyLisp.Text

/-- The pieces between the occurrences of the separator, one more than there are occurrences. -/
def split (separator : Char) : Text → List Text
  | [] => [[]]
  | char :: text =>
    if char = separator then [] :: split separator text
    else
      match split separator text with
      | first :: rest => (char :: first) :: rest
      | [] => [[char]]

theorem split_ne_nil (separator : Char) (text : Text) : split separator text ≠ [] := by
  cases text with
  | nil => simp [split]
  | cons char text =>
      rw [split]
      split
      · simp
      · split <;> simp

theorem intercalate_split (separator : Char) (text : Text) :
    [separator].intercalate (split separator text) = text := by
  induction text with
  | nil => rfl
  | cons char text ih =>
      rw [split]
      cases pieces : split separator text with
      | nil => exact absurd pieces (split_ne_nil separator text)
      | cons first rest =>
          rw [pieces] at ih
          by_cases isSeparator : char = separator
          · simp [isSeparator, ih]
          · cases rest <;> simp_all [List.intercalate]

theorem separator_notMem_of_mem_split {separator : Char} {text piece : Text}
    (member : piece ∈ split separator text) : separator ∉ piece := by
  induction text generalizing piece with
  | nil => simp_all [split]
  | cons char text ih =>
      rw [split] at member
      cases pieces : split separator text with
      | nil => exact absurd pieces (split_ne_nil separator text)
      | cons first rest =>
          rw [pieces] at member ih
          by_cases isSeparator : char = separator
          · simp only [isSeparator, if_true, List.mem_cons] at member
            rcases member with rfl | member
            · simp
            · exact ih (List.mem_cons.mpr member)
          · simp only [isSeparator, if_false, List.mem_cons] at member
            rcases member with rfl | member
            · have others := ih List.mem_cons_self
              simp only [List.mem_cons, not_or]
              exact ⟨fun same => isSeparator same.symm, others⟩
            · exact ih (List.mem_cons_of_mem _ member)

end LazyLisp.Text
