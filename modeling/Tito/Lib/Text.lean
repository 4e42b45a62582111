import Mathlib.Data.String.Basic

namespace Tito.Lib.Text

theorem contains_self (text : String) : text.contains text = true := by
  apply String.contains_string_iff.mpr
  apply List.infix_refl

theorem contains_append_left {part text : String} (h : text.contains part = true) (rest : String) :
    (text ++ rest).contains part = true := by
  rw [String.contains_string_iff] at *
  rw [String.toList_append]
  apply List.infix_append_of_infix_left h

theorem contains_append_right {part rest : String} (text : String)
    (h : rest.contains part = true) : (text ++ rest).contains part = true := by
  rw [String.contains_string_iff] at *
  rw [String.toList_append]
  apply List.infix_append_of_infix_right h

theorem contains_intercalate {part : String} {parts : List String} (h : part ∈ parts)
    (comma : String) : (comma.intercalate parts).contains part = true := by
  induction parts with
  | nil => cases h
  | cons a parts ih =>
    cases parts with
    | nil =>
      obtain rfl := List.mem_singleton.mp h
      rw [String.intercalate_singleton]
      apply contains_self
    | cons b parts =>
      rw [String.intercalate_cons_cons]
      rcases List.mem_cons.mp h with rfl | h
      · apply contains_append_left
        apply contains_append_left
        apply contains_self
      · apply contains_append_right
        exact ih h

end Tito.Lib.Text
