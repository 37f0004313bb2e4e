/-
Texts without the blanks at their ends.

Trimming takes blanks off the front of a text, turns it round and does it again. What is left is said
here by what it is: the middle of the text, between two rows of blanks, that has no blank at either end
(`Text.Trims`). There is only one, and it is the one that trimming leaves (`Text.trim_eq_iff`).
-/
import Mathlib.Data.List.DropRight
import Netlist.Text.Blank

set_option autoImplicit false

namespace Netlist.Text

/-- The characters are what is left of a text without the blanks at its ends. -/
structure Trims (text middle : List Char) : Prop where
  exists_ends : ∃ front back, text = front ++ middle ++ back ∧ (∀ c ∈ front, isBlank c) ∧
    ∀ c ∈ back, isBlank c
  head : ∀ c ∈ middle.head?, isBlank c = false
  last : ∀ c ∈ middle.getLast?, isBlank c = false

theorem head?_dropWhile_isBlank (cs : List Char) :
    ∀ c ∈ (cs.dropWhile isBlank).head?, isBlank c = false := by
  intro c hc
  have hnot := List.head?_dropWhile_not isBlank cs
  rw [Option.mem_def.1 hc] at hnot
  simpa using hnot

/-- Trimming leaves the middle, between blanks. -/
theorem trims_trimBlanks (cs : List Char) : Trims cs (trimBlanks cs) where
  exists_ends := by
    have hback : trimBlanks cs ++ (cs.dropWhile isBlank).rtakeWhile isBlank =
        cs.dropWhile isBlank := List.rdropWhile_append_rtakeWhile
    refine ⟨cs.takeWhile isBlank, (cs.dropWhile isBlank).rtakeWhile isBlank, ?_, ?_, ?_⟩
    · rw [List.append_assoc, hback, List.takeWhile_append_dropWhile]
    · exact fun c hc => List.mem_takeWhile_imp hc
    · exact fun c hc => List.mem_rtakeWhile_imp hc
  head c hc := by
    -- what is left at the front of a text is at the front before the blanks behind go
    obtain ⟨rest, hrest⟩ : trimBlanks cs <+: cs.dropWhile isBlank :=
      List.rdropWhile_prefix isBlank _
    refine head?_dropWhile_isBlank cs c ?_
    rw [← hrest, List.head?_append, hc]
    rfl
  last c hc := by
    rw [trimBlanks, List.getLast?_reverse] at hc
    exact head?_dropWhile_isBlank _ c hc

/-- Nothing else is the middle. -/
theorem Trims.eq_trimBlanks {text middle : List Char} (h : Trims text middle) :
    trimBlanks text = middle := by
  obtain ⟨front, back, rfl, hfront, hback⟩ := h.exists_ends
  have hself : trimBlanks middle = middle := trimBlanks_eq_self h.head h.last
  rw [trimBlanks, List.append_assoc, List.dropWhile_append_of_pos hfront]
  cases middle with
  | nil => rw [List.nil_append, List.dropWhile_eq_nil_iff.2 hback]; rfl
  | cons c cs =>
    have hc : ¬isBlank c = true := by
      rw [h.head c rfl]
      exact Bool.false_ne_true
    have hbehind : ∀ d ∈ back.reverse, isBlank d = true :=
      fun d hd => hback d (List.mem_reverse.1 hd)
    rw [trimBlanks, List.dropWhile_cons_of_neg hc] at hself
    rw [List.cons_append, List.dropWhile_cons_of_neg hc, ← List.cons_append, List.reverse_append,
      List.dropWhile_append_of_pos hbehind, hself]

theorem trim_eq_iff {text s : String} : trim text = s ↔ Trims text.toList s.toList := by
  rw [trim, ← String.toList_inj, String.toList_ofList]
  exact ⟨fun h => h ▸ trims_trimBlanks _, Trims.eq_trimBlanks⟩

theorem trim_trim (s : String) : trim (trim s) = trim s := by
  have htrim : Trims s.toList (trim s).toList := trim_eq_iff.1 rfl
  have hends : (trim s).toList = [] ++ (trim s).toList ++ [] := by
    rw [List.nil_append, List.append_nil]
  exact trim_eq_iff.2 ⟨⟨[], [], hends, nofun, nofun⟩, htrim.head, htrim.last⟩

end Netlist.Text
