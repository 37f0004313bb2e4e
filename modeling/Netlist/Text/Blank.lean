/-
Blank characters and trimming.

A character is blank when it has the Unicode property White_Space. The property holds of
25 code points, listed here as ranges; it is wider than the four ASCII blanks, and source
text may contain any of them between two tokens.
-/

set_option autoImplicit false

namespace Netlist.Text

/-- The code points with the property White_Space. -/
def isBlank (c : Char) : Bool :=
  let n := c.toNat
  (9 ≤ n && n ≤ 13) || n == 32 || n == 0x85 || n == 0xA0 || n == 0x1680 ||
    (0x2000 ≤ n && n ≤ 0x200A) || n == 0x2028 || n == 0x2029 || n == 0x202F ||
    n == 0x205F || n == 0x3000

/-- A text without the blanks at its two ends. -/
def trimBlanks (cs : List Char) : List Char :=
  ((cs.dropWhile isBlank).reverse.dropWhile isBlank).reverse

/-- `trimBlanks` on strings. -/
def trim (s : String) : String :=
  String.ofList (trimBlanks s.toList)

/-- A text that neither starts nor ends with a blank is its own trimmed form. -/
theorem trimBlanks_eq_self {cs : List Char}
    (hhead : ∀ c ∈ cs.head?, isBlank c = false) (hlast : ∀ c ∈ cs.getLast?, isBlank c = false) :
    trimBlanks cs = cs := by
  have hkeep : ∀ l : List Char, (∀ c ∈ l.head?, isBlank c = false) → l.dropWhile isBlank = l := by
    intro l hl
    cases l with
    | nil => rfl
    | cons c r => simp [hl c (by simp)]
  have hrev : ∀ c ∈ cs.reverse.head?, isBlank c = false := by
    rwa [List.head?_reverse]
  rw [trimBlanks, hkeep cs hhead, hkeep cs.reverse hrev, List.reverse_reverse]

end Netlist.Text
