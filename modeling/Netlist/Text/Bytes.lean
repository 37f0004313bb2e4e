/-
Byte offsets in text.

Positions in source text count the bytes of its UTF-8 form. A slice between two offsets
exists only if neither offset cuts a character; `slice?` says which characters it holds.
-/

set_option autoImplicit false

namespace Netlist.Text

/-- The number of bytes that a row of characters takes. -/
def byteLength (cs : List Char) : Nat :=
  cs.foldl (fun n c => n + c.utf8Size) 0

@[simp] theorem byteLength_nil : byteLength [] = 0 := rfl

@[simp] theorem byteLength_cons (c : Char) (cs : List Char) :
    byteLength (c :: cs) = c.utf8Size + byteLength cs := by
  have hacc : ∀ (n : Nat) (l : List Char),
      l.foldl (fun n c => n + c.utf8Size) n = n + l.foldl (fun n c => n + c.utf8Size) 0 := by
    intro n l
    induction l generalizing n with
    | nil => rfl
    | cons d ds ih =>
      rw [List.foldl_cons, List.foldl_cons, ih, ih (0 + d.utf8Size)]
      omega
  rw [byteLength, List.foldl_cons, hacc, Nat.zero_add, byteLength]

@[simp] theorem byteLength_append (as bs : List Char) :
    byteLength (as ++ bs) = byteLength as + byteLength bs := by
  induction as with
  | nil => simp
  | cons c cs ih => simp [ih, Nat.add_assoc]

/-! ## Cutting at an offset -/

/-- The characters from byte `n` on, if a character starts there or the text ends there. -/
def dropBytes : Nat → List Char → Option (List Char)
  | 0, cs => some cs
  | _ + 1, [] => none
  | n + 1, c :: cs => if c.utf8Size ≤ n + 1 then dropBytes (n + 1 - c.utf8Size) cs else none

/-- The characters before byte `n`, if a character starts there or the text ends there. -/
def takeBytes : Nat → List Char → Option (List Char)
  | 0, _ => some []
  | _ + 1, [] => none
  | n + 1, c :: cs =>
    if c.utf8Size ≤ n + 1 then (takeBytes (n + 1 - c.utf8Size) cs).map (c :: ·) else none

/-- The characters from byte `start` up to byte `stop`, if these offsets are in order and
cut no character. -/
def slice? (cs : List Char) (start stop : Nat) : Option (List Char) :=
  if start ≤ stop then (dropBytes start cs).bind (takeBytes (stop - start)) else none

theorem dropBytes_append (as bs : List Char) :
    dropBytes (byteLength as) (as ++ bs) = some bs := by
  induction as with
  | nil => simp [dropBytes]
  | cons c cs ih =>
    have hpos : 0 < c.utf8Size := Char.utf8Size_pos c
    obtain ⟨n, hn⟩ : ∃ n, c.utf8Size + byteLength cs = n + 1 := ⟨c.utf8Size + byteLength cs - 1, by omega⟩
    have hle : c.utf8Size ≤ n + 1 := by omega
    have hsub : n + 1 - c.utf8Size = byteLength cs := by omega
    simp [dropBytes, hn, hle, hsub, ih]

theorem takeBytes_append (as bs : List Char) :
    takeBytes (byteLength as) (as ++ bs) = some as := by
  induction as with
  | nil => simp [takeBytes]
  | cons c cs ih =>
    have hpos : 0 < c.utf8Size := Char.utf8Size_pos c
    obtain ⟨n, hn⟩ : ∃ n, c.utf8Size + byteLength cs = n + 1 := ⟨c.utf8Size + byteLength cs - 1, by omega⟩
    have hle : c.utf8Size ≤ n + 1 := by omega
    have hsub : n + 1 - c.utf8Size = byteLength cs := by omega
    simp [takeBytes, hn, hle, hsub, ih]

/-- The slice between the ends of a middle part is that middle part. -/
theorem slice?_append (as bs cs : List Char) :
    slice? (as ++ bs ++ cs) (byteLength as) (byteLength as + byteLength bs) = some bs := by
  simp [slice?, List.append_assoc, dropBytes_append, takeBytes_append]

end Netlist.Text
