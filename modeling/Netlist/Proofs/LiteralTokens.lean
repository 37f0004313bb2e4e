/-
Literals as tokens.

What a literal is, is said twice: once for a text on its own, which `Literal.read` reads, and
once for the lexer, which cuts a number out of a longer text. This module compares the two.
A text that is read as a literal begins with decimal digits; what stands behind them
(`Literal.Tail`) is a base with its digits, or digits among which underscores may stand. The
lexer takes a base with all that follows it, but it takes no underscore behind plain digits. So
every literal is one number token, and is read back as the literal, unless it is bare and has
underscores. Such a one is a number and an identifier to the lexer, and no expression has these
two side by side.
-/
import Netlist.Proofs.Numerals
import Netlist.Proofs.Printing

set_option autoImplicit false

namespace Netlist

/-! ## Literals that have words -/

namespace Literal

variable {digits size : List Char} {letter : Char} {radix : Radix} {s : String} {w : Word}

/-- A literal that is read has a word, and its shape is that of the text. -/
theorem exists_tail_of_read (htrim : Text.trim s = s) (hread : read s = .ok w) :
    ∃ size rest l, s.toList = size ++ rest ∧ size ≠ [] ∧ (∀ d ∈ size, d.isDigit) ∧
      Tail size rest l ∧ l.word s = .ok w := by
  rw [read, htrim] at hread
  split at hread
  · next l hl =>
    obtain ⟨size, rest, hs, hne, hdigits, htail⟩ := exists_tail_of_ofChars? hl
    exact ⟨size, rest, l, hs, hne, hdigits, htail, hread⟩
  · cases hread

/-- A sized literal that has a word has digits behind its base. -/
theorem digits_ne_nil_of_word (h : (sized size letter radix digits).word s = .ok w) :
    digits ≠ [] := by
  rintro rfl
  rw [word] at h
  split at h
  · cases h
  · cases h
  · cases h

end Literal

/-! ## Literals before the lexer -/

namespace Grammar

open Literal Terminal Token

variable {size rest lexeme : List Char} {l : Literal} {s : String} {w : Word}

/-- Nothing but a number starts as numbers do. -/
theorem claims_number (h : Spells .number lexeme) : Claims .number lexeme := by
  obtain ⟨c, cs, rfl⟩ := List.exists_cons_of_ne_nil h.ne_nil
  refine ⟨h, fun y hy => .inl ?_⟩
  rcases h.first_cases with ⟨-, -, hx | ⟨k, hx, -⟩⟩ | ⟨hc, -⟩ | ⟨p, hx, -⟩
  · cases hx
  · cases hx
  · exact hy.of_isDigit hc
  · cases hx

/-- A text that is spelled as a number is read as a number alone. -/
theorem parseExpression_of_claims (h : Claims .number s.toList) :
    parseExpression (.ofText s) =
      .ok (nodeOver (.ofText s) .number 0 (Source.ofText s).byteLength []) := by
  have hscans : Scans 0 (s.toList ++ []) [⟨.number, 0, 0 + Text.byteLength s.toList⟩] [] :=
    .token (h.leads rfl ends_nil) .done
  rw [List.append_nil, Nat.zero_add] at hscans
  rw [parseExpression, tokens_eq_ok_iff.2 hscans]
  rfl

theorem text_nodeOver_all (s : String) (k : NodeKind) (ts : List Tree) :
    (nodeOver (.ofText s) k 0 (Source.ofText s).byteLength ts).text = s := by
  have hslice := Text.slice?_append [] s.toList []
  rw [List.append_nil, List.nil_append, Text.byteLength_nil, Nat.zero_add] at hslice
  show Location.text ⟨⟨.text, s.toList⟩, 0, Text.byteLength s.toList⟩ = s
  rw [Location.text, hslice]
  exact String.ofList_toList

/-- An underscore ends plain digits. -/
theorem leads_digits (hne : size ≠ []) (hsize : ∀ d ∈ size, d.isDigit) (rest : List Char) :
    Leads .number size ('_' :: rest) := by
  obtain ⟨htake, hdrop⟩ := takeWhile_append_stop hsize rest (c := '_') (by decide)
  refine leads_of_numberLength? ?_
  rw [numberLength?, htake, hdrop]
  have hplain : (if size.length = 0 then none else some size.length) = some size.length :=
    if_neg (List.length_pos_iff.2 hne).ne'
  cases rest with
  | nil => exact hplain
  | cons letter digits => exact hplain

theorem isIdentifierPart_of_isDecimalDigit {c : Char} (h : isDecimalDigit c) :
    isIdentifierPart c := by
  simp only [isDecimalDigit, Bool.or_eq_true] at h
  simp only [isIdentifierPart, Char.isAlphanum, Bool.or_eq_true]
  exact h.imp_left .inr

/-- It starts an identifier that takes all digits and underscores behind it. -/
theorem leads_underscored (hrest : ∀ c ∈ rest, isDecimalDigit c) :
    Leads .identifier ('_' :: rest) [] := by
  have hparts : ∀ c ∈ rest, isIdentifierPart c :=
    fun c hc => isIdentifierPart_of_isDecimalDigit (hrest c hc)
  have hleads : Spells .identifier ('_' :: rest.takeWhile isIdentifierPart) → _ → Leads .identifier
      ('_' :: rest.takeWhile isIdentifierPart) (rest.dropWhile isIdentifierPart) :=
    leads_of_isIdentifierStart rfl
  rw [List.takeWhile_eq_self_iff.2 hparts, List.dropWhile_eq_nil_iff.2 hparts] at hleads
  refine hleads (.identifier rfl hparts) fun _ => ?_
  -- no keyword starts with an underscore
  cases hk : Keyword.ofText? (String.ofList ('_' :: rest)) with
  | none => rfl
  | some k =>
    have htext := congrArg String.toList (Keyword.ofText?_eq_some_iff.1 hk)
    rw [String.toList_ofList] at htext
    cases k <;> exact absurd (List.cons.inj htext).1 (by decide)

/-- Plain digits with underscores behind them are refused where the underscores begin. -/
theorem parseExpression_underscored (hs : s.toList = size ++ '_' :: rest) (hne : size ≠ [])
    (hsize : ∀ d ∈ size, d.isDigit) (hrest : ∀ c ∈ rest, isDecimalDigit c) :
    parseExpression (.ofText s) = .error (.refused (.ofText s)
      [⟨.number, 0, Text.byteLength size⟩]
      ⟨.identifier, Text.byteLength size, (Source.ofText s).byteLength⟩) := by
  have hname : Scans (0 + Text.byteLength size) (('_' :: rest) ++ []) _ [] :=
    .token (leads_underscored hrest) .done
  rw [List.append_nil] at hname
  have hscans := Scans.token (leads_digits hne hsize rest) hname
  rw [Nat.zero_add, ← Text.byteLength_append, ← hs] at hscans
  rw [parseExpression, tokens_eq_ok_iff.2 hscans]
  -- the name is refused, and there is no other token in front of it than the number
  refine congrArg (fun before => Except.error (ParseError.refused (.ofText s) before _)) ?_
  have hdiffer : (⟨.identifier, Text.byteLength size, (Source.ofText s).byteLength⟩ : Token) ∉
      [⟨.number, 0, Text.byteLength size⟩] := by simp
  exact tokensBefore_append hdiffer []

/-! ## Literals before the grammar -/

/-- A literal that is sized, or has no underscores, is spelled as a number. -/
theorem spells_of_tail (hne : size ≠ []) (hsize : ∀ d ∈ size, d.isDigit) (htail : Tail size rest l)
    (hword : l.word s = .ok w) (hcs : mark ∈ size ++ rest ∨ '_' ∉ size ++ rest) :
    Spells .number (size ++ rest) := by
  cases htail with
  | bare hhead hrest =>
    cases rest with
    | nil =>
      rw [List.append_nil]
      exact .plainNumber hne hsize
    | cons c rest =>
      obtain rfl := hhead c rfl
      rcases hcs with hmark | hplain
      · rcases List.mem_append.1 hmark with hmem | hmem
        · exact absurd (hsize _ hmem) not_isDigit_mark
        · exact absurd (hrest _ hmem) (by decide)
      · exact absurd (List.mem_append_right _ List.mem_cons_self) hplain
  | sized hletter hdigits =>
    exact .basedNumber hsize (Option.isSome_iff_exists.2 ⟨_, hletter⟩)
      (digits_ne_nil_of_word hword) hdigits

/-- A bare literal with underscores is plain digits up to the first of them. -/
theorem exists_underscored_of_tail (hsize : ∀ d ∈ size, d.isDigit) (htail : Tail size rest l)
    (hmark : mark ∉ size ++ rest) (hunderscore : '_' ∈ size ++ rest) :
    ∃ more, rest = '_' :: more ∧ ∀ c ∈ more, isDecimalDigit c := by
  cases htail with
  | bare hhead hrest =>
    cases rest with
    | nil =>
      rw [List.append_nil] at hunderscore
      exact absurd (hsize _ hunderscore) (by decide)
    | cons c more =>
      obtain rfl := hhead c rfl
      exact ⟨more, rfl, (List.forall_mem_cons.1 hrest).2⟩
  | sized => exact absurd (List.mem_append_right _ List.mem_cons_self) hmark

/-- What the grammar makes of a literal. One that is sized, or has no underscores, is a single
number that covers the text; it stands for the constant of this text, whose value is the word
that the literal is read as, and it does so wherever else it is written. Any other one is
digits up to an underscore, and is refused there. -/
theorem parseExpression_literal (htrim : Text.trim s = s) (hread : Literal.read s = .ok w) :
    (mark ∈ s.toList ∨ '_' ∉ s.toList →
      (∃ t, parseExpression (.ofText s) = .ok t ∧ t.kind = .number ∧ t.children = [] ∧
        t.text = s ∧ (Expr.ofTree t).run = ⟨some (.constant s), []⟩) ∧
      (∀ env, ((Expr.constant s).eval env).run = ⟨.ok w, []⟩) ∧
      (Expr.constant s).Readable) ∧
    (mark ∉ s.toList → '_' ∈ s.toList →
      ∃ digits more, s.toList = digits ++ '_' :: more ∧ (∀ d ∈ digits, d.isDigit) ∧
        parseExpression (.ofText s) = .error (.refused (.ofText s)
          [⟨.number, 0, Text.byteLength digits⟩]
          ⟨.identifier, Text.byteLength digits, (Source.ofText s).byteLength⟩)) := by
  obtain ⟨size, rest, l, hs, hne, hsize, htail, hword⟩ := exists_tail_of_read htrim hread
  refine ⟨fun hcs => ?_, fun hmark hunderscore => ?_⟩
  · have hclaims : Claims .number s.toList := by
      rw [hs] at hcs ⊢
      exact claims_number (spells_of_tail hne hsize htail hword hcs)
    refine ⟨⟨_, parseExpression_of_claims hclaims, rfl, rfl, text_nodeOver_all s _ _, ?_⟩,
      fun env => ?_, Expr.readable_constant hclaims⟩
    · have htext : Text.trim (nodeOver (.ofText s) .number 0 (Source.ofText s).byteLength []).text
          = s := by
        rw [text_nodeOver_all, htrim]
      rw [nodeOver, Expr.ofTree]
      exact congrArg (fun s => (⟨some (.constant s), []⟩ : Logged (Option Expr))) htext
    · rw [Expr.eval_constant, hread]
      rfl
  · rw [hs] at hmark hunderscore
    obtain ⟨more, rfl, hmore⟩ := exists_underscored_of_tail hsize htail hmark hunderscore
    exact ⟨size, more, hs, hsize, parseExpression_underscored hs hne hsize hmore⟩

/-- A sized literal with an underscore is a single number. -/
theorem parseExpression_literal_sized :
    Text.trim "8'hF_F" = "8'hF_F" ∧ Literal.read "8'hF_F" = .ok (.ofNat 8 255) ∧
    mark ∈ "8'hF_F".toList ∧
    (∃ t, parseExpression (.ofText "8'hF_F") = .ok t ∧ t.kind = .number ∧ t.children = [] ∧
      t.text = "8'hF_F" ∧ (Expr.ofTree t).run = ⟨some (.constant "8'hF_F"), []⟩) ∧
    (∀ env, ((Expr.constant "8'hF_F").eval env).run = ⟨.ok (.ofNat 8 255), []⟩) ∧
    (Expr.constant "8'hF_F").Readable := by
  have htrim : Text.trim "8'hF_F" = "8'hF_F" := by decide +kernel
  have hread : Literal.read "8'hF_F" = .ok (.ofNat 8 255) := by rfl
  have hmark : mark ∈ "8'hF_F".toList := by decide +kernel
  exact ⟨htrim, hread, hmark, (parseExpression_literal htrim hread).1 (.inl hmark)⟩

/-- A bare literal with an underscore is read as a word, and is no expression. -/
theorem parseExpression_underscored_thousand :
    Text.trim "1_000" = "1_000" ∧ Literal.read "1_000" = .ok (.ofNat 10 1000) ∧
    ∀ t, parseExpression (.ofText "1_000") ≠ .ok t := by
  refine ⟨by decide +kernel, rfl, fun t ht => ?_⟩
  have hrefused : (parseExpression (.ofText "1_000")).toOption.isSome = false := by decide +kernel
  rw [ht] at hrefused
  cases hrefused

end Grammar

end Netlist
