/-
Constants as indices and as bounds.

The same constant is worked out in two ways. As a bound it is a number, and the arithmetic is exact
(`Tree.constant?`). As an index it is an expression like any other, and each operation is carried
out at the width of its left operand, so that `3+1` is zero at the two bits of the `3`. A bit that
is selected by an index and the same bit selected by a range are therefore the same only if the
index evaluates to the number of the bound, and without a warning; then they are the same for every
word that is selected from (`agree_iff_readsAs`). It is enough that each operation stays within the
width of the literal that stands leftmost in it (`Tree.Exact`).
-/
import Netlist.Module.OfTree
import Netlist.Proofs.Printable
import Netlist.Proofs.Selections
import Netlist.Proofs.Trimming

set_option autoImplicit false

namespace Netlist

/-! ## Trimming twice -/

theorem Literal.read_trim (text : String) : read (Text.trim text) = read text := by
  rw [read, read, Text.trim_trim]

theorem bounded_eq {m n : Int} (h : bounded m = some n) : n = m :=
  (bounded_eq_some_iff.1 h).1.symm

/-! ## Operations that stay within the width -/

namespace Word

variable {a b : Word}

theorem bits_add (h : a.bits + b.bits < modulus a.width) : (a.add b).bits = a.bits + b.bits := by
  rw [add, bits_ofNat, Nat.mod_eq_of_lt h]

theorem bits_sub (h : b.bits ≤ a.bits) : (a.sub b).bits = a.bits - b.bits := by
  have hb : b.bits < modulus a.width := Nat.lt_of_le_of_lt h a.bits_lt
  have ha : a.bits - b.bits < modulus a.width := Nat.lt_of_le_of_lt (Nat.sub_le _ _) a.bits_lt
  rw [sub, bits_ofNat, truncate_eq_mod, Nat.mod_eq_of_lt hb, Nat.add_sub_assoc h,
    Nat.add_mod_left, Nat.mod_eq_of_lt ha]

theorem bits_mul (h : a.bits * b.bits < modulus a.width) : (a.mul b).bits = a.bits * b.bits := by
  rw [mul, bits_ofNat, Nat.mod_eq_of_lt h]

theorem width_div (a b : Word) : (a.div b).width = a.width := by
  unfold div
  split <;> rfl

theorem bits_div (h : b.isZero = false) : (a.div b).bits = a.bits / b.bits := by
  have hlt : a.bits / b.bits < modulus a.width :=
    Nat.lt_of_le_of_lt (Nat.div_le_self _ _) a.bits_lt
  rw [div, h, if_neg Bool.false_ne_true, bits_ofNat, Nat.mod_eq_of_lt hlt]

theorem bits_neg (h : a.bits = 0) : a.neg.bits = 0 := by
  rw [neg, bits_ofNat, h, Nat.sub_zero, Nat.mod_self]

end Word

/-! ## Evaluating trees -/

namespace Tree

/-- What the expression of a tree evaluates to, if the tree has one. -/
def evaluate (env : Env) (t : Tree) : Logged (Option (Except EvalError Word)) := do
  match ← (Expr.ofTree t).run with
  | some e => return some (← (e.eval env).run)
  | none => return none

/-- The tree has an expression, which evaluates to the word in every environment and records the
same diagnostics in each. -/
def Computes (t : Tree) (w : Word) (log : Log) : Prop :=
  ∃ e, (Expr.ofTree t).run = ⟨some e, []⟩ ∧ ∀ env, (e.eval env).run = ⟨.ok w, log⟩

/-- The tree evaluates to the number in every environment, and nothing is recorded. -/
def ReadsAs (t : Tree) (n : Nat) : Prop :=
  ∀ env, ∃ w, t.evaluate env = ⟨some (.ok w), []⟩ ∧ w.bits = n

/-- The width at which a constant is worked out: that of the literal that stands leftmost. -/
def constantWidth : Tree → Nat
  | node .number location _ =>
    match Literal.read location.text with
    | .ok w => w.width
    | .error _ => 0
  | node .parenthesizedExpression _ [e] => constantWidth e
  | node .unaryExpression _ [_, e] => constantWidth e
  | node .binaryExpression _ [left, _, _] => constantWidth left
  | _ => 0

/-- The number that the constant stands for fits into the width at which it is worked out. -/
def InWidth (t : Tree) : Prop :=
  ∃ n : Nat, t.constant? = some (n : Int) ∧ n < modulus t.constantWidth

/-- Every operation in the constant stays within the width at which it is worked out. -/
def Exact : Tree → Prop
  | node .parenthesizedExpression _ [e] => Exact e
  | node .unaryExpression l [op, e] => Exact e ∧ (node .unaryExpression l [op, e]).InWidth
  | node .binaryExpression l [left, op, right] =>
    Exact left ∧ Exact right ∧ (node .binaryExpression l [left, op, right]).InWidth
  | _ => True

variable {t e left op right : Tree} {l : Location} {ts : List Tree} {w u v : Word} {log p q : Log}

theorem evaluate_of_run_eq {expr : Expr} {env : Env} (hexpr : (Expr.ofTree t).run = ⟨some expr, []⟩)
    (heval : (expr.eval env).run = ⟨.ok w, log⟩) : t.evaluate env = ⟨some (.ok w), log⟩ := by
  rw [evaluate, hexpr]
  show (do return some (← (expr.eval env).run) : Logged (Option (Except EvalError Word))) = _
  rw [heval]
  exact Logged.ext rfl (List.append_nil _)

theorem Computes.evaluate (h : t.Computes w log) (env : Env) :
    t.evaluate env = ⟨some (.ok w), log⟩ := by
  obtain ⟨expr, hexpr, heval⟩ := h
  exact evaluate_of_run_eq hexpr (heval env)

theorem computes_number (h : Literal.read l.text = .ok w) : (node .number l ts).Computes w [] := by
  refine ⟨.constant (Text.trim l.text), by rw [Expr.ofTree]; rfl, fun env => ?_⟩
  rw [Expr.eval_constant, Literal.read_trim, h]
  rfl

theorem Computes.parenthesized (h : e.Computes w log) :
    (node .parenthesizedExpression l [e]).Computes w log := by
  obtain ⟨expr, hexpr, heval⟩ := h
  exact ⟨expr, by rw [Expr.ofTree, hexpr], heval⟩

theorem Computes.unary {o : UnaryOperator} (hop : UnaryOperator.ofText? (Text.trim op.text) = some o)
    (h : e.Computes w log) : (node .unaryExpression l [op, e]).Computes (o.apply w) log := by
  obtain ⟨expr, hexpr, heval⟩ := h
  refine ⟨.unary (Text.trim op.text) expr, ?_, fun env => ?_⟩
  · rw [Expr.ofTree, Expr.run_bind_of_some hexpr]
    rfl
  · rw [Expr.eval_unary, hop]
    dsimp only
    rw [Work.run_bind_of_ok (heval env)]
    exact Logged.ext rfl (List.append_nil _)

/-- What dividing records. -/
def divisionLog (o : BinaryOperator) (u v : Word) : Log :=
  if o.divides && v.isZero then [⟨.warning, none, .divisionByZero u o v⟩] else []

theorem run_evalBinary (o : BinaryOperator) (u v : Word) :
    (Expr.evalBinary o u v).run = ⟨.ok (o.apply u v), divisionLog o u v⟩ := by
  rw [Expr.evalBinary, divisionLog]
  split <;> rfl

theorem Computes.binary {o : BinaryOperator}
    (hop : BinaryOperator.ofText? (Text.trim op.text) = some o) (hleft : left.Computes u p)
    (hright : right.Computes v q) :
    (node .binaryExpression l [left, op, right]).Computes (o.apply u v)
      (p ++ (q ++ divisionLog o u v)) := by
  obtain ⟨a, ha, hu⟩ := hleft
  obtain ⟨b, hb, hv⟩ := hright
  refine ⟨.binary (Text.trim op.text) a b, ?_, fun env => ?_⟩
  · rw [Expr.ofTree, Expr.run_bind_of_some ha, Expr.run_bind_of_some hb]
    rfl
  · rw [Expr.eval_binary, hop]
    dsimp only
    rw [Work.run_bind_of_ok (hu env), Work.run_bind_of_ok (hv env), run_evalBinary]

/-! ## Constants -/

/-- The tree is a constant that stands for `n` and evaluates to `w`. All that is recorded are
warnings, and if every operation stays within its width, nothing is, and the word is the number. -/
structure Folds (t : Tree) (n : Int) (w : Word) (log : Log) : Prop where
  computes : t.Computes w log
  width : w.width = t.constantWidth
  warnings : ∀ d ∈ log, d.isWarning = true
  of_exact : t.Exact → log = [] ∧ (w.bits : Int) = n

variable {m n k : Int}

theorem folds_number (h : Literal.read l.text = .ok w) :
    (node .number l ts).Folds w.bits w [] where
  computes := computes_number h
  width := by rw [constantWidth, h]
  warnings := by simp
  of_exact _ := ⟨rfl, rfl⟩

theorem Folds.parenthesized (h : e.Folds n w log) :
    (node .parenthesizedExpression l [e]).Folds n w log where
  computes := h.computes.parenthesized
  width := by rw [constantWidth, h.width]
  warnings := h.warnings
  of_exact hexact := by
    rw [Exact] at hexact
    exact h.of_exact hexact

/-- The number of a constant that stays within its width. -/
theorem InWidth.bounds (h : t.InWidth) (ht : t.constant? = some n) :
    0 ≤ n ∧ n < modulus t.constantWidth := by
  obtain ⟨k, hk, hlt⟩ := h
  rw [ht] at hk
  cases hk
  exact ⟨Int.natCast_nonneg k, by exact_mod_cast hlt⟩

/-- A sign in front of a constant. It has to be right on words that stay within the width. -/
theorem Folds.unary {o : UnaryOperator} (hop : UnaryOperator.ofText? (Text.trim op.text) = some o)
    (h : e.Folds m w log) (hn : (node .unaryExpression l [op, e]).constant? = some n)
    (hwidth : (o.apply w).width = w.width)
    (harith : (w.bits : Int) = m → 0 ≤ n → ((o.apply w).bits : Int) = n) :
    (node .unaryExpression l [op, e]).Folds n (o.apply w) log where
  computes := h.computes.unary hop
  width := by rw [hwidth, h.width, constantWidth]
  warnings := h.warnings
  of_exact hexact := by
    rw [Exact] at hexact
    obtain ⟨hlog, hbits⟩ := h.of_exact hexact.1
    exact ⟨hlog, harith hbits (hexact.2.bounds hn).1⟩

/-- An operation on two constants, which has to be right on words that stay within the width. -/
theorem Folds.binary {o : BinaryOperator}
    (hop : BinaryOperator.ofText? (Text.trim op.text) = some o) (hleft : left.Folds m u p)
    (hright : right.Folds k v q)
    (hn : (node .binaryExpression l [left, op, right]).constant? = some n)
    (hwidth : (o.apply u v).width = u.width)
    (harith : (u.bits : Int) = m → (v.bits : Int) = k → 0 ≤ n → n < modulus u.width →
      divisionLog o u v = [] ∧ ((o.apply u v).bits : Int) = n) :
    (node .binaryExpression l [left, op, right]).Folds n (o.apply u v)
      (p ++ (q ++ divisionLog o u v)) where
  computes := hleft.computes.binary hop hright.computes
  width := by rw [hwidth, hleft.width, constantWidth]
  warnings := by
    intro d hd
    rcases List.mem_append.1 hd with hd | hd
    · exact hleft.warnings d hd
    · rcases List.mem_append.1 hd with hd | hd
      · exact hright.warnings d hd
      · unfold divisionLog at hd
        split at hd
        · rw [List.mem_singleton.1 hd]
          rfl
        · cases hd
  of_exact hexact := by
    rw [Exact] at hexact
    obtain ⟨hl, hr, hin⟩ := hexact
    obtain ⟨rfl, hu⟩ := hleft.of_exact hl
    obtain ⟨rfl, hv⟩ := hright.of_exact hr
    obtain ⟨hnonneg, hlt⟩ := hin.bounds hn
    rw [constantWidth, ← hleft.width] at hlt
    obtain ⟨hlog, hbits⟩ := harith hu hv hnonneg hlt
    rw [hlog]
    exact ⟨rfl, hbits⟩

theorem exists_folds_binary {o : BinaryOperator}
    (hop : BinaryOperator.ofText? (Text.trim op.text) = some o) (hleft : ∃ u p, left.Folds m u p)
    (hright : ∃ v q, right.Folds k v q)
    (hn : (node .binaryExpression l [left, op, right]).constant? = some n)
    (hwidth : ∀ u v, (o.apply u v).width = u.width)
    (harith : ∀ u v : Word, (u.bits : Int) = m → (v.bits : Int) = k → 0 ≤ n →
      n < modulus u.width → divisionLog o u v = [] ∧ ((o.apply u v).bits : Int) = n) :
    ∃ w log, (node .binaryExpression l [left, op, right]).Folds n w log := by
  obtain ⟨u, p, hu⟩ := hleft
  obtain ⟨v, q, hv⟩ := hright
  exact ⟨_, _, hu.binary hop hv hn (hwidth u v) (harith u v)⟩

/-- A constant evaluates, in every environment to the same word. The sum, the difference, the product
and the quotient of words are those of numbers as long as these fit. -/
theorem exists_folds (h : t.constant? = some n) : ∃ w log, t.Folds n w log := by
  fun_induction Tree.constant? t generalizing n with
  | case1 l ts w hw =>
    rw [bounded_eq h]
    exact ⟨w, [], folds_number hw⟩
  | case3 l e ih =>
    obtain ⟨w, log, hw⟩ := ih h
    exact ⟨w, log, hw.parenthesized⟩
  | case5 l op e m hm hop ih =>
    obtain ⟨w, log, hw⟩ := ih hm
    cases h
    have hn : (node .unaryExpression l [op, e]).constant? = some m := by rw [constant?, hm, hop]
    exact ⟨w, log, hw.unary hop hn rfl fun hbits _ => hbits⟩
  | case6 l op e m hm hop ih =>
    obtain ⟨w, log, hw⟩ := ih hm
    have hn : (node .unaryExpression l [op, e]).constant? = some n := by rw [constant?, hm, hop, ← h]
    refine ⟨w.neg, log, hw.unary hop hn rfl fun hbits hnonneg => ?_⟩
    -- of all numbers only zero stays in the width when its sign changes
    have hzero : w.bits = 0 := by
      have := bounded_eq h
      omega
    show (w.neg.bits : Int) = n
    rw [Word.bits_neg hzero, bounded_eq h, ← hbits, hzero]
    rfl
  | case8 l left op right m k hk hm hop ihl ihr =>
    have hn : (node .binaryExpression l [left, op, right]).constant? = some n := by
      rw [constant?, hm, hk, hop, ← h]
    refine exists_folds_binary hop (ihl hm) (ihr hk) hn (fun _ _ => rfl)
      fun u v hu hv _ hlt => ⟨rfl, ?_⟩
    rw [bounded_eq h, ← hu, ← hv] at hlt ⊢
    show ((u.add v).bits : Int) = _
    rw [Word.bits_add (by exact_mod_cast hlt), Nat.cast_add]
  | case9 l left op right m k hk hm hop ihl ihr =>
    have hn : (node .binaryExpression l [left, op, right]).constant? = some n := by
      rw [constant?, hm, hk, hop, ← h]
    refine exists_folds_binary hop (ihl hm) (ihr hk) hn (fun _ _ => rfl)
      fun u v hu hv hnonneg _ => ⟨rfl, ?_⟩
    rw [bounded_eq h, ← hu, ← hv] at hnonneg ⊢
    have hle : v.bits ≤ u.bits := by omega
    show ((u.sub v).bits : Int) = _
    rw [Word.bits_sub hle, Nat.cast_sub hle]
  | case10 l left op right m k hk hm hop ihl ihr =>
    have hn : (node .binaryExpression l [left, op, right]).constant? = some n := by
      rw [constant?, hm, hk, hop, ← h]
    refine exists_folds_binary hop (ihl hm) (ihr hk) hn (fun _ _ => rfl)
      fun u v hu hv _ hlt => ⟨rfl, ?_⟩
    rw [bounded_eq h, ← hu, ← hv] at hlt ⊢
    show ((u.mul v).bits : Int) = _
    rw [Word.bits_mul (by exact_mod_cast hlt), Nat.cast_mul]
  | case12 l left op right m k hk hm hop hne ihl ihr =>
    have hn : (node .binaryExpression l [left, op, right]).constant? = some n := by
      rw [constant?, hm, hk, hop, ← h]
      exact if_neg hne
    refine exists_folds_binary hop (ihl hm) (ihr hk) hn Word.width_div fun u v hu hv _ _ => ?_
    have hzero : v.isZero = false := by
      rw [Word.isZero, beq_eq_false_iff_ne]
      omega
    refine ⟨by rw [divisionLog, hzero, Bool.and_false, if_neg Bool.false_ne_true], ?_⟩
    show ((u.div v).bits : Int) = _
    rw [Word.bits_div hzero, bounded_eq h, ← hu, ← hv, Int.ofNat_tdiv]
  | _ => cases h

theorem Computes.readsAs_iff (h : t.Computes w log) {n : Nat} :
    t.ReadsAs n ↔ log = [] ∧ w.bits = n := by
  constructor
  · intro hreads
    obtain ⟨w', hw', hbits⟩ := hreads NameMap.empty
    rw [h.evaluate] at hw'
    cases hw'
    exact ⟨rfl, hbits⟩
  · rintro ⟨rfl, hbits⟩ env
    exact ⟨w, h.evaluate env, hbits⟩

end Tree

/-! ## Selections -/

theorem Word.extract_one (v : Word) (i : Nat) : v.extract i 1 = .ofBool (v.bit i) := by
  ext
  · rfl
  · rw [bits_extract, bits_ofBool, bit, Nat.toNat_testBit, modulus_eq_two_pow]
    rfl

namespace Tree

/-- Both trees evaluate to the same word, and a warning is recorded for both or for none. -/
def AgreeIn (env : Env) (s t : Tree) : Prop :=
  (∃ v, (s.evaluate env).value = some (.ok v) ∧ (t.evaluate env).value = some (.ok v)) ∧
    ((s.evaluate env).log.warnings = [] ↔ (t.evaluate env).log.warnings = [])

variable {a k t upper lower : Tree} {l l' : Location} {env : Env} {v w : Word} {log : Log} {n : Nat}

theorem run_ofTree_name (ha : a.kind = .simpleIdentifier) :
    (Expr.ofTree a).run = ⟨some (.signal a.word), []⟩ := by
  obtain ⟨kind, l, ts⟩ := a
  cases ha
  rw [Expr.ofTree]
  rfl

theorem run_eval_signal {name : String} (hv : env.get? name = some v) :
    ((Expr.signal name).eval env).run = ⟨.ok v, []⟩ := by
  rw [Expr.eval_signal, hv]
  rfl

theorem run_bound (h : t.constant? = some (n : Int)) : (Expr.bound t).run = ⟨some n, []⟩ := by
  have hn : t.natConstant? = some n := by
    rw [natConstant?, h]
    exact if_pos (Int.natCast_nonneg n)
  rw [Expr.bound, hn]
  rfl

/-- The bit at an index: a warning is recorded if one is of the index, or if it is past the top. -/
theorem evaluate_bitSelect (ha : a.kind = .simpleIdentifier) (hv : env.get? a.word = some v)
    (hk : k.Computes w log) :
    ((node .bitSelect l [a, k]).evaluate env).value = some (.ok (.ofBool (v.bit w.bits))) ∧
      (((node .bitSelect l [a, k]).evaluate env).log.warnings = [] ↔
        log.warnings = [] ∧ w.bits < v.width) := by
  obtain ⟨e, he, heval⟩ := hk
  have hexpr : (Expr.ofTree (node .bitSelect l [a, k])).run =
      ⟨some (.select (.signal a.word) e), []⟩ := by
    rw [Expr.ofTree, Expr.run_bind_of_some (run_ofTree_name ha), Expr.run_bind_of_some he]
    rfl
  rw [evaluate_of_run_eq hexpr (Expr.run_select (run_eval_signal hv) (heval env))]
  refine ⟨rfl, ?_⟩
  rw [List.nil_append, Log.warnings_append, List.append_eq_nil_iff, Expr.warnings_reportIf,
    Nat.not_le]

/-- The bit between bounds: a warning is recorded if they are past the top. -/
theorem evaluate_rangeSelect (ha : a.kind = .simpleIdentifier) (hv : env.get? a.word = some v)
    (hupper : upper.constant? = some (n : Int)) (hlower : lower.constant? = some (n : Int)) :
    ((node .rangeSelect l [a, upper, lower]).evaluate env).value =
        some (.ok (.ofBool (v.bit n))) ∧
      (((node .rangeSelect l [a, upper, lower]).evaluate env).log.warnings = [] ↔
        n < v.width) := by
  have hexpr : (Expr.ofTree (node .rangeSelect l [a, upper, lower])).run =
      ⟨some (.slice (.signal a.word) n n), []⟩ := by
    rw [Expr.ofTree, Expr.run_bind_of_some (run_ofTree_name ha),
      Expr.run_bind_of_some (run_bound hupper), Expr.run_bind_of_some (run_bound hlower)]
    rfl
  -- a number that a constant may be is far below the largest count
  have hcount : max n n < Count.limit - 1 := by
    have hlt := constant?_lt hlower
    unfold constantLimit at hlt
    unfold Count.limit
    omega
  have hone : Count.saturate (Count.distance n n + 1) = 1 := by
    rw [Count.distance, if_pos (Nat.le_refl n), Nat.sub_self]
    rfl
  rw [evaluate_of_run_eq hexpr (Expr.run_slice (run_eval_signal hv) n n)]
  constructor
  · rw [hone, Word.extract_one]
  · rw [List.nil_append, Expr.warnings_reportIf, slice_overruns_iff (.inr hcount), Nat.max_self,
      Nat.not_le]

/-- The word in which one bit is set and all above it are missing. -/
def topBit (n : Nat) : Word where
  width := n + 1
  bits := modulus n
  bits_lt := by
    have := modulus_pos n
    rw [modulus_succ]
    omega

theorem bit_topBit (n i : Nat) : (topBit n).bit i = decide (n = i) := by
  show (modulus n).testBit i = _
  rw [modulus_eq_two_pow, Nat.testBit_two_pow]

/-- A constant says the same as an index and as the bounds of a range, of every word that it may
select from, exactly if it evaluates to the number that it stands for and nothing is recorded. It
does if every operation in it stays within the width of its leftmost literal. -/
theorem agree_iff_readsAs (l l' : Location) (ha : a.kind = .simpleIdentifier)
    (hk : k.constant? = some (n : Int)) (hupper : upper.constant? = some (n : Int))
    (hlower : lower.constant? = some (n : Int)) :
    ((∀ env v, env.get? a.word = some v →
        AgreeIn env (node .bitSelect l [a, k]) (node .rangeSelect l' [a, upper, lower])) ↔
      k.ReadsAs n) ∧
    (k.Exact → k.ReadsAs n) := by
  obtain ⟨w, log, hfolds⟩ := exists_folds hk
  have hsilent : log.warnings = [] ↔ log = [] := by
    rw [Log.warnings, List.filter_eq_self.2 hfolds.warnings]
  rw [hfolds.computes.readsAs_iff]
  refine ⟨⟨fun hagree => ?_, ?_⟩, ?_⟩
  · -- the word in which just the bit of the bound is set tells all other indices apart
    have hv : (NameMap.empty.insert a.word (topBit n)).get? a.word = some (topBit n) :=
      NameMap.get?_insert_self ..
    obtain ⟨⟨u, hindex, hrange⟩, hwarn⟩ := hagree _ _ hv
    obtain ⟨hvalue, hsilent'⟩ := evaluate_bitSelect (l := l) ha hv hfolds.computes
    obtain ⟨hvalue', hinside⟩ := evaluate_rangeSelect (l := l') ha hv hupper hlower
    rw [hvalue, Option.some.injEq, Except.ok.injEq] at hindex
    rw [hvalue', Option.some.injEq, Except.ok.injEq] at hrange
    have hbits : n = w.bits := by
      have hbit := congrArg Word.bits (hindex.trans hrange.symm)
      rw [Word.bits_ofBool, Word.bits_ofBool, bit_topBit, bit_topBit] at hbit
      simpa using hbit
    have hnone := hsilent'.1 (hwarn.2 (hinside.2 (Nat.lt_succ_self n)))
    exact ⟨hsilent.1 hnone.1, hbits.symm⟩
  · rintro ⟨hlog, rfl⟩ env v hv
    obtain ⟨hvalue, hwarn⟩ := evaluate_bitSelect (l := l) ha hv hfolds.computes
    obtain ⟨hvalue', hwarn'⟩ := evaluate_rangeSelect (l := l') ha hv hupper hlower
    refine ⟨⟨_, hvalue, hvalue'⟩, ?_⟩
    rw [hwarn, hwarn', hsilent]
    exact and_iff_right hlog
  · intro hexact
    obtain ⟨hlog, hbits⟩ := hfolds.of_exact hexact
    exact ⟨hlog, by exact_mod_cast hbits⟩

/-- An operation on two literals. -/
def onLiterals (left op right : String) : Tree :=
  .branch .binaryExpression [.leaf .number left, .leaf .binaryOperator op, .leaf .number right]

/-- Seven has three bits, and so has what is left of it. -/
theorem agree_seven_minus_three :
    (leaf .simpleIdentifier "a").kind = .simpleIdentifier ∧
    (onLiterals "7" "-" "3").constant? = some (4 : Nat) ∧
    (onLiterals "7" "-" "3").ReadsAs 4 ∧
    ∀ env v, env.get? (leaf .simpleIdentifier "a").word = some v →
      AgreeIn env (branch .bitSelect [leaf .simpleIdentifier "a", onLiterals "7" "-" "3"])
        (branch .rangeSelect
          [leaf .simpleIdentifier "a", onLiterals "7" "-" "3", onLiterals "7" "-" "3"]) := by
  have hfour : (onLiterals "7" "-" "3").constant? = some (4 : Nat) := by decide +kernel
  have hexact : (onLiterals "7" "-" "3").Exact :=
    ⟨trivial, trivial, 4, hfour, by decide +kernel⟩
  obtain ⟨hiff, hreads⟩ := agree_iff_readsAs (a := leaf .simpleIdentifier "a") .unknown .unknown
    rfl hfour hfour hfour
  exact ⟨rfl, hfour, hreads hexact, hiff.2 (hreads hexact)⟩

/-- Three has two bits, and one more than three does not fit into them. So the index is zero, and of
a word in which just bit four is set it selects another bit than the range does. -/
theorem not_agree_three_plus_one :
    (onLiterals "3" "+" "1").constant? = some (4 : Nat) ∧
    (NameMap.empty.insert "a" (Word.ofNat 5 16)).get? (leaf .simpleIdentifier "a").word =
      some (Word.ofNat 5 16) ∧
    ¬AgreeIn (NameMap.empty.insert "a" (Word.ofNat 5 16))
      (branch .bitSelect [leaf .simpleIdentifier "a", onLiterals "3" "+" "1"])
      (branch .rangeSelect
        [leaf .simpleIdentifier "a", onLiterals "3" "+" "1", onLiterals "3" "+" "1"]) := by
  refine ⟨by decide +kernel, by decide +kernel, ?_⟩
  rintro ⟨⟨v, hindex, hrange⟩, -⟩
  have hzero : some (Except.ok (Word.ofNat 1 0)) = some (Except.ok v) := hindex
  have hone : some (Except.ok (Word.ofNat 1 1)) = some (Except.ok v) := hrange
  have hsame : Word.ofNat 1 0 = Word.ofNat 1 1 :=
    Except.ok.inj (Option.some.inj (hzero.trans hone.symm))
  exact absurd hsame (by decide)

end Tree

end Netlist
