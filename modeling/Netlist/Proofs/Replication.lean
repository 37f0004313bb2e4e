/-
Copies of a word.

A replication is worked out by doubling. Two words change from round to round, what is finished and what
is doubled, and how many rounds there are is a matter of the binary digits of the number of copies. What
stays the same is what they stand for: the finished part with as many of the doubled words below it as
are still to come (`Word.replicateBelow_eq`). So the result is that of putting the copies side by side
one by one, and each of them is found in its place (`Word.replicate_eq_concat`,
`Word.extract_concat_replicate`). That takes a width that can be counted. Of copies that are too wide
together a build that looks at the widths makes nothing (`Expr.joinCopies_join`).

A replication of expressions is therefore the concatenation of the copies, except that its body is
evaluated once, behind a count that is positive and below `2 ^ 64`. With any other count it stops before
the body is looked at (`Expr.replicate_agrees_concat`).
-/
import Netlist.Proofs.Concatenation

set_option autoImplicit false

namespace Netlist

namespace Word

variable {v : Word} {n : Nat}

/-! ## Copies side by side -/

theorem widths_replicate (n : Nat) (v : Word) :
    ((List.replicate n v).map Word.width).sum = n * v.width := by
  rw [List.map_replicate, List.sum_replicate, smul_eq_mul]

theorem width_concat_replicate {n : Nat} {v : Word} (h : n * v.width < Count.limit) :
    (concat (List.replicate n v)).width = n * v.width := by
  rw [width_concat, widths_replicate, Count.wrap_eq_self h]

theorem concat_replicate_add {m n : Nat} {v : Word} (h : (m + n) * v.width < Count.limit) :
    concat (List.replicate (m + n) v) =
      (concat (List.replicate m v)).append (concat (List.replicate n v)) := by
  rw [← List.replicate_append_replicate]
  refine concat_append ?_
  rwa [widths_replicate, widths_replicate, ← Nat.add_mul]

/-- Half as many copies of the double are as many copies, for an even number of them. -/
theorem concat_replicate_double {half : Nat} {v : Word} (h : 2 * half * v.width < Count.limit) :
    concat (List.replicate half (v.append v)) = concat (List.replicate (2 * half) v) := by
  induction half with
  | zero => rfl
  | succ half ih =>
    have hcount : 2 * (half + 1) = 2 * half + 1 + 1 := by omega
    have hsum : 2 * (half + 1) * v.width = v.width + (v.width + 2 * half * v.width) := by ring
    have hdouble : (v.append v).width = v.width + v.width := width_append_of_lt (by omega)
    have hrest : ((List.replicate half (v.append v)).map Word.width).sum = 2 * half * v.width := by
      rw [widths_replicate, hdouble]
      ring
    have hcopies : ((List.replicate (2 * half) v).map Word.width).sum = 2 * half * v.width :=
      widths_replicate _ v
    have hassoc : v.width + v.width + (concat (List.replicate (2 * half) v)).width < Count.limit := by
      rw [width_concat_replicate (by omega)]
      omega
    rw [hcount, List.replicate_succ, List.replicate_succ, List.replicate_succ,
      concat_cons (by omega), concat_cons (by rw [List.map_cons, List.sum_cons]; omega),
      concat_cons (by omega), ih (by omega), append_assoc hassoc]

/-! ## Doubling -/

section Rounds

variable {n : Nat} {copies there : Word}

/-- What is there after a round is a copy longer, if the number of copies is odd. -/
theorem width_there_round (h : there.width + n % 2 * copies.width < Count.limit) :
    (if n % 2 = 1 then there.append copies else there).width =
      there.width + n % 2 * copies.width := by
  rcases Nat.mod_two_eq_zero_or_one n with hmod | hmod
  · rw [hmod, if_neg (by decide), Nat.zero_mul, Nat.add_zero]
  · rw [hmod, Nat.one_mul] at h ⊢
    rw [if_pos rfl, width_append_of_lt h]

/-- As many copies are left as were, but for the odd one. The last doubling is left out. -/
theorem width_copies_round (h : n / 2 ≠ 0 → copies.width + copies.width < Count.limit) :
    n / 2 * (if n / 2 = 0 then copies else copies.append copies).width =
      2 * (n / 2) * copies.width := by
  by_cases hzero : n / 2 = 0
  · rw [hzero, Nat.zero_mul, Nat.mul_zero, Nat.zero_mul]
  · rw [if_neg hzero, width_append_of_lt (h hzero)]
    ring

theorem there_round (h : there.width + n % 2 * copies.width < Count.limit) :
    (if n % 2 = 1 then there.append copies else there) =
      there.append (concat (List.replicate (n % 2) copies)) := by
  rcases Nat.mod_two_eq_zero_or_one n with hmod | hmod
  · rw [hmod, Nat.zero_mul, Nat.add_zero] at h
    rw [hmod, if_neg (by decide), List.replicate_zero, concat_nil, append_zero h]
  · rw [hmod, Nat.one_mul] at h
    rw [hmod, if_pos rfl, List.replicate_one, concat_singleton (by omega)]

theorem copies_round (h : 2 * (n / 2) * copies.width < Count.limit) :
    concat (List.replicate (n / 2) (if n / 2 = 0 then copies else copies.append copies)) =
      concat (List.replicate (2 * (n / 2)) copies) := by
  rw [← concat_replicate_double h]
  by_cases hzero : n / 2 = 0
  · rw [hzero, List.replicate_zero, List.replicate_zero]
  · rw [if_neg hzero]

/-- The copies of a round are the odd one and those that are left. -/
theorem copies_halve (n width : Nat) : n * width = n % 2 * width + 2 * (n / 2) * width := by
  rw [← Nat.add_mul, Nat.mod_add_div]

/-- Where any copies are left after a round, two of them are no wider than all of them. -/
theorem double_le_of_left (width : Nat) (h : n / 2 ≠ 0) : width + width ≤ 2 * (n / 2) * width := by
  rw [← Nat.two_mul]
  exact Nat.mul_le_mul_right width (by omega)

/-- The rounds that are left put so many copies below what is there. The induction is on the number of
copies that are left. -/
theorem replicateBelow_eq (h : there.width + n * copies.width < Count.limit) :
    replicateBelow n copies there = there.append (concat (List.replicate n copies)) := by
  induction n using Nat.strongRecOn generalizing copies there with
  | ind n ih =>
    rw [replicateBelow_round]
    by_cases hn : n = 0
    · rw [if_pos hn, hn, List.replicate_zero, concat_nil, append_zero (by omega)]
    · have hhalf : n / 2 < n := Nat.div_lt_self (Nat.pos_of_ne_zero hn) (by decide)
      rw [copies_halve] at h
      have hfront : there.width + n % 2 * copies.width < Count.limit := by omega
      have hdouble : n / 2 ≠ 0 → copies.width + copies.width < Count.limit := fun hleft =>
        Nat.lt_of_le_of_lt (double_le_of_left copies.width hleft) (by omega)
      have hthere := width_there_round hfront
      have hcopies := width_copies_round hdouble
      -- the odd copy stands in front of the copies that are left
      have hadd : (n % 2 + 2 * (n / 2)) * copies.width < Count.limit := by
        rw [Nat.add_mul]
        omega
      have hassoc : there.width + (concat (List.replicate (n % 2) copies)).width +
          (concat (List.replicate (2 * (n / 2)) copies)).width < Count.limit := by
        rwa [width_concat_replicate (by omega), width_concat_replicate (by omega), Nat.add_assoc]
      rw [if_neg hn, ih _ hhalf (by omega), there_round hfront, copies_round (by omega),
        append_assoc hassoc, ← concat_replicate_add hadd, Nat.mod_add_div]

/-- The width of all copies together, as much of it as is left in 64 bits. -/
theorem width_replicateBelow (h : there.width < Count.limit) :
    (replicateBelow n copies there).width = Count.wrap (there.width + n * copies.width) := by
  induction n using Nat.strongRecOn generalizing copies there with
  | ind n ih =>
    rw [replicateBelow_round]
    by_cases hn : n = 0
    · rw [if_pos hn, hn, Nat.zero_mul, Nat.add_zero, Count.wrap_eq_self h]
    · have hhalf : n / 2 < n := Nat.div_lt_self (Nat.pos_of_ne_zero hn) (by decide)
      have hthere : (if n % 2 = 1 then there.append copies else there).width =
          Count.wrap (there.width + n % 2 * copies.width) := by
        rcases Nat.mod_two_eq_zero_or_one n with hmod | hmod
        · rw [hmod, if_neg (by decide), Nat.zero_mul, Nat.add_zero, Count.wrap_eq_self h]
        · rw [hmod, if_pos rfl, Nat.one_mul, width_append]
      rw [if_neg hn, ih _ hhalf (hthere ▸ Count.wrap_lt _), hthere, Count.wrap_wrap_add]
      by_cases hzero : n / 2 = 0
      · rw [copies_halve n, hzero, Nat.zero_mul, Nat.mul_zero, Nat.zero_mul, Nat.add_zero, Nat.add_zero]
      · rw [if_neg hzero, width_append, Count.wrap_add_mul_wrap, copies_halve n]
        congr 1
        ring

end Rounds

theorem replicate_eq_concat {n : Nat} {v : Word} (h : n * v.width < Count.limit) :
    v.replicate n = concat (List.replicate n v) := by
  have hsum : (zero 0).width + n * v.width < Count.limit := by rwa [width_zero, Nat.zero_add]
  rw [replicate, replicateBelow_eq hsum, zero_append]
  rwa [width_concat_replicate h]

theorem width_replicate (n : Nat) (v : Word) :
    (v.replicate n).width = Count.wrap (n * v.width) := by
  rw [replicate, width_replicateBelow (by decide), width_zero, Nat.zero_add]

/-- Every copy is in its place. -/
theorem extract_concat_replicate {v : Word} {n k : Nat} (h : n * v.width < Count.limit)
    (hk : k < n) : (concat (List.replicate n v)).extract (k * v.width) v.width = v := by
  have hrow : List.replicate n v = List.replicate (n - k - 1) v ++ v :: List.replicate k v := by
    rw [← List.replicate_succ, List.replicate_append_replicate]
    congr 1
    omega
  have hfound :=
    extract_concat_middle (List.replicate (n - k - 1) v) (List.replicate k v) v (by
      rwa [← List.sum_cons, ← List.map_cons, ← List.sum_append, ← List.map_append, ← hrow,
        widths_replicate])
  rwa [← hrow, widths_replicate] at hfound

/-- A word counts copies if it is below the limit. -/
theorem count?_eq_some_iff : v.count? = some n ↔ v.bits < Count.limit ∧ v.bits = n := by
  unfold count?
  split <;> simp [*]

end Word

namespace Expr

variable {mode : Overflow} {env : Env} {body count : Expr} {n : Nat} {c v : Word} {log : Log}
  {err : EvalError}

/-! ## Copies that may be too many -/

/-- The odd copy is put below what is there, if there is one and it has room. -/
theorem join_there_round {copies there : Word} (hthere : there.width < Count.limit) :
    (if n % 2 = 1 then join .stops there copies else pure there) =
      if Count.limit ≤ there.width + n % 2 * copies.width then throw .overflow
      else pure (if n % 2 = 1 then there.append copies else there) := by
  rcases Nat.mod_two_eq_zero_or_one n with hmod | hmod
  · rw [hmod, Nat.zero_mul, Nat.add_zero, if_neg (Nat.not_le_of_lt hthere), if_neg (by decide),
      if_neg (by decide)]
  · simp only [hmod, Nat.one_mul, if_true, join, true_and]

/-- The copies are doubled if any are left, and if two of them have room. -/
theorem join_copies_round {copies : Word} :
    (if n / 2 = 0 then pure copies else join .stops copies copies) =
      if n / 2 ≠ 0 ∧ Count.limit ≤ copies.width + copies.width then throw .overflow
      else pure (if n / 2 = 0 then copies else copies.append copies) := by
  by_cases hzero : n / 2 = 0
  · rw [if_pos hzero, if_pos hzero, if_neg fun h => h.1 hzero]
  · simp only [hzero, if_false, join, true_and, ne_eq, not_false_eq_true]

/-- A build that looks at the widths breaks off if all copies together are too wide, and only then, for no
sum on the way is wider than that of all copies. The induction is on the number of copies that are left. -/
theorem joinCopies_stops {copies there : Word} (hthere : there.width < Count.limit) :
    Word.joinCopies (join .stops) n copies there =
      if Count.limit ≤ there.width + n * copies.width then throw .overflow
      else pure (Word.replicateBelow n copies there) := by
  induction n using Nat.strongRecOn generalizing copies there with
  | ind n ih =>
    rw [Word.joinCopies, Word.replicateBelow_round]
    by_cases hn : n = 0
    · rw [if_pos hn, if_pos hn, hn, Nat.zero_mul, Nat.add_zero, if_neg (Nat.not_le_of_lt hthere)]
    · have hhalf : n / 2 < n := Nat.div_lt_self (Nat.pos_of_ne_zero hn) (by decide)
      rw [if_neg hn, if_neg hn, Word.copies_halve n, ← Nat.add_assoc, join_there_round hthere,
        join_copies_round]
      -- a round breaks off at the odd copy, or at the double of what is left
      by_cases hodd : Count.limit ≤ there.width + n % 2 * copies.width
      · rw [if_pos hodd, if_pos (Nat.le_add_right_of_le hodd)]
        rfl
      rw [if_neg hodd, pure_bind]
      by_cases hdouble : n / 2 ≠ 0 ∧ Count.limit ≤ copies.width + copies.width
      · have hleft := Word.double_le_of_left copies.width hdouble.1
        rw [if_pos hdouble, if_pos (Nat.le_add_left_of_le (Nat.le_trans hdouble.2 hleft))]
        rfl
      · have hwidth := Word.width_there_round (Nat.lt_of_not_le hodd)
        have hroom : n / 2 ≠ 0 → copies.width + copies.width < Count.limit := fun hleft =>
          Nat.lt_of_not_le fun hle => hdouble ⟨hleft, hle⟩
        rw [if_neg hdouble, pure_bind, ih _ hhalf (hwidth ▸ Nat.lt_of_not_le hodd), hwidth,
          Word.width_copies_round hroom]

/-- Copies of a word are put together, unless the build looks at the width and it is no count. -/
theorem joinCopies_join (n : Nat) (v : Word) :
    Word.joinCopies (join mode) n v (.zero 0) =
      if mode = .stops ∧ Count.limit ≤ n * v.width then throw .overflow
      else pure (v.replicate n) := by
  cases mode with
  | stops =>
    rw [joinCopies_stops (by decide), Word.width_zero, Nat.zero_add]
    simp only [true_and]
    rfl
  | wraps =>
    rw [join_wraps, Word.joinCopies_pure, if_neg (fun h => nomatch h.1)]
    rfl

theorem joinCopies_of_lt (h : n * v.width < Count.limit) :
    Word.joinCopies (join mode) n v (.zero 0) = pure (v.replicate n) := by
  rw [joinCopies_join, if_neg fun hstops => Nat.not_le_of_lt h hstops.2]

theorem log_joinCopies (n : Nat) (v : Word) :
    (Word.joinCopies (join mode) n v (.zero 0)).run.log = [] := by
  rw [joinCopies_join]
  split <;> rfl

/-! ## Replications -/

/-- The word is a number of copies: at least one, and below `2 ^ 64`. -/
def CountsCopies (c : Word) : Prop :=
  1 ≤ c.bits ∧ c.bits < 2 ^ 64

instance (c : Word) : Decidable (CountsCopies c) :=
  inferInstanceAs (Decidable (_ ∧ _))

theorem run_replicate (hc : (count.evalWith mode env).run = ⟨.ok c, log⟩) (h : CountsCopies c) :
    ((replicate body count).evalWith mode env).run =
      ⟨(do
          Word.joinCopies (join mode) c.bits (← body.evalWith mode env) (.zero 0)).run.value,
        log ++ (body.evalWith mode env).run.log⟩ := by
  obtain ⟨copies, hcopies⟩ := Nat.exists_eq_succ_of_ne_zero (Nat.one_le_iff_ne_zero.1 h.1)
  have hcount : c.count? = some (copies + 1) := Word.count?_eq_some_iff.2 ⟨h.2, hcopies⟩
  rw [evalWith, Work.run_bind_of_ok hc, hcount, hcopies]
  refine Logged.ext rfl ?_
  dsimp only
  rw [Work.log_bind]
  cases (body.evalWith mode env).run.value <;> simp [log_joinCopies]

/-- A number of copies that is no count, or zero, stops the work before the body. -/
theorem run_replicate_of_not (hc : (count.evalWith mode env).run = ⟨.ok c, log⟩)
    (h : ¬CountsCopies c) :
    ((replicate body count).evalWith mode env).run = ⟨.error (.badCount c.bits), log⟩ := by
  have hcount : c.count? = none ∨ c.count? = some 0 := by
    by_contra hne
    rw [not_or] at hne
    obtain ⟨k, hk⟩ := Option.ne_none_iff_exists'.1 hne.1
    obtain ⟨hlt, rfl⟩ := Word.count?_eq_some_iff.1 hk
    exact h ⟨Nat.pos_of_ne_zero fun hzero => hne.2 (hk.trans (congrArg some hzero)), hlt⟩
  rw [evalWith, Work.run_bind_of_ok hc]
  rcases hcount with hcount | hcount
  · rw [hcount]
    exact Logged.ext rfl (List.append_nil log)
  · rw [hcount]
    exact Logged.ext rfl (List.append_nil log)

theorem run_replicate_of_error (hc : (count.evalWith mode env).run = ⟨.error err, log⟩) :
    ((replicate body count).evalWith mode env).run = ⟨.error err, log⟩ := by
  rw [evalWith]
  exact Logged.ext (by rw [Work.value_bind, hc]) (by rw [Work.log_bind, hc, List.append_nil])

/-- The copies side by side have the value of their replication, also if the body has none. -/
theorem value_concat_replicate (hn : 0 < n)
    (hroom : ∀ v, (body.evalWith mode env).run.value = .ok v → n * v.width < Count.limit) :
    ((concat (List.replicate n body)).evalWith mode env).run.value =
      (do
        Word.joinCopies (join mode) n (← body.evalWith mode env) (.zero 0)).run.value := by
  rw [Work.value_bind]
  cases hbody : (body.evalWith mode env).run.value with
  | ok v =>
    have hparts : List.Forall₂ (fun e v => (evalWith mode env e).run.value = .ok v)
        (List.replicate n body) (List.replicate n v) :=
      List.forall₂_iff_get.2 ⟨by simp, fun i _ _ => by simpa using hbody⟩
    dsimp only
    rw [value_concat_of_lt hparts (by rw [Word.widths_replicate]; exact hroom v hbody),
      joinCopies_of_lt (hroom v hbody), Word.replicate_eq_concat (hroom v hbody)]
    rfl
  | error err =>
    -- the first copy fails
    obtain ⟨m, rfl⟩ := Nat.exists_eq_succ_of_ne_zero hn.ne'
    rw [List.replicate_succ, evalWith, evalBelow, Work.value_bind, hbody]

/-- Besides a count of its own, only its body makes a replication fail because of a count. -/
theorem value_replicate_eq_badCount_iff (hc : (count.evalWith mode env).run = ⟨.ok c, log⟩) :
    (∃ k, ((replicate body count).evalWith mode env).run.value = .error (.badCount k)) ↔
      ¬CountsCopies c ∨ ∃ k, (body.evalWith mode env).run.value = .error (.badCount k) := by
  by_cases h : CountsCopies c
  · have hvalue : ∀ k, ((replicate body count).evalWith mode env).run.value = .error (.badCount k) ↔
        (body.evalWith mode env).run.value = .error (.badCount k) := by
      intro k
      rw [run_replicate hc h, Work.value_bind]
      cases (body.evalWith mode env).run.value with
      | ok v =>
        dsimp only
        rw [joinCopies_join]
        split <;> exact iff_of_false nofun nofun
      | error err => rfl
    simp only [hvalue, h, not_true_eq_false, false_or]
  · rw [run_replicate_of_not hc h]
    exact iff_of_true ⟨c.bits, rfl⟩ (.inl h)

/-- Replication by doubling is plain concatenation, as long as the copies together are no wider than can
be counted. So many copies of a word are the word put below itself so many times, from the word without
bits on; they are so many times as wide, and each is in its place. A replication of an expression has the
value of the concatenation of its copies, or fails as that does, if its count is positive and below
`2 ^ 64`. Otherwise it fails because of the count, before the body is evaluated, and it fails so in no
other case, unless the body does. A count that has no value comes before the body, too. -/
theorem replicate_agrees_concat :
    (∀ (mode : Overflow) (v : Word) (n : Nat), n * v.width < Count.limit →
      Word.joinCopies (join mode) n v (.zero 0) = pure (Word.concat (List.replicate n v)) ∧
      (Word.concat (List.replicate n v)).width = n * v.width ∧
      ∀ k < n, (Word.concat (List.replicate n v)).extract (k * v.width) v.width = v) ∧
    ∀ (mode : Overflow) (env : Env) (body count : Expr),
      (∀ c log, (count.evalWith mode env).run = ⟨.ok c, log⟩ →
        (CountsCopies c →
          (∀ v, (body.evalWith mode env).run.value = .ok v → c.bits * v.width < Count.limit) →
          ((replicate body count).evalWith mode env).run =
            ⟨((concat (List.replicate c.bits body)).evalWith mode env).run.value,
              log ++ (body.evalWith mode env).run.log⟩) ∧
        (¬CountsCopies c →
          ((replicate body count).evalWith mode env).run = ⟨.error (.badCount c.bits), log⟩) ∧
        ((∃ k, ((replicate body count).evalWith mode env).run.value = .error (.badCount k)) ↔
          ¬CountsCopies c ∨ ∃ k, (body.evalWith mode env).run.value = .error (.badCount k))) ∧
      ∀ err log, (count.evalWith mode env).run = ⟨.error err, log⟩ →
        ((replicate body count).evalWith mode env).run = ⟨.error err, log⟩ := by
  refine ⟨fun mode v n h => ?_, fun mode env body count => ⟨fun c log hc => ?_,
    fun err log => run_replicate_of_error⟩⟩
  · rw [joinCopies_of_lt h, Word.replicate_eq_concat h]
    exact ⟨rfl, Word.width_concat_replicate h, fun k => Word.extract_concat_replicate h⟩
  · refine ⟨fun h hroom => ?_, run_replicate_of_not hc, value_replicate_eq_badCount_iff hc⟩
    rw [run_replicate hc h, value_concat_replicate h.1 hroom]

/-- A quotient that is reported. -/
def quotientByZero : Expr :=
  binary "/" (signal "a") (constant "4'd0")

/-- Five copies of a quotient by zero are the five quotients side by side, but only one of them is
reported. More copies than can be counted are refused before a signal is missed that is bound nowhere,
and a count that reads one is refused before the body is. In a long row of copies each is in its place. -/
theorem replicate_agrees_concat_quotients :
    ((constant "5").evalWith .stops eightBits).run = ⟨.ok (.ofNat 3 5), []⟩ ∧
    CountsCopies (.ofNat 3 5) ∧
    (quotientByZero.evalWith .stops eightBits).run.value = .ok (.ofNat 8 0) ∧
    5 * 8 < Count.limit ∧
    ((replicate quotientByZero (constant "5")).evalWith .stops eightBits).run =
      ⟨((concat (List.replicate 5 quotientByZero)).evalWith .stops eightBits).run.value,
        [⟨.warning, none, .divisionByZero (.ofNat 8 180) .div (.ofNat 4 0)⟩]⟩ ∧
    ((constant "65'h1_0000_0000_0000_0000").evalWith .wraps eightBits).run =
      ⟨.ok (.ofNat 65 (2 ^ 64)), []⟩ ∧
    ¬CountsCopies (.ofNat 65 (2 ^ 64)) ∧
    ((replicate (signal "b") (constant "65'h1_0000_0000_0000_0000")).evalWith .wraps eightBits).run =
      ⟨.error (.badCount (2 ^ 64)), []⟩ ∧
    ((signal "b").evalWith .wraps eightBits).run = ⟨.error (.unboundSignal "b"), []⟩ ∧
    ((replicate (signal "c") (signal "b")).evalWith .wraps eightBits).run =
      ⟨.error (.unboundSignal "b"), []⟩ ∧
    300001 * 2 < Count.limit ∧
    (Word.concat (List.replicate 300001 (.ofNat 2 2))).extract (1000 * 2) 2 = .ofNat 2 2 := by
  have hfive : ((constant "5").evalWith .stops eightBits).run = ⟨.ok (.ofNat 3 5), []⟩ := rfl
  have hcounts : CountsCopies (.ofNat 3 5) := by decide
  have hbody : (quotientByZero.evalWith .stops eightBits).run.value = .ok (.ofNat 8 0) := rfl
  have hroom : 5 * 8 < Count.limit := by decide
  have hmany : ((constant "65'h1_0000_0000_0000_0000").evalWith .wraps eightBits).run =
      ⟨.ok (.ofNat 65 (2 ^ 64)), []⟩ := rfl
  have hbad : ¬CountsCopies (.ofNat 65 (2 ^ 64)) := by decide
  have hmissing : ((signal "b").evalWith .wraps eightBits).run =
      ⟨.error (.unboundSignal "b"), []⟩ := rfl
  have hlong : 300001 * 2 < Count.limit := by decide
  obtain ⟨hwords, hexprs⟩ := replicate_agrees_concat
  obtain ⟨hcopies, -⟩ := hexprs .stops eightBits quotientByZero (constant "5")
  obtain ⟨hrefused, -⟩ :=
    hexprs .wraps eightBits (signal "b") (constant "65'h1_0000_0000_0000_0000")
  obtain ⟨-, hfailed⟩ := hexprs .wraps eightBits (signal "c") (signal "b")
  refine ⟨hfive, hcounts, hbody, hroom, (hcopies _ _ hfive).1 hcounts fun v hv => ?_, hmany, hbad,
    (hrefused _ _ hmany).2.1 hbad, hmissing, hfailed _ _ hmissing, hlong,
    (hwords .stops (.ofNat 2 2) 300001 hlong).2.2 1000 (by decide)⟩
  obtain rfl : .ofNat 8 0 = v := Except.ok.inj (hbody.symm.trans hv)
  exact hroom

/-- Two copies of no copies of `a`. -/
def noCopiesTwice : Expr :=
  replicate (replicate (signal "a") (constant "0")) (constant "2")

/-- More zeros than can be counted have no width that says so: it wraps around, or the work is broken
off. And a count of two may stand in a replication that fails because of a count, that of its body. -/
theorem not_agrees_noCopiesTwice :
    ((Word.zero 2).replicate (2 ^ 63)).width ≠ 2 ^ 63 * (Word.zero 2).width ∧
    Word.joinCopies (join .stops) (2 ^ 63) (.zero 2) (.zero 0) = throw .overflow ∧
    ((constant "2").eval eightBits).run.value = .ok (.ofNat 2 2) ∧ CountsCopies (.ofNat 2 2) ∧
    (noCopiesTwice.eval eightBits).run.value = .error (.badCount 0) := by
  refine ⟨?_, ?_, rfl, by decide, rfl⟩
  · rw [Word.width_replicate]
    decide
  · rw [joinCopies_join, if_pos ⟨rfl, by decide⟩]

end Expr

end Netlist
