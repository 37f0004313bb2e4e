/-
What the reader of expressions has read is derived.

Each construct on the stack of the reader stands for the tokens of the productions that are open:
all that a production needs up to its next operand (`Awaits`). The stack also says at which tier
that operand is wanted. An operand is a primary when it has just been read, and closing a construct
gives an operand that is derived at the tier of the construct, so the tokens behind the stack are
those of the stack below and of the larger operand together (`Awaits.close`). Every step keeps the
account (`Accounts.step`); when nothing is open any more, it is a derivation of all tokens.
-/
import Netlist.Proofs.DerivationRuns
import Netlist.Proofs.ReadExpressions

set_option autoImplicit false

namespace Netlist.Grammar

variable {source : Source} {goal : Goal} {stack below : List Frame} {tier level least : Nat}
  {ts us vs ws : List Token} {e : Tree} {t : Token} {p : Punctuation}

/-! ## Derived trees -/

/-- The tokens are derived from the nonterminal, and the tree is that of the derivation. -/
def Derives (source : Source) (n : Nonterminal) (ts : List Token) (e : Tree) : Prop :=
  ∃ d : Derivation n, d.yield = ts ∧ d.trees source = [e]

theorem Derives.loosen (h : Derives source (.tier tier) ts e) (hle : least ≤ tier)
    (htier : tier ≤ 12) : Derives source (.tier least) ts e := by
  obtain ⟨k, rfl⟩ := Nat.exists_eq_add_of_le hle
  clear hle
  induction k with
  | zero => exact h
  | succ k ih =>
    obtain ⟨d, hyield, htrees⟩ := h
    have hlt : least + k < 12 := htier
    exact ih ⟨.tighter hlt d, hyield, htrees⟩ (Nat.le_of_lt hlt)

/-- A primary that is a name is nothing else. -/
theorem Derives.exists_name (h : Derives source (.tier 12) ts e)
    (hkind : e.kind = .simpleIdentifier) : ∃ name : Lexeme .identifier,
      ts = [name.1] ∧ e = tokenNode source .simpleIdentifier name.1 := by
  obtain ⟨d, rfl, hd⟩ := h
  cases d with
  | name t => exact ⟨t, rfl, (List.cons.inj hd).1.symm⟩
  | tighter hlt => exact absurd hlt (Nat.lt_irrefl 12)
  | binary l op r => exact absurd op.tier_bounds.2 (by decide)
  | braced d =>
    cases d
    obtain rfl := (List.cons.inj hd).1
    cases hkind
  | _ =>
    obtain rfl := (List.cons.inj hd).1
    cases hkind

theorem Derives.expression (h : Derives source (.tier 0) ts e) :
    Derives source .expression ts e := by
  obtain ⟨d, hyield, htrees⟩ := h
  exact ⟨.expression d, hyield, htrees⟩

theorem Derives.conditional {condition yes no : Tree} (hc : Derives source (.tier 1) ts condition)
    (hy : Derives source .expression us yes) (hn : Derives source (.tier 0) vs no)
    (q : Sign .question) (s : Sign .colon) :
    Derives source (.tier 0) (ts ++ q.1 :: (us ++ s.1 :: vs))
      (.spanning .conditionalExpression [condition, yes, no]) := by
  obtain ⟨c, rfl, hc⟩ := hc
  obtain ⟨y, rfl, hy⟩ := hy
  obtain ⟨n, rfl, hn⟩ := hn
  refine ⟨.conditional c q y s n, rfl, ?_⟩
  rw [Derivation.trees, hc, hy, hn]
  rfl

theorem Derives.binary {left right : Tree} (hl : Derives source (.tier tier) ts left)
    (hr : Derives source (.tier (tier + 1)) us right) (op : SignAmong (binaryOperators tier)) :
    Derives source (.tier tier) (ts ++ op.1 :: us)
      (.spanning .binaryExpression [left, tokenNode source .binaryOperator op.1, right]) := by
  obtain ⟨l, rfl, hl⟩ := hl
  obtain ⟨r, rfl, hr⟩ := hr
  refine ⟨.binary l op r, rfl, ?_⟩
  rw [Derivation.trees, hl, hr]
  rfl

theorem Derives.unary (h : Derives source (.tier 11) ts e) (op : SignAmong unaryOperators) :
    Derives source (.tier 11) (op.1 :: ts)
      (.spanning .unaryExpression [tokenNode source .unaryOperator op.1, e]) := by
  obtain ⟨d, rfl, hd⟩ := h
  refine ⟨.unary op d, rfl, ?_⟩
  rw [Derivation.trees, hd]

theorem Derives.parenthesized (h : Derives source .expression ts e) (o : Sign .openParen)
    (c : Sign .closeParen) : Derives source (.tier 12) (o.1 :: (ts ++ [c.1]))
      (nodeOver source .parenthesizedExpression o.1.start c.1.stop [e]) := by
  obtain ⟨d, rfl, hd⟩ := h
  refine ⟨.parenthesized o d c, rfl, ?_⟩
  rw [Derivation.trees, hd]

theorem Derives.bitSelect (h : Derives source .expression ts e) (name : Lexeme .identifier)
    (o : Sign .openBracket) (c : Sign .closeBracket) :
    Derives source (.tier 12) (name.1 :: o.1 :: (ts ++ [c.1]))
      (nodeOver source .bitSelect name.1.start c.1.stop
        [tokenNode source .simpleIdentifier name.1, e]) := by
  obtain ⟨d, rfl, hd⟩ := h
  refine ⟨.bitSelect name o d c, rfl, ?_⟩
  rw [Derivation.trees, hd]

theorem Derives.rangeSelect {upper lower : Tree} (hu : Derives source .expression us upper)
    (hl : Derives source .expression vs lower) (name : Lexeme .identifier)
    (o : Sign .openBracket) (s : Sign .colon) (c : Sign .closeBracket) :
    Derives source (.tier 12) (name.1 :: o.1 :: (us ++ s.1 :: (vs ++ [c.1])))
      (nodeOver source .rangeSelect name.1.start c.1.stop
        [tokenNode source .simpleIdentifier name.1, upper, lower]) := by
  obtain ⟨u, rfl, hu⟩ := hu
  obtain ⟨l, rfl, hl⟩ := hl
  refine ⟨.rangeSelect name o u s l c, rfl, ?_⟩
  rw [Derivation.trees, hu, hl]
  rfl

theorem Derives.indexedRangeSelect {base width : Tree} (hb : Derives source .expression us base)
    (hw : Derives source .expression vs width) (name : Lexeme .identifier)
    (o : Sign .openBracket) (op : SignAmong rangeOperators) (c : Sign .closeBracket) :
    Derives source (.tier 12) (name.1 :: o.1 :: (us ++ op.1 :: (vs ++ [c.1])))
      (nodeOver source .indexedRangeSelect name.1.start c.1.stop
        [tokenNode source .simpleIdentifier name.1, base,
          tokenNode source .indexedRangeOperator op.1, width]) := by
  obtain ⟨b, rfl, hb⟩ := hb
  obtain ⟨w, rfl, hw⟩ := hw
  refine ⟨.indexedRangeSelect name o b op w c, rfl, ?_⟩
  rw [Derivation.trees, hb, hw]
  rfl

theorem Derives.replication {count inner : Tree} (hc : Derives source .expression us count)
    (hi : Derives source .concatenation vs inner) (o : Sign .openBrace) (c : Sign .closeBrace) :
    Derives source (.tier 12) (o.1 :: (us ++ (vs ++ [c.1])))
      (nodeOver source .multipleConcatenation o.1.start c.1.stop [count, inner]) := by
  obtain ⟨n, rfl, hn⟩ := hc
  obtain ⟨i, rfl, hi⟩ := hi
  refine ⟨.replication o n i c, rfl, ?_⟩
  rw [Derivation.trees, hn, hi]
  rfl

theorem Derives.braced (h : Derives source .concatenation ts e) : Derives source (.tier 12) ts e := by
  obtain ⟨d, hyield, htrees⟩ := h
  exact ⟨.braced d, hyield, htrees⟩

/-- The tokens are expressions with a comma behind each, and the trees are theirs. -/
inductive Row (source : Source) : List Tree → List Token → Prop
  | empty : Row source [] []
  | some (ds : Derivation .expressions) (s : Sign .comma) :
      Row source (ds.trees source) (ds.yield ++ [s.1])

theorem Row.snoc {read : List Tree} (h : Row source read ts)
    (he : Derives source .expression us e) :
    ∃ ds : Derivation .expressions, ds.yield = ts ++ us ∧ ds.trees source = read ++ [e] := by
  obtain ⟨d, rfl, htrees⟩ := he
  cases h with
  | empty => exact ⟨.single d, rfl, htrees⟩
  | some ds s =>
    refine ⟨.more ds s d, ?_, ?_⟩
    · rw [Derivation.yield, List.append_assoc, List.singleton_append]
    · rw [Derivation.trees, htrees]

theorem Row.eq_nil (h : Row source [] ts) : ts = [] := by
  generalize hread : ([] : List Tree) = read at h
  cases h with
  | empty => rfl
  | some ds s => exact absurd hread.symm (ds.trees_ne_nil source)

theorem Row.comma {read : List Tree} (h : Row source read ts)
    (he : Derives source .expression us e) (s : Sign .comma) :
    Row source (read ++ [e]) (ts ++ us ++ [s.1]) := by
  obtain ⟨ds, hyield, htrees⟩ := h.snoc he
  rw [← hyield, ← htrees]
  exact .some ds s

theorem Row.concatenation {read : List Tree} (h : Row source read ts)
    (he : Derives source .expression us e) (o : Sign .openBrace) (c : Sign .closeBrace) :
    Derives source .concatenation (o.1 :: (ts ++ us ++ [c.1]))
      (nodeOver source .concatenation o.1.start c.1.stop (read ++ [e])) := by
  obtain ⟨ds, hyield, htrees⟩ := h.snoc he
  refine ⟨.concatenation o ds c, ?_, ?_⟩
  · rw [Derivation.yield, hyield]
  · rw [Derivation.trees, htrees]

/-! ## Open constructs -/

/-- The open constructs account for the tokens up to the place where an operand of the level is
wanted. -/
inductive Awaits (source : Source) : Goal → List Frame → Nat → List Token → Prop
  | any : Awaits source .any [] 0 []
  | operand : Awaits source .operand [] 12 []
  | unary {goal : Goal} {stack : List Frame} {level : Nat} {ts : List Token}
      (op : SignAmong unaryOperators) :
      Awaits source goal stack level ts → level ≤ 11 →
      Awaits source goal (.unary (tokenNode source .unaryOperator op.1) :: stack) 11 (ts ++ [op.1])
  | binary {goal : Goal} {stack : List Frame} {level tier : Nat} {ts us : List Token} {left : Tree}
      (op : SignAmong (binaryOperators tier)) :
      Awaits source goal stack level ts → level ≤ tier → Derives source (.tier tier) us left →
      Awaits source goal
        (.binary tier left (tokenNode source .binaryOperator op.1) :: stack) (tier + 1)
        (ts ++ us ++ [op.1])
  | thenArm {goal : Goal} {stack : List Frame} {ts us : List Token} {condition : Tree}
      (q : Sign .question) :
      Awaits source goal stack 0 ts → Derives source (.tier 1) us condition →
      Awaits source goal (.thenArm condition :: stack) 0 (ts ++ us ++ [q.1])
  | elseArm {goal : Goal} {stack : List Frame} {ts us vs : List Token} {condition yes : Tree}
      (q : Sign .question) (s : Sign .colon) :
      Awaits source goal stack 0 ts → Derives source (.tier 1) us condition →
      Derives source .expression vs yes →
      Awaits source goal (.elseArm condition yes :: stack) 0
        (ts ++ us ++ [q.1] ++ vs ++ [s.1])
  | paren {goal : Goal} {stack : List Frame} {level : Nat} {ts : List Token} (o : Sign .openParen) :
      Awaits source goal stack level ts →
      Awaits source goal (.paren o.1.start :: stack) 0 (ts ++ [o.1])
  | index {goal : Goal} {stack : List Frame} {level : Nat} {ts : List Token}
      (name : Lexeme .identifier) (o : Sign .openBracket) :
      Awaits source goal stack level ts →
      Awaits source goal (.index (tokenNode source .simpleIdentifier name.1) :: stack) 0
        (ts ++ [name.1] ++ [o.1])
  | lowerBound {goal : Goal} {stack : List Frame} {level : Nat} {ts us : List Token} {upper : Tree}
      (name : Lexeme .identifier) (o : Sign .openBracket) (s : Sign .colon) :
      Awaits source goal stack level ts → Derives source .expression us upper →
      Awaits source goal (.lowerBound (tokenNode source .simpleIdentifier name.1) upper :: stack) 0
        (ts ++ [name.1] ++ [o.1] ++ us ++ [s.1])
  | partWidth {goal : Goal} {stack : List Frame} {level : Nat} {ts us : List Token} {base : Tree}
      (name : Lexeme .identifier) (o : Sign .openBracket) (op : SignAmong rangeOperators) :
      Awaits source goal stack level ts → Derives source .expression us base →
      Awaits source goal
        (.partWidth (tokenNode source .simpleIdentifier name.1) base
          (tokenNode source .indexedRangeOperator op.1) :: stack) 0
        (ts ++ [name.1] ++ [o.1] ++ us ++ [op.1])
  | items {goal : Goal} {stack : List Frame} {level : Nat} {ts us : List Token} {read : List Tree}
      (o : Sign .openBrace) :
      Awaits source goal stack level ts → Row source read us →
      Awaits source goal (.items o.1.start read :: stack) 0 (ts ++ [o.1] ++ us)
  | copies {goal : Goal} {stack : List Frame} {level : Nat} {ts us vs : List Token} {count : Tree}
      {read : List Tree} (o i : Sign .openBrace) :
      Awaits source goal stack level ts → Derives source .expression us count →
      Row source read vs →
      Awaits source goal (.copies o.1.start count i.1.start read :: stack) 0
        (ts ++ [o.1] ++ us ++ [i.1] ++ vs)

/-- Only the reader of operands wants a primary, and only as the whole. -/
theorem Awaits.level_le (h : Awaits source goal stack level ts) (hgo : Reader.GoesOn goal stack) :
    level ≤ 11 := by
  cases h with
  | operand => exact absurd hgo (by simp [Reader.GoesOn])
  | binary op =>
    have := op.tier_bounds
    omega
  | unary => exact Nat.le_refl 11
  | _ => exact Nat.zero_le 11

/-- No operand is wanted at the first tier of the operators: only an operator of a tier below it
could want one. -/
theorem Awaits.level_eq_zero (h : Awaits source goal stack level ts) (hlevel : level ≤ 1) :
    level = 0 := by
  cases h with
  | binary op =>
    have := op.tier_bounds
    omega
  | operand | unary => omega
  | _ => rfl

/-- Closing constructs turns them and the operand into a larger operand. The induction follows the
stack: an operator takes an operand of the tier that it wants, and gives one of its own tier. -/
theorem Awaits.close (h : Awaits source goal stack level ts) (hlevel : level ≤ 11)
    (he : Derives source (.tier tier) us e) (htier : tier ≤ 12) (hwanted : level ≤ tier)
    (hle : least ≤ tier) (hleast : least ≤ 11) :
    ∃ level' ts' us', Awaits source goal (Reader.close least stack e).1 level' ts' ∧
      level' ≤ least ∧ Derives source (.tier least) us' (Reader.close least stack e).2 ∧
      ts' ++ us' = ts ++ us := by
  fun_induction Reader.close least stack e generalizing level tier ts us with
  | case1 op rest e ih =>
    cases h with
    | unary op h hbelow =>
      have hwhole := (he.loosen hwanted htier).unary op
      obtain ⟨level', ts', us', h', hlevel', he', heq⟩ :=
        ih h hbelow hwhole (by omega) hbelow hleast
      exact ⟨level', ts', us', h', hlevel', he', by rw [heq, List.append_assoc]; rfl⟩
  | case2 tier' left op rest e hclose ih =>
    cases h with
    | binary op h hbelow hleft =>
      have hbounds := op.tier_bounds
      have hwhole := hleft.binary (he.loosen hwanted htier) op
      obtain ⟨level', ts', us', h', hlevel', he', heq⟩ :=
        ih h (by omega) hwhole (by omega) hbelow hclose
      exact ⟨level', ts', us', h', hlevel', he', by rw [heq]; simp⟩
  -- an operator that binds less tightly stays, and what it wants is low enough
  | case3 tier' left op rest e hstop =>
    refine ⟨level, ts, us, h, ?_, he.loosen hle htier, rfl⟩
    cases h
    omega
  | case4 condition yes rest e hzero ih =>
    cases h with
    | elseArm q s h hcondition hyes =>
      have hwhole := hcondition.conditional hyes (he.loosen hwanted htier) q s
      obtain ⟨level', ts', us', h', hlevel', he', heq⟩ :=
        ih h (by omega) hwhole (by omega) (Nat.le_refl 0) (by omega)
      exact ⟨level', ts', us', h', hlevel', he', by rw [heq]; simp⟩
  | case5 condition yes rest e hstop =>
    refine ⟨level, ts, us, h, ?_, he.loosen hle htier, rfl⟩
    cases h
    omega
  | case6 stack e hunary hbinary hcond =>
    refine ⟨level, ts, us, h, ?_, he.loosen hle htier, rfl⟩
    cases h with
    | unary => exact absurd rfl (hunary _ _)
    | binary => exact absurd rfl (hbinary _ _ _ _)
    | operand => omega
    | _ => exact Nat.zero_le _

/-! ## States -/

/-- What is read is derived from. -/
def Goal.nonterminal : Goal → Nonterminal
  | .any => .expression
  | .operand => .tier 12

namespace Reader

variable {r next : Reader}

/-- The reader accounts for the tokens that it has read. -/
inductive Accounts (source : Source) : Goal → Reader → List Token → Prop
  | awaiting {goal : Goal} {stack : List Frame} {level : Nat} {ts : List Token} :
      Awaits source goal stack level ts → Accounts source goal ⟨goal, stack, .awaiting⟩ ts
  | operand {goal : Goal} {stack : List Frame} {level : Nat} {ts us : List Token} {e : Tree} :
      Awaits source goal stack level ts → Derives source (.tier 12) us e →
      Accounts source goal ⟨goal, stack, .operand e⟩ (ts ++ us)
  | copied {goal : Goal} {stack : List Frame} {level : Nat} {ts us vs : List Token}
      {count inner : Tree} (o : Sign .openBrace) :
      Awaits source goal stack level ts → Derives source .expression us count →
      Derives source .concatenation vs inner →
      Accounts source goal ⟨goal, stack, .copied o.1.start count inner⟩ (ts ++ [o.1] ++ us ++ vs)

theorem accounts_operand (h : Awaits source goal stack level ts)
    (he : Derives source (.tier 12) us e) (hvs : vs = ts ++ us) :
    Accounts source goal ⟨goal, stack, .operand e⟩ vs :=
  hvs ▸ .operand h he

theorem accounts_start (goal : Goal) : Accounts source goal (start goal) [] := by
  cases goal with
  | any => exact .awaiting .any
  | operand => exact .awaiting .operand

theorem Accounts.stepAwaiting (h : Awaits source goal stack level ts)
    (hs : (⟨goal, stack, .awaiting⟩ : Reader).stepAwaiting source t = some next) :
    Accounts source goal next (ts ++ [t]) := by
  unfold Reader.stepAwaiting at hs
  split at hs
  · next hp =>
    cases hs
    exact .operand h ⟨.name ⟨t, hp⟩, rfl, rfl⟩
  · next hp =>
    cases hs
    exact .operand h ⟨.number ⟨t, hp⟩, rfl, rfl⟩
  · next hp =>
    cases hs
    exact .awaiting (.paren ⟨t, hp⟩ h)
  · next hp =>
    cases hs
    have hitems := h.items ⟨t, hp⟩ .empty
    rw [List.append_nil] at hitems
    exact .awaiting hitems
  · next p _ _ hp =>
    split at hs
    · cases hs
    · cases hs
    · next op _ _ hop hgo =>
      cases hs
      have hmem : p ∈ unaryOperators := mem_unaryOperators_iff.2 (by rw [hop]; rfl)
      exact .awaiting (.unary ⟨t, p, hmem, hp⟩ h (h.level_le (goesOn_of_not hgo)))
  · cases hs

/-- A sign after an operand. Closing gives the operand that the sign comes after, and what stands
on top of the stack then is what the sign continues or ends. -/
theorem Accounts.stepSign (h : Awaits source goal stack level ts) (hgo : GoesOn goal stack)
    (he : Derives source (.tier 12) us e) (hp : t.terminal = .punctuation p)
    (hs : (⟨goal, stack, .operand e⟩ : Reader).stepSign source e p t = some next) :
    Accounts source goal next (ts ++ us ++ [t]) := by
  have hlevel := h.level_le hgo
  -- what the stack and the operand are once constructs are closed
  have hclose : ∀ (least : Nat) {below : List Frame} {e' : Tree}, least ≤ 11 →
      close least stack e = (below, e') → ∃ level' ts' us',
        Awaits source goal below level' ts' ∧ level' ≤ least ∧
        Derives source (.tier least) us' e' ∧ ts' ++ us' = ts ++ us := by
    intro least below e' hleast hclose
    have := h.close hlevel he (Nat.le_refl 12) (by omega) (Nat.le_succ_of_le hleast) hleast
    rwa [hclose] at this
  unfold Reader.stepSign at hs
  split at hs
  · next op hop =>
    cases hs
    have hmem : p ∈ binaryOperators op.tier := mem_binaryOperators_iff.2 (by rw [hop]; rfl)
    have hbounds := SignAmong.tier_bounds ⟨t, p, hmem, hp⟩
    obtain ⟨level', ts', us', h', hlevel', he', hts⟩ := hclose op.tier (by omega) rfl
    rw [← hts]
    exact .awaiting (.binary ⟨t, p, hmem, hp⟩ h' hlevel' he')
  · next hnone =>
    clear hnone
    dsimp only at hs
    -- all signs but the question mark close every operator and conditional
    generalize hclosed : close 0 stack e = closed at hs
    obtain ⟨top, e'⟩ := closed
    obtain ⟨level', ts', us', h', -, he', hts⟩ := hclose 0 (Nat.zero_le 11) hclosed
    replace he' := he'.expression
    rw [← hts]
    split at hs
    -- a question mark
    · cases hs
      obtain ⟨level₁, ts₁, us₁, h₁, hlevel₁, he₁, hts₁⟩ := hclose 1 (by omega) rfl
      rw [hts, ← hts₁]
      obtain rfl := h₁.level_eq_zero hlevel₁
      exact .awaiting (.thenArm ⟨t, hp⟩ h₁ he₁)
    -- a colon between the arms of a conditional
    · next heq =>
      cases hs
      cases heq
      cases h' with
      | thenArm q h' hcondition => exact .awaiting (.elseArm q ⟨t, hp⟩ h' hcondition he')
    -- a colon between the bounds of a range
    · next heq =>
      cases hs
      cases heq
      cases h' with
      | index name o h' => exact .awaiting (.lowerBound name o ⟨t, hp⟩ h' he')
    -- the sign before a width, upwards
    · next heq =>
      cases hs
      cases heq
      cases h' with
      | index name o h' => exact .awaiting (.partWidth name o ⟨t, _, by decide, hp⟩ h' he')
    -- the sign before a width, downwards
    · next heq =>
      cases hs
      cases heq
      cases h' with
      | index name o h' => exact .awaiting (.partWidth name o ⟨t, _, by decide, hp⟩ h' he')
    -- a comma between items
    · next heq =>
      cases hs
      cases heq
      cases h' with
      | items o h' hrow =>
        have hitems := h'.items o (hrow.comma he' ⟨t, hp⟩)
        simp only [← List.append_assoc] at hitems
        exact .awaiting hitems
    -- a comma between copied items
    · next heq =>
      cases hs
      cases heq
      cases h' with
      | copies o i h' hcount hrow =>
        have hitems := h'.copies o i hcount (hrow.comma he' ⟨t, hp⟩)
        simp only [← List.append_assoc] at hitems
        exact .awaiting hitems
    -- a second brace, which makes the only item a count
    · next heq =>
      cases hs
      cases heq
      cases h' with
      | items o h' hrow =>
        obtain rfl := hrow.eq_nil
        have hcopies := h'.copies o ⟨t, hp⟩ he' .empty
        rw [List.append_nil] at hcopies ⊢
        exact .awaiting hcopies
    -- the end of parentheses
    · next heq =>
      cases hs
      cases heq
      cases h' with
      | paren o h' => exact accounts_operand h' (he'.parenthesized o ⟨t, hp⟩) (by simp)
    -- the end of an index
    · next heq =>
      cases hs
      cases heq
      cases h' with
      | index name o h' => exact accounts_operand h' (he'.bitSelect name o ⟨t, hp⟩) (by simp)
    -- the end of a range
    · next heq =>
      cases hs
      cases heq
      cases h' with
      | lowerBound name o s h' hupper =>
        exact accounts_operand h' (hupper.rangeSelect he' name o s ⟨t, hp⟩) (by simp)
    -- the end of a width
    · next heq =>
      cases hs
      cases heq
      cases h' with
      | partWidth name o op h' hbase =>
        exact accounts_operand h' (hbase.indexedRangeSelect he' name o op ⟨t, hp⟩) (by simp)
    -- the end of a concatenation
    · next heq =>
      cases hs
      cases heq
      cases h' with
      | items o h' hrow =>
        exact accounts_operand h' (hrow.concatenation he' o ⟨t, hp⟩).braced (by simp)
    -- the end of what is copied
    · next heq =>
      cases hs
      cases heq
      cases h' with
      | copies o i h' hcount hrow =>
        have hinner := Accounts.copied o h' hcount (hrow.concatenation he' i ⟨t, hp⟩)
        simpa only [List.append_assoc, List.cons_append, List.nil_append] using hinner
    · cases hs

theorem Accounts.stepOperand (h : Awaits source goal stack level ts)
    (he : Derives source (.tier 12) us e)
    (hs : (⟨goal, stack, .operand e⟩ : Reader).stepOperand source e t = some next) :
    Accounts source goal next (ts ++ us ++ [t]) := by
  unfold Reader.stepOperand at hs
  split at hs
  · next hp =>
    split at hs
    · next hkind =>
      cases hs
      obtain ⟨name, rfl, rfl⟩ := he.exists_name hkind
      exact .awaiting (.index name ⟨t, hp⟩ h)
    · cases hs
  · next hp =>
    split at hs
    · cases hs
    · next hgo => exact stepSign h (goesOn_of_not hgo) he hp hs
  · cases hs

theorem Accounts.step (h : Accounts source goal r ts) (hs : r.step source t = some next) :
    Accounts source goal next (ts ++ [t]) := by
  cases h with
  | awaiting h => exact stepAwaiting h hs
  | operand h he => exact stepOperand h he hs
  | copied o h hcount hinner =>
    unfold Reader.step at hs
    dsimp only at hs
    split at hs
    · next hp =>
      cases hs
      exact accounts_operand h (hcount.replication hinner o ⟨t, hp⟩) (by simp)
    · cases hs

theorem Accounts.reads (h : Accounts source goal r ts) (hr : Reads (Reader.step source) r us next) :
    Accounts source goal next (ts ++ us) := by
  induction hr generalizing ts with
  | done => rwa [List.append_nil]
  | read hs _ ih =>
    rw [List.append_cons]
    exact ih (h.step hs)

/-- When nothing is open any more, all tokens are derived. -/
theorem Accounts.derives (h : Accounts source goal r ts) (hf : r.finish? = some e) :
    Derives source goal.nonterminal ts e := by
  cases h with
  | awaiting | copied => cases hf
  | @operand stack level ts us e' h he =>
    simp only [finish?] at hf
    split at hf
    · next whole hclose =>
      cases hf
      have hclosed := fun hlevel => h.close hlevel he (Nat.le_refl 12) (Nat.le_succ_of_le hlevel)
        (Nat.zero_le 12) (Nat.zero_le 11)
      rw [hclose] at hclosed
      cases goal with
      | any =>
        obtain ⟨level', ts', us', h', -, hwhole, heq⟩ := hclosed (h.level_le (.inl rfl))
        cases h'
        rw [← heq]
        exact hwhole.expression
      | operand =>
        cases stack with
        | nil =>
          cases h
          cases hclose
          exact he
        | cons f rest =>
          -- a construct would have been closed down to a primary
          obtain ⟨level', ts', us', h', hlevel', -⟩ := hclosed (h.level_le goesOn_cons)
          cases h'
          cases hlevel'
    · cases hf

/-- What is read as a whole is derived. -/
theorem derives_of_reads (hr : Reads (Reader.step source) (start goal) ts r)
    (hf : r.finish? = some e) : Derives source goal.nonterminal ts e :=
  ((accounts_start goal).reads hr).derives hf

end Reader

end Netlist.Grammar
