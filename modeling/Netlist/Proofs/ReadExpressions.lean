/-
What the reader of expressions builds.

The reader holds trees in the constructs that are open and in the operand that it has just read.
All of them have the shape of expressions, of names or of operators with a meaning (`Fits`), and
every step keeps it so: a step joins trees on top of the stack into larger ones, and the only
trees that it makes afresh cover the token that it reads. What an operator spells is therefore
what its token spells, and the two tables of signs name only operators that have a meaning.
-/
import Netlist.Grammar.Expression
import Netlist.Proofs.Shapes
import Netlist.Proofs.Tokens

set_option autoImplicit false

namespace Netlist

/-- What holds of a row and of one more element holds of the longer row. -/
theorem forall_mem_snoc {α : Type} {P : α → Prop} {xs : List α} {x : α} (hxs : ∀ y ∈ xs, P y)
    (hx : P x) : ∀ y ∈ xs ++ [x], P y := by
  rw [List.forall_mem_append]
  exact ⟨hxs, List.forall_mem_singleton.2 hx⟩

/-! ## Signs and operators -/

theorem Punctuation.trim_text (p : Punctuation) : Text.trim p.text = p.text := by
  cases p <;> decide

namespace Grammar

variable {source : Source} {t : Token} {p : Punctuation}

theorem isLeaf_tokenNode (source : Source) (k : NodeKind) (t : Token) :
    (tokenNode source k t).IsLeaf k :=
  .intro _

/-- A node over a sign says what the sign is. -/
theorem trim_text_tokenNode (k : NodeKind) (ht : t.ReadFrom source.contents)
    (hp : t.terminal = .punctuation p) : Text.trim (tokenNode source k t).text = p.text := by
  have htext : (tokenNode source k t).text = p.text := Token.text_of_punctuation ht hp
  rw [htext, p.trim_text]

theorem isUnaryOperator_tokenNode {op : UnaryOperator} (ht : t.ReadFrom source.contents)
    (hp : t.terminal = .punctuation p) (hop : p.unary? = some op) :
    (tokenNode source .unaryOperator t).IsUnaryOperator := by
  refine ⟨isLeaf_tokenNode _ _ _, ?_⟩
  rw [trim_text_tokenNode _ ht hp, Punctuation.text_of_unary? hop, UnaryOperator.ofText?_text]
  rfl

theorem isBinaryOperator_tokenNode {op : BinaryOperator} (ht : t.ReadFrom source.contents)
    (hp : t.terminal = .punctuation p) (hop : p.binary? = some op) :
    (tokenNode source .binaryOperator t).IsBinaryOperator := by
  refine ⟨isLeaf_tokenNode _ _ _, ?_⟩
  rw [trim_text_tokenNode _ ht hp, Punctuation.text_of_binary? hop, BinaryOperator.ofText?_text]
  rfl

theorem isRangeOperator_tokenNode (ht : t.ReadFrom source.contents)
    (hp : t.terminal = .punctuation .plusColon ∨ t.terminal = .punctuation .minusColon) :
    (tokenNode source .indexedRangeOperator t).IsRangeOperator := by
  refine ⟨isLeaf_tokenNode _ _ _, ?_⟩
  rcases hp with hp | hp
  · exact .inl (trim_text_tokenNode _ ht hp)
  · exact .inr (trim_text_tokenNode _ ht hp)

/-! ## States that fit -/

/-- What is held of an open construct has the shape that the construct needs. -/
def Frame.Fits : Frame → Prop
  | .unary op => op.IsUnaryOperator
  | .binary _ left op => left.IsExpression ∧ op.IsBinaryOperator
  | .thenArm condition => condition.IsExpression
  | .elseArm condition yes => condition.IsExpression ∧ yes.IsExpression
  | .paren _ => True
  | .index name => name.IsLeaf .simpleIdentifier
  | .lowerBound name upper => name.IsLeaf .simpleIdentifier ∧ upper.IsExpression
  | .partWidth name base op =>
    name.IsLeaf .simpleIdentifier ∧ base.IsExpression ∧ op.IsRangeOperator
  | .items _ read => ∀ e ∈ read, e.IsExpression
  | .copies _ count _ read => count.IsExpression ∧ ∀ e ∈ read, e.IsExpression

/-- What has just been read is an expression. -/
def Progress.Fits : Progress → Prop
  | .awaiting => True
  | .operand e => e.IsExpression
  | .copied _ count inner =>
    count.IsExpression ∧ inner.IsExpression ∧ inner.kind = .concatenation

namespace Reader

/-- All that the reader holds fits. -/
structure Fits (r : Reader) : Prop where
  stack : ∀ f ∈ r.stack, f.Fits
  progress : r.progress.Fits

theorem fits_start (goal : Goal) : (start goal).Fits :=
  ⟨by simp [start], trivial⟩

/-! ## Closing constructs -/

variable {stack below : List Frame} {e : Tree}

/-- Closing constructs joins trees that fit into an expression. The induction follows the stack:
a construct on top either takes the operand, which grows, or stops the closing. -/
theorem close_fits (least : Nat) (hstack : ∀ f ∈ stack, f.Fits) (he : e.IsExpression) :
    (∀ f ∈ (close least stack e).1, f.Fits) ∧ (close least stack e).2.IsExpression := by
  fun_induction close least stack e with
  | case1 op rest e ih =>
    obtain ⟨hop, hrest⟩ := List.forall_mem_cons.1 hstack
    exact ih hrest (.unary hop he)
  | case2 tier left op rest e hle ih =>
    obtain ⟨⟨hleft, hop⟩, hrest⟩ := List.forall_mem_cons.1 hstack
    exact ih hrest (.binary hleft hop he)
  | case3 => exact ⟨hstack, he⟩
  | case4 condition yes rest e hzero ih =>
    obtain ⟨⟨hcondition, hyes⟩, hrest⟩ := List.forall_mem_cons.1 hstack
    exact ih hrest (.conditional hcondition hyes he)
  | case5 => exact ⟨hstack, he⟩
  | case6 => exact ⟨hstack, he⟩

theorem fits_of_close_eq {least : Nat} {frame : Frame} {e' : Tree} (hstack : ∀ f ∈ stack, f.Fits)
    (he : e.IsExpression) (h : close least stack e = (frame :: below, e')) :
    frame.Fits ∧ (∀ f ∈ below, f.Fits) ∧ e'.IsExpression := by
  have hclose := close_fits least hstack he
  rw [h] at hclose
  obtain ⟨hframe, hbelow⟩ := List.forall_mem_cons.1 hclose.1
  exact ⟨hframe, hbelow, hclose.2⟩

theorem Fits.isExpression {r : Reader} (h : r.Fits) (hf : r.finish? = some e) :
    e.IsExpression := by
  rw [finish?] at hf
  split at hf
  · next operand hprogress =>
    -- closing everything joins all that is open with the operand
    have hoperand := h.progress
    rw [hprogress] at hoperand
    have hclose := close_fits 0 h.stack hoperand
    split at hf
    · next whole hwhole =>
      rw [hwhole] at hclose
      cases hf
      exact hclose.2
    · cases hf
  · cases hf

/-! ## Reading a token -/

variable {r next : Reader}

theorem fits_push {frame : Frame} (hframe : frame.Fits) (hbelow : ∀ f ∈ below, f.Fits) :
    (r.push frame below).Fits :=
  ⟨List.forall_mem_cons.2 ⟨hframe, hbelow⟩, trivial⟩

theorem fits_withOperand (he : e.IsExpression) (hstack : ∀ f ∈ stack, f.Fits) :
    (r.withOperand e stack).Fits :=
  ⟨hstack, he⟩

/-- A brace closes a row of items that is not empty. -/
theorem isExpression_concatenation {l : Location} {read : List Tree}
    (hread : ∀ e ∈ read, e.IsExpression) (he : e.IsExpression) :
    (Tree.node .concatenation l (read ++ [e])).IsExpression := by
  have hparts := forall_mem_snoc hread he
  cases hsplit : read ++ [e] with
  | nil => exact absurd hsplit (List.append_ne_nil_of_right_ne_nil _ (List.cons_ne_nil _ _))
  | cons part parts =>
    rw [hsplit] at hparts
    exact .concatenation hparts

theorem Fits.stepAwaiting (h : r.Fits) (ht : t.ReadFrom source.contents)
    (hs : r.stepAwaiting source t = some next) : next.Fits := by
  unfold Reader.stepAwaiting at hs
  split at hs
  · cases hs
    exact fits_withOperand (.name _) h.stack
  · cases hs
    exact fits_withOperand (.number _) h.stack
  · cases hs
    exact fits_push trivial h.stack
  · cases hs
    exact fits_push (by simp [Frame.Fits]) h.stack
  · next hp =>
    split at hs
    · cases hs
    · cases hs
    · next hop _ =>
      cases hs
      exact fits_push (isUnaryOperator_tokenNode ht hp hop) h.stack
  · cases hs

/-- A sign after an operand. What the sign is for depends on the construct that is on top once
the tighter ones are closed; each case takes apart what that construct holds. -/
theorem Fits.stepSign (h : r.Fits) (he : e.IsExpression) (ht : t.ReadFrom source.contents)
    (hp : t.terminal = .punctuation p) (hs : r.stepSign source e p t = some next) :
    next.Fits := by
  unfold Reader.stepSign at hs
  split at hs
  · next op hop =>
    cases hs
    have ⟨hbelow, hleft⟩ := close_fits op.tier h.stack he
    exact fits_push ⟨hleft, isBinaryOperator_tokenNode ht hp hop⟩ hbelow
  · next hnone =>
    clear hnone
    split at hs
    · cases hs
      have ⟨hbelow, hcondition⟩ := close_fits 1 h.stack he
      exact fits_push hcondition hbelow
    -- a colon between the arms of a conditional
    · next heq =>
      cases hs
      obtain ⟨hcondition, hbelow, hyes⟩ := fits_of_close_eq h.stack he heq
      exact fits_push ⟨hcondition, hyes⟩ hbelow
    -- a colon between the bounds of a range
    · next heq =>
      cases hs
      obtain ⟨hname, hbelow, hupper⟩ := fits_of_close_eq h.stack he heq
      exact fits_push ⟨hname, hupper⟩ hbelow
    -- the sign before a width, upwards
    · next heq =>
      cases hs
      obtain ⟨hname, hbelow, hbase⟩ := fits_of_close_eq h.stack he heq
      exact fits_push ⟨hname, hbase, isRangeOperator_tokenNode ht (.inl hp)⟩ hbelow
    -- the sign before a width, downwards
    · next heq =>
      cases hs
      obtain ⟨hname, hbelow, hbase⟩ := fits_of_close_eq h.stack he heq
      exact fits_push ⟨hname, hbase, isRangeOperator_tokenNode ht (.inr hp)⟩ hbelow
    -- a comma between items
    · next heq =>
      cases hs
      obtain ⟨hread, hbelow, he'⟩ := fits_of_close_eq h.stack he heq
      exact fits_push (forall_mem_snoc hread he') hbelow
    -- a comma between copied items
    · next heq =>
      cases hs
      obtain ⟨⟨hcount, hread⟩, hbelow, he'⟩ := fits_of_close_eq h.stack he heq
      exact fits_push ⟨hcount, forall_mem_snoc hread he'⟩ hbelow
    -- a second brace, which makes the only item a count
    · next heq =>
      cases hs
      obtain ⟨_, hbelow, hcount⟩ := fits_of_close_eq h.stack he heq
      exact fits_push ⟨hcount, by simp⟩ hbelow
    -- the end of parentheses
    · next heq =>
      cases hs
      obtain ⟨_, hbelow, he'⟩ := fits_of_close_eq h.stack he heq
      exact fits_withOperand (.parenthesized he') hbelow
    -- the end of an index
    · next heq =>
      cases hs
      obtain ⟨hname, hbelow, hindex⟩ := fits_of_close_eq h.stack he heq
      exact fits_withOperand (.bitSelect hname hindex) hbelow
    -- the end of a range
    · next heq =>
      cases hs
      obtain ⟨⟨hname, hupper⟩, hbelow, hlower⟩ := fits_of_close_eq h.stack he heq
      exact fits_withOperand (.rangeSelect hname hupper hlower) hbelow
    -- the end of a width
    · next heq =>
      cases hs
      obtain ⟨⟨hname, hbase, hop⟩, hbelow, hwidth⟩ := fits_of_close_eq h.stack he heq
      exact fits_withOperand (.indexedRangeSelect hname hbase hop hwidth) hbelow
    -- the end of a concatenation
    · next heq =>
      cases hs
      obtain ⟨hread, hbelow, he'⟩ := fits_of_close_eq h.stack he heq
      exact fits_withOperand (isExpression_concatenation hread he') hbelow
    -- the end of what is copied
    · next heq =>
      cases hs
      obtain ⟨⟨hcount, hread⟩, hbelow, he'⟩ := fits_of_close_eq h.stack he heq
      exact ⟨hbelow, hcount, isExpression_concatenation hread he', rfl⟩
    · cases hs

theorem Fits.stepOperand (h : r.Fits) (he : e.IsExpression) (ht : t.ReadFrom source.contents)
    (hs : r.stepOperand source e t = some next) : next.Fits := by
  unfold Reader.stepOperand at hs
  split at hs
  · split at hs
    · next hkind =>
      cases hs
      exact fits_push (he.isLeaf hkind) h.stack
    · cases hs
  · next hp =>
    split at hs
    · cases hs
    · exact h.stepSign he ht hp hs
  · cases hs

theorem Fits.step (h : r.Fits) (ht : t.ReadFrom source.contents)
    (hs : r.step source t = some next) : next.Fits := by
  have hprogress := h.progress
  unfold Reader.step at hs
  split at hs
  · exact h.stepAwaiting ht hs
  · next heq =>
    rw [heq] at hprogress
    exact h.stepOperand hprogress ht hs
  · next heq =>
    rw [heq] at hprogress
    obtain ⟨hcount, hinner, hkind⟩ := hprogress
    split at hs
    · cases hs
      exact fits_withOperand (.replication hcount hinner hkind) h.stack
    · cases hs

theorem Fits.run {ts : List Token} (h : r.Fits) (hts : ∀ t ∈ ts, t.ReadFrom source.contents)
    (hs : r.run source ts = .ok next) : next.Fits := by
  induction ts generalizing r with
  | nil =>
    cases hs
    exact h
  | cons t ts ih =>
    rw [Reader.run] at hs
    split at hs
    · next hstep =>
      have hfits := h.step (hts t List.mem_cons_self) hstep
      exact ih hfits (fun t' ht' => hts t' (List.mem_cons_of_mem _ ht')) hs
    · cases hs

/-! ## Expressions inside larger constructs -/

/-- What an expression is after it was offered a token. -/
def Fed.Fits : Fed → Prop
  | .reading r => r.Fits
  | .complete e => e.IsExpression

theorem Fits.feed {fed : Fed} (h : r.Fits) (ht : t.ReadFrom source.contents)
    (hs : r.feed source t = some fed) : fed.Fits := by
  unfold Reader.feed at hs
  split at hs
  · next hstep =>
    cases hs
    exact h.step ht hstep
  · obtain ⟨e, hfinish, rfl⟩ := Option.map_eq_some_iff.1 hs
    exact h.isExpression hfinish

end Reader

end Grammar

end Netlist
