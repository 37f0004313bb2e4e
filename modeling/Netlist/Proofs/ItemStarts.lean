/-
Refused tokens are those with which no item goes on.

What has been read of an item can always be made an item. The constructs that are open say what they
wait for, so an operand, the signs that end them and a few names and numbers complete an expression
(`Awaits.exists_completion`), and then the declaration or the assignment around it
(`Item.Accounts.startsItem`). A row of tokens therefore starts an item just if the reader of items
reads it, or is one (`startsItem_iff`): among the tokens of no item, the first refused one is the
first that no item can have there.
-/
import Netlist.Proofs.ModuleParts
import Netlist.Proofs.Recovery

set_option autoImplicit false

namespace Netlist.Grammar

/-! ## Cutting what is read -/

section Reads

variable {σ : Type} {step : σ → Token → Option σ} {s last : σ} {ts us : List Token}

theorem Reads.of_append (h : Reads step s (ts ++ us) last) :
    ∃ middle, Reads step s ts middle ∧ Reads step middle us last := by
  induction ts generalizing s with
  | nil => exact ⟨s, .done, h⟩
  | cons t ts ih =>
    cases h with
    | read hs h =>
      obtain ⟨middle, hts, hus⟩ := ih h
      exact ⟨middle, .read hs hts, hus⟩

theorem Reads.of_singleton {t : Token} (h : Reads step s [t] last) : step s t = some last := by
  cases h with
  | read hs h =>
    cases h
    exact hs

/-- A row of tokens is read, or one of them is the first that is not. -/
theorem reads_or_stops (step : σ → Token → Option σ) (s : σ) (ts : List Token) :
    (∃ last, Reads step s ts last) ∨ ∃ before t after middle,
      ts = before ++ t :: after ∧ Reads step s before middle ∧ step middle t = none := by
  induction ts generalizing s with
  | nil => exact .inl ⟨s, .done⟩
  | cons t ts ih =>
    cases hs : step s t with
    | none => exact .inr ⟨[], t, ts, s, rfl, .done, hs⟩
    | some next =>
      rcases ih next with ⟨last, h⟩ | ⟨before, u, after, middle, rfl, h, hstop⟩
      · exact .inl ⟨last, .read hs h⟩
      · exact .inr ⟨t :: before, u, after, middle, rfl, .read hs h, hstop⟩

end Reads

variable {source : Source} {goal : Goal} {stack : List Frame} {tier level : Nat}
  {ts us : List Token} {e : Tree} {t : Token}

/-! ## Completing expressions -/

/-- Some token of the terminal. -/
def Lexeme.any (x : Terminal) : Lexeme x :=
  ⟨⟨x, 0, 0⟩, rfl⟩

/-- Some number. -/
theorem exists_derives_number (source : Source) :
    ∃ us e, Derives source (.tier 12) us e :=
  ⟨_, _, .number (.any .number), rfl, rfl⟩

theorem Awaits.level_le_twelve (h : Awaits source goal stack level ts) : level ≤ 12 := by
  cases h with
  | binary op =>
    have := op.tier_bounds
    omega
  | _ => omega

/-- Where an operand is wanted and has come, the open constructs can be completed, from the
innermost on. -/
theorem Awaits.exists_completion (h : Awaits source goal stack level ts)
    (he : Derives source (.tier tier) us e) (hwanted : level ≤ tier) (htier : tier ≤ 12) :
    ∃ more e', Derives source goal.nonterminal (ts ++ us ++ more) e' := by
  -- what stands in for operands that have not come
  obtain ⟨ns, n, hn⟩ := exists_derives_number source
  have hnumber : Derives source .expression ns n := (hn.loosen (Nat.zero_le 12) le_rfl).expression
  induction h generalizing tier us e with
  | any =>
    have hwhole := (he.loosen hwanted htier).expression
    exact ⟨[], e, by simpa [Goal.nonterminal] using hwhole⟩
  | operand =>
    obtain rfl : tier = 12 := Nat.le_antisymm htier hwanted
    exact ⟨[], e, by simpa [Goal.nonterminal] using he⟩
  | unary op h hlevel ih =>
    obtain ⟨more, e', h'⟩ := ih ((he.loosen hwanted htier).unary op) hlevel (by omega)
    exact ⟨more, e', by simpa using h'⟩
  | binary op h hlevel hleft ih =>
    have hbounds := op.tier_bounds
    obtain ⟨more, e', h'⟩ := ih (hleft.binary (he.loosen hwanted htier) op) hlevel (by omega)
    exact ⟨more, e', by simpa using h'⟩
  | thenArm q h hcondition ih =>
    have hyes := (he.loosen hwanted htier).expression
    have hwhole := hcondition.conditional hyes (hn.loosen (Nat.zero_le 12) le_rfl) q (.any _)
    obtain ⟨more, e', h'⟩ := ih hwhole le_rfl (by omega)
    exact ⟨(Lexeme.any (.punctuation .colon)).1 :: (ns ++ more), e', by simpa using h'⟩
  | elseArm q s h hcondition hyes ih =>
    have hwhole := hcondition.conditional hyes (he.loosen hwanted htier) q s
    obtain ⟨more, e', h'⟩ := ih hwhole le_rfl (by omega)
    exact ⟨more, e', by simpa using h'⟩
  | paren o h ih =>
    have hwhole := (he.loosen hwanted htier).expression.parenthesized o (.any _)
    obtain ⟨more, e', h'⟩ := ih hwhole h.level_le_twelve le_rfl
    exact ⟨(Lexeme.any (.punctuation .closeParen)).1 :: more, e', by simpa using h'⟩
  | index name o h ih =>
    have hwhole := (he.loosen hwanted htier).expression.bitSelect name o (.any _)
    obtain ⟨more, e', h'⟩ := ih hwhole h.level_le_twelve le_rfl
    exact ⟨(Lexeme.any (.punctuation .closeBracket)).1 :: more, e', by simpa using h'⟩
  | lowerBound name o s h hupper ih =>
    have hwhole := hupper.rangeSelect (he.loosen hwanted htier).expression name o s (.any _)
    obtain ⟨more, e', h'⟩ := ih hwhole h.level_le_twelve le_rfl
    exact ⟨(Lexeme.any (.punctuation .closeBracket)).1 :: more, e', by simpa using h'⟩
  | partWidth name o op h hbase ih =>
    have hwhole := hbase.indexedRangeSelect (he.loosen hwanted htier).expression name o op (.any _)
    obtain ⟨more, e', h'⟩ := ih hwhole h.level_le_twelve le_rfl
    exact ⟨(Lexeme.any (.punctuation .closeBracket)).1 :: more, e', by simpa using h'⟩
  | items o h hrow ih =>
    have hwhole := (hrow.concatenation (he.loosen hwanted htier).expression o (.any _)).braced
    obtain ⟨more, e', h'⟩ := ih hwhole h.level_le_twelve le_rfl
    exact ⟨(Lexeme.any (.punctuation .closeBrace)).1 :: more, e', by simpa using h'⟩
  | copies o i h hcount hrow ih =>
    have hinner := hrow.concatenation (he.loosen hwanted htier).expression i (.any _)
    have hwhole := hcount.replication hinner o (.any _)
    obtain ⟨more, e', h'⟩ := ih hwhole h.level_le_twelve le_rfl
    exact ⟨(Lexeme.any (.punctuation .closeBrace)).1 ::
      (Lexeme.any (.punctuation .closeBrace)).1 :: more, e', by simpa using h'⟩

theorem Reader.Accounts.exists_completion {r : Reader} (h : r.Accounts source goal ts) :
    ∃ more e, Derives source goal.nonterminal (ts ++ more) e := by
  cases h with
  | awaiting h =>
    obtain ⟨ns, n, hn⟩ := exists_derives_number source
    obtain ⟨more, e, h'⟩ := h.exists_completion hn h.level_le_twelve le_rfl
    exact ⟨ns ++ more, e, by simpa using h'⟩
  | operand h he => exact h.exists_completion he h.level_le_twelve le_rfl
  | copied o h hcount hinner =>
    have hwhole := hcount.replication hinner o (.any _)
    obtain ⟨more, e, h'⟩ := h.exists_completion hwhole h.level_le_twelve le_rfl
    exact ⟨(Lexeme.any (.punctuation .closeBrace)).1 :: more, e, by simpa using h'⟩

/-- An expression that is being read can be completed. -/
theorem Reader.Accounts.exists_expression {r : Reader} (h : r.Accounts source .any ts) :
    ∃ (more : List Token) (d : Derivation .expression), d.yield = ts ++ more := by
  obtain ⟨more, _, d, hd, -⟩ := h.exists_completion
  exact ⟨more, d, hd⟩

/-- So can an operand that is read for its own sake. -/
theorem Reader.Accounts.exists_primary {r : Reader} (h : r.Accounts source .operand ts) :
    ∃ (more : List Token) (d : Derivation (.tier 12)), d.yield = ts ++ more := by
  obtain ⟨more, _, d, hd, -⟩ := h.exists_completion
  exact ⟨more, d, hd⟩

/-- There are expressions. -/
theorem nonempty_expression : Nonempty (Derivation .expression) := by
  have hstart : (Reader.start .any).Accounts .unknown .any [] := Reader.accounts_start .any
  obtain ⟨_, d, -⟩ := hstart.exists_expression
  exact ⟨d⟩

/-! ## Completing declarations up to their first name -/

theorem Head.Accounts.exists_completion {typed : Bool} {first : Tree} {h : Head}
    (hh : h.Accounts source typed first ts) :
    ∃ more parts, Complete source typed first parts (ts ++ more) := by
  cases hh with
  | direction htyped => exact ⟨[], _, .absent, .absent, fun _ => rfl, rfl, rfl⟩
  | netType ty hty => exact ⟨[], _, ty, .absent, hty, rfl, rfl⟩
  | upper ty o hty he =>
    obtain ⟨more, u, hu⟩ := he.exists_expression
    obtain ⟨l⟩ := nonempty_expression
    refine ⟨more ++ (Lexeme.any (.punctuation .colon)).1 ::
      (l.yield ++ [(Lexeme.any (.punctuation .closeBracket)).1]), _, ty,
      .present (.range o u (.any _) l (.any _)), hty, rfl, ?_⟩
    simp [hu]
  | lower ty o s hty hupper he =>
    obtain ⟨u, rfl, -⟩ := hupper
    obtain ⟨more, l, hl⟩ := he.exists_expression
    refine ⟨more ++ [(Lexeme.any (.punctuation .closeBracket)).1], _, ty,
      .present (.range o u s l (.any _)), hty, rfl, ?_⟩
    simp [hl]
  | range ty r hty => exact ⟨[], _, ty, r, hty, rfl, by simp⟩

/-! ## Completing items -/

/-- The tokens start an item: with some tokens behind them they are one. -/
def StartsItem (ts : List Token) : Prop :=
  ∃ (more : List Token) (d : Phrase (.item false)), d.yield = ts ++ more

theorem StartsItem.of_append (h : StartsItem (ts ++ us)) : StartsItem ts := by
  obtain ⟨more, d, hd⟩ := h
  exact ⟨us ++ more, d, by rw [hd, List.append_assoc]⟩

/-- There is only one first token with which no item goes on. -/
theorem StartsItem.unique {before before' after after' : List Token} {t' : Token}
    (hcut : before ++ t :: after = before' ++ t' :: after') (h : StartsItem before)
    (hstop : ¬ StartsItem (before ++ [t])) (h' : StartsItem before')
    (hstop' : ¬ StartsItem (before' ++ [t'])) : before = before' ∧ t = t' ∧ after = after' := by
  -- a longer start would hold the token that stops the shorter one
  have hnil : ∀ {bs cs as us vs : List Token} {u v : Token}, cs = bs ++ as →
      u :: us = as ++ v :: vs → StartsItem cs → ¬ StartsItem (bs ++ [u]) → as = [] := by
    intro bs cs as us vs u v hcs hus hstart hstop
    cases as with
    | nil => rfl
    | cons a as =>
      obtain rfl := (List.cons.inj hus).1
      rw [hcs, List.append_cons] at hstart
      exact absurd hstart.of_append hstop
  rcases List.append_eq_append_iff.1 hcut with ⟨as, hbefore, hafter⟩ | ⟨as, hbefore, hafter⟩
  · obtain rfl := hnil hbefore hafter h' hstop
    simpa [eq_comm] using And.intro hbefore hafter
  · obtain rfl := hnil hbefore hafter h hstop'
    simpa [eq_comm] using And.intro hbefore hafter

theorem startsItem_of_ports (p : Phrase .portDeclaration) (more : List Token)
    (h : p.yield = ts ++ more) : StartsItem ts :=
  ⟨more ++ [(Lexeme.any (.punctuation .semicolon)).1], .portsItem p (.any _), by simp [h]⟩

namespace Item

variable {i : Item} {parts : List Tree}

/-- A declaration of nets up to a name starts an item whatever net comes next. -/
theorem NetParts.startsItem (h : NetParts source parts us) (d : Phrase .netItem)
    (more : List Token) (hts : us ++ d.yield = ts ++ more) : StartsItem ts := by
  obtain ⟨k, r, nodes, vs, hstarted, -, rfl⟩ := h
  obtain ⟨ds, hyield, -⟩ := hstarted.row d
  refine ⟨more ++ [(Lexeme.any (.punctuation .semicolon)).1],
    .netsItem (.netDeclaration (.netType k) r ds) (.any _), ?_⟩
  rw [← List.append_assoc, ← hts]
  simp [hyield]

/-- So do assignments, whatever assignment comes next. -/
theorem startsItem_of_assignment (k : Key .assign) (h : Started source .assignment parts us)
    (d : Phrase .assignment) (more : List Token) (hts : k.1 :: us ++ d.yield = ts ++ more) :
    StartsItem ts := by
  obtain ⟨ds, hyield, -⟩ := h.row d
  refine ⟨more ++ [(Lexeme.any (.punctuation .semicolon)).1],
    .assignsItem (.continuousAssign k ds) (.any _), ?_⟩
  rw [← List.append_assoc, ← hts]
  simp [hyield]

/-- What has been read of an item starts one. -/
theorem Accounts.startsItem (h : i.Accounts source ts) : StartsItem ts := by
  cases h with
  | blank =>
    exact startsItem_of_ports (.port (.portHead ⟨_, .input, by decide, (Lexeme.any _).2⟩ .absent
      .absent (.any _))) _ rfl
  | port d h =>
    obtain ⟨more, parts, hparts⟩ := h.exists_completion
    obtain ⟨p, hyield, -⟩ := hparts.portHead (.any _)
    exact startsItem_of_ports (.port p) (more ++ [(Lexeme.any .identifier).1]) (by simp [hyield])
  | portNamed p hp => exact startsItem_of_ports p [] (List.append_nil _).symm
  | portComma p s hp =>
    exact startsItem_of_ports (.nextPort p s (.any _)) [(Lexeme.any .identifier).1] (by simp)
  | net k h =>
    obtain ⟨more, parts, ty, r, hty, -, hyield⟩ := h.exists_completion
    obtain rfl := hty rfl
    have hnet : NetParts source (tokenNode source .netType k.1 :: (r.trees source ++ []))
        (k.1 :: (r.yield ++ [])) := ⟨k, r, [], [], .first, rfl, rfl⟩
    refine hnet.startsItem (.net (.any _)) (more ++ [(Lexeme.any .identifier).1]) ?_
    rw [Phrase.yield, List.nil_append] at hyield
    simp [← hyield]
  | netNamed name h => exact h.startsItem (.net name) [] (List.append_nil _).symm
  | netValue name s h he =>
    obtain ⟨more, d, hd⟩ := he.exists_expression
    exact h.startsItem (.definedNet name s d) more (by simp [hd])
  | netComma h =>
    exact h.startsItem (.net (.any _)) _ rfl
  | target k h he =>
    obtain ⟨more, l, hl⟩ := he.exists_primary
    obtain ⟨r⟩ := nonempty_expression
    exact startsItem_of_assignment k h (.assignment l (.any _) r)
      (more ++ (Lexeme.any (.punctuation .equals)).1 :: r.yield) (by simp [hl])
  | value k s h hleft he =>
    obtain ⟨l, rfl, -⟩ := hleft
    obtain ⟨more, r, hr⟩ := he.exists_expression
    exact startsItem_of_assignment k h (.assignment l s r) more (by simp [hr])

/-! ## What is refused -/

theorem Accounts.reads {i' : Item} (h : i.Accounts source ts)
    (hr : Reads (next source) i us i') : i'.Accounts source (ts ++ us) := by
  induction hr generalizing ts with
  | done => rwa [List.append_nil]
  | read hs _ ih =>
    rw [List.append_cons]
    exact ih (h.step (next_eq_some_iff.1 hs))

theorem accounts_of_reads (hr : Reads (next source) .blank ts i) : i.Accounts source ts :=
  Accounts.blank.reads hr

/-- A complete item is the declaration that has been read, or a node that the semicolon made. -/
theorem eq_or_kind_of_complete {node : Tree} (h : i.step source t = some (.complete node)) :
    i = .portNamed node ∨ node.kind = .netDeclaration ∨ node.kind = .continuousAssign := by
  have hnet : ∀ {parts}, stepNetPart parts t = some (.complete node) →
      node.kind = .netDeclaration := by
    intro parts h
    unfold stepNetPart at h
    split at h
    · cases h
    · cases h
      exact Tree.kind_spanning _ _
    · cases h
  cases i with
  | blank =>
    simp only [step, stepBlank] at h
    split at h <;> cases h
  | port h' | net h' =>
    obtain ⟨s, -, hs⟩ := Option.map_eq_some_iff.1 h
    cases s <;> cases hs
  | portComma declaration | netComma parts =>
    obtain ⟨name, -, hname⟩ := Option.map_eq_some_iff.1 h
    cases hname
  | portNamed declaration =>
    simp only [step] at h
    split at h
    · cases h
    · cases h
      exact .inl rfl
    · cases h
  | netNamed parts name =>
    simp only [step] at h
    split at h
    · cases h
    · exact .inr (.inl (hnet h))
  | netValue parts name e =>
    simp only [step] at h
    split at h
    · cases h
    · exact .inr (.inl (hnet h))
    · cases h
  | target start parts e =>
    simp only [step] at h
    split at h <;> cases h
  | value start parts left e =>
    simp only [step] at h
    split at h
    · cases h
    · unfold stepAssignment at h
      split at h
      · cases h
      · cases h
        exact .inr (.inr rfl)
      · cases h
    · cases h

/-- A complete item is derived without recovery. -/
theorem Accounts.exists_plain {node : Tree} (h : i.Accounts source ts)
    (hs : i.step source t = some (.complete node)) : ∃ d : Phrase (.item false),
      d.yield = ts ++ [t] ∧ d.trees source = [node] := by
  obtain ⟨d, hyield, htrees⟩ := h.step hs
  have hkind : node.kind ≠ .error := by
    rcases eq_or_kind_of_complete hs with rfl | hkind | hkind
    · cases h with
      | portNamed p hp =>
        obtain ⟨node', hnode, hkind, -⟩ := Phrase.portDeclaration_trees source p
        obtain rfl : node = node' := by simpa [hp] using hnode
        rw [hkind]
        exact nofun
    · rw [hkind]
      exact nofun
    · rw [hkind]
      exact nofun
  have hplain : ∀ t ∈ d.trees source, t.kind ≠ .error := by
    rw [htrees]
    exact List.forall_mem_singleton.2 hkind
  obtain ⟨d', hyield', htrees'⟩ := d.exists_plain_item hplain
  exact ⟨d', hyield'.trans hyield, htrees'.trans htrees⟩

end Item

open Item in
/-- The rows that start an item are those that the reader of items reads, and the items. -/
theorem startsItem_iff (source : Source) : StartsItem ts ↔
    (∃ i, Reads (next source) .blank ts i) ∨ ∃ d : Phrase (.item false), d.yield = ts := by
  constructor
  · rintro ⟨more, d, hd⟩
    obtain ⟨us, i, s, node, hyield, -, hreads, -⟩ := reads_item source d
    rcases List.eq_nil_or_concat more with rfl | ⟨more, s', rfl⟩
    · exact .inr ⟨d, by rw [hd, List.append_nil]⟩
    · rw [hyield, List.concat_eq_append, ← List.append_assoc] at hd
      obtain ⟨rfl, -⟩ := List.append_inj' hd rfl
      obtain ⟨middle, hts, -⟩ := hreads.of_append
      exact .inl ⟨middle, hts⟩
  · rintro (⟨i, hreads⟩ | ⟨d, rfl⟩)
    · exact (accounts_of_reads hreads).startsItem
    · exact ⟨[], d, (List.append_nil _).symm⟩

namespace Item

variable {i : Item} {before : List Token}

/-- No item goes on with a token that the reader refuses. -/
theorem not_startsItem_of_refused (h : Reads (next source) .blank before i)
    (hs : i.step source t = none) : ¬ StartsItem (before ++ [t]) := by
  rw [startsItem_iff source]
  rintro (⟨last, hreads⟩ | ⟨d, hd⟩)
  · obtain ⟨middle, hbefore, ht⟩ := hreads.of_append
    obtain rfl := hbefore.unique h
    rw [next_eq_some_iff.1 ht.of_singleton] at hs
    cases hs
  · obtain ⟨us, i', s, node, hyield, -, hreads, hcomplete⟩ := reads_item source d
    rw [hyield] at hd
    obtain ⟨rfl, hlast⟩ := List.append_inj' hd rfl
    obtain rfl := (List.cons.inj hlast).1
    obtain rfl := hreads.unique h
    rw [hcomplete] at hs
    cases hs

/-- Among tokens that end with the only semicolon and are no item, the reader refuses one. -/
theorem exists_refused (source : Source) {bad : List Token} (semi : Sign .semicolon)
    (hbad : ∀ t ∈ bad, t.terminal ≠ .punctuation .semicolon)
    (hnot : ¬ ∃ d : Phrase (.item false), d.yield = bad ++ [semi.1]) :
    ∃ before refused after i, bad ++ [semi.1] = before ++ refused :: after ∧
      Reads (next source) .blank before i ∧ i.step source refused = none := by
  rcases reads_or_stops (next source) .blank (bad ++ [semi.1]) with
    ⟨last, hreads⟩ | ⟨before, t, after, i, hcut, hreads, hstop⟩
  · -- no item goes on behind the semicolon
    obtain ⟨i, -, hsemi⟩ := hreads.of_append
    exact absurd (next_eq_some_iff.1 hsemi.of_singleton) (i.step_semicolon last semi.2)
  · refine ⟨before, t, after, i, hcut, hreads, ?_⟩
    cases hs : i.step source t with
    | none => rfl
    | some s =>
      cases s with
      | reading next' =>
        rw [next_of_step hs] at hstop
        cases hstop
      | complete node =>
        obtain ⟨d, hyield, -⟩ := (accounts_of_reads hreads).exists_plain hs
        have ht : t.terminal = .punctuation .semicolon := by
          cases d with
          | portsItem _ s | netsItem _ s | assignsItem _ s =>
            obtain ⟨-, heq⟩ := List.append_inj' hyield rfl
            rw [← (List.cons.inj heq).1]
            exact s.2
        -- the only semicolon is the last token
        have hafter : after = [] := by
          rcases List.eq_nil_or_concat after with hnil | ⟨after, z, rfl⟩
          · exact hnil
          · rw [List.concat_eq_append, ← List.cons_append, ← List.append_assoc] at hcut
            obtain ⟨rfl, -⟩ := List.append_inj' hcut rfl
            exact absurd ht (hbad t (by simp))
        rw [hafter, ← hyield] at hcut
        exact absurd ⟨d, hcut.symm⟩ hnot

end Item

end Netlist.Grammar
