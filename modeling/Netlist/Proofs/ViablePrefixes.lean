/-
Where expressions go wrong.

The reader of expressions never reads a token that no continuation could make good, and it refuses a
token only if none could. What it has read can be completed by some tokens (`Reader.startsExpression`),
and a derivation that had the refused token in its place would drive the reader past it
(`Reader.not_startsExpression`). Both depend on nothing but the terminals of the tokens
(`Derivation.exists_of_terminals`), so they are said of texts: what stands before a refused token is
the start of an expression, and so is a text that ends too early (`Continues`), but no text is an
expression whose tokens start with the terminals up to the refused one (`Viable`).
-/
import Netlist.Proofs.ItemStarts
import Netlist.Proofs.Layout

set_option autoImplicit false

namespace Netlist

/-! ## Texts that are cut short -/

namespace Terminal

/-- What leads before a longer text leads before its start. -/
theorem Leads.of_append {x : Terminal} {lexeme cs rest : List Char}
    (h : x.Leads lexeme (cs ++ rest)) : x.Leads lexeme cs where
  spells := h.spells
  preferred := h.preferred
  longest := by
    intro y lexeme' rest' heq hy
    -- a longer lexeme in the part would be one in the whole text
    refine h.longest y lexeme' (rest' ++ rest) ?_ hy
    rw [← List.append_assoc, heq, List.append_assoc]

/-- A text that spells the terminal. -/
def sample : Terminal → String
  | identifier => "x"
  | number => "0"
  | keyword k => k.text
  | punctuation p => p.text

theorem claims_sample (x : Terminal) : x.Claims x.sample.toList := by
  cases x with
  | identifier => exact claims_of_lexeme? (by decide)
  | number => exact claims_of_lexeme? (by decide)
  | keyword k => exact k.claims
  | punctuation p => exact (p.leads_before_blank []).claims

end Terminal

namespace Token

variable {offset bad : Nat} {cs rest : List Char} {ts us : List Token} {t : Token}

/-- A place that starts no token lies in the text. -/
theorem scanFrom_error_bounds (h : scanFrom offset cs = .error bad) :
    offset ≤ bad ∧ bad ≤ offset + Text.byteLength cs := by
  induction offset, cs using scan_induction with
  | nil offset =>
    rw [scanFrom] at h
    cases h
  | blank offset c cs hc ih =>
    rw [scanFrom_blank hc] at h
    have hrest := ih h
    rw [Text.byteLength_cons]
    omega
  | stuck offset c cs hc hnone =>
    rw [scanFrom_stuck hc hnone] at h
    cases h
    exact ⟨Nat.le_refl _, Nat.le_add_right _ _⟩
  | token offset x lexeme cs hx ih =>
    rw [scanFrom_token hx] at h
    cases hscan : scanFrom (offset + Text.byteLength lexeme) cs with
    | ok us =>
      rw [hscan] at h
      cases h
    | error bad' =>
      rw [hscan] at h
      cases h
      have hrest := ih hscan
      rw [Text.byteLength_append]
      omega

/-- The text before a token is made of the tokens before it. The induction is on the blanks and the
lexemes that are taken off the front; what leads in the whole text leads in the part. -/
theorem Scans.exists_before (h : Scans offset cs (ts ++ t :: us) rest) :
    ∃ front back, cs = front ++ back ∧ t.start = offset + Text.byteLength front ∧
      Scans offset front ts [] := by
  generalize hall : ts ++ t :: us = all at h
  induction h generalizing ts with
  | done => exact absurd hall (by simp)
  | @blank offset c cs rest all hc _ ih =>
    obtain ⟨front, back, rfl, hstart, hscans⟩ := ih hall
    exact ⟨c :: front, back, rfl, by rw [hstart, Text.byteLength_cons, Nat.add_assoc],
      .blank hc hscans⟩
  | @token offset x lexeme cs rest all hx _ ih =>
    cases ts with
    | nil =>
      obtain ⟨rfl, -⟩ := List.cons.inj hall
      exact ⟨[], _, rfl, rfl, .done⟩
    | cons a ts =>
      obtain ⟨rfl, hrest⟩ := List.cons.inj hall
      obtain ⟨front, back, rfl, hstart, hscans⟩ := ih hrest
      exact ⟨lexeme ++ front, back, (List.append_assoc _ _ _).symm,
        by rw [hstart, Text.byteLength_append, Nat.add_assoc], .token hx.of_append hscans⟩

theorem map_terminal_rowFrom (offset : Nat) (ws : List (Terminal × String)) :
    (rowFrom offset ws).map terminal = ws.map Prod.fst := by
  induction ws generalizing offset with
  | nil => rfl
  | cons w ws ih => rw [rowFrom, List.map_cons, ih, List.map_cons]

/-- Any row of terminals may be written behind any text. -/
theorem Scans.exists_behind (h : Scans 0 cs ts []) (xs : List Terminal) :
    ∃ more us, us.map terminal = xs ∧ Scans 0 (cs ++ more) (ts ++ us) [] := by
  have hclaims : ∀ w ∈ xs.map fun x => (x, x.sample), w.1.Claims w.2.toList := by
    intro w hw
    obtain ⟨x, -, rfl⟩ := List.mem_map.1 hw
    exact x.claims_sample
  have hbehind := scans_spaced hclaims (Text.byteLength cs + ' '.utf8Size)
  have hblank : Terminal.Cuts ' ' := Terminal.cuts_of_isBlank rfl
  have hcut := hblank.startsCut (spaced (xs.map fun x => (x, x.sample)))
  refine ⟨' ' :: spaced (xs.map fun x => (x, x.sample)), _, ?_,
    (h.append_cut rfl hcut).append ?_ (.blank rfl hbehind)⟩
  · rw [map_terminal_rowFrom, List.map_map]
    exact List.map_id xs
  · rw [Text.byteLength_append, Nat.zero_add]

end Token

namespace Grammar

variable {source : Source} {ts us : List Token} {t : Token}

/-! ## Terminals decide -/

/-- Both rows are tokens of the same terminals, wherever they stand. -/
def SameTerminals (ts us : List Token) : Prop :=
  ts.map Token.terminal = us.map Token.terminal

section SameTerminals

variable {u : Token} {vs : List Token}

theorem SameTerminals.refl (ts : List Token) : SameTerminals ts ts := rfl

theorem sameTerminals_nil_iff : SameTerminals ts [] ↔ ts = [] :=
  List.map_eq_nil_iff

theorem sameTerminals_cons_iff : SameTerminals ts (u :: us) ↔
    ∃ t ts', ts = t :: ts' ∧ t.terminal = u.terminal ∧ SameTerminals ts' us :=
  List.map_eq_cons_iff

theorem sameTerminals_append_iff : SameTerminals ts (us ++ vs) ↔
    ∃ us' vs', ts = us' ++ vs' ∧ SameTerminals us' us ∧ SameTerminals vs' vs := by
  rw [SameTerminals, List.map_append, List.map_eq_append_iff]
  exact Iff.rfl

end SameTerminals

/-- Another token of the same terminal. -/
def Lexeme.other {x : Terminal} (t : Lexeme x) {u : Token} (h : u.terminal = t.1.terminal) :
    Lexeme x :=
  ⟨u, h.trans t.2⟩

/-- Another token of the same terminal. -/
def SignAmong.other {ps : List Punctuation} (t : SignAmong ps) {u : Token}
    (h : u.terminal = t.1.terminal) : SignAmong ps :=
  ⟨u, t.2.imp fun _ hp => ⟨hp.1, h.trans hp.2⟩⟩

/-- Tokens are derived if tokens of the same terminals are. The row is cut where the production puts
its parts together, and each token takes the place of its counterpart. -/
theorem Derivation.exists_of_terminals {n : Nonterminal} (d : Derivation n)
    (h : SameTerminals ts d.yield) : ∃ d' : Derivation n, d'.yield = ts := by
  induction d generalizing ts with
  | expression d ih =>
    obtain ⟨d', hd⟩ := ih h
    exact ⟨.expression d', hd⟩
  | tighter hlt d ih =>
    obtain ⟨d', hd⟩ := ih h
    exact ⟨.tighter hlt d', hd⟩
  | braced d ih =>
    obtain ⟨d', hd⟩ := ih h
    exact ⟨.braced d', hd⟩
  | single d ih =>
    obtain ⟨d', hd⟩ := ih h
    exact ⟨.single d', hd⟩
  | number t =>
    simp only [yield, sameTerminals_cons_iff, sameTerminals_nil_iff] at h
    obtain ⟨t', _, rfl, ht, rfl⟩ := h
    exact ⟨.number (t.other ht), rfl⟩
  | name t =>
    simp only [yield, sameTerminals_cons_iff, sameTerminals_nil_iff] at h
    obtain ⟨t', _, rfl, ht, rfl⟩ := h
    exact ⟨.name (t.other ht), rfl⟩
  | conditional c q y s n ihc ihy ihn =>
    simp only [yield, sameTerminals_append_iff, sameTerminals_cons_iff] at h
    obtain ⟨_, _, rfl, hc, q', _, rfl, hq, _, _, rfl, hy, s', _, rfl, hs, hn⟩ := h
    obtain ⟨c', rfl⟩ := ihc hc
    obtain ⟨y', rfl⟩ := ihy hy
    obtain ⟨n', rfl⟩ := ihn hn
    exact ⟨.conditional c' (q.other hq) y' (s.other hs) n', rfl⟩
  | binary l op r ihl ihr =>
    simp only [yield, sameTerminals_append_iff, sameTerminals_cons_iff] at h
    obtain ⟨_, _, rfl, hl, op', _, rfl, hop, hr⟩ := h
    obtain ⟨l', rfl⟩ := ihl hl
    obtain ⟨r', rfl⟩ := ihr hr
    exact ⟨.binary l' (op.other hop) r', rfl⟩
  | unary op d ih =>
    simp only [yield, sameTerminals_cons_iff] at h
    obtain ⟨op', _, rfl, hop, hd⟩ := h
    obtain ⟨d', rfl⟩ := ih hd
    exact ⟨.unary (op.other hop) d', rfl⟩
  | bitSelect t o i c ih =>
    simp only [yield, sameTerminals_append_iff, sameTerminals_cons_iff, sameTerminals_nil_iff] at h
    obtain ⟨t', _, rfl, ht, o', _, rfl, ho, _, _, rfl, hi, c', _, rfl, hc, rfl⟩ := h
    obtain ⟨i', rfl⟩ := ih hi
    exact ⟨.bitSelect (t.other ht) (o.other ho) i' (c.other hc), rfl⟩
  | rangeSelect t o u s l c ihu ihl =>
    simp only [yield, sameTerminals_append_iff, sameTerminals_cons_iff, sameTerminals_nil_iff] at h
    obtain ⟨t', _, rfl, ht, o', _, rfl, ho, _, _, rfl, hu, s', _, rfl, hs, _, _, rfl, hl, c', _,
      rfl, hc, rfl⟩ := h
    obtain ⟨u', rfl⟩ := ihu hu
    obtain ⟨l', rfl⟩ := ihl hl
    exact ⟨.rangeSelect (t.other ht) (o.other ho) u' (s.other hs) l' (c.other hc), rfl⟩
  | indexedRangeSelect t o b op w c ihb ihw =>
    simp only [yield, sameTerminals_append_iff, sameTerminals_cons_iff, sameTerminals_nil_iff] at h
    obtain ⟨t', _, rfl, ht, o', _, rfl, ho, _, _, rfl, hb, op', _, rfl, hop, _, _, rfl, hw, c', _,
      rfl, hc, rfl⟩ := h
    obtain ⟨b', rfl⟩ := ihb hb
    obtain ⟨w', rfl⟩ := ihw hw
    exact ⟨.indexedRangeSelect (t.other ht) (o.other ho) b' (op.other hop) w' (c.other hc), rfl⟩
  | replication o n d c ihn ihd =>
    simp only [yield, sameTerminals_append_iff, sameTerminals_cons_iff, sameTerminals_nil_iff] at h
    obtain ⟨o', _, rfl, ho, _, _, rfl, hn, _, _, rfl, hd, c', _, rfl, hc, rfl⟩ := h
    obtain ⟨n', rfl⟩ := ihn hn
    obtain ⟨d', rfl⟩ := ihd hd
    exact ⟨.replication (o.other ho) n' d' (c.other hc), rfl⟩
  | parenthesized o d c ih =>
    simp only [yield, sameTerminals_append_iff, sameTerminals_cons_iff, sameTerminals_nil_iff] at h
    obtain ⟨o', _, rfl, ho, _, _, rfl, hd, c', _, rfl, hc, rfl⟩ := h
    obtain ⟨d', rfl⟩ := ih hd
    exact ⟨.parenthesized (o.other ho) d' (c.other hc), rfl⟩
  | concatenation o ds c ih =>
    simp only [yield, sameTerminals_append_iff, sameTerminals_cons_iff, sameTerminals_nil_iff] at h
    obtain ⟨o', _, rfl, ho, _, _, rfl, hds, c', _, rfl, hc, rfl⟩ := h
    obtain ⟨ds', rfl⟩ := ih hds
    exact ⟨.concatenation (o.other ho) ds' (c.other hc), rfl⟩
  | more ds s d ihs ih =>
    simp only [yield, sameTerminals_append_iff, sameTerminals_cons_iff] at h
    obtain ⟨_, _, rfl, hds, s', _, rfl, hs, hd⟩ := h
    obtain ⟨ds', rfl⟩ := ihs hds
    obtain ⟨d', rfl⟩ := ih hd
    exact ⟨.more ds' (s.other hs) d', rfl⟩

theorem Derivation.exists_of_parts {n : Nonterminal} {ts' us' : List Token} (d : Derivation n)
    (hd : d.yield = ts ++ us) (hts : SameTerminals ts' ts) (hus : SameTerminals us' us) :
    ∃ d' : Derivation n, d'.yield = ts' ++ us' := by
  apply d.exists_of_terminals
  rw [hd]
  exact sameTerminals_append_iff.2 ⟨ts', us', rfl, hts, hus⟩

/-! ## Tokens that start an expression -/

/-- The tokens start an expression: with some tokens behind them they are one. -/
def StartsExpression (ts : List Token) : Prop :=
  ∃ (more : List Token) (d : Derivation .expression), d.yield = ts ++ more

/-- Which tokens start an expression depends on their terminals only. -/
theorem StartsExpression.of_terminals (h : StartsExpression ts) (hus : SameTerminals us ts) :
    StartsExpression us := by
  obtain ⟨more, d, hd⟩ := h
  obtain ⟨d', hd'⟩ := d.exists_of_parts hd hus (.refl more)
  exact ⟨more, d', hd'⟩

namespace Reader

variable {r : Reader}

/-- What the reader reads starts an expression. -/
theorem startsExpression (h : Reads (step source) (start .any) ts r) : StartsExpression ts :=
  ((accounts_start .any).reads h).exists_expression

/-- No expression goes on with a token that the reader refuses. -/
theorem not_startsExpression (h : Reads (step source) (start .any) ts r)
    (ht : r.step source t = none) : ¬ StartsExpression (ts ++ [t]) := by
  rintro ⟨more, d, hd⟩
  -- the derivation drives the reader to the state in which the token is refused, and past it
  obtain ⟨e, last, -, hreads, -⟩ := d.exists_run source
  rw [hd] at hreads
  obtain ⟨next, hreads, -⟩ := hreads.of_append
  obtain ⟨r', hts, hlast⟩ := hreads.of_append
  obtain rfl := hts.unique h
  rw [hlast.of_singleton] at ht
  cases ht

/-- The token with which a run fails is the first one that is refused. -/
theorem exists_of_run_eq_error (h : r.run source ts = .error t) : ∃ before after last,
    ts = before ++ t :: after ∧ Reads (step source) r before last ∧ last.step source t = none := by
  induction ts generalizing r with
  | nil => cases h
  | cons u ts ih =>
    rw [run] at h
    split at h
    · next next hs =>
      obtain ⟨before, after, last, rfl, hreads, hstop⟩ := ih h
      exact ⟨u :: before, after, last, rfl, .read hs hreads, hstop⟩
    · next hs =>
      cases h
      exact ⟨[], ts, r, rfl, .done, hs⟩

end Reader

/-! ## Texts that start an expression -/

/-- The text starts an expression: with some text behind it, it is read as one, and its tokens are the
given ones and some more. -/
def Continues (cs : List Char) (ts : List Token) : Prop :=
  ∃ more us e, tokens (.ofChars (cs ++ more)) = .ok (ts ++ us) ∧
    parseExpression (.ofChars (cs ++ more)) = .ok e

/-- Some text is an expression, and its tokens start with the terminals. -/
def Viable (xs : List Terminal) : Prop :=
  ∃ source ts e, tokens source = .ok ts ∧ xs <+: ts.map Token.terminal ∧
    parseExpression source = .ok e

theorem StartsExpression.continues {cs : List Char} (h : StartsExpression ts)
    (hscans : Token.Scans 0 cs ts []) : Continues cs ts := by
  obtain ⟨more, d, hd⟩ := h
  obtain ⟨behind, us, hus, hall⟩ := hscans.exists_behind (more.map Token.terminal)
  obtain ⟨d', hd'⟩ := d.exists_of_parts hd (.refl ts) hus
  obtain ⟨e, he⟩ := d'.exists_tree (.ofChars (cs ++ behind))
  exact ⟨behind, us, e, tokens_eq_ok_iff.2 hall,
    parseExpression_eq_ok_iff.2 ⟨_, hall, d', hd', he⟩⟩

theorem Viable.startsExpression (h : Viable (ts.map Token.terminal)) : StartsExpression ts := by
  obtain ⟨source, us, e, hus, ⟨ys, hys⟩, he⟩ := h
  -- the tokens of the other text are derived, and its first ones are of the same terminals
  obtain ⟨us', hscans, d, rfl, -⟩ := parseExpression_eq_ok_iff.1 he
  obtain rfl := hscans.unique (tokens_eq_ok_iff.1 hus)
  obtain ⟨front, back, hyield, hfront, -⟩ := List.map_eq_append_iff.1 hys.symm
  have hstart : StartsExpression front := ⟨back, d, hyield⟩
  exact hstart.of_terminals hfront.symm

/-! ## Where the first fault is -/

theorem tokens_eq_error {f : ParseError} (h : tokens source = .error f) :
    ∃ offset ≤ source.byteLength, f = .invalid source offset := by
  unfold tokens at h
  split at h
  · cases h
  · next offset hscan =>
    cases h
    have hle := (Token.scanFrom_error_bounds hscan).2
    rw [Nat.zero_add] at hle
    exact ⟨offset, hle, rfl⟩

theorem expressionOfTokens_eq_error {f : ParseError} (hnodup : ts.Nodup)
    (h : expressionOfTokens source ts = .error f) :
    (∃ before t after, ts = before ++ t :: after ∧ f = .refused source before t ∧
      StartsExpression before ∧ ¬ StartsExpression (before ++ [t])) ∨
    f = .ended source ts ∧ StartsExpression ts := by
  unfold expressionOfTokens at h
  split at h
  · next t hrun =>
    cases h
    obtain ⟨before, after, last, rfl, hreads, hstop⟩ := Reader.exists_of_run_eq_error hrun
    have hbefore : t ∉ before := fun hmem =>
      List.disjoint_of_nodup_append hnodup hmem List.mem_cons_self
    rw [tokensBefore_append hbefore]
    exact .inl ⟨before, t, after, rfl, rfl, Reader.startsExpression hreads,
      Reader.not_startsExpression hreads hstop⟩
  · next r hrun =>
    split at h
    · cases h
    · cases h
      exact .inr ⟨rfl, Reader.startsExpression (Reader.run_eq_ok_iff.1 hrun)⟩

theorem ended_bounds (h : Token.Scans 0 source.contents ts []) :
    (ts.getLast?.map Token.stop).getD 0 ≤ source.byteLength := by
  cases hlast : ts.getLast? with
  | none => exact Nat.zero_le _
  | some t => exact ((Token.inOrder_of_scans h).bounds t (List.mem_of_getLast? hlast)).2.2

/-- A text that is no expression has its fault inside, and, if it is made of tokens, where the first
token stands that no expression can have there: the text before that token starts an expression, and
no text is an expression whose tokens start with the same terminals up to that one. If there is no
such token, the text starts an expression, and the fault is where its last token ends. -/
theorem parseExpression_error_at_first {f : ParseError} (h : parseExpression source = .error f) :
    (f.location.source = source ∧ f.location.start ≤ f.location.stop ∧
      f.location.stop ≤ source.byteLength) ∧
    ∀ ts, tokens source = .ok ts →
      (∃ before t after front back, ts = before ++ t :: after ∧
        f = ⟨⟨source, t.start, t.stop⟩,
          .unexpectedToken (before.map Token.terminal) t.terminal⟩ ∧
        source.contents = front ++ back ∧ Text.byteLength front = t.start ∧
        Continues front before ∧ ¬ Viable ((before ++ [t]).map Token.terminal)) ∨
      ∃ stop, stop = (ts.getLast?.map Token.stop).getD 0 ∧
        f = ⟨⟨source, stop, stop⟩, .unexpectedEnd (ts.map Token.terminal)⟩ ∧ Continues source.contents ts := by
  unfold parseExpression at h
  cases hts : tokens source with
  | error f' =>
    rw [hts] at h
    cases h
    obtain ⟨offset, hle, rfl⟩ := tokens_eq_error hts
    exact ⟨⟨rfl, Nat.le_refl offset, hle⟩, nofun⟩
  | ok ts =>
    rw [hts] at h
    have hscans := tokens_eq_ok_iff.1 hts
    rcases expressionOfTokens_eq_error (Token.inOrder_of_scans hscans).nodup h with
      ⟨before, t, after, rfl, rfl, hbefore, hstop⟩ | ⟨rfl, hstart⟩
    · have hbounds := (Token.inOrder_of_scans hscans).bounds t (by simp)
      refine ⟨⟨rfl, Nat.le_of_lt hbounds.2.1, hbounds.2.2⟩, fun us hus => .inl ?_⟩
      cases hus
      obtain ⟨front, back, hcut, hfront, hscans'⟩ := hscans.exists_before
      exact ⟨before, t, after, front, back, rfl, rfl, hcut, by rw [hfront, Nat.zero_add],
        hbefore.continues hscans', fun hviable => hstop hviable.startsExpression⟩
    · refine ⟨⟨rfl, Nat.le_refl _, ended_bounds hscans⟩, fun us hus => .inr ?_⟩
      cases hus
      exact ⟨_, rfl, rfl, hstart.continues hscans⟩

/-- A width with a second bound behind it. -/
def secondBoundText : String :=
  "a[i +: 2 : 0]"

/-- A condition with braces that do not end. -/
def openBracesText : String :=
  "s ? \x7b2\x7ba"

/-- The fault of a text that is no expression. -/
def fault? (source : Source) : Option ParseError :=
  match parseExpression source with
  | .ok _ => none
  | .error f => some f

theorem fault?_eq_some {f : ParseError} (h : fault? source = some f) :
    parseExpression source = .error f := by
  unfold fault? at h
  split at h
  · cases h
  · next hparse =>
    cases h
    exact hparse

/-- The fault of the text with a second bound: a colon behind the terminals up to the number. -/
def secondBoundFault : Fault :=
  .unexpectedToken
    [.identifier, .punctuation .openBracket, .identifier, .punctuation .plusColon, .number]
    (.punctuation .colon)

/-- The fault of the text with open braces, which ends behind the terminals it has. -/
def openBracesFault : Fault :=
  .unexpectedEnd
    [.identifier, .punctuation .question, .punctuation .openBrace, .number,
      .punctuation .openBrace, .identifier]

/-- The second colon cannot be, since the sign before a width has announced the last number; braces
may always end later. -/
theorem parseExpression_error_at_first_secondBound :
    (parseExpression (.ofText secondBoundText) =
        .error ⟨⟨.ofText secondBoundText, 9, 10⟩, secondBoundFault⟩ ∧
      ∃ before t after, tokens (.ofText secondBoundText) = .ok (before ++ t :: after) ∧
        t.start = 9 ∧ t.stop = 10 ∧ ¬ Viable ((before ++ [t]).map Token.terminal) ∧
        ∃ front, Text.byteLength front = 9 ∧ Continues front before) ∧
    parseExpression (.ofText openBracesText) =
      .error ⟨⟨.ofText openBracesText, 8, 8⟩, openBracesFault⟩ ∧
    ∃ ts, tokens (.ofText openBracesText) = .ok ts ∧ Continues openBracesText.toList ts := by
  have hrefused : parseExpression (.ofText secondBoundText) =
      .error ⟨⟨.ofText secondBoundText, 9, 10⟩, secondBoundFault⟩ :=
    fault?_eq_some (by decide +kernel)
  have hended : parseExpression (.ofText openBracesText) =
      .error ⟨⟨.ofText openBracesText, 8, 8⟩, openBracesFault⟩ :=
    fault?_eq_some (by decide +kernel)
  have hscans : (tokens (.ofText secondBoundText)).toOption.isSome := by decide +kernel
  have hscans' : (tokens (.ofText openBracesText)).toOption.isSome := by decide +kernel
  obtain ⟨ts, hts⟩ := Option.isSome_iff_exists.1 hscans
  obtain ⟨us, hus⟩ := Option.isSome_iff_exists.1 hscans'
  replace hts := of_toOption_eq_some hts
  replace hus := of_toOption_eq_some hus
  refine ⟨⟨hrefused, ?_⟩, hended, us, hus, ?_⟩
  · rcases (parseExpression_error_at_first hrefused).2 ts hts with
      ⟨before, t, after, front, back, rfl, hfault, -, hfront, hcontinues, hstop⟩ | ⟨_, -, hfault, -⟩
    · injection hfault with hlocation
      injection hlocation with _ hstart hend
      exact ⟨before, t, after, hts, hstart.symm, hend.symm, hstop, front, hfront.trans hstart.symm,
        hcontinues⟩
    · cases hfault
  · rcases (parseExpression_error_at_first hended).2 us hus with
      ⟨_, _, _, _, _, -, hfault, -⟩ | ⟨_, -, -, hcontinues⟩
    · injection hfault with _ hkind
      cases hkind
    · exact hcontinues

end Grammar

end Netlist
