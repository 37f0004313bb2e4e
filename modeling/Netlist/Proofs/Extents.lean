/-
The tokens of an expression are those in its range.

A node over its children covers the text from the first child to the last. For an expression this is
the text from its first token to its last one (`Derivation.snug`): no bracket and no operator at an
end is left outside. Since tokens stand in order, those of an expression, or of an initialiser, are
found among all tokens of the text by its range (`InOrder.filter_within`).
-/
import Netlist.Proofs.Fidelity

set_option autoImplicit false

namespace Netlist

/-! ## First and last -/

/-- The trees start where the tokens do and end where they do. -/
structure Snug (ts : List Token) (as : List Tree) : Prop where
  start : as.head?.map (fun a => a.location.start) = ts.head?.map Token.start
  stop : as.getLast?.map (fun a => a.location.stop) = ts.getLast?.map Token.stop

namespace Snug

open Grammar

variable {source : Source} {ts us : List Token} {as bs : List Tree} {k : NodeKind} {lo hi : Nat}

theorem leaf (source : Source) (k : NodeKind) (t : Token) : Snug [t] [tokenNode source k t] :=
  ⟨rfl, rfl⟩

theorem fromTo (source : Source) (k : NodeKind) (a z : Token) (ts : List Token)
    (as : List Tree) : Snug (a :: (ts ++ [z])) [nodeOver source k a.start z.stop as] where
  start := rfl
  stop := by
    rw [← List.cons_append, List.getLast?_concat]
    rfl

theorem ne_nil (h : Snug ts as) (has : as ≠ []) : ts ≠ [] := by
  rintro rfl
  obtain ⟨a, as, rfl⟩ := List.exists_cons_of_ne_nil has
  cases h.start

/-- Only what stands at the ends matters. -/
theorem around (h : Snug ts as) (h' : Snug us bs) (has : as ≠ []) (hbs : bs ≠ [])
    (mid : List Token) (cs : List Tree) : Snug (ts ++ (mid ++ us)) (as ++ (cs ++ bs)) where
  start := by
    rw [List.head?_append_of_ne_nil _ has, List.head?_append_of_ne_nil _ (h.ne_nil has), h.start]
  stop := by
    rw [← List.append_assoc, ← List.append_assoc, List.getLast?_append_of_ne_nil _ hbs,
      List.getLast?_append_of_ne_nil _ (h'.ne_nil hbs), h'.stop]

/-- A node over trees in order starts and ends where they do. -/
theorem spanning (hsource : source.origin ≠ .unknown)
    (hspread : Tree.Spread source lo [.spanning k as] hi) (has : as ≠ []) (h : Snug ts as) :
    Snug ts [.spanning k as] := by
  obtain ⟨first, rest, rfl⟩ := List.exists_cons_of_ne_nil has
  have hlast := List.getLast?_eq_some_getLast has
  have hchildren : ∃ lo hi, Tree.Spread source lo (first :: rest) hi := by
    obtain ⟨l, hl⟩ := Tree.spanning_eq_node k (first :: rest)
    rw [hl] at hspread
    cases hspread with
    | cons _ _ _ _ hts _ => exact ⟨_, _, hts⟩
  obtain ⟨lo, hi, hchildren⟩ := hchildren
  obtain ⟨start, mid, mid', stop, hlocation, hlocation', -, -, -, hle, hle', -, -, -⟩ :=
    hchildren.ends rfl hlast
  have hnode : (Tree.spanning k (first :: rest)).location = ⟨source, start, stop⟩ := by
    rw [Tree.spanning, List.head?_cons, hlast]
    dsimp only
    rw [Tree.location_node, hlocation, hlocation', Tree.join_known hsource hle hle']
  refine ⟨?_, ?_⟩
  · rw [← h.start, List.head?_cons, List.head?_cons, Option.map_some, Option.map_some, hnode,
      hlocation]
  · rw [← h.stop, hlast, List.getLast?_singleton, Option.map_some, Option.map_some, hnode,
      hlocation']

end Snug

/-- The trees of a derivation start where its tokens do and end where they do. The induction is on
the derivation. -/
theorem Grammar.Derivation.snug {source : Source} (hsource : source.origin ≠ .unknown)
    {x : Nonterminal} (d : Derivation x) {lo hi : Nat}
    (h : Token.InOrder source lo d.yield hi) : Snug d.yield (d.trees source) := by
  have hspread := (d.built source false).spread hsource h
  induction d generalizing lo hi with
  | expression _ ih | tighter _ _ ih | braced _ ih | single _ ih => exact ih h hspread
  | number t => exact .leaf source .number t.1
  | name t => exact .leaf source .simpleIdentifier t.1
  | conditional c q y s n ihc ihy ihn =>
    obtain ⟨_, hc, hrest⟩ := h.exists_middle
    obtain ⟨_, hy, hn⟩ := hrest.from_start.2.2.2.2.2.exists_middle
    have hn := hn.from_start.2.2.2.2.2
    have hsnug := (ihc hc ((c.built source false).spread hsource hc)).around
      (ihn hn ((n.built source false).spread hsource hn)) (c.trees_nonempty source)
      (n.trees_nonempty source) (q.1 :: (y.yield ++ [s.1])) (y.trees source)
    have hne := List.append_ne_nil_of_left_ne_nil (c.trees_nonempty source)
      (y.trees source ++ n.trees source)
    have hyield : c.yield ++ (q.1 :: (y.yield ++ [s.1]) ++ n.yield) =
        (conditional c q y s n).yield := by simp
    rw [hyield] at hsnug
    exact hsnug.spanning hsource hspread hne
  | binary l op r ihl ihr =>
    obtain ⟨_, hl, hrest⟩ := h.exists_middle
    have hr := hrest.from_start.2.2.2.2.2
    have hsnug := (ihl hl ((l.built source false).spread hsource hl)).around
      (ihr hr ((r.built source false).spread hsource hr)) (l.trees_nonempty source)
      (r.trees_nonempty source) [op.1] [tokenNode source .binaryOperator op.1]
    exact hsnug.spanning hsource hspread
      (List.append_ne_nil_of_left_ne_nil (l.trees_nonempty source) _)
  | unary op e ih =>
    have he := h.from_start.2.2.2.2.2
    have hsnug := (Snug.leaf source .unaryOperator op.1).around
      (ih he ((e.built source false).spread hsource he)) (List.cons_ne_nil _ _)
      (e.trees_nonempty source) [] []
    exact hsnug.spanning hsource hspread (List.cons_ne_nil _ _)
  | more es s e ihes ih =>
    obtain ⟨_, hes, hrest⟩ := h.exists_middle
    have he := hrest.from_start.2.2.2.2.2
    exact (ihes hes ((es.built source false).spread hsource hes)).around
      (ih he ((e.built source false).spread hsource he)) (es.trees_nonempty source)
      (e.trees_nonempty source) [s.1] []
  | bitSelect t o i c =>
    exact .fromTo source .bitSelect t.1 c.1 (o.1 :: i.yield) _
  | rangeSelect t o u s l c =>
    have hsnug := Snug.fromTo source .rangeSelect t.1 c.1 (o.1 :: (u.yield ++ s.1 :: l.yield))
      (tokenNode source .simpleIdentifier t.1 :: (u.trees source ++ l.trees source))
    simpa using hsnug
  | indexedRangeSelect t o b op w c =>
    have hsnug := Snug.fromTo source .indexedRangeSelect t.1 c.1
      (o.1 :: (b.yield ++ op.1 :: w.yield))
      (tokenNode source .simpleIdentifier t.1 ::
        (b.trees source ++ tokenNode source .indexedRangeOperator op.1 :: w.trees source))
    simpa using hsnug
  | replication o n e c =>
    have hsnug := Snug.fromTo source .multipleConcatenation o.1 c.1 (n.yield ++ e.yield)
      (n.trees source ++ e.trees source)
    simpa using hsnug
  | parenthesized o e c => exact .fromTo source .parenthesizedExpression o.1 c.1 e.yield _
  | concatenation o es c => exact .fromTo source .concatenation o.1 c.1 es.yield _

/-- So does the node of a name with an initialiser. -/
theorem Grammar.Phrase.snug_definedNet {source : Source} (hsource : source.origin ≠ .unknown)
    (name : Lexeme .identifier) (s : Sign .equals) (e : Derivation .expression) {lo hi : Nat}
    (h : Token.InOrder source lo (definedNet name s e).yield hi) :
    Snug (definedNet name s e).yield ((definedNet name s e).trees source) := by
  have hbuilt : Built source false _ ((definedNet name s e).trees source) :=
    (definedNet name s e).built source nofun
  have hspread := hbuilt.spread hsource h
  have he := h.from_start.2.2.2.2.2.from_start.2.2.2.2.2
  have hsnug := (Snug.leaf source .simpleIdentifier name.1).around (e.snug hsource he)
    (List.cons_ne_nil _ _) (e.trees_nonempty source) [s.1] []
  exact hsnug.spanning hsource hspread (List.cons_ne_nil _ _)

/-! ## Tokens in a range -/

namespace Token

variable {source : Source} {lo hi : Nat} {a : Token} {before ts after : List Token}
  {l l' : Location}

/-- The token stays if the first range is taken out but for the second one. -/
def staysWithout (gone kept : Location) (t : Token) : Bool :=
  !t.isWithin gone || t.isWithin kept

/-- If the tokens of a range are taken out but for the first one, the others stay. -/
theorem InOrder.filter_staysWithout (h : InOrder source lo (before ++ (a :: ts ++ after)) hi)
    (hstart : a.start = l.start) (hstop : (a :: ts).getLast?.map Token.stop = some l.stop)
    (hstart' : a.start = l'.start) (hstop' : a.stop = l'.stop) :
    (before ++ (a :: ts ++ after)).filter (staysWithout l l') =
      before ++ a :: after := by
  obtain ⟨hbefore, hts, hafter⟩ := h.isWithin_eq (congrArg some hstart) hstop
  have h' : InOrder source lo (before ++ ([a] ++ (ts ++ after))) hi := h
  obtain ⟨-, ha, hrest⟩ := h'.isWithin_eq (l := l') (congrArg some hstart') (congrArg some hstop')
  have hgone : ts.filter (staysWithout l l') = [] := by
    refine List.filter_eq_nil_iff.2 fun t ht => ?_
    simp [staysWithout, hts t (List.mem_cons_of_mem a ht), hrest t (List.mem_append_left after ht)]
  rw [List.filter_append, List.filter_append, List.filter_cons_of_pos (by simp [staysWithout, ha]), hgone,
    List.filter_eq_self.2 (fun t ht => by simp [staysWithout, hbefore t ht]),
    List.filter_eq_self.2 (fun t ht => by simp [staysWithout, hafter t ht]), List.cons_append, List.nil_append]

end Token

end Netlist
