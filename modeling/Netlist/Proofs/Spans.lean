/-
Where nodes stand.

Trees are built over tokens in few ways: a node covers a token, or the text from a token to another
one or to the end of its last child, or the text from its first child to its last, and a node may
grow by a child. `Built` lists these ways. Tokens stand in order and cut no character
(`Token.InOrder`), so what is built of them stands in order too (`Tree.Spread`): a node covers its
children, and one sibling starts where the one before it has ended. The nodes without children
that are built are the tokens that have a node (`Built.leaves`).
-/
import Mathlib.Data.List.Forall2
import Netlist.Proofs.Lexing
import Netlist.Proofs.Shapes
import Netlist.Grammar.Expression

set_option autoImplicit false

namespace Netlist

variable {source : Source} {lo mid hi : Nat}

/-! ## Offsets and tokens in order -/

theorem Text.byteLength_pos {cs : List Char} (h : cs ≠ []) : 0 < Text.byteLength cs := by
  obtain ⟨c, ds, rfl⟩ := List.exists_cons_of_ne_nil h
  rw [byteLength_cons]
  exact Nat.add_pos_left (Char.utf8Size_pos c) _

/-- The offset cuts no character. -/
def Source.IsBoundary (source : Source) (offset : Nat) : Prop :=
  ∃ before after, source.contents = before ++ after ∧ offset = Text.byteLength before

theorem Source.isBoundary_zero (source : Source) : source.IsBoundary 0 :=
  ⟨[], source.contents, rfl, rfl⟩

theorem Source.isBoundary_byteLength (source : Source) : source.IsBoundary source.byteLength :=
  ⟨source.contents, [], (List.append_nil _).symm, rfl⟩

namespace Token

/-- The tokens stand one after the other between two offsets, and cut no character. -/
inductive InOrder (source : Source) : Nat → List Token → Nat → Prop
  | nil {lo hi : Nat} : lo ≤ hi → InOrder source lo [] hi
  | cons {lo hi : Nat} {t : Token} {ts : List Token} : lo ≤ t.start → t.start < t.stop →
      source.IsBoundary t.start → source.IsBoundary t.stop → InOrder source t.stop ts hi →
      InOrder source lo (t :: ts) hi

variable {ts us : List Token}

theorem InOrder.le (h : InOrder source lo ts hi) : lo ≤ hi := by
  induction h with
  | nil h => exact h
  | cons hlo hlt _ _ _ ih => omega

theorem InOrder.append (h : InOrder source lo ts mid) (h' : InOrder source mid us hi) :
    InOrder source lo (ts ++ us) hi := by
  induction h with
  | @nil lo mid hle =>
    cases h' with
    | nil h => exact .nil (by omega)
    | cons hlo hlt hstart hstop h => exact .cons (by omega) hlt hstart hstop h
  | cons hlo hlt hstart hstop _ ih => exact .cons hlo hlt hstart hstop (ih h')

theorem InOrder.exists_middle (h : InOrder source lo (ts ++ us) hi) :
    ∃ mid, InOrder source lo ts mid ∧ InOrder source mid us hi := by
  induction ts generalizing lo with
  | nil => exact ⟨lo, .nil (Nat.le_refl lo), h⟩
  | cons t ts ih =>
    cases h with
    | cons hlo hlt hstart hstop h =>
      obtain ⟨mid, hts, hus⟩ := ih h
      exact ⟨mid, .cons hlo hlt hstart hstop hts, hus⟩

/-- Tokens stand in order from where the first of them starts. -/
theorem InOrder.from_start {a : Token} (h : InOrder source lo (a :: ts) hi) :
    lo ≤ a.start ∧ a.start < a.stop ∧ source.IsBoundary a.start ∧ source.IsBoundary a.stop ∧
      InOrder source a.start (a :: ts) hi ∧ InOrder source a.stop ts hi := by
  cases h with
  | cons hlo hlt hstart hstop h =>
    exact ⟨hlo, hlt, hstart, hstop, .cons (Nat.le_refl _) hlt hstart hstop h, h⟩

/-- Tokens stand in order up to where the last of them ends. -/
theorem InOrder.to_stop {z : Token} (h : InOrder source lo (ts ++ [z]) hi) :
    z.stop ≤ hi ∧ lo < z.stop ∧ source.IsBoundary z.stop ∧
      InOrder source lo (ts ++ [z]) z.stop := by
  obtain ⟨mid, hts, hz⟩ := h.exists_middle
  cases hz with
  | cons hlo hlt hstart hstop h =>
    have hle := hts.le
    exact ⟨h.le, by omega, hstop, hts.append (.cons hlo hlt hstart hstop (.nil (Nat.le_refl _)))⟩

/-- The tokens of a part of a text stand in order in it. The induction is on the part that is left;
`before` is what has been read. -/
theorem InOrder.of_scans_part {offset : Nat} {before cs rest after : List Char}
    (h : Scans offset cs ts rest) (hrest : rest = []) (hcs : source.contents = before ++ cs ++ after)
    (hoffset : offset = Text.byteLength before) :
    InOrder source offset ts (offset + Text.byteLength cs) := by
  induction h generalizing before with
  | done => exact .nil (Nat.le_add_right _ _)
  | @blank offset c cs rest ts hc _ ih =>
    have hcs' : source.contents = before ++ [c] ++ cs ++ after := by simp [hcs]
    have hnext := ih hrest hcs' (by simp [hoffset])
    rw [Nat.add_assoc, ← Text.byteLength_cons] at hnext
    exact (InOrder.nil (Nat.le_add_right _ _)).append hnext
  | @token offset x lexeme cs rest ts hx _ ih =>
    have hcs' : source.contents = before ++ lexeme ++ cs ++ after := by simp [hcs]
    have hcut : source.contents = before ++ (lexeme ++ (cs ++ after)) := by simp [hcs]
    have hnext := ih hrest hcs' (by simp [hoffset])
    rw [Nat.add_assoc, ← Text.byteLength_append] at hnext
    have hpos := Text.byteLength_pos hx.spells.ne_nil
    exact .cons (Nat.le_refl _) (Nat.lt_add_of_pos_right hpos) ⟨before, _, hcut, hoffset⟩
      ⟨before ++ lexeme, cs ++ after, by simp [hcut], by simp [hoffset]⟩ hnext

/-- The tokens of the rest of a text stand in order. -/
theorem InOrder.of_scans {offset : Nat} {before cs rest : List Char} (h : Scans offset cs ts rest)
    (hrest : rest = []) (hcs : source.contents = before ++ cs)
    (hoffset : offset = Text.byteLength before) : InOrder source offset ts source.byteLength := by
  have hpart : source.contents = before ++ cs ++ [] := by rw [hcs, List.append_nil]
  have hlength : source.byteLength = offset + Text.byteLength cs := by
    rw [Source.byteLength, hcs, Text.byteLength_append, hoffset]
  rw [hlength]
  exact .of_scans_part h hrest hpart hoffset

theorem InOrder.bounds (h : InOrder source lo ts hi) :
    ∀ t ∈ ts, lo ≤ t.start ∧ t.start < t.stop ∧ t.stop ≤ hi := by
  induction h with
  | nil => exact nofun
  | cons hlo hlt _ _ h ih =>
    refine List.forall_mem_cons.2 ⟨⟨hlo, hlt, h.le⟩, ?_⟩
    intro t ht
    have hbounds := ih t ht
    omega

/-- Tokens that stand in order are all different. -/
theorem InOrder.nodup (h : InOrder source lo ts hi) : ts.Nodup := by
  induction h with
  | nil => exact .nil
  | cons _ hlt _ _ h ih =>
    refine List.nodup_cons.2 ⟨fun hmem => ?_, ih⟩
    have hbounds := h.bounds _ hmem
    omega

/-- The tokens of a whole text stand in order. -/
theorem inOrder_of_scans (h : Scans 0 source.contents ts []) :
    InOrder source 0 ts source.byteLength :=
  have hcontents : source.contents = [] ++ source.contents := rfl
  InOrder.of_scans h rfl hcontents rfl

/-- The token stands in the range. -/
def isWithin (t : Token) (l : Location) : Bool :=
  l.start ≤ t.start && t.stop ≤ l.stop

variable {before after : List Token} {l : Location}

/-- Of tokens in order just those from the start to the end of the range stand in it. -/
theorem InOrder.isWithin_eq (h : InOrder source lo (before ++ (ts ++ after)) hi)
    (hstart : ts.head?.map Token.start = some l.start)
    (hstop : ts.getLast?.map Token.stop = some l.stop) :
    (∀ t ∈ before, t.isWithin l = false) ∧ (∀ t ∈ ts, t.isWithin l = true) ∧
      ∀ t ∈ after, t.isWithin l = false := by
  obtain ⟨mid, hbefore, h⟩ := h.exists_middle
  obtain ⟨mid', hts, hafter⟩ := h.exists_middle
  obtain ⟨first, rest, rfl⟩ := List.exists_cons_of_ne_nil (l := ts) (by rintro rfl; cases hstart)
  obtain ⟨hlo, -, -, -, hfrom, -⟩ := hts.from_start
  obtain ⟨front, last, hlast⟩ := (first :: rest).eq_nil_or_concat.resolve_left (List.cons_ne_nil _ _)
  rw [List.concat_eq_append] at hlast
  rw [hlast] at hfrom hstop ⊢
  obtain ⟨hhi, hlt, -, hspan⟩ := hfrom.to_stop
  rw [List.getLast?_concat] at hstop
  have hfirst : first.start = l.start := Option.some.inj hstart
  have hend : last.stop = l.stop := Option.some.inj hstop
  refine ⟨fun t ht => ?_, fun t ht => ?_, fun t ht => ?_⟩
  · have hbounds := hbefore.bounds t ht
    simp only [isWithin, Bool.and_eq_false_iff, decide_eq_false_iff_not]
    omega
  · have hbounds := hspan.bounds t ht
    simp only [isWithin, Bool.and_eq_true, decide_eq_true_eq]
    omega
  · have hbounds := hafter.bounds t ht
    simp only [isWithin, Bool.and_eq_false_iff, decide_eq_false_iff_not]
    omega

/-- They are all that is found by the range. -/
theorem InOrder.filter_within (h : InOrder source lo (before ++ (ts ++ after)) hi)
    (hstart : ts.head?.map Token.start = some l.start)
    (hstop : ts.getLast?.map Token.stop = some l.stop) :
    (before ++ (ts ++ after)).filter (isWithin · l) = ts := by
  obtain ⟨hbefore, hts, hafter⟩ := h.isWithin_eq hstart hstop
  rw [List.filter_append, List.filter_append, List.filter_eq_self.2 hts,
    List.filter_eq_nil_iff.2 (fun t ht => by simp [hbefore t ht]),
    List.filter_eq_nil_iff.2 (fun t ht => by simp [hafter t ht]), List.nil_append,
    List.append_nil]

/-- The tokens between two of them are those within the range that both span. -/
theorem InOrder.filter_isWithin {a z : Token} {middle : List Token}
    (h : InOrder source lo (before ++ (a :: (middle ++ [z]) ++ after)) hi) :
    (before ++ (a :: (middle ++ [z]) ++ after)).filter (isWithin · ⟨source, a.start, z.stop⟩) =
      a :: (middle ++ [z]) := by
  have hstop : (a :: (middle ++ [z])).getLast?.map Token.stop = some z.stop := by
    rw [← List.cons_append, List.getLast?_concat]
    rfl
  exact h.filter_within rfl hstop

end Token

/-! ## Rows of trees -/

namespace Tree

/-- The trees stand one after the other between two offsets of the source and cut no character, and
so do the children of each between its own offsets. -/
inductive Spread (source : Source) : Nat → List Tree → Nat → Prop
  | nil {lo hi : Nat} : lo ≤ hi → Spread source lo [] hi
  | cons {k : NodeKind} {start stop lo hi : Nat} {ts us : List Tree} : lo ≤ start → start < stop →
      source.IsBoundary start → source.IsBoundary stop → Spread source start ts stop →
      Spread source stop us hi → Spread source lo (.node k ⟨source, start, stop⟩ ts :: us) hi

variable {ts us : List Tree} {k : NodeKind}

theorem Spread.le (h : Spread source lo ts hi) : lo ≤ hi := by
  induction h with
  | nil h => exact h
  | cons hlo hlt _ _ _ _ _ ih => omega

theorem Spread.append (h : Spread source lo ts mid) (h' : Spread source mid us hi) :
    Spread source lo (ts ++ us) hi := by
  induction h with
  | nil hle =>
    cases h' with
    | nil h => exact .nil (by omega)
    | cons hlo hlt hstart hstop hts h => exact .cons (by omega) hlt hstart hstop hts h
  | cons hlo hlt hstart hstop hts _ _ ih => exact .cons hlo hlt hstart hstop hts (ih h')

/-- One more gap at an end changes nothing. -/
theorem Spread.widen {lo' hi' : Nat} (h : Spread source lo ts hi) (hlo : lo' ≤ lo)
    (hhi : hi ≤ hi') : Spread source lo' ts hi' := by
  -- an empty row of trees fills the gap in front, and another one the gap behind
  have hfront : Spread source lo' [] lo := .nil hlo
  have hwide := hfront.append (h.append (.nil hhi))
  rwa [List.nil_append, List.append_nil] at hwide

/-- Trees stand in order from the start of the first of them to the end of the last. -/
theorem Spread.ends {first last : Tree} (h : Spread source lo ts hi)
    (hfirst : ts.head? = some first) (hlast : ts.getLast? = some last) : ∃ start mid mid' stop,
      first.location = ⟨source, start, mid⟩ ∧ last.location = ⟨source, mid', stop⟩ ∧
      lo ≤ start ∧ stop ≤ hi ∧ start < stop ∧ start ≤ mid' ∧ mid ≤ stop ∧
      source.IsBoundary start ∧ source.IsBoundary stop ∧ Spread source start ts stop := by
  induction h generalizing first with
  | nil => cases hfirst
  | @cons k start stop lo hi ts us hlo hlt hstart hstop hts hus _ ih =>
    obtain rfl := Option.some.inj hfirst
    cases us with
    | nil =>
      obtain rfl := Option.some.inj hlast
      exact ⟨start, stop, start, stop, rfl, rfl, hlo, hus.le, hlt, Nat.le_refl _, Nat.le_refl _,
        hstart, hstop, .cons (Nat.le_refl _) hlt hstart hstop hts (.nil (Nat.le_refl _))⟩
    | cons u us =>
      rw [List.getLast?_cons_cons] at hlast
      obtain ⟨start', mid', mid'', stop', hlocation, hlocation', hlo', hhi, hlt', hle, hle',
        hstart', hstop', hspread⟩ := ih rfl hlast
      have hrest := hspread.widen hlo' (Nat.le_refl _)
      exact ⟨start, stop, mid'', stop', rfl, hlocation', hlo, hhi, by omega, by omega, by omega,
        hstart, hstop', .cons (Nat.le_refl _) hlt hstart hstop hts hrest⟩

theorem Spread.single {start stop : Nat} (h : Spread source start ts stop) (hlo : lo ≤ start)
    (hhi : stop ≤ hi) (hlt : start < stop) (hstart : source.IsBoundary start)
    (hstop : source.IsBoundary stop) : Spread source lo [.node k ⟨source, start, stop⟩ ts] hi :=
  .cons hlo hlt hstart hstop h (.nil hhi)

theorem join_known {a b c d : Nat} (hsource : source.origin ≠ .unknown) (hstart : a ≤ c)
    (hstop : b ≤ d) :
    (⟨source, a, b⟩ : Location).join ⟨source, c, d⟩ = ⟨source, a, d⟩ := by
  have hknown : ∀ n m, (⟨source, n, m⟩ : Location).isUnknown = false := by
    intro n m
    exact beq_eq_false_iff_ne.2 hsource
  simp [Location.join, hknown, hstart, hstop]

/-- A node over its children stands where they stand. -/
theorem Spread.spanning (hsource : source.origin ≠ .unknown) (h : Spread source lo ts hi)
    (hne : ts ≠ []) : Spread source lo [spanning k ts] hi := by
  obtain ⟨first, rest, rfl⟩ := List.exists_cons_of_ne_nil hne
  have hlast := List.getLast?_eq_some_getLast hne
  obtain ⟨start, mid, mid', stop, hlocation, hlocation', hlo, hhi, hlt, hle, hle', hstart, hstop,
    hspread⟩ := h.ends rfl hlast
  have hjoin : first.location.join ((first :: rest).getLast hne).location =
      ⟨source, start, stop⟩ := by
    rw [hlocation, hlocation', join_known hsource hle hle']
  rw [Tree.spanning, List.head?_cons, hlast]
  dsimp only
  rw [hjoin]
  exact hspread.single hlo hhi hlt hstart hstop

/-- A node that grows by what stands behind it stands where both stand. -/
theorem Spread.extend {t more : Tree} (hsource : source.origin ≠ .unknown)
    (h : Spread source lo [t] mid) (h' : Spread source mid [more] hi) :
    Spread source lo [t.extend more] hi := by
  cases h with
  | @cons k start stop _ _ ts _ hlo hlt hstart hstop hts hnil =>
    cases h' with
    | @cons k' start' stop' _ _ us _ hlo' hlt' hstart' hstop' hus hnil' =>
      have hle := hnil.le
      rw [Tree.extend, location_node, location_node,
        join_known hsource (by omega) (by omega)]
      refine Spread.single ?_ hlo hnil'.le (by omega) hstart hstop'
      exact hts.append (.cons (by omega) hlt' hstart' hstop' hus (.nil (Nat.le_refl _)))

/-! ## Nodes in their places -/

/-- The node stands in its place: it lies in the source and cuts no character, it covers its
children, and each of them starts behind the start of the one before, where that one has ended. -/
structure IsPlaced (source : Source) (t : Tree) : Prop where
  inSource : t.location.source = source
  start : source.IsBoundary t.location.start
  stop : source.IsBoundary t.location.stop
  le : t.location.start ≤ t.location.stop
  covers : ∀ c ∈ t.children,
    t.location.start ≤ c.location.start ∧ c.location.stop ≤ t.location.stop
  ordered : t.children.Pairwise fun a b =>
    a.location.start < b.location.start ∧ a.location.stop ≤ b.location.start

theorem Spread.bounds (h : Spread source lo ts hi) : ∀ t ∈ ts,
    lo ≤ t.location.start ∧ t.location.start < t.location.stop ∧ t.location.stop ≤ hi := by
  induction h with
  | nil => exact nofun
  | cons hlo hlt _ _ _ hus _ ih =>
    refine List.forall_mem_cons.2 ⟨⟨hlo, hlt, hus.le⟩, ?_⟩
    intro u hu
    have hbounds := ih u hu
    omega

theorem Spread.ordered (h : Spread source lo ts hi) : ts.Pairwise fun a b =>
    a.location.start < b.location.start ∧ a.location.stop ≤ b.location.start := by
  induction h with
  | nil => exact .nil
  | cons hlo hlt _ _ _ hus _ ih =>
    refine .cons ?_ ih
    intro u hu
    have hbounds := hus.bounds u hu
    rw [location_node]
    dsimp only
    omega

/-- A node whose children are spread between its ends stands in its place. -/
theorem Spread.isPlaced {start stop : Nat} (h : Spread source start ts stop)
    (hstart : source.IsBoundary start) (hstop : source.IsBoundary stop) :
    IsPlaced source (.node k ⟨source, start, stop⟩ ts) where
  inSource := rfl
  start := hstart
  stop := hstop
  le := h.le
  covers c hc := ⟨(h.bounds c hc).1, (h.bounds c hc).2.2⟩
  ordered := h.ordered

theorem Spread.everywhere_isPlaced (h : Spread source lo ts hi) :
    ∀ t ∈ ts, t.Everywhere (IsPlaced source) := by
  induction h with
  | nil => exact nofun
  | cons _ _ hstart hstop hts _ ihts ihus =>
    exact List.forall_mem_cons.2 ⟨.intro (hts.isPlaced hstart hstop) ihts, ihus⟩

/-! ## Leaves -/

mutual

/-- The nodes without children in a tree, in the order in which they stand. -/
def leaves : Tree → List Tree
  | node k l [] => [node k l []]
  | node _ _ (t :: ts) => leaves t ++ leavesIn ts

/-- The nodes without children in a row of trees. -/
def leavesIn : List Tree → List Tree
  | [] => []
  | t :: ts => leaves t ++ leavesIn ts

end

theorem leavesIn_append (ts us : List Tree) : leavesIn (ts ++ us) = leavesIn ts ++ leavesIn us := by
  induction ts with
  | nil => rw [leavesIn, List.nil_append, List.nil_append]
  | cons t ts ih => rw [List.cons_append, leavesIn, leavesIn, ih, List.append_assoc]

/-- The leaves of a node with children are theirs. -/
theorem leavesIn_singleton {l : Location} (h : ts ≠ []) : leavesIn [node k l ts] = leavesIn ts := by
  obtain ⟨first, rest, rfl⟩ := List.exists_cons_of_ne_nil h
  rw [leavesIn, leavesIn, leaves, leavesIn, List.append_nil]

theorem node_eta (t : Tree) : node t.kind t.location t.children = t := by
  cases t
  rfl

end Tree

/-! ## Trees over tokens -/

/-- The kinds of nodes that cover a token of the terminal. Brackets, commas and the like have no
node. -/
def Terminal.leafKinds : Terminal → List NodeKind
  | identifier => [.simpleIdentifier]
  | number => [.number]
  | keyword .input | keyword .output | keyword .inout => [.portDirection]
  | keyword .wire | keyword .logic | keyword .reg => [.netType]
  | keyword _ => []
  | punctuation p =>
    (if p.unary?.isSome then [.unaryOperator] else []) ++
      (if p.binary?.isSome then [.binaryOperator] else []) ++
        if p = .plusColon ∨ p = .minusColon then [.indexedRangeOperator] else []

/-- The token has a node. -/
def Token.isShown (t : Token) : Bool :=
  t.terminal.leafKinds ≠ []

namespace Grammar

/-- The trees are built over the tokens. Where items may be recovered, tokens may be dropped. -/
inductive Built (source : Source) (recovers : Bool) : List Token → List Tree → Prop
  | nil : Built source recovers [] []
  | silent (t : Token) : t.isShown = false → Built source recovers [t] []
  | leaf (k : NodeKind) (t : Token) : k ∈ t.terminal.leafKinds →
      Built source recovers [t] [tokenNode source k t]
  | append {ts us : List Token} {as bs : List Tree} : Built source recovers ts as →
      Built source recovers us bs → Built source recovers (ts ++ us) (as ++ bs)
  /-- A node from the first token to the last. -/
  | fromTo (k : NodeKind) {a z : Token} {ts : List Token} {as : List Tree} :
      Built source recovers (a :: (ts ++ [z])) as → as ≠ [] →
      Built source recovers (a :: (ts ++ [z])) [nodeOver source k a.start z.stop as]
  /-- A node from the first token to the end of the last child. -/
  | reaching (k : NodeKind) {a : Token} {ts : List Token} {as : List Tree} {last : Tree} :
      Built source recovers (a :: ts) as → as.getLast? = some last →
      Built source recovers (a :: ts) [nodeOver source k a.start last.location.stop as]
  /-- A node over its children. -/
  | spanning (k : NodeKind) {ts : List Token} {as : List Tree} : Built source recovers ts as →
      as ≠ [] → Built source recovers ts [.spanning k as]
  /-- A node that grows by a child. -/
  | extend {ts us : List Token} {node more : Tree} : Built source recovers ts [node] →
      node.children ≠ [] → Built source recovers us [more] →
      Built source recovers (ts ++ us) [node.extend more]
  /-- A node without children over tokens that were dropped. -/
  | dropped (before : List Token) (refused : Token) (ts after : List Token) : recovers = true →
      Built source recovers (before ++ refused :: (ts ++ after))
        [nodeOver source .error refused.start (ts.getLast?.getD refused).stop []]

namespace Built

variable {recovers : Bool} {ts us : List Token} {as bs : List Tree}

/-- What is built over tokens in order is spread over the text. -/
theorem spread (hsource : source.origin ≠ .unknown) (h : Built source recovers ts as)
    (hts : Token.InOrder source lo ts hi) : Tree.Spread source lo as hi := by
  induction h generalizing lo hi with
  | nil => exact .nil hts.le
  | silent t ht => exact .nil hts.le
  | leaf k t hk =>
    obtain ⟨hlo, hlt, hstart, hstop, -, hnil⟩ := hts.from_start
    exact (Tree.Spread.nil (Nat.le_of_lt hlt)).single hlo hnil.le hlt hstart hstop
  | append _ _ ih ih' =>
    obtain ⟨mid, hts, hus⟩ := hts.exists_middle
    exact (ih hts).append (ih' hus)
  | fromTo k _ _ ih =>
    obtain ⟨hlo, -, hstart, -, hts, -⟩ := hts.from_start
    rw [← List.cons_append] at hts
    obtain ⟨hhi, hlt, hstop, hts⟩ := hts.to_stop
    exact (ih hts).single hlo hhi hlt hstart hstop
  | @reaching k a ts as last _ hlast ih =>
    obtain ⟨hlo, -, hstart, -, hts, -⟩ := hts.from_start
    obtain ⟨first, rest, rfl⟩ : ∃ first rest, as = first :: rest := by
      apply List.exists_cons_of_ne_nil
      rintro rfl
      cases hlast
    obtain ⟨start, mid, mid', stop, -, hlocation, hlo', hhi, hlt, -, -, -, hstop, hspread⟩ :=
      (ih hts).ends rfl hlast
    rw [hlocation]
    exact (hspread.widen hlo' (Nat.le_refl _)).single hlo hhi (by omega) hstart hstop
  | spanning k _ hne ih => exact (ih hts).spanning hsource hne
  | extend _ _ _ ih ih' =>
    obtain ⟨mid, hts, hus⟩ := hts.exists_middle
    exact (ih hts).extend hsource (ih' hus)
  | dropped before refused ts after =>
    obtain ⟨mid, hbefore, hts⟩ := hts.exists_middle
    rw [← List.cons_append] at hts
    obtain ⟨mid', hts, hafter⟩ := hts.exists_middle
    obtain ⟨hlo, hlt, hstart, hstop, hts, hdropped⟩ := hts.from_start
    apply Tree.Spread.widen _ (Nat.le_trans hbefore.le hlo) hafter.le
    -- the node ends with the refused token itself if no others were dropped
    rcases List.eq_nil_or_concat ts with rfl | ⟨init, z, rfl⟩
    · exact (Tree.Spread.nil (Nat.le_of_lt hlt)).single (Nat.le_refl _) hdropped.le hlt hstart hstop
    · rw [List.concat_eq_append] at hdropped ⊢
      obtain ⟨hhi, hlt', hstop', -⟩ := hdropped.to_stop
      have hlt'' := Nat.lt_trans hlt hlt'
      rw [List.getLast?_concat]
      exact (Tree.Spread.nil (Nat.le_of_lt hlt'')).single (Nat.le_refl _) hhi hlt'' hstart hstop'

/-- The node is that of the token: it covers the lexeme that was read as the token. -/
structure Shows (source : Source) (leaf : Tree) (t : Token) : Prop where
  kind : leaf.kind ∈ t.terminal.leafKinds
  location : leaf.location = ⟨source, t.start, t.stop⟩
  text : ∃ before lexeme after, source.contents = before ++ lexeme ++ after ∧
    t.start = Text.byteLength before ∧ t.stop = t.start + Text.byteLength lexeme ∧
    t.terminal.Leads lexeme after ∧ leaf.text = String.ofList lexeme

theorem shows_tokenNode {k : NodeKind} {t : Token} (hk : k ∈ t.terminal.leafKinds)
    (ht : t.ReadFrom source.contents) : Shows source (tokenNode source k t) t := by
  obtain ⟨before, lexeme, after, hcontents, hstart, hstop, hleads, htext⟩ := ht.exists_lexeme
  exact ⟨hk, rfl, before, lexeme, after, hcontents, hstart, hstop, hleads, htext⟩

/-- Where nothing was dropped, the nodes without children are those of the tokens that have one. -/
theorem leaves (h : Built source false ts as) (hts : ∀ t ∈ ts, t.ReadFrom source.contents) :
    List.Forall₂ (Shows source) (Tree.leavesIn as) (ts.filter Token.isShown) := by
  induction h with
  | nil => exact .nil
  | silent t ht =>
    rw [List.filter_cons_of_neg (by rw [ht]; decide)]
    exact .nil
  | leaf k t hk =>
    have hshown : t.isShown = true := by
      simp only [Token.isShown, ne_eq, decide_eq_true_eq]
      exact List.ne_nil_of_mem hk
    rw [List.filter_cons_of_pos hshown]
    exact .cons (shows_tokenNode hk (hts t List.mem_cons_self)) .nil
  | append _ _ ih ih' =>
    rw [List.forall_mem_append] at hts
    rw [Tree.leavesIn_append, List.filter_append]
    exact List.rel_append (ih hts.1) (ih' hts.2)
  | fromTo k _ hne ih =>
    rw [nodeOver, Tree.leavesIn_singleton hne]
    exact ih hts
  | @reaching k a ts as last _ hlast ih =>
    have hne : as ≠ [] := by
      rintro rfl
      cases hlast
    rw [nodeOver, Tree.leavesIn_singleton hne]
    exact ih hts
  | @spanning k ts as _ hne ih =>
    obtain ⟨l, hl⟩ := Tree.spanning_eq_node k as
    rw [hl, Tree.leavesIn_singleton hne]
    exact ih hts
  | @extend ts us node more _ hne _ ih ih' =>
    rw [List.forall_mem_append] at hts
    rw [Tree.extend, Tree.leavesIn_singleton (List.append_ne_nil_of_left_ne_nil hne _),
      Tree.leavesIn_append, List.filter_append]
    have hnode := ih hts.1
    -- the node was no leaf before it grew, so the new child adds its leaves only
    rw [← Tree.node_eta node, Tree.leavesIn_singleton hne] at hnode
    exact List.rel_append hnode (ih' hts.2)
  | dropped before refused ts after htrue => cases htrue

/-- What holds of the place of every token holds of the place of every node without children that
is no error node. -/
theorem everywhere_leaf {P : Location → Prop} (h : Built source recovers ts as)
    (hts : ∀ t ∈ ts, P ⟨source, t.start, t.stop⟩) : ∀ a ∈ as, a.Everywhere fun node =>
      node.children = [] ∧ node.kind ≠ .error → P node.location := by
  have hinner : ∀ {k : NodeKind} {l : Location} {as : List Tree}, as ≠ [] →
      (∀ a ∈ as, a.Everywhere fun node => node.children = [] ∧ node.kind ≠ .error →
        P node.location) →
      ∀ a ∈ [Tree.node k l as], a.Everywhere fun node =>
        node.children = [] ∧ node.kind ≠ .error → P node.location := by
    intro k l as hne has
    exact List.forall_mem_singleton.2 (.intro (fun hleaf => absurd hleaf.1 hne) has)
  induction h with
  | nil | silent => exact nofun
  | leaf k t hk =>
    exact List.forall_mem_singleton.2 (.intro (fun _ => hts t List.mem_cons_self) nofun)
  | append _ _ ih ih' =>
    rw [List.forall_mem_append] at hts
    exact List.forall_mem_append.2 ⟨ih hts.1, ih' hts.2⟩
  | fromTo k _ hne ih => exact hinner hne (ih hts)
  | @reaching k a ts as last _ hlast ih =>
    refine hinner ?_ (ih hts)
    rintro rfl
    cases hlast
  | @spanning k ts as _ hne ih =>
    obtain ⟨l, hl⟩ := Tree.spanning_eq_node k as
    rw [hl]
    exact hinner hne (ih hts)
  | @extend ts us node more _ hne _ ih ih' =>
    rw [List.forall_mem_append] at hts
    refine hinner (List.append_ne_nil_of_left_ne_nil hne _) ?_
    obtain ⟨-, hchildren⟩ := ih hts.1 node List.mem_cons_self
    exact List.forall_mem_append.2 ⟨hchildren, ih' hts.2⟩
  | dropped before refused ts after =>
    exact List.forall_mem_singleton.2 (.intro (fun hleaf => absurd rfl hleaf.2) nofun)

end Built

end Grammar

end Netlist
