/-
Carrying trees over to another text.

A text may be changed where it holds no token: blanks may be put in, or other text in front and
behind. Its tokens then stand elsewhere, and so do the nodes that are built over them, but nothing
else changes. A relocation says to which text the places belong now and where each of them has gone
(`Relocation`); since it keeps their order, a node that covers its children goes where its children
go. Whatever trees are put together with commutes with it, and so does every search in a tree.
-/
import Netlist.Grammar.Expression

set_option autoImplicit false

namespace Netlist

/-- Where the places of a text have gone: into a known source, and in the order in which they
stood. -/
structure Relocation where
  source : Source
  place : Nat → Nat
  known : source.origin ≠ .unknown
  mono : ∀ {a b : Nat}, a ≤ b → place a ≤ place b

namespace Relocation

/-- The relocation carries the whole of one text over to the whole of the other. -/
structure CoversText (g : Relocation) (source : Source) : Prop where
  known : source.origin ≠ .unknown
  start : g.place 0 = 0
  stop : g.place source.byteLength = g.source.byteLength

variable (g : Relocation)

/-- The lesser of two places goes to the lesser one. -/
theorem place_lesser (a b : Nat) :
    g.place (if a ≤ b then a else b) = if g.place a ≤ g.place b then g.place a else g.place b := by
  by_cases hab : a ≤ b
  · rw [if_pos hab, if_pos (g.mono hab)]
  · have hba := g.mono (Nat.le_of_not_le hab)
    rw [if_neg hab]
    split
    · next hle => exact Nat.le_antisymm hba hle
    · rfl

/-- The greater of two places goes to the greater one. -/
theorem place_greater (a b : Nat) :
    g.place (if a ≤ b then b else a) = if g.place a ≤ g.place b then g.place b else g.place a := by
  by_cases hab : a ≤ b
  · rw [if_pos hab, if_pos (g.mono hab)]
  · have hba := g.mono (Nat.le_of_not_le hab)
    rw [if_neg hab]
    split
    · next hle => exact Nat.le_antisymm hle hba
    · rfl

/-! ## Locations -/

/-- Where a location has gone. What stands in no source still stands in none. -/
def location (l : Location) : Location where
  source := if l.isUnknown then l.source else g.source
  start := g.place l.start
  stop := g.place l.stop

@[simp] theorem start_location (l : Location) : (g.location l).start = g.place l.start := rfl

@[simp] theorem stop_location (l : Location) : (g.location l).stop = g.place l.stop := rfl

theorem location_of_known {l : Location} (h : l.isUnknown = false) :
    g.location l = ⟨g.source, g.place l.start, g.place l.stop⟩ := by
  rw [location, h, if_neg Bool.false_ne_true]

theorem location_mk {source : Source} (h : source.origin ≠ .unknown) (start stop : Nat) :
    g.location ⟨source, start, stop⟩ = ⟨g.source, g.place start, g.place stop⟩ :=
  g.location_of_known (beq_eq_false_iff_ne.2 h)

@[simp] theorem isUnknown_location (l : Location) : (g.location l).isUnknown = l.isUnknown := by
  cases h : l.isUnknown with
  | true => rw [location, h, if_pos rfl]; exact h
  | false => rw [g.location_of_known h]; exact beq_eq_false_iff_ne.2 g.known

@[simp] theorem known?_location (l : Location) :
    (g.location l).known? = l.known?.map g.location := by
  rw [Location.known?, Location.known?, isUnknown_location]
  split <;> rfl

theorem location_join (a b : Location) :
    g.location (a.join b) = (g.location a).join (g.location b) := by
  unfold Location.join
  rw [isUnknown_location, isUnknown_location]
  cases ha : a.isUnknown with
  | true => rfl
  | false =>
    cases hb : b.isUnknown with
    | true => rfl
    | false =>
      have hjoin : Location.isUnknown ⟨a.source, if a.start ≤ b.start then a.start else b.start,
          if a.stop ≤ b.stop then b.stop else a.stop⟩ = false := ha
      simp only [Bool.false_eq_true, if_false]
      rw [g.location_of_known hjoin, g.location_of_known ha, g.location_of_known hb, place_lesser,
        place_greater]

end Relocation

/-! ## Trees -/

namespace Tree

variable (g : Relocation)

mutual

/-- The tree with all its nodes carried over. -/
def relocate (g : Relocation) : Tree → Tree
  | node k l ts => node k (g.location l) (relocateAll g ts)

/-- The trees with all their nodes carried over. -/
def relocateAll (g : Relocation) : List Tree → List Tree
  | [] => []
  | t :: ts => relocate g t :: relocateAll g ts

end

theorem relocateAll_eq_map (ts : List Tree) : relocateAll g ts = ts.map (relocate g) := by
  induction ts with
  | nil => rfl
  | cons t ts ih => rw [relocateAll, ih, List.map_cons]

@[simp] theorem relocate_node (k : NodeKind) (l : Location) (ts : List Tree) :
    (node k l ts).relocate g = node k (g.location l) (ts.map (relocate g)) := by
  rw [relocate, relocateAll_eq_map]

@[simp] theorem kind_relocate (t : Tree) : (t.relocate g).kind = t.kind := by
  cases t
  rw [relocate_node]
  rfl

@[simp] theorem location_relocate (t : Tree) : (t.relocate g).location = g.location t.location := by
  cases t
  rw [relocate_node]
  rfl

@[simp] theorem children_relocate (t : Tree) :
    (t.relocate g).children = t.children.map (relocate g) := by
  cases t
  rw [relocate_node]
  rfl

@[simp] theorem location?_relocate (t : Tree) :
    (t.relocate g).location? = t.location?.map g.location := by
  rw [location?, location_relocate, g.known?_location, location?]

/-! ### Putting trees together -/

theorem relocate_spanning (k : NodeKind) {ts : List Tree} (h : ts ≠ []) :
    (spanning k ts).relocate g = spanning k (ts.map (relocate g)) := by
  obtain ⟨first, rest, rfl⟩ := List.exists_cons_of_ne_nil h
  unfold spanning
  rw [List.head?_map, List.getLast?_map, List.getLast?_eq_some_getLast h]
  simp only [List.head?_cons, Option.map_some, relocate_node, g.location_join, location_relocate]

theorem relocate_extend (t more : Tree) :
    (t.extend more).relocate g = (t.relocate g).extend (more.relocate g) := by
  simp only [extend, relocate_node, g.location_join, kind_relocate, location_relocate,
    children_relocate, List.map_append, List.map_cons, List.map_nil]

/-! ### Looking around -/

theorem kind_comp_relocate (k : NodeKind) :
    (fun c : Tree => c.kind == k) ∘ relocate g = fun c => c.kind == k :=
  funext fun t => by rw [Function.comp_apply, kind_relocate]

theorem child?_relocate (t : Tree) (k : NodeKind) :
    (t.relocate g).child? k = (t.child? k).map (relocate g) := by
  rw [child?, child?, children_relocate, List.find?_map, kind_comp_relocate]

theorem childrenOf_relocate (t : Tree) (k : NodeKind) :
    (t.relocate g).childrenOf k = (t.childrenOf k).map (relocate g) := by
  rw [childrenOf, childrenOf, children_relocate, List.filter_map, kind_comp_relocate]

mutual

theorem descendants_relocate (k : NodeKind) :
    (t : Tree) → (t.relocate g).descendants k = (t.descendants k).map (relocate g)
  | node _ _ ts => by
    rw [relocate, descendants, descendants, descendantsIn_relocateAll k ts]

theorem descendantsIn_relocateAll (k : NodeKind) :
    (ts : List Tree) → descendantsIn k (relocateAll g ts) = (descendantsIn k ts).map (relocate g)
  | [] => rfl
  | t :: ts => by
    rw [relocateAll, descendantsIn, descendantsIn, descendants_relocate k t,
      descendantsIn_relocateAll k ts, kind_relocate]
    split <;> simp

end

end Tree

/-! ## Nodes over tokens -/

namespace Token

/-- The token in the place where it has gone. -/
def relocate (g : Relocation) (t : Token) : Token :=
  ⟨t.terminal, g.place t.start, g.place t.stop⟩

@[simp] theorem terminal_relocate (g : Relocation) (t : Token) :
    (t.relocate g).terminal = t.terminal := rfl

@[simp] theorem start_relocate (g : Relocation) (t : Token) :
    (t.relocate g).start = g.place t.start := rfl

@[simp] theorem stop_relocate (g : Relocation) (t : Token) :
    (t.relocate g).stop = g.place t.stop := rfl

end Token

namespace Grammar

variable {source : Source} (g : Relocation)

theorem relocate_nodeOver (hsource : source.origin ≠ .unknown) (k : NodeKind) (start stop : Nat)
    (ts : List Tree) :
    (nodeOver source k start stop ts).relocate g =
      nodeOver g.source k (g.place start) (g.place stop) (ts.map (Tree.relocate g)) := by
  rw [nodeOver, Tree.relocate_node, g.location_mk hsource, nodeOver]

theorem relocate_tokenNode (hsource : source.origin ≠ .unknown) (k : NodeKind) (t : Token) :
    (tokenNode source k t).relocate g = tokenNode g.source k (t.relocate g) :=
  relocate_nodeOver g hsource k t.start t.stop []

end Grammar

end Netlist
