/-
The two places of a declaration of ports.

In the body of a module a declaration of ports is an item. In the header its first name goes with
the declaration, and the other names are bare ports behind it, which are joined to it again
(`Phrase.ofItems_asPorts`). Step by step the ports of a header and the items of a body that declare
the same are derived side by side (`Abreast`). A header may also hold bare names only, and these are
a list of ports (`exists_row`).
-/
import Netlist.Proofs.Mirrors
import Netlist.Proofs.Printing
import Netlist.Proofs.RelocatedPhrases

set_option autoImplicit false

namespace Netlist

open Grammar

variable {source : Source}

/-! ## Names of ports -/

/-- The names in declarations of ports, as they are written. -/
def Tree.portNames (declarations : List Tree) : List String :=
  declarations.flatMap fun t => (t.childrenOf .simpleIdentifier).map Tree.text

theorem Tree.portNames_append (ts us : List Tree) :
    portNames (ts ++ us) = portNames ts ++ portNames us :=
  List.flatMap_append

/-- Declarations that keep their texts have the same names elsewhere. -/
theorem Tree.portNames_relocate {g : Relocation} {ts : List Tree}
    (h : ∀ t ∈ ts, g.Keeps True t) : portNames (ts.map (relocate g)) = portNames ts := by
  rw [portNames, List.flatMap_map, portNames]
  refine List.flatMap_congr fun t ht => ?_
  rw [childrenOf_relocate, List.map_map]
  refine List.map_congr_left fun c hc => ?_
  exact ((h t ht).of_mem_children (mem_childrenOf.1 hc).1).text trivial

/-! ## The names that a declaration declares -/

namespace Grammar

namespace Phrase

theorem optional_trees {x : Symbol} {P : Tree → Prop}
    (hx : ∀ d : Phrase x, ∀ t ∈ d.trees source, P t) :
    (d : Phrase (.optional x)) → ∀ t ∈ d.trees source, P t
  | .absent => nofun
  | .present d => hx d

/-- Only the name of a declaration up to its first name is a name. -/
theorem childrenOf_portHead (source : Source) : (d : Phrase .portHead) →
    ∃ name : Lexeme .identifier, name.1 ∈ d.yield ∧ ∀ t ∈ d.trees source,
      t.childrenOf .simpleIdentifier = [tokenNode source .simpleIdentifier name.1]
  | .portHead d ty r name => by
    have htype : ∀ t ∈ ty.trees source, ¬ (t.kind == .simpleIdentifier) = true :=
      ty.optional_trees fun | .netType _ => List.forall_mem_singleton.2 Bool.false_ne_true
    have hrange : ∀ t ∈ r.trees source, ¬ (t.kind == .simpleIdentifier) = true :=
      r.optional_trees fun | .range _ _ _ _ _ => List.forall_mem_singleton.2 Bool.false_ne_true
    refine ⟨name, by simp, ?_⟩
    intro t ht
    obtain ⟨l, hl⟩ := Tree.spanning_eq_node .portDeclaration (tokenNode source .portDirection d.1 ::
      (ty.trees source ++ (r.trees source ++ [tokenNode source .simpleIdentifier name.1])))
    rw [trees, hl, List.mem_singleton] at ht
    rw [ht, Tree.childrenOf, Tree.children_node, List.filter_cons_of_neg Bool.false_ne_true,
      List.filter_append, List.filter_append, List.filter_eq_nil_iff.2 htype,
      List.filter_eq_nil_iff.2 hrange]
    rfl

/-- The names that a declaration declares are tokens of it, and there is at least one. -/
theorem exists_portNames (source : Source) : (d : Phrase .portDeclaration) →
    ∃ names : List (Lexeme .identifier), names ≠ [] ∧ (∀ name ∈ names, name.1 ∈ d.yield) ∧
      Tree.portNames (d.trees source) =
        names.map fun name => (tokenNode source .simpleIdentifier name.1).text
  | .port h => by
    obtain ⟨name, hmem, hname⟩ := h.childrenOf_portHead source
    obtain ⟨node, hnode, -, -⟩ := portDeclaration_trees source (.port h)
    have hh : h.trees source = [node] := hnode
    rw [hh, List.forall_mem_singleton] at hname
    refine ⟨[name], List.cons_ne_nil _ _, List.forall_mem_singleton.2 hmem, ?_⟩
    rw [hnode, Tree.portNames, List.flatMap_singleton, hname]
    rfl
  | .nextPort p s name => by
    obtain ⟨names, hne, hmem, hnames⟩ := exists_portNames source p
    obtain ⟨node, hnode, -, -⟩ := portDeclaration_trees source p
    refine ⟨names ++ [name], List.append_ne_nil_of_left_ne_nil hne _, ?_, ?_⟩
    · intro n hn
      rcases List.mem_append.1 hn with hn | hn
      · exact List.mem_append_left _ (hmem n hn)
      · rw [List.mem_singleton.1 hn]
        simp
    · rw [hnode, Tree.portNames, List.flatMap_singleton, Tree.childrenOf] at hnames
      rw [trees, hnode, List.map_singleton, Tree.portNames, List.flatMap_singleton, Tree.childrenOf,
        Tree.extend, Tree.children_node, List.filter_append, List.map_append, hnames,
        List.map_append]
      rfl

end Phrase

end Grammar

/-! ## Declarations as ports of a header -/

namespace Grammar.Phrase

/-- A declaration as ports of a header: the first name goes with what stands in front of it, and
the others are bare. -/
def asPorts (head : Phrase .portItem → Phrase (.row .portItem)) :
    Phrase .portDeclaration → Phrase (.row .portItem)
  | .port h => head (.declaredPort h)
  | .nextPort p s name => .more (p.asPorts head) s (.listedPort name)

variable {head : Phrase .portItem → Phrase (.row .portItem)} {front : List Token}
  {items declarations : List Tree}

theorem yield_asPorts (hhead : ∀ p, (head p).yield = front ++ p.yield) :
    (d : Phrase .portDeclaration) → (d.asPorts head).yield = front ++ d.yield
  | .port h => by rw [asPorts, hhead, yield, yield]
  | .nextPort p s name => by
    rw [asPorts, yield, yield_asPorts hhead p, yield, yield, List.append_assoc]

/-- The bare names are joined to the declaration again. -/
theorem ofItems_asPorts (hhead : ∀ p, (head p).trees source = items ++ p.trees source)
    (hitems : Ports.ofItems items = ⟨[], declarations⟩) : (d : Phrase .portDeclaration) →
      Ports.ofItems ((d.asPorts head).trees source) = ⟨[], declarations ++ d.trees source⟩
  | .port h => by
    obtain ⟨node, hnode, hkind, -⟩ := portDeclaration_trees source (.port h)
    have hdeclared : (declaredPort h).trees source = [node] := hnode
    rw [asPorts, hhead, hdeclared, hnode, Ports.ofItems, List.foldl_append]
    rw [Ports.ofItems] at hitems
    rw [hitems, List.foldl_cons, List.foldl_nil, Ports.add, if_pos hkind, Ports.addDeclaration]
  | .nextPort p s name => by
    have hp := ofItems_asPorts hhead hitems p
    obtain ⟨node, hnode, -, -⟩ := portDeclaration_trees source p
    rw [Ports.ofItems, hnode] at hp
    have hbare : ¬ (tokenNode source .simpleIdentifier name.1).kind = .portDeclaration :=
      NodeKind.noConfusion
    rw [asPorts, trees, trees, Ports.ofItems, List.foldl_append, hp, trees, List.foldl_cons,
      List.foldl_nil, Ports.add, if_neg hbare, Ports.addName, hnode]
    simp

/-- Phrases one behind the other. -/
def append {x : Symbol} (ps : Phrase (.many x)) : Phrase (.many x) → Phrase (.many x)
  | .none => ps
  | .snoc qs q => .snoc (ps.append qs) q

theorem yield_append {x : Symbol} (ps : Phrase (.many x)) :
    (qs : Phrase (.many x)) → (ps.append qs).yield = ps.yield ++ qs.yield
  | .none => by rw [append, yield, List.append_nil]
  | .snoc qs q => by rw [append, yield, yield_append ps qs, yield, List.append_assoc]

theorem trees_append {x : Symbol} (source : Source) (ps : Phrase (.many x)) :
    (qs : Phrase (.many x)) → (ps.append qs).trees source = ps.trees source ++ qs.trees source
  | .none => by rw [append, trees, List.append_nil]
  | .snoc qs q => by rw [append, trees, trees_append source ps qs, trees, List.append_assoc]

/-- A row of ports with one more port behind it. -/
theorem yield_more (ps : Phrase (.row .portItem)) (s : Sign .comma) (p : Phrase .portItem) :
    (more ps s p).yield = (ps.yield ++ [s.1]) ++ p.yield := by
  rw [yield, List.append_cons]

end Grammar.Phrase

/-! ## Both styles side by side -/

/-- The tokens of the one text are the ports of a header, those of the other are items of which only
the last semicolon misses, and both stand for the declarations. -/
structure Abreast (g : Relocation) (source : Source) (ts us : List Token)
    (declarations : List Tree) : Prop where
  ports : ∃ row : Phrase (.row .portItem), row.yield = ts ∧
    Ports.ofItems (row.trees source) = ⟨[], declarations⟩
  items : ∃ (front : Phrase (.many (.item false))) (last : Phrase .portDeclaration),
    front.yield ++ last.yield = us ∧
      front.trees g.source ++ last.trees g.source = declarations.map (Tree.relocate g)
  keeps : ∀ t ∈ declarations, g.Keeps True t

namespace Abreast

variable {g : Relocation} {ts us : List Token} {declarations : List Tree}

theorem one (hsource : source.origin ≠ .unknown) (p : Phrase .portDeclaration)
    (hp : ∀ t ∈ p.trees source, g.Keeps True t) :
    Abreast g source p.yield (p.relocate g).yield (p.trees source) where
  ports := by
    have hyield : ∀ p : Phrase .portItem, (Phrase.one p).yield = [] ++ p.yield := fun _ => rfl
    have htrees : ∀ p : Phrase .portItem, (Phrase.one p).trees source = [] ++ p.trees source :=
      fun _ => rfl
    exact ⟨p.asPorts .one, p.yield_asPorts hyield, p.ofItems_asPorts htrees rfl⟩
  items := ⟨.none, p.relocate g, rfl, p.trees_relocate g hsource⟩
  keeps := hp

theorem more (hsource : source.origin ≠ .unknown) (h : Abreast g source ts us declarations)
    (comma : Sign .comma) (semicolon : Sign .semicolon) (p : Phrase .portDeclaration)
    (hp : ∀ t ∈ p.trees source, g.Keeps True t) :
    Abreast g source (ts ++ comma.1 :: p.yield) (us ++ semicolon.1 :: (p.relocate g).yield)
      (declarations ++ p.trees source) where
  ports := by
    obtain ⟨row, rfl, hrow⟩ := h.ports
    refine ⟨p.asPorts (.more row comma), ?_, p.ofItems_asPorts (fun _ => rfl) hrow⟩
    rw [p.yield_asPorts (row.yield_more comma), List.append_assoc, List.singleton_append]
  items := by
    obtain ⟨front, last, rfl, htrees⟩ := h.items
    refine ⟨front.snoc (.portsItem last semicolon), p.relocate g, ?_, ?_⟩
    · simp [Phrase.yield]
    · rw [Phrase.trees, Phrase.trees, htrees, p.trees_relocate g hsource, List.map_append]
  keeps := List.forall_mem_append.2 ⟨h.keeps, hp⟩

end Abreast

/-! ## Names one behind the other -/

namespace Grammar

/-- The ports of a header are bare names. -/
structure Phrase.Lists (row : Phrase (.row .portItem)) (source : Source) (names : List String) :
    Prop where
  isName : ∀ t ∈ row.trees source, t.kind = .simpleIdentifier
  texts : (row.trees source).map Tree.text = names

theorem Ports.ofItems_names {names : List Tree} (h : ∀ t ∈ names, t.kind = .simpleIdentifier) :
    ofItems names = ⟨names, []⟩ := by
  induction names using List.reverseRecOn with
  | nil => rfl
  | append_singleton names name ih =>
    obtain ⟨hnames, hname⟩ := List.forall_mem_append.1 h
    have hkind : ¬ name.kind = .portDeclaration := by
      rw [hname name List.mem_cons_self]
      exact nofun
    have hfold := ih hnames
    rw [ofItems] at hfold
    rw [ofItems, List.foldl_append, hfold, List.foldl_cons, List.foldl_nil, add, if_neg hkind]
    rfl

theorem Ports.nodes_names {names : List Tree} (h : names ≠ []) :
    (⟨names, []⟩ : Ports).nodes = [.spanning .listOfPorts names] := by
  cases names with
  | nil => exact absurd rfl h
  | cons name names => rfl

theorem exists_name {name : String} (hname : Terminal.Claims .identifier name.toList)
    {rest : List Char} (hrest : Token.Ends rest) (h : name.toList ++ rest <:+ source.contents) :
    ∃ t : Lexeme .identifier, Token.Stretch source (name.toList ++ rest) [t.1] rest ∧
      (tokenNode source .simpleIdentifier t.1).text = name := by
  obtain ⟨t, ht, htext⟩ := exists_lexeme h (hname.leads rfl hrest)
  exact ⟨t, ht, (htext _).trans String.ofList_toList⟩

/-- Names with commas between are read as a list of ports. The induction is on the names; `row` is
what has been read. -/
theorem exists_lists {names listed : List String} {row : Phrase (.row .portItem)} {rest : List Char}
    (hnames : ∀ name ∈ names, Terminal.Claims .identifier name.toList) (hrest : Token.Ends rest)
    (h : (names.flatMap fun name => ',' :: name.toList) ++ rest <:+ source.contents)
    (hrow : row.Lists source listed) :
    ∃ (row' : Phrase (.row .portItem)) (ts : List Token), row'.yield = row.yield ++ ts ∧
      Token.Stretch source ((names.flatMap fun name => ',' :: name.toList) ++ rest) ts rest ∧
      row'.Lists source (listed ++ names) := by
  induction names generalizing row listed with
  | nil => exact ⟨row, [], (List.append_nil _).symm, .nil h, by simpa using hrow⟩
  | cons name names ih =>
    obtain ⟨hname, hnames⟩ := List.forall_mem_cons.1 hnames
    generalize htail : (names.flatMap fun name => ',' :: name.toList) ++ rest = tail at ih
    have hends : Token.Ends tail := by
      rw [← htail]
      cases names with
      | nil => exact hrest
      | cons _ _ => exact Token.ends_cons rfl
    have hwhole : ((name :: names).flatMap fun name => ',' :: name.toList) ++ rest =
        Punctuation.comma.text.toList ++ (name.toList ++ tail) := by
      rw [← htail, List.flatMap_cons, List.append_assoc]
      rfl
    rw [hwhole] at h ⊢
    obtain ⟨comma, hcomma⟩ := exists_sign rfl h
    obtain ⟨t, ht, htext⟩ := exists_name hname hends hcomma.suffix
    have hmore : (Phrase.more row comma (.listedPort t)).Lists source (listed ++ [name]) := by
      refine ⟨List.forall_mem_append.2 ⟨hrow.isName, List.forall_mem_singleton.2 rfl⟩, ?_⟩
      rw [Phrase.trees, List.map_append, hrow.texts, Phrase.trees, List.map_singleton, htext]
    obtain ⟨row', ts, hyield, hts, hrow'⟩ := ih hnames ht.suffix hmore
    refine ⟨row', [comma.1] ++ ([t.1] ++ ts), ?_, hcomma.append (ht.append hts), ?_⟩
    · rw [hyield]
      simp
    · simpa using hrow'

theorem intercalate_comma (cs : List Char) (css : List (List Char)) :
    [','].intercalate (cs :: css) = cs ++ css.flatMap (',' :: ·) := by
  induction css generalizing cs with
  | nil => simp
  | cons ds css ih => simp [ih]

/-- A list of names is read as ports that are bare names. -/
theorem exists_row {names : List String} {rest : List Char} (hne : names ≠ [])
    (hnames : ∀ name ∈ names, Terminal.Claims .identifier name.toList) (hrest : Token.Ends rest)
    (h : (",".intercalate names).toList ++ rest <:+ source.contents) :
    ∃ row : Phrase (.row .portItem), row.Lists source names ∧
      Token.Stretch source ((",".intercalate names).toList ++ rest) row.yield rest := by
  obtain ⟨name, names, rfl⟩ := List.exists_cons_of_ne_nil hne
  obtain ⟨hname, hnames⟩ := List.forall_mem_cons.1 hnames
  have htext : (",".intercalate (name :: names)).toList ++ rest =
      name.toList ++ ((names.flatMap fun name => ',' :: name.toList) ++ rest) := by
    simp [String.toList_intercalate, intercalate_comma, List.flatMap_map]
  rw [htext] at h ⊢
  have hends : Token.Ends ((names.flatMap fun name => ',' :: name.toList) ++ rest) := by
    cases names with
    | nil => exact hrest
    | cons _ _ => exact Token.ends_cons rfl
  obtain ⟨t, ht, hword⟩ := exists_name hname hends h
  have hone : (Phrase.one (.listedPort t)).Lists source [name] :=
    ⟨List.forall_mem_singleton.2 rfl, congrArg (fun s => [s]) hword⟩
  obtain ⟨row, ts, hyield, hts, hrow⟩ := exists_lists hnames hrest ht.suffix hone
  refine ⟨row, hrow, ?_⟩
  rw [hyield]
  exact ht.append hts

end Grammar

end Netlist
