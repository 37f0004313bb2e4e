/-
Trees are faithful to the text.

The trees of every derivation are built over its tokens (`Derivation.built`, `Phrase.built`). Most
productions build one node over what stands on their right; the ports of a header are regrouped
afterwards, which leaves them in the order in which they stand. From the ways of building follow
where the nodes of a file stand, and which tokens its leaves are.
-/
import Netlist.Proofs.Recovery
import Netlist.Proofs.Unambiguous

set_option autoImplicit false

namespace Netlist.Grammar

variable {source : Source} {recovers : Bool} {ts us : List Token} {as bs : List Tree}

/-! ## Tokens -/

namespace Built

theorem silent_sign {p : Punctuation} (s : Sign p) (hp : (Terminal.punctuation p).leafKinds = []) :
    Built source recovers [s.1] [] := by
  apply Built.silent
  rw [Token.isShown, s.2, hp]
  rfl

theorem silent_key {k : Keyword} (s : Key k) (hk : (Terminal.keyword k).leafKinds = []) :
    Built source recovers [s.1] [] := by
  apply Built.silent
  rw [Token.isShown, s.2, hk]
  rfl

theorem name (t : Lexeme .identifier) :
    Built source recovers [t.1] [tokenNode source .simpleIdentifier t.1] := by
  apply Built.leaf
  rw [t.2]
  exact List.mem_cons_self

theorem number (t : Lexeme .number) :
    Built source recovers [t.1] [tokenNode source .number t.1] := by
  apply Built.leaf
  rw [t.2]
  exact List.mem_cons_self

theorem binaryOperator {n : Nat} (op : SignAmong (binaryOperators n)) :
    Built source recovers [op.1] [tokenNode source .binaryOperator op.1] := by
  apply Built.leaf
  obtain ⟨t, p, hmem, hp⟩ := op
  obtain ⟨operator, hoperator, -⟩ := Option.map_eq_some_iff.1 (mem_binaryOperators_iff.1 hmem)
  simp [Terminal.leafKinds, hp, hoperator]

theorem unaryOperator (op : SignAmong unaryOperators) :
    Built source recovers [op.1] [tokenNode source .unaryOperator op.1] := by
  apply Built.leaf
  obtain ⟨t, p, hmem, hp⟩ := op
  have hsome := mem_unaryOperators_iff.1 hmem
  simp [Terminal.leafKinds, hp, hsome]

theorem rangeOperator (op : SignAmong rangeOperators) :
    Built source recovers [op.1] [tokenNode source .indexedRangeOperator op.1] := by
  apply Built.leaf
  obtain ⟨t, p, hmem, hp⟩ := op
  simp only [rangeOperators, List.mem_cons, List.not_mem_nil, or_false] at hmem
  simp [Terminal.leafKinds, hp, hmem]

theorem direction (k : KeyAmong directions) :
    Built source recovers [k.1] [tokenNode source .portDirection k.1] := by
  apply Built.leaf
  obtain ⟨t, k, hmem, ht⟩ := k
  simp only [directions, List.mem_cons, List.not_mem_nil, or_false] at hmem
  rw [ht]
  rcases hmem with rfl | rfl | rfl <;> exact List.mem_cons_self

theorem netType (k : KeyAmong netTypes) :
    Built source recovers [k.1] [tokenNode source .netType k.1] := by
  apply Built.leaf
  obtain ⟨t, k, hmem, ht⟩ := k
  simp only [netTypes, List.mem_cons, List.not_mem_nil, or_false] at hmem
  rw [ht]
  rcases hmem with rfl | rfl | rfl <;> exact List.mem_cons_self

/-- A token in front. -/
theorem cons {t : Token} {cs : List Tree} (h : Built source recovers [t] cs)
    (h' : Built source recovers ts as) : Built source recovers (t :: ts) (cs ++ as) :=
  h.append h'

/-- A token behind. -/
theorem snoc {t : Token} (h : Built source recovers ts as) (h' : Built source recovers [t] []) :
    Built source recovers (ts ++ [t]) as := by
  have happend := h.append h'
  rwa [List.append_nil] at happend

end Built

/-! ## Expressions -/

namespace Derivation

theorem trees_nonempty {x : Nonterminal} (d : Derivation x) (source : Source) :
    d.trees source ≠ [] := by
  cases x with
  | expressions => exact d.trees_ne_nil source
  | _ => exact List.ne_nil_of_length_eq_add_one (d.length_trees source nofun)

/-- The trees of a derivation are built over its tokens. -/
theorem built {x : Nonterminal} (d : Derivation x) (source : Source) (recovers : Bool) :
    Built source recovers d.yield (d.trees source) := by
  induction d with
  | expression d ih | tighter _ d ih | braced d ih | single d ih => exact ih
  | number t => exact .number t
  | name t => exact .name t
  | conditional c q y s n ihc ihy ihn =>
    apply Built.spanning
    · exact ihc.append ((Built.silent_sign q rfl).cons
        (ihy.append ((Built.silent_sign s rfl).cons ihn)))
    · exact List.append_ne_nil_of_left_ne_nil (c.trees_nonempty source) _
  | binary l op r ihl ihr =>
    apply Built.spanning
    · exact ihl.append ((Built.binaryOperator op).cons ihr)
    · exact List.append_ne_nil_of_left_ne_nil (l.trees_nonempty source) _
  | unary op d ih =>
    apply Built.spanning
    · exact (Built.unaryOperator op).cons ih
    · exact List.cons_ne_nil _ _
  | bitSelect t o i c ih =>
    have hparts : Built source recovers (t.1 :: (o.1 :: i.yield ++ [c.1]))
        (tokenNode source .simpleIdentifier t.1 :: i.trees source) :=
      (Built.name t).cons (((Built.silent_sign o rfl).cons ih).snoc (.silent_sign c rfl))
    exact hparts.fromTo .bitSelect (List.cons_ne_nil _ _)
  | rangeSelect t o u s l c ihu ihl =>
    have hbounds := ihu.append ((Built.silent_sign s rfl).cons ihl)
    have hparts := (Built.name t).cons
      (((Built.silent_sign o rfl).cons hbounds).snoc (.silent_sign c rfl))
    have hnode := hparts.fromTo .rangeSelect (List.cons_ne_nil _ _)
    simpa [yield, trees] using hnode
  | indexedRangeSelect t o b op w c ihb ihw =>
    have hbounds := ihb.append ((Built.rangeOperator op).cons ihw)
    have hparts := (Built.name t).cons
      (((Built.silent_sign o rfl).cons hbounds).snoc (.silent_sign c rfl))
    have hnode := hparts.fromTo .indexedRangeSelect (List.cons_ne_nil _ _)
    simpa [yield, trees] using hnode
  | replication o n d c ihn ih =>
    have hparts := (Built.silent_sign o rfl).cons ((ihn.append ih).snoc (.silent_sign c rfl))
    have hnode := hparts.fromTo .multipleConcatenation
      (List.append_ne_nil_of_left_ne_nil (n.trees_nonempty source) _)
    simpa [yield, trees] using hnode
  | parenthesized o d c ih =>
    have hparts := (Built.silent_sign o rfl).cons (ih.snoc (.silent_sign c rfl))
    exact hparts.fromTo .parenthesizedExpression (d.trees_nonempty source)
  | concatenation o ds c ih =>
    have hparts := (Built.silent_sign o rfl).cons (ih.snoc (.silent_sign c rfl))
    exact hparts.fromTo .concatenation (ds.trees_nonempty source)
  | more ds s d ihs ih => exact ihs.append ((Built.silent_sign s rfl).cons ih)

end Derivation

/-! ## Ports -/

/-- The ports are built over the tokens. A declaration at the end may still grow, so the tokens are
cut in front of it. -/
inductive PortsBuilt (source : Source) (recovers : Bool) : List Token → Ports → Prop
  | bare {ts : List Token} {bare : List Tree} : Built source recovers ts bare →
      PortsBuilt source recovers ts ⟨bare, []⟩
  | declared {ts us : List Token} {bare declared : List Tree} {last : Tree} :
      Built source recovers ts (Ports.nodes ⟨bare, declared⟩) → Built source recovers us [last] →
      last.children ≠ [] →
      PortsBuilt source recovers (ts ++ us) ⟨bare, declared ++ [last]⟩

theorem Ports.nodes_snoc (bare declared : List Tree) (last : Tree) :
    Ports.nodes ⟨bare, declared ++ [last]⟩ = Ports.nodes ⟨bare, declared⟩ ++ [last] := by
  cases bare <;> rfl

namespace PortsBuilt

variable {ports : Ports}

theorem nodes (h : PortsBuilt source recovers ts ports) :
    Built source recovers ts ports.nodes := by
  cases h with
  | @bare ts bare h =>
    cases bare with
    | nil => exact h
    | cons name names => exact h.spanning .listOfPorts (List.cons_ne_nil name names)
  | declared h hlast _ =>
    rw [Ports.nodes_snoc]
    exact h.append hlast

theorem comma (h : PortsBuilt source recovers ts ports) (s : Sign .comma) :
    PortsBuilt source recovers (ts ++ [s.1]) ports := by
  cases h with
  | bare h => exact .bare (h.snoc (.silent_sign s rfl))
  | declared h hlast hchildren =>
    rw [List.append_assoc]
    exact .declared h (hlast.snoc (.silent_sign s rfl)) hchildren

theorem addName (h : PortsBuilt source recovers ts ports) (name : Lexeme .identifier) :
    PortsBuilt source recovers (ts ++ [name.1])
      (ports.addName (tokenNode source .simpleIdentifier name.1)) := by
  cases h with
  | bare h => exact .bare (h.append (.name name))
  -- behind a declaration the name is another port of it
  | @declared ts us bare declared last h hlast hchildren =>
    rw [Ports.addName, List.getLast?_concat]
    simp only [List.dropLast_concat]
    rw [List.append_assoc]
    exact .declared h (hlast.extend hchildren (.name name))
      (List.append_ne_nil_of_left_ne_nil hchildren _)

theorem addDeclaration {declaration : Tree} (h : PortsBuilt source recovers ts ports)
    (hd : Built source recovers us [declaration]) (hchildren : declaration.children ≠ []) :
    PortsBuilt source recovers (ts ++ us) (ports.addDeclaration declaration) := by
  obtain ⟨bare, declared⟩ := ports
  exact .declared h.nodes hd hchildren

end PortsBuilt

/-! ## Phrases -/

namespace Phrase

theorem assignments_trees_ne_nil (source : Source) : (ds : Phrase (.row .assignment)) →
    ds.trees source ≠ []
  | .one (.assignment _ _ _) => List.cons_ne_nil _ _
  | .more ds _ _ => List.append_ne_nil_of_left_ne_nil (assignments_trees_ne_nil source ds) _

theorem range_built (source : Source) (recovers : Bool) : (d : Phrase .range) →
    Built source recovers d.yield (d.trees source)
  | .range o u s l c => by
    have hbounds := (u.built source recovers).append
      ((Built.silent_sign s rfl).cons (l.built source recovers))
    have hparts := (Built.silent_sign o rfl).cons (hbounds.snoc (.silent_sign c rfl))
    have hnode := hparts.fromTo .packedDimension
      (List.append_ne_nil_of_left_ne_nil (u.trees_nonempty source) _)
    simpa [yield, trees] using hnode

/-- The declaration of a port up to its first name. -/
theorem portHead_built (source : Source) (recovers : Bool) : (d : Phrase .portHead) →
    Built source recovers d.yield (d.trees source)
  | .portHead d ty r name => by
    have htype : Built source recovers ty.yield (ty.trees source) := by
      match ty with
      | .absent => exact .nil
      | .present (.netType k) => exact .netType k
    have hrange : Built source recovers r.yield (r.trees source) := by
      match r with
      | .absent => exact .nil
      | .present r => exact range_built source recovers r
    apply Built.spanning
    · exact (Built.direction d).cons (htype.append (hrange.append (.name name)))
    · exact List.cons_ne_nil _ _

/-- A port of a header behind others. -/
theorem portsBuilt_add {ports : Ports} (h : PortsBuilt source recovers ts ports) :
    (d : Phrase .portItem) →
      PortsBuilt source recovers (ts ++ d.yield) ((d.trees source).foldl Ports.add ports)
  | .listedPort name => h.addName name
  | .declaredPort d => by
    have hd := portHead_built source recovers d
    obtain ⟨node, hnode, hkind, hchildren⟩ := portDeclaration_trees source (.port d)
    rw [trees] at hnode
    rw [hnode] at hd
    rw [trees, yield, hnode, List.foldl_cons, List.foldl_nil, Ports.add, if_pos hkind]
    exact h.addDeclaration hd hchildren

/-- The ports of a header are built over their tokens. -/
theorem portsBuilt (source : Source) (recovers : Bool) : (ds : Phrase (.row .portItem)) →
    PortsBuilt source recovers ds.yield (Ports.ofItems (ds.trees source))
  | .one d => portsBuilt_add (.bare .nil) d
  | .more ds s d => by
    have hadd := portsBuilt_add ((portsBuilt source recovers ds).comma s) d
    rw [yield, trees, Ports.ofItems, List.foldl_append, List.append_cons]
    exact hadd

/-- The trees of a phrase are built over its tokens. -/
theorem built {x : Symbol} (d : Phrase x) (source : Source)
    (hx : x.recovers = true → recovers = true) :
    Built source recovers d.yield (d.trees source) := by
  -- most symbols recover nothing
  have hplain : false = true → recovers = true := fun h => absurd h Bool.false_ne_true
  induction d with
  | absent | none => exact .nil
  | present d ih | one d ih | port d ih | declaredPort d ih => exact ih hx
  | more ds s d ihs ih => exact (ihs hx).append ((Built.silent_sign s rfl).cons (ih hx))
  | snoc ds d ihs ih => exact (ihs hx).append (ih hx)
  | netType t => exact .netType t
  | range o u s l c => exact range_built source recovers (.range o u s l c)
  | portHead d ty r name => exact portHead_built source recovers (.portHead d ty r name)
  | nextPort d s name ih =>
    obtain ⟨node, hnode, -, hchildren⟩ := portDeclaration_trees source d
    have hd : Built source recovers d.yield [node] := by
      rw [← hnode]
      exact ih hplain
    rw [yield, trees, hnode]
    exact hd.extend hchildren ((Built.silent_sign s rfl).cons (.name name))
  | net name => exact .name name
  | definedNet name s e =>
    apply Built.spanning
    · exact (Built.name name).cons ((Built.silent_sign s rfl).cons (e.built source recovers))
    · exact List.cons_ne_nil _ _
  | netDeclaration t r items iht ihr ih =>
    apply Built.spanning
    · exact (iht hplain).append ((ihr hplain).append (ih hplain))
    · cases t
      exact List.cons_ne_nil _ _
  | assignment target s e =>
    apply Built.spanning
    · exact (target.built source recovers).append
        ((Built.silent_sign s rfl).cons (e.built source recovers))
    · exact List.append_ne_nil_of_left_ne_nil (target.trees_nonempty source) _
  | continuousAssign k items ih =>
    have hlast := List.getLast?_eq_some_getLast (assignments_trees_ne_nil source items)
    rw [yield, trees, assignsNode, hlast]
    exact ((Built.silent_key k rfl).cons (ih hplain)).reaching .continuousAssign hlast
  | listedPort name => exact .name name
  | noPorts o c => exact (Built.silent_sign o rfl).cons (.silent_sign c rfl)
  | ports o items c ih =>
    exact (Built.silent_sign o rfl).cons
      ((portsBuilt source recovers items).nodes.snoc (.silent_sign c rfl))
  | portsItem d s ih | netsItem d s ih | assignsItem d s ih =>
    exact (ih hplain).snoc (.silent_sign s rfl)
  | spoiled before refused dropped s => exact .dropped before refused dropped [s.1] (hx rfl)
  | cutShort before s => exact .dropped before s.1 [] [] (hx rfl)
  | module k name listed s items e ihl ihi =>
    have hhead := (Built.name name).cons ((ihl hplain).append
      ((Built.silent_sign s rfl).cons (ihi hx)))
    have hparts := (Built.silent_key k rfl).cons (hhead.snoc (.silent_key e rfl))
    have hnode := hparts.fromTo .moduleDeclaration (List.cons_ne_nil _ _)
    simpa [yield, trees] using hnode

/-- Where there are no tokens there are no modules. -/
theorem trees_eq_nil : (ds : Phrase (.many (.module recovers))) → ds.yield = [] →
    ds.trees source = []
  | .none, _ => rfl
  | .snoc _ (.module _ _ _ _ _ _), h => nomatch (List.append_eq_nil_iff.1 h).2

end Phrase

/-! ## Files -/

/-- The modules of a file are spread over the text. Where there is no text there are no modules. -/
theorem spread_of_parseFile {root : Tree}
    (hsource : source.origin = .unknown → source.contents = [])
    (h : parseFile source = .ok root) : ∃ modules,
      root = nodeOver source .sourceFile 0 source.byteLength modules ∧
        Tree.Spread source 0 modules source.byteLength := by
  obtain ⟨ts, hts, ds, hyield, hroot⟩ := exists_phrase_of_parseFile h
  refine ⟨ds.trees source, hroot, ?_⟩
  have horder := Token.inOrder_of_scans hts
  by_cases horigin : source.origin = .unknown
  -- locations of an unknown source are not joined, but then there is nothing to locate
  · have hlength : source.byteLength = 0 := by
      rw [Source.byteLength, hsource horigin, Text.byteLength_nil]
    have hnone : ts = [] := by
      rw [List.eq_nil_iff_forall_not_mem]
      intro t ht
      have hbounds := horder.bounds t ht
      omega
    rw [ds.trees_eq_nil (hyield.trans hnone)]
    exact .nil (Nat.zero_le _)
  · have hbuilt : Built source true ds.yield (ds.trees source) := ds.built source fun _ => rfl
    rw [hyield] at hbuilt
    exact hbuilt.spread horigin horder

/-- The tree of a file is faithful to the text; a source that comes from nowhere has none. Every
node stands in its place, and if nothing had to be recovered, then the nodes without children are
those of the names, numbers, operators, directions and types of nets in the text. -/
theorem parseFile_faithful {root : Tree}
    (hsource : source.origin = .unknown → source.contents = [])
    (h : parseFile source = .ok root) :
    root.location = ⟨source, 0, source.byteLength⟩ ∧
    root.Everywhere (Tree.IsPlaced source) ∧
    (root.descendants .error = [] → ∃ ts, Token.Scans 0 source.contents ts [] ∧
      List.Forall₂ (Built.Shows source) (Tree.leavesIn root.children)
        (ts.filter Token.isShown)) := by
  obtain ⟨modules, rfl, hspread⟩ := spread_of_parseFile hsource h
  refine ⟨rfl, ?_, ?_⟩
  · exact .intro (hspread.isPlaced source.isBoundary_zero source.isBoundary_byteLength)
      hspread.everywhere_isPlaced
  · intro hnil
    obtain ⟨ts, hts, ds, rfl, hroot⟩ := parseFile_without_errors_iff.1 ⟨h, hnil⟩
    refine ⟨_, hts, ?_⟩
    rw [hroot]
    exact (ds.built source nofun).leaves (readFrom_of_tokens (tokens_eq_ok_iff.2 hts))

/-- A text with operators of one operand and of two. -/
def maskText : String :=
  "module m(input a, output y); assign y = ~a & 1; endmodule"

/-- Its leaves. -/
def maskLeaves : List String :=
  ["m", "input", "a", "output", "y", "y", "~", "a", "&", "1"]

theorem parseFile_faithful_mask : ∃ root, parseFile (.ofText maskText) = .ok root ∧
    root.descendants .error = [] ∧ (Tree.leavesIn root.children).map Tree.text = maskLeaves ∧
    root.location = ⟨.ofText maskText, 0, 57⟩ ∧
    root.Everywhere (Tree.IsPlaced (.ofText maskText)) ∧
    ∃ ts, Token.Scans 0 maskText.toList ts [] ∧
      List.Forall₂ (Built.Shows (.ofText maskText)) (Tree.leavesIn root.children)
        (ts.filter Token.isShown) := by
  have hread : (parseFile (.ofText maskText)).toOption.map (fun root =>
      ((root.descendants .error).length, (Tree.leavesIn root.children).map Tree.text)) =
      some (0, maskLeaves) := by
    decide +kernel
  obtain ⟨root, hroot, hresult⟩ := Option.map_eq_some_iff.1 hread
  obtain ⟨hlength, hleaves⟩ := Prod.mk.inj hresult
  have hok := of_toOption_eq_some hroot
  have hnil := List.length_eq_zero_iff.1 hlength
  have hsource : (Source.ofText maskText).origin = .unknown →
      (Source.ofText maskText).contents = [] := by
    intro horigin
    cases horigin
  obtain ⟨hlocation, hplaced, hshown⟩ := parseFile_faithful hsource hok
  exact ⟨root, hok, hnil, hleaves, hlocation, hplaced, hshown hnil⟩

end Netlist.Grammar
