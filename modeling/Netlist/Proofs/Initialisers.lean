/-
Initialisers in the text of a module.

An initialiser is a part of a net declaration, of which it has some tokens in a row. If they are left
out but for the first, the name, what is left is a net declaration again (`Phrase.exists_takes`). A
declaration stands between two semicolons, so nothing else in the module is read differently: the
module has the same nodes, but for that of the initialiser, in place of which it has that of the name
(`SourceFile.Opens.exists_takesOut`).
-/
import Netlist.Proofs.ModuleParts
import Netlist.Proofs.MovedDefinitions

set_option autoImplicit false

namespace Netlist.Grammar

variable {source : Source} {recovers : Bool} {a item : Tree}

/-! ## Items of a module -/

/-- The nodes of the ports of a header are declarations of ports behind a list of names. -/
theorem Ports.kind_of_mem_nodes {items : List Tree} :
    ∀ t ∈ (ofItems items).nodes, t.kind = .listOfPorts ∨ t.kind = .portDeclaration := by
  have hdeclared : ∀ t ∈ (ofItems items).declared, t.kind = .portDeclaration := by
    induction items using List.reverseRecOn with
    | nil => exact nofun
    | append_singleton items item ih =>
      rw [ofItems, List.foldl_append, List.foldl_cons, List.foldl_nil, ← ofItems, add]
      split
      · next hkind => exact List.forall_mem_append.2 ⟨ih, List.forall_mem_singleton.2 hkind⟩
      · unfold addName
        split
        · next last hlast =>
          have hextended : (last.extend item).kind = .portDeclaration := by
            rw [Tree.extend, Tree.kind_node, ih last (List.mem_of_getLast? hlast)]
          exact List.forall_mem_append.2 ⟨fun t ht => ih t (List.dropLast_subset _ ht),
            List.forall_mem_singleton.2 hextended⟩
        · exact ih
  intro t ht
  unfold nodes at ht
  split at ht
  · exact .inr (hdeclared t ht)
  · rcases List.mem_cons.1 ht with rfl | ht
    · exact .inl (Tree.kind_spanning _ _)
    · exact .inr (hdeclared t ht)

namespace Phrase

/-- No net is declared in a header. -/
theorem kind_ne_netDeclaration : (listed : Phrase (.optional .ports)) → a ∈ listed.trees source →
    a.kind ≠ .netDeclaration
  | .present (.ports _ _ _), ha => by
    rcases Ports.kind_of_mem_nodes a ha with hkind | hkind <;> rw [hkind] <;> exact nofun

/-- Items end with semicolons, recovered ones as well as good ones. -/
theorem exists_semicolon : (d : Phrase (.item recovers)) → ∃ (us : List Token) (s : Sign .semicolon),
    d.yield = us ++ [s.1]
  | .portsItem p s => ⟨p.yield, s, rfl⟩
  | .netsItem p s => ⟨p.yield, s, rfl⟩
  | .assignsItem p s => ⟨p.yield, s, rfl⟩
  | .spoiled before refused dropped s => ⟨before ++ refused :: dropped, s, by simp⟩
  | .cutShort before s => ⟨before, s, rfl⟩

/-- So does all that stands in front of an item. -/
theorem exists_semicolon_of_items (front : List Token) (s : Sign .semicolon) :
    (items : Phrase (.many (.item recovers))) → ∃ (us : List Token) (s' : Sign .semicolon),
      front ++ s.1 :: items.yield = us ++ [s'.1]
  | .none => ⟨front, s, rfl⟩
  | .snoc items d => by
    obtain ⟨us, s', hyield⟩ := exists_semicolon d
    exact ⟨front ++ s.1 :: (items.yield ++ us), s', by simp [hyield]⟩

/-- A net declaration comes from a good item. -/
theorem exists_netDeclaration (hkind : a.kind = .netDeclaration) :
    (d : Phrase (.item recovers)) → a ∈ d.trees source →
      ∃ (nets : Phrase .netDeclaration) (s : Sign .semicolon),
        d.yield = nets.yield ++ [s.1] ∧ nets.trees source = [a]
  | .netsItem (.netDeclaration t r row) s, ha =>
    ⟨.netDeclaration t r row, s, rfl, congrArg (fun t => [t]) (List.mem_singleton.1 ha).symm⟩
  | .portsItem p s, ha => by
    obtain ⟨node, hnode, hports, -⟩ := portDeclaration_trees source p
    rw [trees, hnode, List.mem_singleton] at ha
    rw [ha, hports] at hkind
    cases hkind
  | .assignsItem (.continuousAssign k items) s, ha => by
    rw [List.mem_singleton.1 ha] at hkind
    cases hkind
  | .spoiled _ _ _ _, ha => by
    rw [List.mem_singleton.1 ha] at hkind
    cases hkind
  | .cutShort _ _, ha => by
    rw [List.mem_singleton.1 ha] at hkind
    cases hkind

/-! ## Nets with initialisers -/

/-- The first phrase has an initialiser where the second one has just its name. -/
def Takes (source : Source) (name : Lexeme .identifier) (s : Sign .equals)
    (e : Derivation .expression) (item : Tree) {x : Symbol} (d d' : Phrase x) : Prop :=
  (definedNet name s e).trees source = [item] ∧ ∃ before after parts parts',
    d.yield = before ++ ((definedNet name s e).yield ++ after) ∧
    d'.yield = before ++ name.1 :: after ∧
    d.trees source = parts ++ item :: parts' ∧
    d'.trees source = parts ++ tokenNode source .simpleIdentifier name.1 :: parts'

theorem exists_definedNet (hkind : item.kind = .netDeclAssignment) :
    (d : Phrase .netItem) → item ∈ d.trees source → ∃ name s e,
      d = definedNet name s e ∧ (definedNet name s e).trees source = [item]
  | .net name, hitem => by
    rw [List.mem_singleton.1 hitem] at hkind
    cases hkind
  | .definedNet name s e, hitem =>
    ⟨name, s, e, rfl, congrArg (fun t => [t]) (List.mem_singleton.1 hitem).symm⟩

/-- In a row of nets an initialiser may give way to its name. -/
theorem exists_takes (hkind : item.kind = .netDeclAssignment) :
    (row : Phrase (.row .netItem)) → item ∈ row.trees source → ∃ name s e,
      ∃ row' : Phrase (.row .netItem), Takes source name s e item row row'
  | .one d, hitem => by
    obtain ⟨name, s, e, rfl, hnode⟩ := exists_definedNet hkind d hitem
    exact ⟨name, s, e, .one (.net name), hnode, [], [], [], [], by simp, rfl, hnode, rfl⟩
  | .more row c d, hitem => by
    rcases List.mem_append.1 hitem with hitem | hitem
    · obtain ⟨name, s, e, row', hnode, before, after, parts, parts', hyield, hyield', htrees,
        htrees'⟩ := exists_takes hkind row hitem
      refine ⟨name, s, e, .more row' c d, hnode, before, after ++ c.1 :: d.yield, parts,
        parts' ++ d.trees source, ?_⟩
      rw [yield, yield, trees, trees, hyield, hyield', htrees, htrees']
      simp only [List.append_assoc, List.cons_append, and_self]
    · obtain ⟨name, s, e, rfl, hnode⟩ := exists_definedNet hkind d hitem
      refine ⟨name, s, e, .more row c (.net name), hnode, row.yield ++ [c.1], [],
        row.trees source, [], ?_⟩
      rw [yield, trees, hnode]
      simp

end Phrase

/-! ## Taking an initialiser out of a module -/

/-- No initialiser stands in front of the row of nets. -/
theorem Phrase.mem_trees_row {ty : Phrase .netType} {r : Phrase (.optional .range)}
    {row : Phrase (.row .netItem)} (hkind : item.kind = .netDeclAssignment)
    (hitem : item ∈ ty.trees source ++ (r.trees source ++ row.trees source)) :
    item ∈ row.trees source := by
  rcases List.mem_append.1 hitem with hitem | hitem
  · cases ty
    rw [List.mem_singleton.1 hitem] at hkind
    cases hkind
  rcases List.mem_append.1 hitem with hitem | hitem
  · match r with
    | .present (.range _ _ _ _ _) =>
      rw [List.mem_singleton.1 hitem] at hkind
      cases hkind
  · exact hitem

namespace SourceFile

variable {offset : Nat} {ts : List Token} {children : List Tree}

/-- A net declaration stands between two semicolons. -/
theorem Opens.exists_netDeclaration (h : Opens source offset ts children) (ha : a ∈ children)
    (hkind : a.kind = .netDeclaration) :
    ∃ (nets : Phrase .netDeclaration) (before after : List Token) (s s' : Sign .semicolon)
      (front back : List Tree), nets.trees source = [a] ∧
      ts = before ++ [s.1] ++ (nets.yield ++ s'.1 :: after) ∧
      Opens source offset (before ++ [s.1]) front ∧ Adds source offset after back ∧
      children = front ++ a :: back := by
  obtain ⟨k, name, listed, s, items, -, hchildren, hts⟩ := h.opening
  have hitems : a ∈ items.trees source := by
    rw [hchildren, List.mem_cons, List.mem_append] at ha
    rcases ha with rfl | ha | ha
    · cases hkind
    · exact absurd hkind (listed.kind_ne_netDeclaration ha)
    · exact ha
  obtain ⟨earlier, d, after, hyield, hd⟩ := items.exists_of_mem_trees hitems
  obtain ⟨nets, s', hdyield, hnets⟩ := d.exists_netDeclaration hkind hd
  obtain ⟨before, s₀, hbefore⟩ :=
    earlier.exists_semicolon_of_items (k.1 :: name.1 :: listed.yield) s
  have hcut : ts = before ++ [s₀.1] ++ (nets.yield ++ s'.1 :: after) := by
    rw [hts, hyield, hdyield, ← hbefore]
    simp
  rw [hcut, List.append_assoc, List.singleton_append] at h
  obtain ⟨front, nodes, hfront, hnodes, rfl⟩ := h.cut s₀.2
  obtain ⟨middle, back, hmiddle, hback, rfl⟩ := hnodes.cut s'.2
  have hsame := hmiddle.unique (adds_item (.netsItem nets s'))
  have hmiddle' : middle = [a] := hsame.trans hnets
  exact ⟨nets, before, after, s₀, s', front, back, hnets, hcut, hfront, hback, by rw [hmiddle']; rfl⟩

/-- In a module an initialiser may give way to its name. -/
theorem Opens.exists_takesOut (h : Opens source offset ts children) {decl : Tree}
    (hdecl : decl ∈ children) (hnets : decl.kind = .netDeclaration)
    (hitem : item ∈ decl.childrenOf .netDeclAssignment) :
    ∃ (name : Lexeme .identifier) (s : Sign .equals) (e : Derivation .expression)
      (before after : List Token) (children' : List Tree),
      (Phrase.definedNet name s e).trees source = [item] ∧
      ts = before ++ ((Phrase.definedNet name s e).yield ++ after) ∧
      Opens source offset (before ++ name.1 :: after) children' ∧
      ∀ k k' value, e.trees source = [value] →
        TakesOut (tokenNode source .simpleIdentifier name.1) value item
          (.node .moduleDeclaration k children) (.node .moduleDeclaration k' children') := by
  obtain ⟨nets, before, after, s₀, s', front, back, hdeclTree, rfl, hfront, hback, rfl⟩ :=
    h.exists_netDeclaration hdecl hnets
  obtain ⟨hmem, hkind⟩ := Tree.mem_childrenOf.1 hitem
  cases nets with
  | netDeclaration ty r row =>
    obtain ⟨l, hl⟩ := Tree.spanning_eq_node .netDeclaration
      (ty.trees source ++ (r.trees source ++ row.trees source))
    rw [Phrase.trees, hl] at hdeclTree
    obtain rfl := (List.cons.inj hdeclTree).1
    obtain ⟨name, s, e, row', hnode, front', back', parts, parts', hyield, hyield', htrees,
      htrees'⟩ := row.exists_takes hkind (Phrase.mem_trees_row hkind hmem)
    obtain ⟨l', hl'⟩ := Tree.spanning_eq_node .netDeclaration
      (ty.trees source ++ (r.trees source ++ row'.trees source))
    have hleft : (Phrase.netDeclaration ty r row').trees source = [.node .netDeclaration l'
        (ty.trees source ++ (r.trees source ++ parts) ++
          tokenNode source .simpleIdentifier name.1 :: parts')] := by
      rw [Phrase.trees, hl', htrees']
      simp
    have hadds : Adds source offset ((Phrase.netDeclaration ty r row').yield ++ [s'.1])
        ((Phrase.netDeclaration ty r row').trees source) :=
      adds_item (.netsItem (.netDeclaration ty r row') s')
    have hopens := hfront.append (hadds.append hback)
    rw [hleft] at hopens
    refine ⟨name, s, e, before ++ s₀.1 :: (ty.yield ++ (r.yield ++ front')),
      back' ++ s'.1 :: after, front ++ .node .netDeclaration l' (ty.trees source ++
        (r.trees source ++ parts) ++ tokenNode source .simpleIdentifier name.1 :: parts') :: back,
      hnode, ?_, ?_, ?_⟩
    · simp [hyield]
    · simpa [hyield'] using hopens
    · intro k k' value hvalue
      obtain ⟨place, hplace⟩ := Tree.spanning_eq_node .netDeclAssignment
        (tokenNode source .simpleIdentifier name.1 :: e.trees source)
      rw [Phrase.trees, hplace, hvalue] at hnode
      obtain rfl := (List.cons.inj hnode).1
      rw [htrees, ← List.append_assoc (r.trees source), ← List.append_assoc (ty.trees source)]
      exact .intro k k' l l' place front back _ parts'

end SourceFile

end Netlist.Grammar
