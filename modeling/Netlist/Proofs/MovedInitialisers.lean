/-
An initialiser is a declaration and an assignment.

If an initialiser is the only definition of a net, the net may as well be declared without it and be
defined in an assignment anywhere in the module (`load_moved_initialiser`). The definition is then
gathered at another time, when other wires have been made and other widths are known; still it is
the same module but for the order of its wires. The edit is one of words, so it is followed in a
copy of the text where no two words touch (`SpacedModule`): from there the words go to where they
stand in either text.
-/
import Netlist.Proofs.AddedAssignments
import Netlist.Proofs.Extents
import Netlist.Proofs.Initialisers

set_option autoImplicit false

namespace Netlist

open Grammar (parseFile)

/-! ## Texts of one module -/

namespace Module

variable {source : Source} {root t : Tree} {top : Option String} {m : Module}

theorem choose_singleton (h : ∀ name ∈ top, t.moduleName = name) : choose [t] top = .ok t := by
  obtain ⟨t', ht'⟩ := exists_choose_iff.2 ⟨t, List.mem_cons_self, h⟩
  obtain rfl := List.mem_singleton.1 (mem_of_choose_eq_ok ht')
  exact ht'

/-- A text of one module is loaded as this module, if it is the wanted one. -/
theorem load_singleton_eq_ok_iff (hparse : parseFile (codeOf source) = .ok root)
    (hmodule : root.children = [t]) :
    (load source top).run.value = .ok m ↔
      (∀ name ∈ top, t.moduleName = name) ∧ t.Whole ∧
        (Draft.assemble t).value.schedule = .ok m := by
  have hfile : root.IsFile := Grammar.isFile_of_parseFile hparse
  have htree : t.IsModule := hfile.isModule t (by simp [hmodule])
  have hselect := select_eq hfile top
  rw [hmodule] at hselect
  constructor
  · intro h
    obtain ⟨root', t', hparse', hselect', hschedule⟩ := of_load_eq_ok h
    obtain rfl := Except.ok.inj (hparse.symm.trans hparse')
    rw [hselect] at hselect'
    obtain ⟨chosen, hchosen, hwhole⟩ := exists_of_bind_eq_ok hselect'
    obtain rfl := List.mem_singleton.1 (mem_of_choose_eq_ok hchosen)
    obtain rfl := eq_of_whole_eq_ok hwhole
    obtain ⟨named, hmem, hname⟩ := exists_choose_iff.1 ⟨_, hchosen⟩
    obtain rfl := List.mem_singleton.1 hmem
    exact ⟨hname, htree.descendants_error_eq_nil_iff.1 (descendants_error_of_select
      (hselect.trans hselect')), hschedule⟩
  · rintro ⟨hname, hwhole, hschedule⟩
    rw [choose_singleton hname] at hselect
    have hfound : whole t = .ok t := by
      rw [whole, htree.descendants_error_eq_nil_iff.2 hwhole]
    rw [run_load hparse (hselect.trans hfound), hschedule]
    rfl

/-- Texts of modules that differ in the order of their wires at most are loaded alike. -/
theorem load_of_rearranges {source' : Source} {root' t' : Tree}
    (hparse : parseFile (codeOf source) = .ok root) (hmodule : root.children = [t])
    (hparse' : parseFile (codeOf source') = .ok root') (hmodule' : root'.children = [t'])
    (hwhole : t'.Whole ↔ t.Whole)
    (h : (Draft.assemble t').value.Rearranges (Draft.assemble t).value) (top : Option String) :
    ((∃ m', (load source' top).run.value = .ok m') ↔ ∃ m, (load source top).run.value = .ok m) ∧
    ∀ m m', (load source top).run.value = .ok m → (load source' top).run.value = .ok m' →
      m'.Rearranges m ∧ ∀ given env,
        (m'.simulate given).run.value = .ok env ↔ (m.simulate given).run.value = .ok env := by
  have hname : t'.moduleName = t.moduleName := by
    have hassembled := h.name
    rwa [Draft.assemble_eq, Draft.assemble_eq, Logged.value_bind, Logged.value_bind] at hassembled
  simp only [load_singleton_eq_ok_iff hparse hmodule, load_singleton_eq_ok_iff hparse' hmodule']
  refine ⟨?_, ?_⟩
  · simp only [exists_and_left, hname, hwhole, h.exists_schedule_iff]
  · rintro m m' ⟨-, -, hm⟩ ⟨-, -, hm'⟩
    exact ⟨h.schedules hm' hm, h.simulate_iff (Draft.wellFormed_assemble t').toWellNamed
      (Draft.wellFormed_assemble t).toWellNamed (Draft.readOff_of_assemble t').coversReads
      (Draft.readOff_of_assemble t).coversReads hm' hm⟩

end Module

/-! ## A copy where no two words touch -/

open Grammar Token Grammar.SourceFile

/-- A text of one module, of which no two words touch, and where they stand in another text. -/
structure SpacedModule (code : Source) (ts : List Token) (t : Tree) where
  source : Source
  known : source.origin ≠ .unknown
  tokens : List Token
  closing : Key .endmodule
  scans : Scans 0 source.contents (tokens ++ [closing.1]) []
  apart : Apart (tokens ++ [closing.1])
  offset : Nat
  children : List Tree
  opens : Opens source offset tokens children
  home : Relocation
  home_source : home.source = code
  home_tokens : (tokens ++ [closing.1]).map (Token.relocate home) = ts
  home_spelling : ∀ t ∈ tokens ++ [closing.1], (t.relocate home).spelling home.source =
    t.spelling source
  home_node : (moduleNode source offset closing.1.stop children).relocate home = t

variable {code code' : Source} {ts ts' : List Token} {root t decl item nameNode e : Tree}

/-- Every text of one module has such a copy. -/
theorem nonempty_spacedModule (hknown : code.origin ≠ .unknown)
    (hparse : parseFile code = .ok root) (hmodule : root.children = [t])
    (hts : Scans 0 code.contents ts []) : Nonempty (SpacedModule code ts t) := by
  obtain ⟨us, modules, hus, hfinish, rfl⟩ := parseFile_eq_ok_iff.1 hparse
  obtain rfl : us = ts := Except.ok.inj (hus.symm.trans (tokens_eq_ok_iff.2 hts))
  obtain rfl : modules = [t] := hmodule
  obtain ⟨source, us, known, hscans, hapart, hspellings⟩ := exists_spaced hts
  obtain ⟨g, rfl, rfl, hspelled⟩ :=
    Relocation.exists_of_spellings hknown hapart (inOrder_of_scans hts).ordered hspellings.symm
  -- what is read of the text is what is read of the copy
  obtain ⟨modules, hmodules, hnode⟩ := (finish_run_relocate_eq_ok_iff g known).1 hfinish
  obtain ⟨node, rfl, hnode⟩ := List.map_eq_singleton_iff.1 hnode
  obtain ⟨tokens, closing, offset, children, rfl, hopens, rfl⟩ := exists_opens_of_finish hmodules
  exact ⟨⟨source, known, tokens, closing, hscans, hapart, offset, children, hopens, g, rfl, rfl,
    hspelled, (List.cons.inj hnode).1⟩⟩

namespace SpacedModule

variable (r : SpacedModule code ts t)

/-- The module as it is read in the copy. -/
def node : Tree :=
  moduleNode r.source r.offset r.closing.1.stop r.children

theorem isModule : r.node.IsModule := by
  have hfile : Tree.IsFile _ := isFile_of_parseFile (r.opens.parseFile_eq r.closing r.scans)
  exact hfile.isModule _ List.mem_cons_self

theorem home_keeps : r.home.Keeps False r.node :=
  r.opens.keeps r.closing r.known r.home_spelling

/-- The module of the text is that of the copy, but for where its wires are defined. -/
theorem rearranges : (Draft.assemble r.node).value.Rearranges (Draft.assemble t).value := by
  have hmirrors := Draft.mirrors_assemble r.isModule r.home_keeps
  rw [node, r.home_node] at hmirrors
  refine (Module.rearranges_of_withoutLocations_eq ?_).symm
  rw [hmirrors.value, Module.withoutLocations_relocate]
  rfl

theorem whole_iff : t.Whole ↔ r.node.Whole := by
  have hwhole := Tree.whole_relocate_iff r.home r.node
  rwa [node, r.home_node] at hwhole

end SpacedModule

/-! ## The words of an initialiser -/

/-- Where words keep their texts, so does a row of them. -/
theorem Token.words_relocate {source : Source} {g : Relocation} {us : List Token}
    (h : ∀ t ∈ us, (t.relocate g).spelling g.source = t.spelling source) :
    words g.source (us.map (Token.relocate g)) = (spellings source us).map Prod.snd := by
  have hsame : spellings g.source (us.map (Token.relocate g)) = spellings source us := by
    rw [spellings, List.map_map]
    exact List.map_congr_left h
  rw [words_eq_map, hsame]

/-- The tokens of an initialiser are those in its range, also where it has gone. -/
theorem Grammar.Phrase.filter_definedNet {source : Source} (known : source.origin ≠ .unknown)
    (g : Relocation) {name : Lexeme .identifier} {s : Sign .equals} {e : Derivation .expression}
    {before after : List Token} {lo hi : Nat}
    (hnode : (definedNet name s e).trees source = [item])
    (h : InOrder g.source lo
      ((before ++ ((definedNet name s e).yield ++ after)).map (Token.relocate g)) hi) :
    ((before ++ ((definedNet name s e).yield ++ after)).map (Token.relocate g)).filter
        (isWithin · (item.relocate g).location) =
      (definedNet name s e).yield.map (Token.relocate g) ∧
    ((before ++ ((definedNet name s e).yield ++ after)).map (Token.relocate g)).filter
        (staysWithout (item.relocate g).location
          ((tokenNode source .simpleIdentifier name.1).relocate g).location) =
      (before ++ name.1 :: after).map (Token.relocate g) := by
  have htrees := (definedNet name s e).trees_relocate g known
  rw [hnode, List.map_singleton] at htrees
  rw [List.map_append, List.map_append, ← yield_relocate] at h ⊢
  obtain ⟨mid, -, hrest⟩ := h.exists_middle
  obtain ⟨mid', hyield, -⟩ := hrest.exists_middle
  have hsnug := snug_definedNet g.known (name.relocate g) (Lexeme.relocate g s) (e.relocate g) hyield
  have hsame : definedNet (name.relocate g) (Lexeme.relocate g s) (e.relocate g) =
      (definedNet name s e).relocate g := rfl
  rw [hsame, htrees] at hsnug
  refine ⟨h.filter_within hsnug.start.symm hsnug.stop.symm, ?_⟩
  rw [relocate_tokenNode g known, List.map_append, List.map_cons]
  refine h.filter_staysWithout ?_ hsnug.stop.symm rfl rfl
  exact (Option.some.inj hsnug.start).symm

/-- The assignment of the same words. -/
def Grammar.Phrase.assigned (name : Lexeme .identifier) (s : Sign .equals)
    (e : Derivation .expression) : Phrase .assignment :=
  .assignment (.name name) s e

/-- The words in the range of an initialiser are its words, and those that stay without it are its
name and the words around. -/
theorem Grammar.Phrase.words_definedNet {source code : Source} (known : source.origin ≠ .unknown)
    {g : Relocation} (hcode : g.source = code) {name : Lexeme .identifier} {s : Sign .equals}
    {e : Derivation .expression} {before after ts : List Token}
    (hnode : (definedNet name s e).trees source = [item])
    (hts : (before ++ ((definedNet name s e).yield ++ after)).map (Token.relocate g) = ts)
    (hspelled : ∀ t ∈ before ++ ((definedNet name s e).yield ++ after),
      (t.relocate g).spelling g.source = t.spelling source)
    (h : Scans 0 code.contents ts []) :
    words code (ts.filter (isWithin · (item.relocate g).location)) =
      (spellings source (definedNet name s e).yield).map Prod.snd ∧
    words code (ts.filter (staysWithout (item.relocate g).location
        ((tokenNode source .simpleIdentifier name.1).relocate g).location)) =
      (spellings source (before ++ name.1 :: after)).map Prod.snd := by
  subst hcode hts
  obtain ⟨hwithin, hstays⟩ := filter_definedNet known g hnode (inOrder_of_scans h)
  rw [hwithin, hstays]
  refine ⟨Token.words_relocate fun t ht => hspelled t ?_,
    Token.words_relocate fun t ht => hspelled t ?_⟩
  · exact List.mem_append_right _ (List.mem_append_left _ ht)
  · simp only [yield, List.mem_append, List.mem_cons] at ht ⊢
    tauto

/-! ## Moving an initialiser -/

namespace SpacedModule

variable (r : SpacedModule code ts t)

/-- In the copy the initialiser may give way to its name. -/
theorem exists_takesOut (hdecl : decl ∈ t.childrenOf .netDeclaration)
    (hitem : item ∈ decl.childrenOf .netDeclAssignment) (hchildren : item.children = [nameNode, e]) :
    ∃ (name : Lexeme .identifier) (s : Sign .equals) (d : Derivation .expression)
      (item' value : Tree) (before after : List Token) (children' : List Tree),
      (Phrase.definedNet name s d).trees r.source = [item'] ∧ d.trees r.source = [value] ∧
      item = item'.relocate r.home ∧
      nameNode = (tokenNode r.source .simpleIdentifier name.1).relocate r.home ∧
      r.tokens = before ++ ((Phrase.definedNet name s d).yield ++ after) ∧
      Opens r.source r.offset (before ++ name.1 :: after) children' ∧
      ∀ k, TakesOut (tokenNode r.source .simpleIdentifier name.1) value item' r.node
        (.node .moduleDeclaration k children') := by
  obtain ⟨hmem, hnets⟩ := Tree.mem_childrenOf.1 hdecl
  rw [← r.home_node, moduleNode, nodeOver, Tree.relocate_node, Tree.children_node] at hmem
  obtain ⟨decl', hdecl', rfl⟩ := List.mem_map.1 hmem
  rw [Tree.kind_relocate] at hnets
  rw [Tree.childrenOf_relocate] at hitem
  obtain ⟨item', hitem', rfl⟩ := List.mem_map.1 hitem
  obtain ⟨name, s, d, before, after, children', hnode, hcut, hopens, htakes⟩ :=
    r.opens.exists_takesOut hdecl' hnets hitem'
  obtain ⟨value, hvalue⟩ := d.exists_tree r.source
  obtain ⟨l, hl⟩ := Tree.spanning_eq_node .netDeclAssignment
    (tokenNode r.source .simpleIdentifier name.1 :: d.trees r.source)
  have hparts := hnode
  rw [Phrase.trees, hl, hvalue] at hparts
  obtain rfl := (List.cons.inj hparts).1
  rw [Tree.relocate_node, Tree.children_node] at hchildren
  exact ⟨name, s, d, _, value, before, after, children', hnode, hvalue, rfl,
    (List.cons.inj hchildren).1.symm, hcut, hopens, fun k => htakes _ k value hvalue⟩

/-- With the initialiser taken out in the copy and the assignment put into what is left of it, it is
the same module but for the order of its wires. -/
theorem rearranges_of_putsIn {name : Lexeme .identifier} (hmem : name.1 ∈ r.tokens)
    {value item' left assigned v : Tree} {place : Location} {g i : Relocation}
    (hout : TakesOut (tokenNode r.source .simpleIdentifier name.1) value item' r.node left)
    (hin : PutsIn ((tokenNode r.source .simpleIdentifier name.1).relocate i) (value.relocate i)
      assigned (left.relocate g) v)
    (hv : v.IsModule) (hg : g.Keeps False left)
    (hi : i.Keeps False (.node .netAssignment place
      [tokenNode r.source .simpleIdentifier name.1, value]))
    (honce : t.definitionsOf ((tokenNode r.source .simpleIdentifier name.1).relocate r.home).word =
      [item'.relocate r.home]) :
    (Draft.assemble v).value.Rearranges (Draft.assemble t).value := by
  have hname := hout.isLeaf_nameNode r.isModule
  have hbuilt : Built r.source false [name.1] [tokenNode r.source .simpleIdentifier name.1] :=
    (Phrase.net name).built r.source nofun
  -- the name reads the same in the copy and where it stands in the text
  have hhome : r.home.Keeps False (tokenNode r.source .simpleIdentifier name.1) :=
    hbuilt.keeps r.known (fun t ht => r.home_spelling t
      (List.mem_singleton.1 ht ▸ List.mem_append_left _ hmem)) _ List.mem_cons_self
  have honce' : (r.node.relocate r.home).definitionsOf
      (tokenNode r.source .simpleIdentifier name.1).word = [item'.relocate r.home] := by
    rw [node, r.home_node, ← hhome.word hname (by decide)]
    exact honce
  have htarget : ((tokenNode r.source .simpleIdentifier name.1).relocate i).IsLeaf
      .simpleIdentifier := by
    rw [relocate_tokenNode i r.known]
    exact ⟨_⟩
  have hmodule := rearranges_of_moved hout hin r.isModule hv hg htarget
    ((hi.child _ List.mem_cons_self).word hname (by decide))
    (Expr.mirrors_ofTree (hout.isExpression r.isModule) (hi.child _ (by simp))).value
    (hout.definitionsOf_eq_singleton r.isModule r.home_keeps honce')
  exact hmodule.trans r.rearranges

end SpacedModule

/-- If the words of an initialiser are moved into an assignment, the text is that of the same module
but for the order of its wires. -/
theorem SpacedModule.exists_parseFile_of_moved (r : SpacedModule code ts t)
    (hts : Scans 0 code.contents ts []) (known' : code'.origin ≠ .unknown)
    (hts' : Scans 0 code'.contents ts' []) (hdecl : decl ∈ t.childrenOf .netDeclaration)
    (hitem : item ∈ decl.childrenOf .netDeclAssignment) (hchildren : item.children = [nameNode, e])
    (honce : t.definitionsOf nameNode.word = [item]) {front back : List String}
    (hwords : words code (ts.filter (staysWithout item.location nameNode.location)) =
      front ++ ";" :: back)
    (hwords' : words code' ts' = front ++ ";" :: "assign" ::
      (words code (ts.filter (isWithin · item.location)) ++ ";" :: back)) :
    ∃ v, parseFile code' = .ok (nodeOver code' .sourceFile 0 code'.byteLength [v]) ∧
      (v.Whole ↔ t.Whole) ∧ (Draft.assemble v).value.Rearranges (Draft.assemble t).value := by
  obtain ⟨name, s, d, item', value, before, after, children', hnode, hvalue, rfl, rfl, hcut, hopens,
    htakes⟩ := r.exists_takesOut hdecl hitem hchildren
  have hcut' : r.tokens ++ [r.closing.1] =
      before ++ ((Phrase.definedNet name s d).yield ++ (after ++ [r.closing.1])) := by
    rw [hcut, List.append_assoc, List.append_assoc]
  have htokens := r.home_tokens
  have hspelled := r.home_spelling
  have hclaims := claims_of_scans r.scans
  have hapart := r.apart
  rw [hcut'] at htokens hspelled hclaims hapart
  obtain ⟨hwithin, hstays⟩ :=
    Phrase.words_definedNet r.known r.home_source hnode htokens hspelled hts
  -- the words of the initialiser and the words around it, in the copy
  have hkept : (before ++ name.1 :: (after ++ [r.closing.1])).Sublist
      (before ++ ((Phrase.definedNet name s d).yield ++ (after ++ [r.closing.1]))) := by
    refine (List.Sublist.refl before).append (.cons_cons name.1 ?_)
    exact List.sublist_append_right (s.1 :: d.yield) _
  have hmoved : (Phrase.definedNet name s d).yield.Sublist
      (before ++ ((Phrase.definedNet name s d).yield ++ (after ++ [r.closing.1]))) :=
    (List.sublist_append_left _ _).trans (List.sublist_append_right _ _)
  rw [words_eq_map, hwithin] at hwords'
  obtain ⟨fs, bs, hfs, hbs⟩ := exists_addAssignment
    (fun w hw => hclaims w (List.map_subset _ hkept.subset hw)) (claims_of_scans hts')
    (fun w hw => hclaims w (List.map_subset _ hmoved.subset hw)) (hstays.symm.trans hwords) hwords'
  -- the module without the initialiser, and the module with the assignment
  obtain ⟨l, hl⟩ := Tree.spanning_eq_node .netAssignment
    [tokenNode r.source .simpleIdentifier name.1, value]
  have hassigned : (Phrase.assigned name s d).trees r.source =
      [.node .netAssignment l [tokenNode r.source .simpleIdentifier name.1, value]] := by
    rw [Phrase.assigned, Phrase.trees, hvalue, ← hl]
    rfl
  have hleft : before ++ name.1 :: (after ++ [r.closing.1]) =
      before ++ name.1 :: after ++ [r.closing.1] := by simp
  rw [hleft] at hkept hfs
  obtain ⟨g, i, v, hparse', hg, hi, hin⟩ := hopens.exists_putsIn r.known known'
    (hapart.sublist hkept) hts' (Phrase.assigned name s d) (hapart.sublist hmoved) hassigned hfs hbs
  have hout := htakes ⟨r.source, r.offset, r.closing.1.stop⟩
  have hfile : Tree.IsFile _ := isFile_of_parseFile hparse'
  have hv : v.IsModule := hfile.isModule v List.mem_cons_self
  refine ⟨v, hparse', ?_, ?_⟩
  · rw [hin.whole_iff, Tree.whole_relocate_iff, r.whole_iff]
    exact hout.whole_iff
  · have hmem : name.1 ∈ r.tokens := by
      rw [hcut]
      exact List.mem_append_right _ List.mem_cons_self
    exact r.rearranges_of_putsIn hmem hout hin hv hg hi honce

/-- An initialiser among the items of a module is a part of a net declaration. -/
theorem Tree.exists_declaration (hitem : item ∈ t.writtenItems) (h : item.isInitialiser = true) :
    ∃ decl ∈ t.childrenOf .netDeclaration, item ∈ decl.childrenOf .netDeclAssignment := by
  obtain ⟨part, hpart, hitem⟩ := List.mem_flatMap.1 hitem
  have hkind : item.kind = .netDeclAssignment := beq_iff_eq.1 h
  unfold itemsOfPart at hitem
  split at hitem
  · next hnets => exact ⟨part, mem_childrenOf.2 ⟨hpart, hnets⟩, hitem⟩
  · rw [(mem_childrenOf.1 hitem).2] at hkind
    cases hkind
  · cases hitem

namespace Module

/-- An initialiser may be moved into an assignment. Of a text of one module, take a net that is defined
once, by an initialiser in a net declaration. If another text has the same words, but only the name
stands in the declaration, and somewhere in the module, behind a semicolon, the words of the
initialiser are assigned, then there is a module of both texts or of none, and it is the same but for
the order of the wires and where they are defined. It is simulated with the same results. -/
theorem load_moved_initialiser {source source' : Source} (known : source.origin ≠ .unknown)
    (known' : source'.origin ≠ .unknown) (hparse : parseFile (codeOf source) = .ok root)
    (hmodule : root.children = [t]) {name : String} (honce : t.definitionsOf name = [item])
    (hinitialiser : item.isInitialiser = true) (hchildren : item.children = [nameNode, e])
    (hts : tokens (codeOf source) = .ok ts) (hts' : tokens (codeOf source') = .ok ts')
    {front back : List String}
    (hwords : words (codeOf source) (ts.filter (staysWithout item.location nameNode.location)) =
      front ++ ";" :: back)
    (hwords' : words (codeOf source') ts' = front ++ ";" :: "assign" ::
      (words (codeOf source) (ts.filter (isWithin · item.location)) ++ ";" :: back))
    (top : Option String) :
    ((∃ m', (load source' top).run.value = .ok m') ↔ ∃ m, (load source top).run.value = .ok m) ∧
    ∀ m m', (load source top).run.value = .ok m → (load source' top).run.value = .ok m' →
      m'.Rearranges m ∧ ∀ given env,
        (m'.simulate given).run.value = .ok env ↔ (m.simulate given).run.value = .ok env := by
  rw [tokens_eq_ok_iff] at hts hts'
  have hknown : (codeOf source).origin ≠ .unknown := known
  have hknown' : (codeOf source').origin ≠ .unknown := known'
  have hmem : item ∈ t.definitionsOf name := by
    rw [honce]
    exact List.mem_cons_self
  obtain ⟨hwritten, hdefines⟩ := List.mem_filter.1 hmem
  obtain ⟨decl, hdecl, hitem⟩ := Tree.exists_declaration hwritten hinitialiser
  have hname : nameNode.word = name := by
    rw [Tree.defines, hchildren, Bool.and_eq_true, beq_iff_eq] at hdefines
    exact hdefines.2
  subst hname
  obtain ⟨r⟩ := nonempty_spacedModule hknown hparse hmodule hts
  obtain ⟨v, hparse', hwhole, hrearranges⟩ := r.exists_parseFile_of_moved hts hknown' hts' hdecl
    hitem hchildren honce hwords hwords'
  exact load_of_rearranges hparse hmodule hparse' rfl hwhole hrearranges top

/-- A text in which the second net of a declaration has an initialiser. -/
def chainText : String :=
  "module m(input a, output y); wire k, n = a + k; assign k = a, y = n; endmodule"

/-- The same text with the net assigned in front of its declaration. -/
def chainMovedText : String :=
  "module m(input a, output y); assign n = a + k; wire k, n; assign k = a, y = n; endmodule"

/-- What stands in front of the assignment. -/
def chainFront : List String :=
  ["module", "m", "(", "input", "a", ",", "output", "y", ")"]

/-- What stands behind it. -/
def chainBack : List String :=
  ["wire", "k", ",", "n", ";", "assign", "k", "=", "a", ",", "y", "=", "n", ";", "endmodule"]

/-- The net has one definition, an initialiser, and the words of the texts differ as they should. -/
theorem words_chain : ∃ root t item nameNode e ts ts',
    parseFile (codeOf (.ofText chainText)) = .ok root ∧ root.children = [t] ∧
    t.definitionsOf "n" = [item] ∧ item.isInitialiser = true ∧ item.children = [nameNode, e] ∧
    tokens (codeOf (.ofText chainText)) = .ok ts ∧ tokens (codeOf (.ofText chainMovedText)) = .ok ts' ∧
    words (codeOf (.ofText chainText)) (ts.filter (staysWithout item.location nameNode.location)) =
      chainFront ++ ";" :: chainBack ∧
    words (codeOf (.ofText chainMovedText)) ts' = chainFront ++ ";" :: "assign" ::
      (words (codeOf (.ofText chainText)) (ts.filter (isWithin · item.location)) ++
        ";" :: chainBack) := by
  have hmoved : (tokens (codeOf (.ofText chainMovedText))).toOption.map
      (words (codeOf (.ofText chainMovedText))) = some (chainFront ++ ";" :: "assign" ::
        (["n", "=", "a", "+", "k"] ++ ";" :: chainBack)) := by
    decide +kernel
  have hshape : (parseFile (codeOf (.ofText chainText))).toOption.map (fun root =>
      root.children.map fun t => (t.definitionsOf "n").map fun item =>
        (item.isInitialiser, item.children.length)) = some [[(true, 2)]] := by
    decide +kernel
  have hwords : ((tokens (codeOf (.ofText chainText))).toOption.bind fun ts =>
      (parseFile (codeOf (.ofText chainText))).toOption.map fun root =>
        root.children.map fun t => (t.definitionsOf "n").map fun item =>
          words (codeOf (.ofText chainText)) (ts.filter (isWithin · item.location)) ::
            (item.children.take 1).map fun nameNode => words (codeOf (.ofText chainText))
              (ts.filter (staysWithout item.location nameNode.location))) =
      some [[[["n", "=", "a", "+", "k"], chainFront ++ ";" :: chainBack]]] := by
    decide +kernel
  obtain ⟨ts', hts', hwords'⟩ := Option.map_eq_some_iff.1 hmoved
  obtain ⟨ts, hts, hwords⟩ := Option.bind_eq_some_iff.1 hwords
  obtain ⟨root, hroot, hshape⟩ := Option.map_eq_some_iff.1 hshape
  obtain ⟨t, hmodule, hshape⟩ := List.map_eq_singleton_iff.1 hshape
  obtain ⟨item, hitem, hshape⟩ := List.map_eq_singleton_iff.1 hshape
  obtain ⟨hinitialiser, hlength⟩ := Prod.mk.inj hshape
  obtain ⟨nameNode, e, hchildren⟩ := List.length_eq_two.1 hlength
  simp only [hroot, hmodule, hitem, hchildren, Option.map_some, List.map_cons, List.map_nil,
    List.take_succ_cons, List.take_zero, Option.some.injEq, List.cons.injEq, and_true] at hwords
  obtain ⟨hwithin, hstays⟩ := hwords
  refine ⟨root, t, item, nameNode, e, ts, ts', of_toOption_eq_some hroot, hmodule, hitem,
    hinitialiser, hchildren, of_toOption_eq_some hts, of_toOption_eq_some hts', hstays, ?_⟩
  rw [hwithin]
  exact hwords'

/-- The net is read, it reads another one, and it is assigned before it is declared. -/
theorem load_moved_initialiser_chain : ∃ root t item nameNode e ts ts',
    parseFile (codeOf (.ofText chainText)) = .ok root ∧ root.children = [t] ∧
    t.definitionsOf "n" = [item] ∧ item.isInitialiser = true ∧ item.children = [nameNode, e] ∧
    tokens (codeOf (.ofText chainText)) = .ok ts ∧ tokens (codeOf (.ofText chainMovedText)) = .ok ts' ∧
    words (codeOf (.ofText chainText)) (ts.filter (staysWithout item.location nameNode.location)) =
      chainFront ++ ";" :: chainBack ∧
    words (codeOf (.ofText chainMovedText)) ts' = chainFront ++ ";" :: "assign" ::
      (words (codeOf (.ofText chainText)) (ts.filter (isWithin · item.location)) ++
        ";" :: chainBack) ∧
    (load (.ofText chainText) none).run.value.isOk = true ∧
    ((∃ m', (load (.ofText chainMovedText) none).run.value = .ok m') ↔
      ∃ m, (load (.ofText chainText) none).run.value = .ok m) ∧
    ∀ m m', (load (.ofText chainText) none).run.value = .ok m →
      (load (.ofText chainMovedText) none).run.value = .ok m' →
      m'.Rearranges m ∧ ∀ given env,
        (m'.simulate given).run.value = .ok env ↔ (m.simulate given).run.value = .ok env := by
  obtain ⟨root, t, item, nameNode, e, ts, ts', hparse, hmodule, honce, hinitialiser, hchildren, hts,
    hts', hwords, hwords'⟩ := words_chain
  have known : ∀ text, (Source.ofText text).origin ≠ .unknown := fun _ => Origin.noConfusion
  exact ⟨root, t, item, nameNode, e, ts, ts', hparse, hmodule, honce, hinitialiser, hchildren, hts,
    hts', hwords, hwords', by decide +kernel, load_moved_initialiser (known _) (known _) hparse
      hmodule honce hinitialiser hchildren hts hts' hwords hwords' none⟩

end Module

end Netlist
