/-
Assignments that are added to the text of a module.

Behind a semicolon in a module there is room for an item. If the words of an assignment are put there
and nothing else is changed but blanks, the module has one node more, and the others have gone to
where their words are (`SourceFile.Opens.exists_putsIn`).
-/
import Netlist.Proofs.Layout
import Netlist.Proofs.ModuleParts
import Netlist.Proofs.MovedDefinitions
import Netlist.Proofs.RelocatedPhrases

set_option autoImplicit false

namespace Netlist

/-! ## Words that are known by their texts -/

namespace Token

variable {source : Source} {ts : List Token} {ws vs ms fs bs : List (Terminal × String)}
  {w : Terminal × String}

/-- A semicolon as a word. -/
def semicolonWord : Terminal × String :=
  (.punctuation .semicolon, ";")

/-- The keyword in front of assignments as a word. -/
def assignWord : Terminal × String :=
  (.keyword .assign, "assign")

theorem claims_semicolonWord : semicolonWord.1.Claims semicolonWord.2.toList :=
  Terminal.claims_of_lexeme? (by decide)

theorem claims_assignWord : assignWord.1.Claims assignWord.2.toList :=
  Keyword.claims .assign

/-- Where the texts of words have a text in them, the words have the word of this text. -/
theorem exists_of_map_snd_eq {front back : List String} (hws : ∀ w ∈ ws, w.1.Claims w.2.toList)
    (hw : w.1.Claims w.2.toList) (h : ws.map Prod.snd = front ++ w.2 :: back) :
    ∃ fs bs, ws = fs ++ w :: bs ∧ fs.map Prod.snd = front ∧ bs.map Prod.snd = back := by
  obtain ⟨fs, rest, rfl, hfs, hrest⟩ := List.map_eq_append_iff.1 h
  obtain ⟨w', bs, rfl, hw', hbs⟩ := List.map_eq_cons_iff.1 hrest
  obtain ⟨-, hw'claims, -⟩ := List.forall_mem_append.1 hws |>.imp_right List.forall_mem_cons.1
  rw [hw'] at hw'claims
  obtain rfl : w' = w := Prod.ext (hw'claims.unique hw) hw'
  exact ⟨fs, bs, rfl, hfs, hbs⟩

/-- The words of an assignment, between two semicolons in place of one. -/
def addAssignment (fs ms bs : List (Terminal × String)) : List (Terminal × String) :=
  fs ++ semicolonWord :: assignWord :: (ms ++ semicolonWord :: bs)

/-- If texts differ by the texts of an assignment, their words differ by its words. -/
theorem exists_addAssignment {front back : List String} (hws : ∀ w ∈ ws, w.1.Claims w.2.toList)
    (hvs : ∀ v ∈ vs, v.1.Claims v.2.toList) (hms : ∀ m ∈ ms, m.1.Claims m.2.toList)
    (h : ws.map Prod.snd = front ++ ";" :: back)
    (h' : vs.map Prod.snd = front ++ ";" :: "assign" :: (ms.map Prod.snd ++ ";" :: back)) :
    ∃ fs bs, ws = fs ++ semicolonWord :: bs ∧ vs = addAssignment fs ms bs := by
  obtain ⟨fs, bs, rfl, rfl, rfl⟩ := exists_of_map_snd_eq hws claims_semicolonWord h
  obtain ⟨hfs, hrest⟩ := List.forall_mem_append.1 hws
  obtain ⟨hsemicolon, hbs⟩ := List.forall_mem_cons.1 hrest
  refine ⟨fs, bs, rfl, eq_of_map_snd_eq ?_ hvs ?_⟩
  · exact List.forall_mem_append.2 ⟨hfs, List.forall_mem_cons.2 ⟨hsemicolon,
      List.forall_mem_cons.2 ⟨claims_assignWord,
        List.forall_mem_append.2 ⟨hms, List.forall_mem_cons.2 ⟨hsemicolon, hbs⟩⟩⟩⟩⟩
  · rw [h']
    simp [addAssignment, semicolonWord, assignWord]

/-- Tokens are cut where their words are. -/
theorem exists_of_spellings_eq (h : spellings source ts = fs ++ w :: bs) :
    ∃ front t back, ts = front ++ t :: back ∧ spellings source front = fs ∧
      t.spelling source = w ∧ spellings source back = bs := by
  obtain ⟨front, rest, rfl, hfront, hrest⟩ := List.map_eq_append_iff.1 h
  obtain ⟨t, back, rfl, ht, hback⟩ := List.map_eq_cons_iff.1 hrest
  exact ⟨front, t, back, rfl, hfront, ht, hback⟩

end Token

open Token in
/-- If the words of an assignment are added to those of a text, the tokens of the text have gone
elsewhere, and so have those of the assignment. -/
theorem Relocation.exists_of_addAssignment {source source' : Source}
    {ts ms ts' : List Token} {fs bs : List (Terminal × String)}
    (known' : source'.origin ≠ .unknown) (hts : Apart ts) (hms : Apart ms) (hordered : Ordered ts')
    (hwords : spellings source ts = fs ++ semicolonWord :: bs)
    (hwords' : spellings source' ts' = addAssignment fs (spellings source ms) bs) :
    ∃ (g i : Relocation) (front back : List Token) (s a s' : Token),
      g.source = source' ∧ i.source = source' ∧ ts = front ++ s :: back ∧
      s.terminal = .punctuation .semicolon ∧ a.terminal = .keyword .assign ∧
      s'.terminal = .punctuation .semicolon ∧
      ts' = front.map (relocate g) ++ s.relocate g :: a :: (ms.map (relocate i) ++
        s' :: back.map (relocate g)) ∧
      (∀ t ∈ ts, (t.relocate g).spelling g.source = t.spelling source) ∧
      ∀ t ∈ ms, (t.relocate i).spelling i.source = t.spelling source := by
  obtain ⟨front, s, back, rfl, hfront, hs, hback⟩ := exists_of_spellings_eq hwords
  obtain ⟨front', s', rest, rfl, hfront', hs', hrest⟩ := exists_of_spellings_eq hwords'
  obtain ⟨a, rest, rfl, ha, hrest⟩ := List.map_eq_cons_iff.1 hrest
  obtain ⟨ms', s'', back', rfl, hms', hs'', hback'⟩ := exists_of_spellings_eq hrest
  -- the tokens around the assignment are those of the text
  have hkept : (front' ++ s' :: back').Sublist (front' ++ s' :: a :: (ms' ++ s'' :: back')) := by
    refine (List.Sublist.refl front').append (.cons_cons s' (.cons a ?_))
    exact (List.sublist_cons_self s'' back').trans (List.sublist_append_right ms' _)
  have hadded : ms'.Sublist (front' ++ s' :: a :: (ms' ++ s'' :: back')) := by
    refine List.Sublist.trans (.cons s' (.cons a ?_)) (List.sublist_append_right front' _)
    exact List.sublist_append_left ms' _
  have hsame : spellings source' (front' ++ s' :: back') =
      spellings source (front ++ s :: back) := by
    rw [hwords, spellings, List.map_append, List.map_cons]
    exact congr (congrArg _ hfront') (congr (congrArg _ hs') hback')
  obtain ⟨g, hgsource, hg, hgspelled⟩ :=
    exists_of_spellings known' hts (hordered.sublist hkept) hsame
  obtain ⟨i, hisource, rfl, hispelled⟩ :=
    exists_of_spellings known' hms (hordered.sublist hadded) hms'
  have hlength : (front.map (relocate g)).length = front'.length := by
    have hlengths := congrArg List.length (hfront'.trans hfront.symm)
    simpa [spellings] using hlengths.symm
  rw [List.map_append, List.map_cons] at hg
  obtain ⟨rfl, htail⟩ := List.append_inj hg hlength
  obtain ⟨rfl, rfl⟩ := List.cons.inj htail
  exact ⟨g, i, front, back, s, a, s'', hgsource, hisource, rfl, congrArg Prod.fst hs,
    congrArg Prod.fst ha, congrArg Prod.fst hs'', rfl, hgspelled, hispelled⟩

namespace Grammar.SourceFile

open Token (Scans Apart spellings semicolonWord addAssignment)

variable {source source' : Source} {us ts' : List Token} {children : List Tree} {offset : Nat}
  {closing : Key .endmodule} {fs bs : List (Terminal × String)}

/-! ## Files of one module -/

/-- A text that is a module, and nothing else, is read as this module. -/
theorem Opens.parseFile_eq (h : Opens source offset us children) (e : Key .endmodule)
    (hscans : Scans 0 source.contents (us ++ [e.1]) []) : parseFile source =
      .ok (nodeOver source .sourceFile 0 source.byteLength
        [moduleNode source offset e.1.stop children]) :=
  parseFile_eq_ok_iff.2 ⟨_, _, tokens_eq_ok_iff.2 hscans, h.finish e, rfl⟩

/-- The module keeps its words where its tokens keep them. -/
theorem Opens.keeps {g : Relocation} (h : Opens source offset us children) (e : Key .endmodule)
    (known : source.origin ≠ .unknown)
    (hspelled : ∀ t ∈ us ++ [e.1], (t.relocate g).spelling g.source = t.spelling source) :
    g.Keeps False (moduleNode source offset e.1.stop children) := by
  obtain ⟨d, hyield, htrees⟩ := h.opening.module e
  have hbuilt : Built source true d.yield (d.trees source) := d.built source fun _ => rfl
  rw [hyield, htrees] at hbuilt
  exact hbuilt.keeps known hspelled _ List.mem_cons_self

/-! ## One item more -/

/-- Behind a semicolon, where there is one, there is the keyword that ends the module. -/
theorem exists_of_semicolon {front back : List Token} {s : Token}
    (hs : s.terminal = .punctuation .semicolon) (h : us ++ [closing.1] = front ++ s :: back) :
    ∃ more, us = front ++ s :: more ∧ back = more ++ [closing.1] := by
  rcases List.eq_nil_or_concat back with rfl | ⟨more, z, rfl⟩
  · obtain ⟨-, heq⟩ := List.append_inj' h rfl
    have hclosing := closing.2
    rw [(List.cons.inj heq).1, hs] at hclosing
    cases hclosing
  · rw [List.concat_eq_append] at h ⊢
    rw [← List.cons_append, ← List.append_assoc] at h
    obtain ⟨rfl, heq⟩ := List.append_inj' h rfl
    exact ⟨more, rfl, by rw [heq]⟩

/-- An assignment with its keyword and its semicolon adds a node. -/
theorem adds_assignment (source : Source) (offset : Nat) {a s : Token}
    (ha : a.terminal = .keyword .assign)
    (hs : s.terminal = .punctuation .semicolon) (d : Phrase .assignment) :
    ∃ l, Adds source offset (a :: (d.yield ++ [s])) [.node .continuousAssign l (d.trees source)] := by
  have hadds : Adds source offset (a :: d.yield ++ [s]) [assignsNode source a.start (d.trees source)] :=
    adds_item (.assignsItem (.continuousAssign ⟨a, ha⟩ (.one d)) ⟨s, hs⟩)
  exact ⟨_, hadds⟩

/-- If the words of an assignment are put behind a semicolon of a module, the text is that of the
module with the assignment put in. The other nodes of the module have gone to where their words
are, and so has the assignment. -/
theorem Opens.exists_putsIn {target value : Tree} {place : Location}
    (known : source.origin ≠ .unknown) (known' : source'.origin ≠ .unknown)
    (h : Opens source offset us children) (hapart : Apart (us ++ [closing.1]))
    (hscans : Scans 0 source'.contents ts' []) (d : Phrase .assignment) (hd : Apart d.yield)
    (htrees : d.trees source = [.node .netAssignment place [target, value]])
    (hwords : spellings source (us ++ [closing.1]) = fs ++ semicolonWord :: bs)
    (hwords' : spellings source' ts' = addAssignment fs (spellings source d.yield) bs) :
    ∃ (g i : Relocation) (v : Tree),
      parseFile source' = .ok (nodeOver source' .sourceFile 0 source'.byteLength [v]) ∧
      g.Keeps False (moduleNode source offset closing.1.stop children) ∧
      i.Keeps False (.node .netAssignment place [target, value]) ∧
      PutsIn (target.relocate i) (value.relocate i)
        (.node .netAssignment (i.location place) [target.relocate i, value.relocate i])
        ((moduleNode source offset closing.1.stop children).relocate g) v := by
  have hordered := (Token.inOrder_of_scans hscans).ordered
  obtain ⟨g, i, front, back, s, a, s', rfl, hisource, hcut, hs, ha, hs', rfl, hgspelled,
    hispelled⟩ := Relocation.exists_of_addAssignment known' hapart hd hordered hwords hwords'
  obtain ⟨more, rfl, rfl⟩ := exists_of_semicolon hs hcut
  obtain ⟨x, y, hx, hy, rfl⟩ := h.cut hs
  -- the parts of the module in front of the assignment and behind it, and the assignment
  have hx' := hx.relocate g known
  have hy' := hy.relocate g known
  obtain ⟨l, hassign⟩ := adds_assignment g.source (g.place offset) ha hs' (d.relocate i)
  have htrees' : (d.relocate i).trees g.source =
      [.node .netAssignment (i.location place) [target.relocate i, value.relocate i]] := by
    rw [← hisource, d.trees_relocate i known, htrees]
    rfl
  rw [d.yield_relocate, htrees'] at hassign
  have hopens := hx'.append (hassign.append hy')
  let e : Key .endmodule := ⟨closing.1.relocate g, closing.2⟩
  have hparse := hopens.parseFile_eq e (by simpa using hscans)
  refine ⟨g, i, _, hparse, h.keeps closing known hgspelled, ?_, ?_⟩
  · have hbuilt : Built source false d.yield (d.trees source) := d.built source nofun
    rw [htrees] at hbuilt
    exact hbuilt.keeps known hispelled _ List.mem_cons_self
  · rw [moduleNode, nodeOver, Tree.relocate_node, List.map_append]
    exact .intro _ _ l _ _ _

end Grammar.SourceFile

end Netlist
