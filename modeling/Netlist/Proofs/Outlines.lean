/-
Trees without their places.

What a tree says apart from where it stands is its outline: the kinds of its nodes, and the texts of
those that have no children. Where words are carried over with their texts, the outline stays
(`Tree.outline_relocate`), and so all texts of the same words are read as trees of one outline
(`Grammar.exists_parseFile_of_spellings`), whatever blanks stand between the words.
-/
import Netlist.Proofs.Layout
import Netlist.Proofs.MovedDefinitions
import Netlist.Proofs.RelocatedReaders

set_option autoImplicit false

namespace Netlist

namespace Tree

mutual

/-- The tree put together by hand: it has the same kinds, and the same texts at its ends. -/
def outline : Tree → Tree
  | node k l [] => leaf k l.text
  | node k _ (t :: ts) => branch k (outline t :: outlineAll ts)

/-- The outlines of a row of trees. -/
def outlineAll : List Tree → List Tree
  | [] => []
  | t :: ts => outline t :: outlineAll ts

end

variable {g : Relocation} {k : NodeKind} {l : Location} {t : Tree} {ts : List Tree}

theorem outlineAll_eq_map (ts : List Tree) : outlineAll ts = ts.map outline := by
  induction ts with
  | nil => rfl
  | cons t ts ih => rw [outlineAll, ih, List.map_cons]

@[simp] theorem outline_leaf (k : NodeKind) (l : Location) :
    (node k l []).outline = leaf k l.text := by
  rw [outline]

@[simp] theorem outline_cons (k : NodeKind) (l : Location) (t : Tree) (ts : List Tree) :
    (node k l (t :: ts)).outline = branch k (t.outline :: ts.map outline) := by
  rw [outline, outlineAll_eq_map]

/-- The outline of a node is given by those of its children, if it has any. -/
theorem outline_congr {l' : Location} {us : List Tree} (hne : ts ≠ [])
    (h : us.map outline = ts.map outline) : (node k l' us).outline = (node k l ts).outline := by
  obtain ⟨t, ts, rfl⟩ := List.exists_cons_of_ne_nil hne
  rw [List.map_cons] at h
  obtain ⟨u, us, rfl, hu, hus⟩ := List.map_eq_cons_iff.1 h
  rw [outline_cons, outline_cons, hu, hus]

/-- A tree whose words keep their texts keeps its outline. -/
theorem outline_relocate (h : g.Keeps False t) (hl : Lacks .error t) :
    (t.relocate g).outline = t.outline := by
  rw [Relocation.Keeps] at h
  induction h with
  | @intro k l ts hnode _ ih =>
    rw [relocate_node]
    cases ts with
    | nil =>
      rw [List.map_nil, outline_leaf, outline_leaf]
      exact congrArg _ (hnode (.inr ⟨rfl, hl.1⟩))
    | cons t ts =>
      have hchildren := lacks_of_descendantsIn_eq_nil hl.2
      refine outline_congr (List.cons_ne_nil t ts) ?_
      rw [List.map_map]
      exact List.map_congr_left fun u hu => ih u hu (hchildren u hu)

end Tree

namespace Grammar

open Token (Scans Apart Ordered spellings spelling)

variable {source source' : Source} {ts' : List Token}

/-- The modules of a text keep their outlines where its words keep their texts. -/
theorem map_outline_relocate {g : Relocation} {us : List Token} {modules : List Tree}
    (known : source.origin ≠ .unknown)
    (hread : (SourceFile.start.run source us).finish source = .ok modules)
    (hscans : Scans 0 source.contents us []) (hwhole : ∀ m ∈ modules, m.Whole)
    (hspelled : ∀ t ∈ us, (t.relocate g).spelling g.source = t.spelling source) :
    (modules.map (Tree.relocate g)).map Tree.outline = modules.map Tree.outline := by
  have hroot := parseFile_eq_ok_iff.2 ⟨us, modules, tokens_eq_ok_iff.2 hscans, hread, rfl⟩
  have hnil := (isFile_of_parseFile hroot).descendants_error_eq_nil_iff.2 hwhole
  obtain ⟨ds, rfl, rfl⟩ := SourceFile.exists_phrase_of_finish hread
  have hbuilt : Built source true ds.yield (ds.trees source) := ds.built source fun _ => rfl
  have hkeeps := hbuilt.keeps known hspelled
  rw [List.map_map]
  exact List.map_congr_left fun m hm =>
    Tree.outline_relocate (hkeeps m hm) (Tree.lacks_of_descendantsIn_eq_nil hnil m hm)

/-- A text of the words of a derivation without recovery is read as a tree of the same outline. Both
are read as a text of these words is in which no two words touch. -/
theorem exists_parseFile_of_spellings (known : source.origin ≠ .unknown)
    (known' : source'.origin ≠ .unknown) (ds : Phrase (.many (.module false)))
    (hordered : Ordered ds.yield) (hscans : Scans 0 source'.contents ts' [])
    (hwords : spellings source' ts' = spellings source ds.yield) :
    ∃ modules, parseFile source' = .ok (nodeOver source' .sourceFile 0 source'.byteLength modules) ∧
      modules.map Tree.outline = (ds.trees source).map Tree.outline := by
  -- both texts come from one in which a blank stands between any two words
  obtain ⟨spread, us, hspread, husscans, hapart, hus⟩ := Token.exists_spaced hscans
  obtain ⟨g, rfl, hg, hgspelled⟩ :=
    Relocation.exists_of_spellings known hapart hordered (hwords.symm.trans hus.symm)
  obtain ⟨g', rfl, rfl, hspelled'⟩ :=
    Relocation.exists_of_spellings known' hapart (Token.inOrder_of_scans hscans).ordered hus.symm
  have hfinish := ds.finish_run g.source
  rw [← hg] at hfinish
  obtain ⟨modules, hread, hmodules⟩ := (SourceFile.finish_run_relocate_eq_ok_iff g hspread).1 hfinish
  have hwhole : ∀ m ∈ modules, m.Whole := by
    intro m hm
    rw [← Tree.whole_relocate_iff g]
    apply Phrase.forall_trees_many (Phrase.plain_module_whole g.source) ds
    rw [← hmodules]
    exact List.mem_map_of_mem hm
  have hread' := (SourceFile.finish_run_relocate_eq_ok_iff g' hspread).2 ⟨modules, hread, rfl⟩
  refine ⟨modules.map (Tree.relocate g'),
    parseFile_eq_ok_iff.2 ⟨_, _, tokens_eq_ok_iff.2 hscans, hread', rfl⟩, ?_⟩
  rw [← hmodules, map_outline_relocate hspread hread husscans hwhole hgspelled,
    map_outline_relocate hspread hread husscans hwhole hspelled']

end Grammar

end Netlist
