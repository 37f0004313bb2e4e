/-
Recovery is invisible where nothing is wrong, and visible where something is.

Recovery is a production of items that leaves an error node among the children of the module. A
module without error nodes is therefore derived without that production (`exists_plain_module`), and
what is derived without it has no error nodes, so the two grammars of files differ only in texts
that leave one (`parseFile_without_errors_iff`). The tokens of a module are those between its ends,
since all tokens of a text stand in order.
-/
import Netlist.Proofs.Loading
import Netlist.Proofs.ParseExpressions
import Netlist.Proofs.RunPhrases
import Netlist.Proofs.Spans

set_option autoImplicit false

namespace Netlist

namespace Tree

variable {k : NodeKind} {t : Tree} {ts : List Tree}

/-- The module has no part that was recovered. -/
def Whole (t : Tree) : Prop :=
  ∀ c ∈ t.children, c.kind ≠ .error

theorem lacks_of_descendantsIn_eq_nil (h : descendantsIn k ts = []) : ∀ t ∈ ts, Lacks k t := by
  induction ts with
  | nil => exact nofun
  | cons t ts ih =>
    rw [descendantsIn] at h
    split at h
    · cases h
    · next hk =>
      obtain ⟨ht, hts⟩ := List.append_eq_nil_iff.1 h
      exact List.forall_mem_cons.2 ⟨⟨hk, ht⟩, ih hts⟩

theorem IsModule.descendants_error_eq_nil_iff (h : t.IsModule) :
    t.descendants .error = [] ↔ t.Whole := by
  rw [h.descendants_eq_childrenOf rfl, childrenOf, List.filter_eq_nil_iff]
  simp only [beq_iff_eq]
  rfl

theorem IsFile.descendants_error_eq_nil_iff (h : t.IsFile) :
    t.descendants .error = [] ↔ ∀ m ∈ t.children, m.Whole := by
  obtain ⟨hmodules⟩ := h
  rw [descendants, children_node]
  constructor
  · intro hnil m hm
    exact (hmodules m hm).descendants_error_eq_nil_iff.1
      (lacks_of_descendantsIn_eq_nil hnil m hm).2
  · intro hwhole
    apply descendantsIn_eq_nil
    intro m hm
    refine ⟨?_, (hmodules m hm).descendants_error_eq_nil_iff.2 (hwhole m hm)⟩
    obtain ⟨_⟩ := hmodules m hm
    intro hkind
    cases hkind

end Tree

/-- A module with error nodes is not loaded. -/
theorem Module.descendants_error_of_select {root t : Tree} {top : Option String}
    (h : select root top = .ok t) : t.descendants .error = [] := by
  unfold select at h
  split at h
  · cases h
  · obtain ⟨chosen, -, h⟩ := exists_of_bind_eq_ok h
    split at h
    · next hnil =>
      cases h
      exact hnil
    · cases h

namespace Grammar

variable {source : Source} {ts : List Token} {root : Tree}

/-! ## What is read as a file -/

/-- A file that is read is derived in the grammar that recovers. -/
theorem exists_phrase_of_parseFile (h : parseFile source = .ok root) :
    ∃ ts, Token.Scans 0 source.contents ts [] ∧ ∃ ds : Phrase (.many (.module true)),
      ds.yield = ts ∧
        root = nodeOver source .sourceFile 0 source.byteLength (ds.trees source) := by
  obtain ⟨ts, modules, hts, hfinish, rfl⟩ := parseFile_eq_ok_iff.1 h
  obtain ⟨ds, hyield, htrees⟩ := SourceFile.exists_phrase_of_finish hfinish
  exact ⟨ts, tokens_eq_ok_iff.1 hts, ds, hyield, by rw [htrees]⟩

/-- A text that is derived without recovery is read. -/
theorem parseFile_of_phrase (ds : Phrase (.many (.module false)))
    (h : Token.Scans 0 source.contents ds.yield []) : parseFile source =
      .ok (nodeOver source .sourceFile 0 source.byteLength (ds.trees source)) :=
  parseFile_eq_ok_iff.2 ⟨_, _, tokens_eq_ok_iff.2 h, ds.finish_run source, rfl⟩

/-! ## Recovered items -/

namespace Phrase

/-- The same tokens and trees as those of another phrase. -/
def Agrees (source : Source) {x y : Symbol} (d : Phrase x) (d' : Phrase y) : Prop :=
  d'.yield = d.yield ∧ d'.trees source = d.trees source

/-- An item that is no error node is derived without recovery. -/
theorem exists_plain_item (d : Phrase (.item true)) (h : ∀ t ∈ d.trees source, t.kind ≠ .error) :
    ∃ d' : Phrase (.item false), d.Agrees source d' := by
  cases d with
  | portsItem d s => exact ⟨.portsItem d s, rfl, rfl⟩
  | netsItem d s => exact ⟨.netsItem d s, rfl, rfl⟩
  | assignsItem d s => exact ⟨.assignsItem d s, rfl, rfl⟩
  | spoiled before refused dropped s => exact absurd rfl (h _ List.mem_cons_self)
  | cutShort before s => exact absurd rfl (h _ List.mem_cons_self)

/-- What holds of one phrase holds of many. -/
theorem exists_plain_many {x y : Symbol} {P : Tree → Prop}
    (hx : ∀ d : Phrase x, (∀ t ∈ d.trees source, P t) → ∃ d' : Phrase y, d.Agrees source d') :
    (ds : Phrase (.many x)) → (∀ t ∈ ds.trees source, P t) →
      ∃ ds' : Phrase (.many y), ds.Agrees source ds'
  | .none, _ => ⟨.none, rfl, rfl⟩
  | .snoc ds d, h => by
    rw [trees, List.forall_mem_append] at h
    obtain ⟨ds', hsyield, hstrees⟩ := exists_plain_many hx ds h.1
    obtain ⟨d', hyield, htrees⟩ := hx d h.2
    refine ⟨.snoc ds' d', ?_, ?_⟩
    · rw [yield, yield, hsyield, hyield]
    · rw [trees, trees, hstrees, htrees]

/-- A module without error nodes is derived without recovery. -/
theorem exists_plain_module (d : Phrase (.module true)) (h : ∀ t ∈ d.trees source, t.Whole) :
    ∃ d' : Phrase (.module false), d.Agrees source d' := by
  cases d with
  | module k name listed s items e =>
    have hwhole := h _ List.mem_cons_self
    have hitems : ∀ t ∈ items.trees source, t.kind ≠ .error := by
      intro t ht
      exact hwhole t (List.mem_cons_of_mem _ (List.mem_append_right _ ht))
    obtain ⟨items', hyield, htrees⟩ := exists_plain_many exists_plain_item items hitems
    refine ⟨.module k name listed s items' e, ?_, ?_⟩
    · rw [yield, yield, hyield]
    · rw [trees, trees, htrees]

/-! ## What is derived without recovery -/

/-- A declaration of ports has children, so that it is no leaf when it grows. -/
theorem portDeclaration_trees (source : Source) : (d : Phrase .portDeclaration) →
    ∃ node, d.trees source = [node] ∧ node.kind = .portDeclaration ∧ node.children ≠ []
  | .port (.portHead d ty r name) => by
    obtain ⟨l, hl⟩ := Tree.spanning_eq_node .portDeclaration
      (tokenNode source .portDirection d.1 ::
        (ty.trees source ++ (r.trees source ++ [tokenNode source .simpleIdentifier name.1])))
    refine ⟨_, rfl, Tree.kind_spanning _ _, ?_⟩
    rw [hl]
    exact List.cons_ne_nil _ _
  | .nextPort d s name => by
    obtain ⟨node, hnode, hkind, hchildren⟩ := portDeclaration_trees source d
    refine ⟨node.extend (tokenNode source .simpleIdentifier name.1), ?_, hkind, ?_⟩
    · rw [trees, hnode]
      rfl
    · exact List.append_ne_nil_of_left_ne_nil hchildren _

theorem plain_item_kind (source : Source) : (d : Phrase (.item false)) →
    ∀ t ∈ d.trees source, t.kind ≠ .error
  | .portsItem d s, t, ht => by
    obtain ⟨node, hnode, hkind, -⟩ := portDeclaration_trees source d
    rw [trees, hnode, List.mem_singleton] at ht
    rw [ht, hkind]
    exact nofun
  | .netsItem (.netDeclaration ty r items) s, t, ht => by
    rw [trees, trees, List.mem_singleton] at ht
    rw [ht, Tree.kind_spanning]
    exact nofun
  | .assignsItem (.continuousAssign k items) s, t, ht => by
    rw [trees, trees, List.mem_singleton] at ht
    rw [ht]
    exact nofun

theorem forall_trees_many {x : Symbol} {P : Tree → Prop}
    (hx : ∀ d : Phrase x, ∀ t ∈ d.trees source, P t) :
    (ds : Phrase (.many x)) → ∀ t ∈ ds.trees source, P t
  | .none => nofun
  | .snoc ds d => List.forall_mem_append.2 ⟨forall_trees_many hx ds, hx d⟩

end Phrase

namespace Ports

/-- Only declarations stand among the declarations. -/
def Sorted (ports : Ports) : Prop :=
  ∀ t ∈ ports.declared, t.kind = .portDeclaration

variable {ports : Ports}

theorem Sorted.add (h : ports.Sorted) (item : Tree) : (ports.add item).Sorted := by
  unfold Ports.add
  split
  · next hkind => exact List.forall_mem_append.2 ⟨h, List.forall_mem_singleton.2 hkind⟩
  · unfold Ports.addName
    split
    · next last hlast =>
      -- the last declaration grows, and stays one
      have hkind : (last.extend item).kind = .portDeclaration := h last (List.mem_of_getLast? hlast)
      refine List.forall_mem_append.2 ⟨?_, List.forall_mem_singleton.2 hkind⟩
      intro t ht
      exact h t (List.dropLast_subset _ ht)
    · exact h

theorem sorted_ofItems (items : List Tree) : (ofItems items).Sorted :=
  List.foldlRecOn items add nofun fun _ h item _ => Sorted.add h item

theorem Sorted.nodes_kind (h : ports.Sorted) : ∀ t ∈ ports.nodes, t.kind ≠ .error := by
  have hdeclared : ∀ t ∈ ports.declared, t.kind ≠ .error := by
    intro t ht
    rw [h t ht]
    exact nofun
  unfold Ports.nodes
  split
  · exact hdeclared
  · refine List.forall_mem_cons.2 ⟨?_, hdeclared⟩
    rw [Tree.kind_spanning]
    exact nofun

end Ports

namespace Phrase

theorem ports_kind (source : Source) : (d : Phrase (.optional .ports)) →
    ∀ t ∈ d.trees source, t.kind ≠ .error
  | .absent => nofun
  | .present (.noPorts _ _) => nofun
  | .present (.ports _ items _) => (Ports.sorted_ofItems (items.trees source)).nodes_kind

/-- A module that is derived without recovery has no error nodes. -/
theorem plain_module_whole (source : Source) : (d : Phrase (.module false)) →
    ∀ t ∈ d.trees source, t.Whole
  | .module k name listed s items e => by
    have hparts : ∀ t ∈ listed.trees source ++ items.trees source, t.kind ≠ .error :=
      List.forall_mem_append.2
        ⟨ports_kind source listed, forall_trees_many (plain_item_kind source) items⟩
    intro t ht
    rw [trees, List.mem_singleton] at ht
    rw [ht]
    intro c hc
    rcases List.mem_cons.1 hc with rfl | hc
    · exact nofun
    · exact hparts c hc

end Phrase

/-- The texts that are read without error nodes are those derived without recovery, and the trees
are those of the derivations. -/
theorem parseFile_without_errors_iff :
    parseFile source = .ok root ∧ root.descendants .error = [] ↔
      ∃ ts, Token.Scans 0 source.contents ts [] ∧ ∃ ds : Phrase (.many (.module false)),
        ds.yield = ts ∧
          root = nodeOver source .sourceFile 0 source.byteLength (ds.trees source) := by
  constructor
  · rintro ⟨hroot, hnil⟩
    have hwhole := (isFile_of_parseFile hroot).descendants_error_eq_nil_iff.1 hnil
    obtain ⟨ts, hts, ds, hyield, htree⟩ := exists_phrase_of_parseFile hroot
    rw [htree] at hwhole
    obtain ⟨ds', hyield', htrees'⟩ :=
      Phrase.exists_plain_many Phrase.exists_plain_module ds hwhole
    exact ⟨ts, hts, ds', hyield'.trans hyield, by rw [htree, htrees']⟩
  · rintro ⟨_, hts, ds, rfl, htree⟩
    have hroot := parseFile_of_phrase ds hts
    rw [← htree] at hroot
    refine ⟨hroot, (isFile_of_parseFile hroot).descendants_error_eq_nil_iff.2 ?_⟩
    rw [htree]
    exact Phrase.forall_trees_many (Phrase.plain_module_whole source) ds

/-! ## The tokens of a module -/

/-- A tree of many phrases is that of one of them. -/
theorem Phrase.exists_of_mem_trees {x : Symbol} {t : Tree} : (ds : Phrase (.many x)) →
    t ∈ ds.trees source → ∃ before : Phrase (.many x), ∃ d : Phrase x, ∃ after,
      ds.yield = before.yield ++ (d.yield ++ after) ∧ t ∈ d.trees source
  | .none, ht => nomatch ht
  | .snoc ds d, ht => by
    rcases List.mem_append.1 ht with ht | ht
    · obtain ⟨before, d', after, hyield, hmem⟩ := exists_of_mem_trees ds ht
      refine ⟨before, d', after ++ d.yield, ?_, hmem⟩
      rw [yield, hyield, List.append_assoc, List.append_assoc]
    · exact ⟨ds, d, [], by rw [yield, List.append_nil], ht⟩

/-- The tokens within a module without error nodes are derived without recovery. -/
theorem exists_plain_module_of_mem {t : Tree} (hroot : parseFile source = .ok root)
    (ht : t ∈ root.descendants .moduleDeclaration) (hnil : t.descendants .error = []) :
    ∃ ts, Token.Scans 0 source.contents ts [] ∧ ∃ d : Phrase (.module false),
      d.yield = ts.filter (Token.isWithin · t.location) ∧ d.trees source = [t] := by
  have hfile := isFile_of_parseFile hroot
  rw [hfile.descendants_eq_children] at ht
  have hwhole := (hfile.isModule t ht).descendants_error_eq_nil_iff.1 hnil
  obtain ⟨ts, hts, ds, hyield, rfl⟩ := exists_phrase_of_parseFile hroot
  obtain ⟨before, d, after, hyield', ht⟩ := ds.exists_of_mem_trees ht
  rw [← hyield, hyield'] at hts
  have horder := Token.inOrder_of_scans hts
  refine ⟨_, hts, ?_⟩
  cases d with
  | module k name listed s items e =>
    obtain rfl := List.mem_singleton.1 ht
    obtain ⟨d', hyield, htrees⟩ := Phrase.exists_plain_module (.module k name listed s items e)
      (List.forall_mem_singleton.2 hwhole)
    -- the module spans from its first token to its last, and tokens stand in order
    have hspan : (Phrase.module k name listed s items e).yield =
        k.1 :: (name.1 :: (listed.yield ++ s.1 :: items.yield) ++ [e.1]) := by
      simp [Phrase.yield]
    refine ⟨d', ?_, htrees⟩
    rw [hspan] at horder hyield ⊢
    rw [hyield]
    exact horder.filter_isWithin.symm

/-- Recovery does not show where it is not needed, and is seen where it is. A text is read without
error nodes just if it is derived without recovery, and the tokens within a module that is loaded
are derived without recovery. -/
theorem parseFile_recovery (source : Source) :
    ((∃ root, parseFile source = .ok root ∧ root.descendants .error = []) ↔
      ∃ ts, Token.Scans 0 source.contents ts [] ∧
        ∃ ds : Phrase (.many (.module false)), ds.yield = ts) ∧
    ∀ top s, (Module.load source top).run.value = .ok s →
      ∃ root t ts, parseFile (Module.codeOf source) = .ok root ∧ Module.select root top = .ok t ∧
        Token.Scans 0 (Module.codeOf source).contents ts [] ∧
        ∃ d : Phrase (.module false), d.yield = ts.filter (Token.isWithin · t.location) ∧
          d.trees (Module.codeOf source) = [t] := by
  constructor
  · constructor
    · rintro ⟨root, hroot⟩
      obtain ⟨ts, hts, ds, hyield, -⟩ := parseFile_without_errors_iff.1 hroot
      exact ⟨ts, hts, ds, hyield⟩
    · rintro ⟨ts, hts, ds, hyield⟩
      exact ⟨_, parseFile_without_errors_iff.2 ⟨ts, hts, ds, hyield, rfl⟩⟩
  · intro top s hload
    obtain ⟨root, t, hroot, hselect, -⟩ := Module.of_load_eq_ok hload
    obtain ⟨ts, hts, hd⟩ := exists_plain_module_of_mem hroot (Module.mem_of_select_eq_ok hselect)
      (Module.descendants_error_of_select hselect)
    exact ⟨root, t, ts, hroot, hselect, hts, hd⟩

end Grammar

end Netlist
