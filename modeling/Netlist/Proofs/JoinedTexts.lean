/-
Texts that stand one behind the other.

Where each of several texts is read as a file, the text in which they stand on lines of their own is
read as the modules of all of them: a module ends only before another one or at the end of the text,
so what is open behind one text is closed by the next, and the modules that are complete have no say
in what follows (`finish_run_append`). Each module goes with all its texts (`Carried`), so loading
finds the first text that has the wanted module, and goes on as it does with that text alone
(`load_joined`).
-/
import Netlist.Proofs.Fidelity
import Netlist.Proofs.Gaps
import Netlist.Proofs.RelocatedLoading
import Netlist.Proofs.Stripping

set_option autoImplicit false

namespace Netlist

variable {source : Source}

/-! ## Modules in front -/

namespace Grammar.SourceFile

variable {ms ns : List Tree} {ts : List Token} {f : SourceFile}

/-- The file with more modules in front. -/
def after (ms : List Tree) (f : SourceFile) : SourceFile :=
  ⟨ms ++ f.modules, f.place⟩

theorem refuse_after (ms : List Tree) (f : SourceFile) (start : Nat) (children : List Tree)
    (t : Token) :
    (f.after ms).refuse source start children t = (f.refuse source start children t).after ms := by
  unfold refuse
  split <;> rfl

/-- The modules that are complete have no say in what a token does. -/
theorem step_after (ms : List Tree) (f : SourceFile) (t : Token) :
    (f.after ms).step source t = (f.step source t).after ms := by
  obtain ⟨modules, place⟩ := f
  cases place with
  | outside =>
    simp only [step, after]
    split <;> rfl
  | header start h =>
    simp only [step, after]
    rcases h.step source t with _ | next | children <;> rfl
  | body start children item =>
    by_cases hend : item = .blank ∧ t.terminal = .keyword .endmodule
    · obtain ⟨rfl, hkey⟩ := hend
      simp only [step, after, hkey]
      rfl
    · have hoffered : item = .blank → t.terminal ≠ .keyword .endmodule := fun hitem hkey =>
        hend ⟨hitem, hkey⟩
      have hafter : (⟨modules, .body start children item⟩ : SourceFile).after ms =
          ⟨ms ++ modules, .body start children item⟩ := rfl
      rw [hafter, step_body_offered hoffered, step_body_offered hoffered]
      rcases item.step source t with _ | next | node
      · exact refuse_after ms ⟨modules, .body start children item⟩ start children t
      · rfl
      · rfl
  | closed start stop children =>
    simp only [step, after]
    split
    · simp
    · exact refuse_after ms ⟨modules, .closed start stop children⟩ start children t
  | spoiled start children refused stop =>
    simp only [step, after]
    split <;> rfl
  | lost refused => rfl

theorem run_after (ms : List Tree) (f : SourceFile) (ts : List Token) :
    (f.after ms).run source ts = (f.run source ts).after ms := by
  induction ts generalizing f with
  | nil => rfl
  | cons t ts ih =>
    rw [run_cons, step_after, ih, run_cons]

theorem finish_after (h : f.finish source = .ok ns) :
    (f.after ms).finish source = .ok (ms ++ ns) := by
  obtain ⟨modules, place⟩ := f
  cases place with
  | outside =>
    cases h
    rfl
  | closed start stop children =>
    cases h
    exact congrArg Except.ok (List.append_assoc _ _ _)
  | _ => cases h

/-- A token that spoiled the file spoils it for good. -/
theorem run_lost (modules : List Tree) (refused : Token) (ts : List Token) :
    (⟨modules, .lost refused⟩ : SourceFile).run source ts = ⟨modules, .lost refused⟩ := by
  induction ts with
  | nil => rfl
  | cons t ts ih => exact ih

/-- At the start of a file only the keyword of a module goes on. -/
theorem terminal_of_finish_run {t : Token}
    (h : (start.run source (t :: ts)).finish source = .ok ns) : t.terminal = .keyword .module := by
  by_contra hmodule
  have hlost : start.step source t = ⟨[], .lost t⟩ := by
    unfold step start
    dsimp only
    split
    · next hkey => exact absurd hkey hmodule
    · rfl
  rw [run_cons, hlost, run_lost] at h
  cases h

/-- Where a file may end, another one may follow. -/
theorem finish_run_append (hf : f.finish source = .ok ms)
    (hts : (start.run source ts).finish source = .ok ns) :
    (f.run source ts).finish source = .ok (ms ++ ns) := by
  cases ts with
  | nil =>
    obtain rfl : [] = ns := Except.ok.inj hts
    rw [List.append_nil]
    exact hf
  | cons t ts =>
    have ht := terminal_of_finish_run hts
    have hstart : start.finish source = .ok [] := rfl
    -- only the modules in front are different
    have hstep : f.step source t = (start.step source t).after ms := by
      rw [step_of_finish hf ⟨t, ht⟩, step_of_finish hstart ⟨t, ht⟩, after, List.append_nil]
    rw [run_cons] at hts ⊢
    rw [hstep, run_after]
    exact finish_after hts

end Grammar.SourceFile

/-! ## One text among others -/

/-- Everything moves back by an offset. -/
def Relocation.shift (source : Source) (known : source.origin ≠ .unknown) (offset : Nat) :
    Relocation where
  source := source
  place n := offset + n
  known := known
  mono h := Nat.add_le_add_left h offset

theorem Source.IsBoundary.le {offset : Nat} (h : source.IsBoundary offset) :
    offset ≤ source.byteLength := by
  obtain ⟨before, after, hcontents, rfl⟩ := h
  rw [byteLength, hcontents, Text.byteLength_append]
  exact Nat.le_add_right _ _

namespace Grammar

variable {code before after : List Char} {ms : List Tree} {root : Tree}

/-- Among other texts the nodes of a text have the text that they had. -/
theorem keeps_shift (hknown : source.origin ≠ .unknown)
    (hsource : source.contents = before ++ code ++ after)
    (hroot : parseFile (Source.ofChars code) = .ok root) :
    ∀ t ∈ root.children,
      (Relocation.shift source hknown (Text.byteLength before)).Keeps True t := by
  obtain ⟨modules, rfl, hspread⟩ := spread_of_parseFile
    (fun horigin => absurd horigin (Source.known_ofChars code)) hroot
  intro t ht
  refine (hspread.everywhere_isPlaced t ht).imp fun node hnode _ => ?_
  obtain ⟨k, ⟨src, start, stop⟩, children⟩ := node
  obtain rfl : src = Source.ofChars code := hnode.inSource
  have hshared : (Source.ofChars code).contents = [] ++ code ++ [] := (List.append_nil code).symm
  have hstop : stop ≤ Text.byteLength code := hnode.stop.le
  have htext := Location.text_eq_of_shared hshared hsource start hstop
  have hlocation : (Relocation.shift source hknown (Text.byteLength before)).location
      ⟨Source.ofChars code, start, stop⟩ =
        ⟨source, Text.byteLength before + start, Text.byteLength before + stop⟩ :=
    Relocation.location_mk _ (Source.known_ofChars code) start stop
  rw [Tree.text, Tree.location_node, hlocation, htext, Text.byteLength_nil, Nat.zero_add,
    Nat.zero_add]

/-- The modules are those of the text elsewhere, with the texts that they had. -/
def Carried (code : List Char) (ms : List Tree) : Prop :=
  ∃ root g, parseFile (Source.ofChars code) = .ok root ∧
    (∀ t ∈ root.children, Relocation.Keeps g True t) ∧ ms = root.children.map (Tree.relocate g)

/-- Among other texts a text is read as its modules. -/
theorem exists_carried (hknown : source.origin ≠ .unknown)
    (hsource : source.contents = before ++ code ++ after)
    (hroot : parseFile (Source.ofChars code) = .ok root) :
    ∃ us ms, Token.scanFrom (Text.byteLength before) code = .ok us ∧
      (SourceFile.start.run source us).finish source = .ok ms ∧ Carried code ms := by
  have hkeeps := keeps_shift hknown hsource hroot
  generalize hg : Relocation.shift source hknown (Text.byteLength before) = g at hkeeps
  obtain ⟨ts, modules, hts, hfinish, rfl⟩ := parseFile_eq_ok_iff.1 hroot
  have hscan : Token.scanFrom 0 code = .ok ts := Token.scan_eq_ok_iff.2 (tokens_eq_ok_iff.1 hts)
  have hplace : ∀ n ≤ Text.byteLength code, g.place (0 + n) = Text.byteLength before + n := by
    intro n _
    rw [Nat.zero_add, ← hg]
    rfl
  have hscan' := Token.scanFrom_relocate hplace
  rw [hscan] at hscan'
  have hrun := SourceFile.run_relocate g (Source.known_ofChars code) .start ts
  have hfinish' := SourceFile.finish_relocate g (Source.known_ofChars code)
    (SourceFile.start.run (Source.ofChars code) ts)
  rw [hfinish, ← hrun, ← hg] at hfinish'
  rw [← hg] at hscan' hkeeps
  exact ⟨_, _, hscan', hfinish', _, _, hroot, hkeeps, rfl⟩

/-! ## All the texts -/

/-- The texts on lines of their own are read as the modules of all of them. The induction is on the
texts; `before` is what stands before them, and `f` is what has been read of it. -/
theorem exists_carried_of_lines {codes : List (List Char)} {f : SourceFile}
    (hknown : source.origin ≠ .unknown)
    (hsource : source.contents = before ++ ['\n'].intercalate codes)
    (hf : f.finish source = .ok ms)
    (hparse : ∀ code ∈ codes, ∃ root, parseFile (Source.ofChars code) = .ok root) :
    ∃ us nss, Token.scanFrom (Text.byteLength before) (['\n'].intercalate codes) = .ok us ∧
      (f.run source us).finish source = .ok (ms ++ nss.flatten) ∧
      List.Forall₂ Carried codes nss := by
  induction codes generalizing before f ms with
  | nil =>
    refine ⟨[], [], ?_, ?_, .nil⟩
    · rw [List.intercalate_nil, Token.scanFrom]
    · rw [List.flatten_nil, List.append_nil]
      exact hf
  | cons code codes ih =>
    obtain ⟨⟨root, hroot⟩, hcodes⟩ := List.forall_mem_cons.1 hparse
    cases codes with
    | nil =>
      rw [List.intercalate_singleton] at hsource ⊢
      have hcode : source.contents = before ++ code ++ [] := by rw [hsource, List.append_nil]
      obtain ⟨us, ns, hscan, hfinish, hcarried⟩ := exists_carried hknown hcode hroot
      refine ⟨us, [ns], hscan, ?_, .cons hcarried .nil⟩
      rw [List.flatten_singleton]
      exact SourceFile.finish_run_append hf hfinish
    | cons next codes =>
      rw [List.intercalate_cons_cons] at hsource ⊢
      generalize hrest : ['\n'].intercalate (next :: codes) = rest at ih hsource ⊢
      have hcode : source.contents = before ++ code ++ '\n' :: rest := by simp [hsource]
      have hlines : source.contents = before ++ code ++ ['\n'] ++ rest := by simp [hsource]
      obtain ⟨us, ns, hscan, hfinish, hcarried⟩ := exists_carried hknown hcode hroot
      obtain ⟨vs, nss, hscan', hfinish', hcarried'⟩ := ih hlines
        (SourceFile.finish_run_append hf hfinish) hcodes
      refine ⟨us ++ vs, ns :: nss, ?_, ?_, .cons hcarried hcarried'⟩
      · have hoffset : Text.byteLength before + Text.byteLength code + '\n'.utf8Size =
            Text.byteLength (before ++ code ++ ['\n']) := by simp [Nat.add_assoc]
        rw [List.append_assoc, List.singleton_append, Token.scanFrom_append_blank rfl, hscan,
          Token.scanFrom_blank rfl, hoffset, hscan']
        rfl
      · rw [SourceFile.run_append, List.flatten_cons, ← List.append_assoc]
        exact hfinish'

/-- The texts on lines of their own are read as one file. -/
theorem exists_parseFile_of_lines {codes : List (List Char)} (hknown : source.origin ≠ .unknown)
    (hsource : source.contents = ['\n'].intercalate codes)
    (hparse : ∀ code ∈ codes, ∃ root, parseFile (Source.ofChars code) = .ok root) :
    ∃ root nss, parseFile source = .ok root ∧ root.children = nss.flatten ∧
      List.Forall₂ Carried codes nss := by
  have hstart : SourceFile.start.finish source = .ok [] := rfl
  have hlines : source.contents = [] ++ ['\n'].intercalate codes := hsource
  obtain ⟨us, nss, hscan, hfinish, hcarried⟩ :=
    exists_carried_of_lines hknown hlines hstart hparse
  rw [← hsource] at hscan
  have htokens : tokens source = .ok us := tokens_eq_ok_iff.2 (Token.scan_eq_ok_iff.1 hscan)
  have hread := parseFile_eq_ok_iff.2 ⟨us, _, htokens, hfinish, rfl⟩
  exact ⟨_, nss, hread, rfl, hcarried⟩

end Grammar

/-! ## The wanted module among all of them -/

namespace Module

open Grammar (Carried)

variable {top : Option String} {ms ns : List Tree} {t : Tree} {e : ModuleError}

theorem choose_append_of_ok (h : choose ms top = .ok t) (ns : List Tree) :
    choose (ms ++ ns) top = .ok t := by
  cases top with
  | none =>
    cases ms with
    | nil => cases h
    | cons m ms => exact h
  | some name =>
    simp only [choose, List.find?_append] at h ⊢
    cases hfind : ms.find? fun t => t.moduleName == name with
    | none =>
      rw [hfind] at h
      cases h
    | some m =>
      rw [hfind] at h
      exact h

theorem choose_append_of_error (h : choose ms top = .error e) (ns : List Tree) :
    choose (ms ++ ns) top = choose ns top := by
  cases top with
  | none =>
    cases ms with
    | nil => rfl
    | cons m ms => cases h
  | some name =>
    simp only [choose, List.find?_append] at h ⊢
    cases hfind : ms.find? fun t => t.moduleName == name with
    | none => rw [Option.none_or]
    | some m =>
      rw [hfind] at h
      cases h

/-- A row of modules has the wanted one if it has one of the name, or any if no name is wanted. -/
theorem exists_choose_iff :
    (∃ t, choose ms top = .ok t) ↔ ∃ t ∈ ms, ∀ name ∈ top, t.moduleName = name := by
  cases top with
  | none =>
    cases ms with
    | nil => simp [choose]
    | cons m ms => simp [choose]
  | some name =>
    have hfound : (∃ t, choose ms (some name) = .ok t) ↔
        (ms.find? fun t => t.moduleName == name).isSome := by
      simp only [choose]
      cases ms.find? fun t => t.moduleName == name <;> simp
    rw [hfound, List.find?_isSome]
    simp

/-- The text has a module, of the name if one is wanted. -/
def Offers (top : Option String) (text : String) : Prop :=
  ∃ root, Grammar.parseFile (codeOf (.ofText text)) = .ok root ∧
    ∃ t ∈ root.descendants .moduleDeclaration, ∀ name ∈ top, t.moduleName = name

theorem offers_iff {text : String} {root : Tree}
    (hroot : Grammar.parseFile (codeOf (.ofText text)) = .ok root) :
    Offers top text ↔ ∃ t, choose root.children top = .ok t := by
  have hfile : root.IsFile := Grammar.isFile_of_parseFile hroot
  rw [exists_choose_iff, ← hfile.descendants_eq_children]
  constructor
  · rintro ⟨root', hroot', h⟩
    rw [hroot] at hroot'
    obtain rfl := Except.ok.inj hroot'
    exact h
  · exact fun h => ⟨root, hroot, h⟩

/-- The names of the modules of a text, if it is read. -/
def moduleNames? (text : String) : Option (List String) :=
  (Grammar.parseFile (codeOf (.ofText text))).toOption.map fun root =>
    (root.descendants .moduleDeclaration).map Tree.moduleName

theorem exists_root_of_moduleNames? {text : String} {names : List String}
    (h : moduleNames? text = some names) :
    ∃ root, Grammar.parseFile (codeOf (.ofText text)) = .ok root ∧
      names = (root.descendants .moduleDeclaration).map Tree.moduleName := by
  obtain ⟨root, hroot, rfl⟩ := Option.map_eq_some_iff.1 h
  exact ⟨root, of_toOption_eq_some hroot, rfl⟩

theorem offers_some_iff {text : String} {names : List String} (h : moduleNames? text = some names)
    (name : String) : Offers (some name) text ↔ name ∈ names := by
  obtain ⟨root, hroot, rfl⟩ := exists_root_of_moduleNames? h
  simp [Offers, hroot]

/-- Among the modules that a text has left behind, the wanted one is that of the text elsewhere. -/
theorem exists_choose_of_carried {code : List Char} (h : Carried code ns) (top : Option String) :
    ∃ root g, Grammar.parseFile (Source.ofChars code) = .ok root ∧
      (∀ t ∈ root.children, Relocation.Keeps g True t) ∧
      choose ns top = (choose root.children top).map (Tree.relocate g) := by
  obtain ⟨root, g, hroot, hkeeps, rfl⟩ := h
  have hfile : root.IsFile := Grammar.isFile_of_parseFile hroot
  refine ⟨root, g, hroot, hkeeps, choose_map (fun t ht => ?_) top⟩
  exact (hfile.isModule t ht).moduleName_relocate (hkeeps t ht)

variable {nss : List (List Tree)} {texts : List String}

/-- The modules of a text that does not have the wanted one have no say. -/
theorem choose_append_of_not_offers {text : String}
    (h : Carried (Comment.strip text.toList) ms) (htext : ¬ Offers top text) (ns : List Tree) :
    choose (ms ++ ns) top = choose ns top := by
  obtain ⟨root, g, hroot, -, hchoose⟩ := exists_choose_of_carried h top
  cases hfound : choose root.children top with
  | ok t => exact absurd ((offers_iff hroot).2 ⟨t, hfound⟩) htext
  | error e =>
    rw [hfound] at hchoose
    exact choose_append_of_error hchoose ns

/-- The wanted module is that of the first text that has it. The induction is on the texts in front
of that one. -/
theorem exists_choose_flatten {before after : List String} {text : String}
    (h : List.Forall₂ (fun text ms => Carried (Comment.strip text.toList) ms)
      (before ++ text :: after) nss)
    (hbefore : ∀ u ∈ before, ¬ Offers top u) (htext : Offers top text) :
    ∃ root t g, Grammar.parseFile (codeOf (.ofText text)) = .ok root ∧
      choose root.children top = .ok t ∧ Relocation.Keeps g True t ∧
      choose nss.flatten top = .ok (t.relocate g) := by
  induction before generalizing nss with
  | nil =>
    cases h with
    | @cons _ ms _ nss hms =>
      obtain ⟨root, g, hroot, hkeeps, hchoose⟩ := exists_choose_of_carried hms top
      obtain ⟨t, ht⟩ := (offers_iff hroot).1 htext
      rw [ht] at hchoose
      exact ⟨root, t, g, hroot, ht, hkeeps t (mem_of_choose_eq_ok ht),
        choose_append_of_ok hchoose nss.flatten⟩
  | cons u before ih =>
    cases h with
    | cons hms h =>
      obtain ⟨hu, hbefore⟩ := List.forall_mem_cons.1 hbefore
      rw [List.flatten_cons, choose_append_of_not_offers hms hu]
      exact ih h hbefore

theorem choose_flatten_eq_choose_nil
    (h : List.Forall₂ (fun text ms => Carried (Comment.strip text.toList) ms) texts nss)
    (htexts : ∀ u ∈ texts, ¬ Offers top u) : choose nss.flatten top = choose [] top := by
  induction h with
  | nil => rfl
  | cons hms _ ih =>
    obtain ⟨hu, htexts⟩ := List.forall_mem_cons.1 htexts
    rw [List.flatten_cons, choose_append_of_not_offers hms hu]
    exact ih htexts

/-! ## Loading texts on lines of their own -/

/-- Texts on lines of their own do not disturb one another: where each of them is read and closes
its comments, the module that is loaded is that of the first text that has the wanted one, with all
that is wrong with it, and if there is none, then that is what is wrong. Only places are
different. -/
theorem load_joined (texts : List String) (top : Option String)
    (hparse : ∀ text ∈ texts, ∃ root, Grammar.parseFile (codeOf (.ofText text)) = .ok root)
    (hclosed : ∀ text ∈ texts, Comment.ClosesBlocks text.toList) :
    (∀ before text after, texts = before ++ text :: after → (∀ u ∈ before, ¬ Offers top u) →
      Offers top text → AlikeInFull (load (.ofText text) top).run
        (load (.ofText ("\n".intercalate texts)) top).run) ∧
    ((∀ text ∈ texts, ¬ Offers top text) → (load (.ofText ("\n".intercalate texts)) top).run =
      ⟨.error (.assemble (match top with
        | none => .noModule
        | some name => .noSuchModule name)), []⟩) := by
  have hcodes : ∀ code ∈ texts.map fun text => Comment.strip text.toList,
      ∃ root, Grammar.parseFile (Source.ofChars code) = .ok root := List.forall_mem_map.2 hparse
  have hlines : (codeOf (.ofText ("\n".intercalate texts))).contents =
      ['\n'].intercalate (texts.map fun text => Comment.strip text.toList) := by
    have hstrip := Comment.strip_intercalate (List.forall_mem_map.2 hclosed)
    rw [List.map_map] at hstrip
    rw [codeOf, Source.ofText, String.toList_intercalate]
    exact hstrip
  have hknown : (codeOf (.ofText ("\n".intercalate texts))).origin ≠ .unknown := nofun
  obtain ⟨joined, nss, hjoined, hchildren, hcarried⟩ :=
    Grammar.exists_parseFile_of_lines hknown hlines hcodes
  rw [List.forall₂_map_left_iff] at hcarried
  have hfile : joined.IsFile := Grammar.isFile_of_parseFile hjoined
  rw [run_load_eq hjoined, select_eq hfile, hchildren]
  refine ⟨?_, ?_⟩
  · rintro before text after rfl hbefore htext
    obtain ⟨root, t, g, hroot, ht, hkeeps, hchoose⟩ :=
      exists_choose_flatten hcarried hbefore htext
    have hfile : root.IsFile := Grammar.isFile_of_parseFile hroot
    have hwhole : ∀ t', whole t = .ok t' → t'.IsModule ∧ g.Keeps True t' := by
      intro t' ht'
      obtain rfl := eq_of_whole_eq_ok ht'
      exact ⟨hfile.isModule t (mem_of_choose_eq_ok ht), hkeeps⟩
    have hmirrors := mirrors_outcomeOf hwhole
    rw [← whole_relocate] at hmirrors
    rw [run_load_eq hroot, select_eq hfile, ht, hchoose]
    exact alikeInFull_of_mirrors hmirrors
  · intro htexts
    rw [choose_flatten_eq_choose_nil hcarried htexts]
    cases top <;> rfl

/-- A text whose only module is broken, and that ends in a comment. -/
def brokenText : String :=
  "module a(input x, output y); assign y = ; endmodule // the end"

/-- A text with two modules, one of which defines a wire twice. -/
def twiceText : String :=
  "/* ; */ module b(input x, output y); assign y = x; assign y = ~x; endmodule module a; endmodule"

/-- The broken module is not in the way of the one behind it, and is not looked for by its name. -/
theorem load_joined_broken :
    (∀ text ∈ [brokenText, twiceText],
      ∃ root, Grammar.parseFile (codeOf (.ofText text)) = .ok root) ∧
    (∀ text ∈ [brokenText, twiceText], Comment.ClosesBlocks text.toList) ∧
    (∀ text ∈ [brokenText], ¬ Offers (some "b") text) ∧ Offers (some "b") twiceText ∧
    (load (.ofText twiceText) (some "b")).run.log.length = 1 ∧
    AlikeInFull (load (.ofText twiceText) (some "b")).run
      (load (.ofText ("\n".intercalate [brokenText, twiceText])) (some "b")).run ∧
    (∀ text ∈ [brokenText, twiceText], ¬ Offers (some "c") text) ∧
    (load (.ofText ("\n".intercalate [brokenText, twiceText])) (some "c")).run =
      ⟨.error (.assemble (.noSuchModule "c")), []⟩ := by
  have hbroken : moduleNames? brokenText = some ["a"] := by decide +kernel
  have htwice : moduleNames? twiceText = some ["b", "a"] := by decide +kernel
  obtain ⟨root, hroot, -⟩ := exists_root_of_moduleNames? hbroken
  obtain ⟨root', hroot', -⟩ := exists_root_of_moduleNames? htwice
  have hparse : ∀ text ∈ [brokenText, twiceText],
      ∃ root, Grammar.parseFile (codeOf (.ofText text)) = .ok root := by
    simp [hroot, hroot']
  have hclosed : ∀ text ∈ [brokenText, twiceText], Comment.ClosesBlocks text.toList := by
    simp only [List.forall_mem_cons]
    exact ⟨by decide, by decide, nofun⟩
  have hfront : ∀ text ∈ [brokenText], ¬ Offers (some "b") text := by
    simp [offers_some_iff hbroken]
  have hoffers : Offers (some "b") twiceText := (offers_some_iff htwice "b").2 (by decide)
  have hnone : ∀ text ∈ [brokenText, twiceText], ¬ Offers (some "c") text := by
    simp [offers_some_iff hbroken, offers_some_iff htwice]
  obtain ⟨hfirst, -⟩ := load_joined [brokenText, twiceText] (some "b") hparse hclosed
  obtain ⟨-, hnothing⟩ := load_joined [brokenText, twiceText] (some "c") hparse hclosed
  exact ⟨hparse, hclosed, hfront, hoffers, by decide +kernel,
    hfirst [brokenText] twiceText [] rfl hfront hoffers, hnone, hnothing hnone⟩

end Module

end Netlist
