/-
A spoiled item spoils only itself.

In the body of a module a row of tokens up to a semicolon that is no item adds one error node and
nothing else, wherever the reader was when it refused a token (`SourceFile.adds_spoiled`,
`SourceFile.adds_cutShort`). The node starts at the first token with which no item goes on, since
that is the one that is refused. The items in front and behind are read as they are in the text
without the spoiled one, so the trees of both texts have the same outline but for the error node
(`parseFile_spoiled`).
-/
import Netlist.Proofs.AddedAssignments
import Netlist.Proofs.ItemStarts
import Netlist.Proofs.Outlines

set_option autoImplicit false

namespace Netlist.Grammar

open Token (spellings)

variable {source : Source} {ts : List Token} {t : Token}

/-! ## Parts of a module -/

/-- The header of a module, from its keyword to its semicolon. -/
structure ModuleHeader where
  keyword : Key .module
  name : Lexeme .identifier
  ports : Phrase (.optional .ports)
  semicolon : Sign .semicolon

namespace ModuleHeader

/-- The tokens of the header. -/
def yield (h : ModuleHeader) : List Token :=
  h.keyword.1 :: h.name.1 :: (h.ports.yield ++ [h.semicolon.1])

/-- The nodes of the header. -/
def trees (source : Source) (h : ModuleHeader) : List Tree :=
  tokenNode source .simpleIdentifier h.name.1 :: h.ports.trees source

/-- A text that is one module, with the header, the nodes of items and the keyword at its end. -/
def fileNode (source : Source) (h : ModuleHeader) (items : List Tree) (e : Key .endmodule) : Tree :=
  nodeOver source .sourceFile 0 source.byteLength
    [SourceFile.moduleNode source h.keyword.1.start e.1.stop (h.trees source ++ items)]

end ModuleHeader

theorem Phrase.exists_append {x : Symbol} (ds : Phrase (.many x)) : (ds' : Phrase (.many x)) →
    ∃ both : Phrase (.many x), both.yield = ds.yield ++ ds'.yield ∧
      ∀ source, both.trees source = ds.trees source ++ ds'.trees source
  | .none => ⟨ds, by simp, by simp⟩
  | .snoc ds' d => by
    obtain ⟨both, hyield, htrees⟩ := exists_append ds ds'
    exact ⟨.snoc both d, by simp [hyield], by simp [htrees]⟩

namespace SourceFile

variable {offset : Nat} {i : Item} {before dropped : List Token} {refused : Token}

theorem opens_header (source : Source) (h : ModuleHeader) :
    Opens source h.keyword.1.start h.yield (h.trees source) := by
  obtain ⟨last, hreads, hs⟩ := Header.reads_header source h.name h.semicolon h.ports
  have hstart : start.step source h.keyword.1 = ⟨[], .header h.keyword.1.start .blank⟩ :=
    step_of_finish rfl h.keyword
  rw [Opens, ModuleHeader.yield, run_cons, hstart, ← List.cons_append, run_concat,
    run_header hreads]
  simp only [step, hs]
  rfl

/-- Good items add their nodes. -/
theorem adds_items (ds : Phrase (.many (.item false))) :
    Adds source offset ds.yield (ds.trees source) :=
  fun _ => run_items ds

/-! ## Spoiled items -/

/-- Behind a refused token all tokens up to a semicolon belong to the spoiled item. -/
theorem run_spoiled (f : SourceFile) (start : Nat) (children : List Tree) (refused last : Token)
    (h : ∀ t ∈ dropped, t.terminal ≠ .punctuation .semicolon) :
    (f.goto (.spoiled start children refused last.stop)).run source dropped =
      f.goto (.spoiled start children refused (dropped.getLast?.getD last).stop) := by
  induction dropped generalizing last with
  | nil => rfl
  | cons t ts ih =>
    obtain ⟨ht, hts⟩ := List.forall_mem_cons.1 h
    have hstep : (f.goto (.spoiled start children refused last.stop)).step source t =
        f.goto (.spoiled start children refused t.stop) := by
      simp only [step, goto]
    rw [run_cons, hstep, ih t hts, List.getLast?_cons]
    rfl

/-- A refused semicolon is an error node of its own. -/
theorem adds_cutShort (s : Sign .semicolon) (h : Reads (Item.next source) .blank before i)
    (hs : i.step source s.1 = none) : Adds source offset (before ++ [s.1])
      [nodeOver source .error s.1.start s.1.stop []] := by
  intro children
  have hoffered : i = .blank → s.1.terminal ≠ .keyword .endmodule := by
    intro _
    rw [s.2]
    exact nofun
  rw [run_concat, run_body h, step_body_offered hoffered, hs]
  simp only [refuse, s.2]
  rfl

/-- Any other refused token, and all tokens up to the semicolon, are an error node together. -/
theorem adds_spoiled (s : Sign .semicolon) (h : Reads (Item.next source) .blank before i)
    (hrefused : i.step source refused = none)
    (hinside : refused.terminal ≠ .punctuation .semicolon ∧ refused.terminal ≠ .keyword .endmodule)
    (hdropped : ∀ t ∈ dropped, t.terminal ≠ .punctuation .semicolon) :
    Adds source offset (before ++ refused :: (dropped ++ [s.1]))
      [nodeOver source .error refused.start (dropped.getLast?.getD refused).stop []] := by
  intro children
  have hrefuse : (⟨[], .body offset children i⟩ : SourceFile).step source refused =
      goto ⟨[], .body offset children i⟩ (.spoiled offset children refused refused.stop) := by
    rw [step_body_offered fun _ => hinside.2, hrefused]
    simp only [refuse]
    split
    · next hp => exact absurd hp hinside.1
    · rfl
  rw [run_append, run_body h, run_cons, hrefuse, run_concat, run_spoiled _ _ _ _ _ hdropped]
  simp only [step, goto, s.2]
  rfl

/-- Tokens up to a semicolon that are no item add an error node. It starts at the refused token, and
ends with the last token in front of the semicolon, unless it is the semicolon that is refused. -/
theorem exists_adds_error {bad after : List Token} (semi : Sign .semicolon)
    (hbad : ∀ t ∈ bad, t.terminal ≠ .punctuation .semicolon ∧ t.terminal ≠ .keyword .endmodule)
    (hcut : bad ++ [semi.1] = before ++ refused :: after)
    (h : Reads (Item.next source) .blank before i) (hrefused : i.step source refused = none) :
    ∃ last, (after = [] → last = semi.1) ∧ (after ≠ [] → bad.getLast? = some last) ∧
      ∀ offset, Adds source offset (bad ++ [semi.1])
        [nodeOver source .error refused.start last.stop []] := by
  -- the refused token is the semicolon, or the semicolon ends what is dropped behind it
  rcases List.eq_nil_or_concat after with rfl | ⟨dropped, z, rfl⟩
  · obtain ⟨rfl, hsemi⟩ := List.append_inj' hcut rfl
    obtain rfl := (List.cons.inj hsemi).1
    exact ⟨semi.1, fun _ => rfl, fun hne => absurd rfl hne,
      fun _ => adds_cutShort semi h hrefused⟩
  · rw [List.concat_eq_append] at hcut ⊢
    have hsplit : bad ++ [semi.1] = (before ++ refused :: dropped) ++ [z] := by
      rw [hcut]
      simp
    obtain ⟨rfl, hsemi⟩ := List.append_inj' hsplit rfl
    obtain rfl := (List.cons.inj hsemi).1
    have hinside := hbad refused (by simp)
    have hdropped : ∀ t ∈ dropped, t.terminal ≠ .punctuation .semicolon := fun t ht =>
      (hbad t (by simp [ht])).1
    refine ⟨dropped.getLast?.getD refused, fun hnil => absurd hnil (by simp), fun _ => ?_, ?_⟩
    · rw [List.getLast?_append, List.getLast?_cons]
      rfl
    · intro offset
      rw [hcut]
      exact adds_spoiled semi h hrefused hinside hdropped

end SourceFile

/-! ## Texts of one module with a spoiled item -/

/-- A text that has tokens has a source. -/
theorem known_of_tokens (hsource : source.origin = .unknown → source.contents = [])
    (h : tokens source = .ok ts) (hne : ts ≠ []) : source.origin ≠ .unknown := by
  intro horigin
  have hnone : Token.Scans 0 source.contents [] [] := by
    rw [hsource horigin]
    exact .done
  exact hne (Except.ok.inj (h.symm.trans (tokens_eq_ok_iff.2 hnone)))

/-- Any text of the words of a header and of good items is read as their module, up to places. -/
theorem ModuleHeader.exists_parseFile_of_spellings {source' : Source} {ts' : List Token}
    (known : source.origin ≠ .unknown) (known' : source'.origin ≠ .unknown) (h : ModuleHeader)
    (items : Phrase (.many (.item false))) (e : Key .endmodule)
    (hordered : Token.Ordered (h.yield ++ (items.yield ++ [e.1])))
    (hscans : Token.Scans 0 source'.contents ts' [])
    (hwords : spellings source' ts' = spellings source (h.yield ++ (items.yield ++ [e.1]))) :
    ∃ root', parseFile source' = .ok root' ∧
      root'.outline = (h.fileNode source (items.trees source) e).outline := by
  let d : Phrase (.module false) := .module h.keyword h.name h.ports h.semicolon items e
  have hyield : (Phrase.snoc .none d).yield = h.yield ++ (items.yield ++ [e.1]) := by
    simp [d, yield]
  have htrees : (Phrase.snoc .none d).trees source = [SourceFile.moduleNode source
      h.keyword.1.start e.1.stop (h.trees source ++ items.trees source)] := by
    simp [d, trees, SourceFile.moduleNode]
  rw [← hyield] at hordered hwords
  obtain ⟨modules, hparse, houtlines⟩ :=
    Grammar.exists_parseFile_of_spellings known known' _ hordered hscans hwords
  rw [htrees] at houtlines
  exact ⟨_, hparse, Tree.outline_congr (List.cons_ne_nil _ _) houtlines⟩

/-- A bad item spoils only itself. In a text of one module, let tokens without a semicolon in them
and without the keyword that ends modules stand between good items, and let them be no item with
the semicolon behind them. Then the text is read, with the nodes of the good items and one error
node between them. The node starts at the first token with which no item goes on, and ends with the
last of the tokens, or is the semicolon if it is this token. Any text of the same words but for the
bad ones is read as the same tree without the error node, up to places. -/
theorem parseFile_spoiled (hsource : source.origin = .unknown → source.contents = [])
    (h : ModuleHeader) (front back : Phrase (.many (.item false))) {bad : List Token}
    (semi : Sign .semicolon) (e : Key .endmodule)
    (htokens : tokens source =
      .ok (h.yield ++ (front.yield ++ (bad ++ semi.1 :: (back.yield ++ [e.1])))))
    (hbad : ∀ t ∈ bad, t.terminal ≠ .punctuation .semicolon ∧ t.terminal ≠ .keyword .endmodule)
    (hnot : ¬ ∃ d : Phrase (.item false), d.yield = bad ++ [semi.1]) :
    ∃ before refused after last, bad ++ [semi.1] = before ++ refused :: after ∧
      StartsItem before ∧ ¬ StartsItem (before ++ [refused]) ∧
      (after = [] → last = semi.1) ∧ (after ≠ [] → bad.getLast? = some last) ∧
      parseFile source = .ok (h.fileNode source (front.trees source ++
        nodeOver source .error refused.start last.stop [] :: back.trees source) e) ∧
      ∀ source' ts', (source'.origin = .unknown → source'.contents = []) →
        tokens source' = .ok ts' → spellings source' ts' =
          spellings source (h.yield ++ (front.yield ++ (back.yield ++ [e.1]))) →
        ∃ root', parseFile source' = .ok root' ∧ root'.outline =
          (h.fileNode source (front.trees source ++ back.trees source) e).outline := by
  obtain ⟨before, refused, after, i, hcut, hreads, hrefused⟩ :=
    Item.exists_refused source semi (fun t ht => (hbad t ht).1) hnot
  obtain ⟨last, hlast, hlast', herror⟩ :=
    SourceFile.exists_adds_error semi hbad hcut hreads hrefused
  have hscans := tokens_eq_ok_iff.1 htokens
  refine ⟨before, refused, after, last, hcut, (Item.accounts_of_reads hreads).startsItem,
    Item.not_startsItem_of_refused hreads hrefused, hlast, hlast', ?_, ?_⟩
  · -- the parts of the module follow each other
    have hopens := (SourceFile.opens_header source h).append
      ((SourceFile.adds_items front).append ((herror h.keyword.1.start).append
        (SourceFile.adds_items back)))
    have hcontents : Token.Scans 0 source.contents
        (h.yield ++ (front.yield ++ (bad ++ [semi.1] ++ back.yield)) ++ [e.1]) [] := by
      simpa using hscans
    exact hopens.parseFile_eq e hcontents
  · intro source' ts' hsource' htokens' hwords
    have hknown := known_of_tokens hsource htokens (by simp [ModuleHeader.yield])
    have hknown' : source'.origin ≠ .unknown := by
      refine known_of_tokens hsource' htokens' ?_
      rintro rfl
      simp [spellings, ModuleHeader.yield] at hwords
    -- the other text has the words of this one without those of the bad item
    have hordered : Token.Ordered (h.yield ++ (front.yield ++ (back.yield ++ [e.1]))) := by
      refine (Token.inOrder_of_scans hscans).ordered.sublist ?_
      refine (List.Sublist.refl _).append ((List.Sublist.refl _).append ?_)
      exact (List.sublist_cons_self _ _).trans (List.sublist_append_right bad _)
    obtain ⟨items, hyield, htrees⟩ := front.exists_append back
    rw [← List.append_assoc front.yield, ← hyield] at hordered hwords
    rw [← htrees]
    exact h.exists_parseFile_of_spellings hknown hknown' items e hordered
      (tokens_eq_ok_iff.1 htokens') hwords

/-- A text of which one item has an operator without its right operand. -/
def brokenSum : String :=
  "module sum; wire a; assign a = (1 + ) 2; wire c; endmodule"

/-- The text without this item, and with other blanks. -/
def mendedSum : String :=
  "module sum ; wire a;wire c; endmodule"

/-- The header of the text. -/
def brokenSumHeader : ModuleHeader where
  keyword := ⟨⟨.keyword .module, 0, 6⟩, rfl⟩
  name := ⟨⟨.identifier, 7, 10⟩, rfl⟩
  ports := .absent
  semicolon := ⟨⟨.punctuation .semicolon, 10, 11⟩, rfl⟩

/-- An item that declares a wire with a name of one letter. -/
def wireAt (start : Nat) : Phrase (.many (.item false)) :=
  .snoc .none (.netsItem
    (.netDeclaration (.netType ⟨⟨.keyword .wire, start, start + 4⟩, .wire, by decide, rfl⟩) .absent
      (.one (.net ⟨⟨.identifier, start + 5, start + 6⟩, rfl⟩)))
    ⟨⟨.punctuation .semicolon, start + 6, start + 7⟩, rfl⟩)

/-- The keyword at the end of the text. -/
def brokenSumEnd : Key .endmodule :=
  ⟨⟨.keyword .endmodule, 49, 58⟩, rfl⟩

/-- The tokens of the bad item in front of the closing parenthesis. -/
def brokenSumStart : List Token :=
  [⟨.keyword .assign, 20, 26⟩, ⟨.identifier, 27, 28⟩, ⟨.punctuation .equals, 29, 30⟩,
    ⟨.punctuation .openParen, 31, 32⟩, ⟨.number, 32, 33⟩, ⟨.punctuation .plus, 34, 35⟩]

/-- The rest of its tokens, but for the semicolon. -/
def brokenSumRest : List Token :=
  [⟨.punctuation .closeParen, 36, 37⟩, ⟨.number, 38, 39⟩]

/-- The semicolon behind them. -/
def brokenSumSemicolon : Sign .semicolon :=
  ⟨⟨.punctuation .semicolon, 39, 40⟩, rfl⟩

theorem startsItem_brokenSum : StartsItem brokenSumStart ∧
    ¬ StartsItem (brokenSumStart ++ [⟨.punctuation .closeParen, 36, 37⟩]) := by
  have hreads : ∃ i, Reads (Item.next (.ofText brokenSum)) .blank brokenSumStart i ∧
      i.step (.ofText brokenSum) ⟨.punctuation .closeParen, 36, 37⟩ = none :=
    ⟨_, .read rfl (.read rfl (.read rfl (.read rfl (.read rfl (.read rfl .done))))), rfl⟩
  obtain ⟨i, hreads, hstop⟩ := hreads
  exact ⟨(Item.accounts_of_reads hreads).startsItem, Item.not_startsItem_of_refused hreads hstop⟩

theorem parseFile_spoiled_brokenSum : ∃ root',
    parseFile (.ofText brokenSum) = .ok (brokenSumHeader.fileNode (.ofText brokenSum)
      ((wireAt 12).trees (.ofText brokenSum) ++ nodeOver (.ofText brokenSum) .error 36 39 [] ::
        (wireAt 41).trees (.ofText brokenSum)) brokenSumEnd) ∧
    parseFile (.ofText mendedSum) = .ok root' ∧ root'.outline =
      (brokenSumHeader.fileNode (.ofText brokenSum) ((wireAt 12).trees (.ofText brokenSum) ++
        (wireAt 41).trees (.ofText brokenSum)) brokenSumEnd).outline := by
  have hknown : ∀ text, (Source.ofText text).origin = .unknown →
      (Source.ofText text).contents = [] := by
    intro text horigin
    cases horigin
  have hscan : tokens (.ofText brokenSum) = .ok (brokenSumHeader.yield ++ ((wireAt 12).yield ++
      (brokenSumStart ++ brokenSumRest ++ brokenSumSemicolon.1 ::
        ((wireAt 41).yield ++ [brokenSumEnd.1])))) :=
    of_toOption_eq_some (by decide +kernel)
  have hbad : ∀ t ∈ brokenSumStart ++ brokenSumRest,
      t.terminal ≠ .punctuation .semicolon ∧ t.terminal ≠ .keyword .endmodule := by
    decide
  obtain ⟨hstart, hstop⟩ := startsItem_brokenSum
  have hnot : ¬ ∃ d : Phrase (.item false),
      d.yield = brokenSumStart ++ brokenSumRest ++ [brokenSumSemicolon.1] := by
    rintro ⟨d, hd⟩
    exact hstop ⟨[⟨.number, 38, 39⟩, brokenSumSemicolon.1], d, hd⟩
  obtain ⟨before, refused, after, last, hcut, hbefore, hrefused, -, hlast, hparse, hmended⟩ :=
    parseFile_spoiled (hknown brokenSum) brokenSumHeader (wireAt 12) (wireAt 41)
      brokenSumSemicolon brokenSumEnd hscan hbad hnot
  -- the parenthesis is the only first bad token
  have hfirst : brokenSumStart ++ ⟨.punctuation .closeParen, 36, 37⟩ ::
      [⟨.number, 38, 39⟩, brokenSumSemicolon.1] = before ++ refused :: after := hcut
  obtain ⟨rfl, rfl, rfl⟩ := StartsItem.unique hfirst hstart hstop hbefore hrefused
  obtain rfl : _ = last := Option.some.inj (hlast (List.cons_ne_nil _ _))
  have hscan' : ∃ ts, tokens (.ofText mendedSum) = .ok ts ∧
      spellings (.ofText mendedSum) ts = spellings (.ofText brokenSum)
        (brokenSumHeader.yield ++ ((wireAt 12).yield ++ ((wireAt 41).yield ++ [brokenSumEnd.1]))) := by
    have hwords : (tokens (.ofText mendedSum)).toOption.map (spellings (.ofText mendedSum)) =
        some (spellings (.ofText brokenSum)
          (brokenSumHeader.yield ++ ((wireAt 12).yield ++
            ((wireAt 41).yield ++ [brokenSumEnd.1])))) := by
      decide +kernel
    obtain ⟨ts, hts, hwords⟩ := Option.map_eq_some_iff.1 hwords
    exact ⟨ts, of_toOption_eq_some hts, hwords⟩
  obtain ⟨ts, hts, hwords⟩ := hscan'
  obtain ⟨root', hroot', houtline⟩ := hmended _ ts (hknown mendedSum) hts hwords
  exact ⟨root', hparse, hroot', houtline⟩

end Netlist.Grammar
