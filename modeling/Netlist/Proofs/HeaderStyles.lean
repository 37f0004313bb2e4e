/-
Two styles of headers.

The ports of a module may be declared in its header, where a declaration goes on with the bare names
behind it, or the header may list bare names only, and the same declarations stand in front of the
other items. Both styles mean the same (`load_header_styles`). The declarations are pieces that the
two texts share (`Strand`), and token by token the header of the one and the items of the other are
derived side by side (`Abreast`); the list of names has no say (`Draft.assemble_listed`).
-/
import Netlist.Proofs.HeaderPorts
import Netlist.Proofs.JoinedTexts
import Netlist.Proofs.ListedPorts
import Netlist.Proofs.Strands

set_option autoImplicit false

namespace Netlist

open Grammar

variable {source source' : Source}

/-! ## Pieces of both texts -/

namespace Terminal

theorem cuts_closeParen : Cuts ')' :=
  cuts_of_sign rfl (by decide +kernel)

theorem cuts_openParen : Cuts '(' :=
  cuts_of_sign rfl (by decide +kernel)

theorem cuts_comma : Cuts ',' :=
  cuts_of_sign rfl (by decide +kernel)

theorem cuts_semicolon : Cuts ';' :=
  cuts_of_sign rfl (by decide +kernel)

theorem cuts_newline : Cuts '\n' :=
  cuts_of_isBlank rfl

end Terminal

/-- A text moves as a whole into another text in which it stands. -/
theorem Relocation.moves_shift (known : source.origin ≠ .unknown) {before cs after : List Char}
    (h : source.contents = before ++ cs ++ after) :
    (shift source known (Text.byteLength before)).Moves (.ofChars cs) 0 cs
      (Text.byteLength before) where
  here := ⟨[], [], (List.append_nil cs).symm, rfl⟩
  there := ⟨before, after, h, rfl⟩
  place n _ := by rw [Nat.zero_add]; rfl

namespace Strand

/-- The two sources are made up of the strands. -/
structure Makes (ss : List Strand) (source source' : Source) : Prop where
  known : source.origin ≠ .unknown
  known' : source'.origin ≠ .unknown
  contents : source.contents = text ss
  contents' : source'.contents = text' ss

variable {ss before after : List Strand} {s : Strand} {x : Symbol}

/-- A phrase that a piece is read as by itself is found in both texts, in the other one where the
relocation has it, and its trees keep their texts. -/
theorem Makes.exists_relocate (h : Makes ss source source') (hss : ss = before ++ s :: after)
    (hgap : s.gap ≠ []) (hafter : Terminal.StartsCut (text after))
    (hafter' : Terminal.StartsCut (text' after)) (d : Phrase x)
    (hd : Token.Scans 0 s.piece d.yield []) :
    ∃ i : Relocation,
      Token.Stretch source (s.piece ++ text after) (d.relocate i).yield (text after) ∧
      Token.Stretch source' (s.piece ++ text' after)
        ((d.relocate i).relocate (relocation source' h.known' ss)).yield (text' after) ∧
      (d.relocate i).trees source = (d.trees (.ofChars s.piece)).map (Tree.relocate i) ∧
      (∀ t ∈ d.trees (.ofChars s.piece), i.Keeps True t) ∧
      ∀ t ∈ (d.relocate i).trees source, (relocation source' h.known' ss).Keeps True t := by
  have hcut : source.contents = (text before ++ s.gap) ++ s.piece ++ text after := by
    simp [h.contents, hss, text]
  have hcut' : source'.contents = (text' before ++ s.gap') ++ s.piece ++ text' after := by
    simp [h.contents', hss, text']
  have hmoves : (relocation source' h.known' ss).Moves source _ s.piece _ :=
    moves h.contents h.contents' hss (.inr hgap)
  have hknown : (Source.ofChars s.piece).origin ≠ .unknown := Source.known_ofChars _
  obtain ⟨i, hi, hshift⟩ : ∃ i : Relocation, i.source = source ∧ i.Moves (.ofChars s.piece) 0
      s.piece (Text.byteLength (text before ++ s.gap)) :=
    ⟨_, rfl, Relocation.moves_shift h.known hcut⟩
  have hhere := hshift.scans hd
  rw [← Phrase.yield_relocate] at hhere
  have hthere := hmoves.scans hhere
  rw [← Phrase.yield_relocate] at hthere
  have htrees := d.trees_relocate i hknown
  rw [hi] at htrees
  refine ⟨i, ?_, ?_, htrees, hshift.keeps_phrase hknown d hd True, ?_⟩
  · exact ⟨_, by rw [hcut, List.append_assoc], hhere.append_cut rfl hafter⟩
  · exact ⟨_, by rw [hcut', List.append_assoc], hthere.append_cut rfl hafter'⟩
  · exact hmoves.keeps_phrase h.known _ hhere True

end Strand

/-! ## Declarations one behind the other -/

namespace Grammar

/-- A text that is written for a symbol: it leaves no comment open and is read as a phrase. -/
structure Written (x : Symbol) where
  text : String
  phrase : Phrase x
  closed : Comment.Closed text.toList
  scans : Token.Scans 0 (Comment.strip text.toList) phrase.yield []

namespace Written

variable {x : Symbol}

/-- The text without its comments. -/
def code (w : Written x) : List Char :=
  Comment.strip w.text.toList

/-- The trees of the text by itself. -/
def trees (w : Written x) : List Tree :=
  w.phrase.trees (.ofChars w.code)

/-- The names of the ports that the text declares. -/
def names (w : Written .portDeclaration) : List String :=
  Tree.portNames w.trees

/-- A declaration behind others: a comma stands before it in a header, and a semicolon in a body. -/
def strand (w : Written .portDeclaration) : Strand :=
  ⟨[','], [';'], w.code⟩

theorem names_ne_nil (w : Written .portDeclaration) : w.names ≠ [] := by
  obtain ⟨names, hne, -, hnames⟩ := w.phrase.exists_portNames (.ofChars w.code)
  rw [Written.names, trees, hnames]
  exact fun h => hne (List.map_eq_nil_iff.1 h)

theorem claims_of_mem_names {w : Written .portDeclaration} {name : String} (h : name ∈ w.names) :
    Terminal.Claims .identifier name.toList := by
  obtain ⟨names, -, hmem, hnames⟩ := w.phrase.exists_portNames (.ofChars w.code)
  rw [Written.names, trees, hnames] at h
  obtain ⟨t, ht, rfl⟩ := List.mem_map.1 h
  have hread : t.1.ReadFrom (Source.ofChars w.code).contents :=
    Token.readFrom_of_scan (Token.scan_eq_ok_iff.2 w.scans) t.1 (hmem t ht)
  exact claims_of_readFrom hread t.2 _

end Written

end Grammar

namespace Strand

open Written (strand)

variable {ss before after : List Strand} {ts us : List Token} {declarations : List Tree}
  {ws : List (Written .portDeclaration)}

theorem startsCut_text (ws : List (Written .portDeclaration))
    (hafter : Terminal.StartsCut (text after)) :
    Terminal.StartsCut (text (ws.map strand ++ after)) := by
  cases ws with
  | nil => exact hafter
  | cons w ws => exact Terminal.cuts_comma.startsCut _

theorem startsCut_text' (ws : List (Written .portDeclaration))
    (hafter : Terminal.StartsCut (text' after)) :
    Terminal.StartsCut (text' (ws.map strand ++ after)) := by
  cases ws with
  | nil => exact hafter
  | cons w ws => exact Terminal.cuts_semicolon.startsCut _

/-- The declarations of both texts are read side by side. The induction is on the declarations;
`before` is what has been read. -/
theorem Makes.exists_abreast (h : Makes ss source source')
    (hss : ss = before ++ (ws.map strand ++ after)) (hafter : Terminal.StartsCut (text after))
    (hafter' : Terminal.StartsCut (text' after))
    (hfront : Abreast (relocation source' h.known' ss) source ts us declarations) :
    ∃ ts' us' more, Token.Stretch source (text (ws.map strand ++ after)) ts' (text after) ∧
      Token.Stretch source' (text' (ws.map strand ++ after)) us' (text' after) ∧
      Abreast (relocation source' h.known' ss) source (ts ++ ts') (us ++ us')
        (declarations ++ more) ∧ Tree.portNames more = ws.flatMap Written.names := by
  induction ws generalizing before ts us declarations with
  | nil =>
    have hsuffix : text after <:+ source.contents :=
      ⟨text before, by simp [h.contents, hss, text]⟩
    have hsuffix' : text' after <:+ source'.contents :=
      ⟨text' before, by simp [h.contents', hss, text']⟩
    refine ⟨[], [], [], .nil hsuffix, .nil hsuffix', ?_, rfl⟩
    simpa using hfront
  | cons w ws ih =>
    have hsplit : ss = before ++ w.strand :: (ws.map strand ++ after) := hss
    have hnext : ss = (before ++ [w.strand]) ++ (ws.map strand ++ after) := by simp [hss]
    have hcomma : Punctuation.comma.text.toList ++ (w.code ++ text (ws.map strand ++ after)) <:+
        source.contents := ⟨text before, by simp [h.contents, hss, text, strand]; rfl⟩
    have hsemicolon : Punctuation.semicolon.text.toList ++
        (w.code ++ text' (ws.map strand ++ after)) <:+ source'.contents :=
      ⟨text' before, by simp [h.contents', hss, text', strand]; rfl⟩
    obtain ⟨comma, hcomma⟩ := exists_sign rfl hcomma
    obtain ⟨semicolon, hsemicolon⟩ := exists_sign rfl hsemicolon
    obtain ⟨i, hp, hp', htrees, hkeeps, hkeeps'⟩ := h.exists_relocate hsplit (List.cons_ne_nil _ _)
      (startsCut_text ws hafter) (startsCut_text' ws hafter') w.phrase w.scans
    obtain ⟨ts', us', more, hts, hus, habreast, hnames⟩ := ih hnext
      (hfront.more h.known comma semicolon (w.phrase.relocate i) hkeeps')
    refine ⟨_, _, (w.phrase.relocate i).trees source ++ more, hcomma.append (hp.append hts),
      hsemicolon.append (hp'.append hus), ?_, ?_⟩
    · simpa using habreast
    · rw [Tree.portNames_append, hnames, htrees, Tree.portNames_relocate hkeeps]
      rfl

end Strand

/-! ## Modules that are written out -/

/-- A primary as an expression. -/
def Grammar.Derivation.ofPrimary (d : Derivation (.tier 12)) : Derivation .expression :=
  .expression (.tighter (by decide) (.tighter (by decide) (.tighter (by decide)
    (.tighter (by decide) (.tighter (by decide) (.tighter (by decide) (.tighter (by decide)
      (.tighter (by decide) (.tighter (by decide) (.tighter (by decide) (.tighter (by decide)
        (.tighter (by decide) d))))))))))))

namespace Grammar

/-- A text that is put together as a module with ports is read as this module. -/
theorem parseFile_of_parts {name : Lexeme .identifier} {row : Phrase (.row .portItem)}
    {items : Phrase (.many (.item false))} {c₁ c₂ c₃ : List Char}
    (hsource : source.contents = "module ".toList ++ c₁)
    (hname : Token.Stretch source c₁ [name.1] ('(' :: c₂))
    (hrow : Token.Stretch source c₂ row.yield (')' :: ';' :: c₃))
    (hitems : Token.Stretch source c₃ items.yield "\nendmodule".toList) :
    ∃ l t, parseFile source = .ok (.node .sourceFile l [t]) ∧ t.Whole ∧
      ∃ l', t = .node .moduleDeclaration l' (tokenNode source .simpleIdentifier name.1 ::
        ((Ports.ofItems (row.trees source)).nodes ++ items.trees source)) := by
  have hends : ∀ cs, Token.Ends (' ' :: cs) := fun _ => Token.ends_cons rfl
  have hstart : Keyword.module.text.toList ++ ' ' :: c₁ <:+ source.contents := ⟨[], hsource.symm⟩
  obtain ⟨k, hk, -⟩ := exists_lexeme hstart (Keyword.module.claims.leads rfl (hends _))
  have hblank := Token.Stretch.blank hk.suffix rfl
  obtain ⟨o, ho⟩ := exists_sign (p := .openParen) rfl hname.suffix
  obtain ⟨c, hc⟩ := exists_sign (p := .closeParen) rfl hrow.suffix
  obtain ⟨s, hs⟩ := exists_sign (p := .semicolon) rfl hc.suffix
  have hnewline : Token.Stretch source "\nendmodule".toList [] "endmodule".toList :=
    .blank hitems.suffix rfl
  have hend : Keyword.endmodule.text.toList ++ [] <:+ source.contents := hnewline.suffix
  obtain ⟨e, he, -⟩ := exists_lexeme hend (Keyword.endmodule.claims.leads rfl Token.ends_nil)
  have hall := hk.append (hblank.append (hname.append (ho.append (hrow.append (hc.append
    (hs.append (hitems.append (hnewline.append he))))))))
  have hcontents : Keyword.module.text.toList ++ ' ' :: c₁ = source.contents := hsource.symm
  rw [hcontents] at hall
  have hwhole := Phrase.plain_module_whole source
    (.module k name (.present (.ports o row c)) s items e)
  refine ⟨_, _, parseFile_of_phrase
    (.snoc .none (.module k name (.present (.ports o row c)) s items e)) ?_,
    hwhole _ List.mem_cons_self, _, rfl⟩
  simpa [Phrase.yield] using hall.scans

end Grammar

namespace Module

open Grammar

/-- A module that declares its ports in its header. -/
def declaredInHeader (name : String) (groups : List (Written .portDeclaration))
    (body : Written (.many (.item false))) : String :=
  "module " ++ name ++ "(" ++ ",".intercalate (groups.map Written.text) ++ ");" ++
    body.text ++ "\nendmodule"

/-- The module with the names of its ports in its header, which declares the ports in front of its
other items. -/
def declaredInBody (name : String) (groups : List (Written .portDeclaration))
    (body : Written (.many (.item false))) : String :=
  "module " ++ name ++ "(" ++ ",".intercalate (groups.flatMap Written.names) ++ ");" ++
    String.join (groups.map fun w => w.text ++ ";") ++ body.text ++ "\nendmodule"

/-- What stands behind the declarations: the other items and the end of the module. -/
def ending (body : Written (.many (.item false))) : List Strand :=
  [⟨[')', ';'], [';'], body.code⟩, ⟨"\nendmodule".toList, "\nendmodule".toList, []⟩]

/-- The pieces of both texts. -/
def pieces (name : String) (w : Written .portDeclaration) (ws : List (Written .portDeclaration))
    (body : Written (.many (.item false))) : List Strand :=
  [⟨"module ".toList, "module ".toList, name.toList⟩,
    ⟨['('], '(' :: ((",".intercalate ((w :: ws).flatMap Written.names)).toList ++ [')', ';']),
      w.code⟩] ++ (ws.map Written.strand ++ ending body)

theorem flatMap_semicolon (w : Written .portDeclaration) (ws : List (Written .portDeclaration)) :
    ((w :: ws).flatMap fun w => w.text.toList ++ [';']) =
      w.text.toList ++ (ws.flatMap fun w => ';' :: w.text.toList) ++ [';'] := by
  induction ws generalizing w with
  | nil => simp
  | cons v ws ih =>
    have hrest := ih v
    simp_all

/-- Declarations are blanked one by one. -/
theorem strip_flatMap {c : Char} (hc : c ≠ '/') (ws : List (Written .portDeclaration))
    (rest : List Char) :
    Comment.strip ((ws.flatMap fun w => c :: w.text.toList) ++ rest) =
      (ws.flatMap fun w => c :: w.code) ++ Comment.strip rest := by
  have hsign : '/' ∉ [c] := by simpa using Ne.symm hc
  induction ws with
  | nil => rfl
  | cons w ws ih =>
    rw [List.flatMap_cons, List.append_assoc, List.cons_append, ← List.singleton_append,
      Comment.strip_append_of_not_mem hsign, w.closed, ih]
    simp [Written.code]

variable {name : String} {w : Written .portDeclaration} {ws : List (Written .portDeclaration)}
  {body : Written (.many (.item false))}

theorem slash_notMem (hname : Terminal.Claims .identifier name.toList) : '/' ∉ name.toList := by
  intro hmem
  have hpart := hname.spells.isWordPart rfl '/' hmem
  exact absurd hpart (by decide)

theorem strip_declaredInHeader (hname : Terminal.Claims .identifier name.toList) :
    Comment.strip (declaredInHeader name (w :: ws) body).toList =
      Strand.text (pieces name w ws body) := by
  have hraw : (declaredInHeader name (w :: ws) body).toList =
      "module ".toList ++ (name.toList ++ (['('] ++ (w.text.toList ++
        ((ws.flatMap fun w => ',' :: w.text.toList) ++
          ([')', ';'] ++ (body.text.toList ++ "\nendmodule".toList)))))) := by
    simp [declaredInHeader, String.toList_intercalate, intercalate_comma, List.flatMap_map]
  rw [hraw, Comment.strip_append_of_not_mem (by decide),
    Comment.strip_append_of_not_mem (slash_notMem hname),
    Comment.strip_append_of_not_mem (by decide), w.closed, strip_flatMap (by decide),
    Comment.strip_append_of_not_mem (by decide), body.closed]
  simp [pieces, ending, Strand.text, Written.strand, List.flatMap_map, Written.code]
  rfl

/-- The list of names has no slash. -/
theorem slash_notMem_listed (groups : List (Written .portDeclaration)) :
    '/' ∉ '(' :: ((",".intercalate (groups.flatMap Written.names)).toList ++ [')', ';']) := by
  have hnames : ∀ n ∈ groups.flatMap Written.names, '/' ∉ n.toList := by
    intro n hn
    obtain ⟨w, -, hmem⟩ := List.mem_flatMap.1 hn
    exact slash_notMem (Written.claims_of_mem_names hmem)
  rw [String.toList_intercalate]
  cases hlisted : groups.flatMap Written.names with
  | nil => decide
  | cons n ns =>
    rw [hlisted, List.forall_mem_cons] at hnames
    simpa [intercalate_comma] using hnames

theorem strip_declaredInBody (hname : Terminal.Claims .identifier name.toList) :
    Comment.strip (declaredInBody name (w :: ws) body).toList =
      Strand.text' (pieces name w ws body) := by
  have hraw : (declaredInBody name (w :: ws) body).toList =
      "module ".toList ++ (name.toList ++ (('(' ::
        ((",".intercalate ((w :: ws).flatMap Written.names)).toList ++ [')', ';'])) ++
          (w.text.toList ++ ((ws.flatMap fun w => ';' :: w.text.toList) ++
            ([';'] ++ (body.text.toList ++ "\nendmodule".toList)))))) := by
    have hjoin := flatMap_semicolon w ws
    simp_all [declaredInBody, List.flatMap_map]
  rw [hraw, Comment.strip_append_of_not_mem (by decide),
    Comment.strip_append_of_not_mem (slash_notMem hname),
    Comment.strip_append_of_not_mem (slash_notMem_listed (w :: ws)), w.closed,
    strip_flatMap (by decide), Comment.strip_append_of_not_mem (by decide), body.closed]
  simp [pieces, ending, Strand.text', Written.strand, List.flatMap_map, Written.code]
  rfl

/-- A name by itself is read as a name. -/
theorem exists_scans_name (hname : Terminal.Claims .identifier name.toList) :
    ∃ t : Lexeme .identifier, Token.Scans 0 name.toList [t.1] [] := by
  have hscans : Token.Scans 0 (name.toList ++ []) _ [] :=
    .token (hname.leads rfl Token.ends_nil) .done
  rw [List.append_nil] at hscans
  exact ⟨⟨_, rfl⟩, hscans⟩

/-- Piece by piece, both texts are read as the same name, declarations and items. -/
theorem exists_read (h : Strand.Makes (pieces name w ws body) source source')
    (hname : Terminal.Claims .identifier name.toList) {g : Relocation}
    (hg : g = Strand.relocation source' h.known' (pieces name w ws body)) :
    ∃ (head : Lexeme .identifier) (items : Phrase (.many (.item false))) (ts us : List Token)
      (declarations : List Tree) (c₁ c₂ c₃ c₁' c₂' c₃' : List Char),
      source.contents = "module ".toList ++ c₁ ∧
      Token.Stretch source c₁ [head.1] ('(' :: c₂) ∧
      Token.Stretch source c₂ ts (')' :: ';' :: c₃) ∧
      Token.Stretch source c₃ items.yield "\nendmodule".toList ∧
      source'.contents = "module ".toList ++ c₁' ∧
      Token.Stretch source' c₁' [(Lexeme.relocate g head).1]
        ('(' :: ((",".intercalate ((w :: ws).flatMap Written.names)).toList ++ ')' :: ';' :: c₂')) ∧
      Token.Stretch source' c₂' us (';' :: c₃') ∧
      Token.Stretch source' c₃' (items.relocate g).yield "\nendmodule".toList ∧
      Abreast g source ts us declarations ∧
      Tree.portNames declarations = (w :: ws).flatMap Written.names ∧
      g.Keeps True (tokenNode source .simpleIdentifier head.1) ∧
      ∀ t ∈ items.trees source, g.Keeps True t := by
  subst hg
  obtain ⟨head, hhead⟩ := exists_scans_name hname
  have hfirst : pieces name w ws body = [] ++
      ⟨"module ".toList, "module ".toList, name.toList⟩ :: (pieces name w ws body).tail := rfl
  have hfront : Strand.text (pieces name w ws body).tail =
      '(' :: (w.code ++ Strand.text (ws.map Written.strand ++ ending body)) := by
    simp [pieces, Strand.text]
  have hfront' : Strand.text' (pieces name w ws body).tail =
      '(' :: ((",".intercalate ((w :: ws).flatMap Written.names)).toList ++
        ')' :: ';' :: (w.code ++ Strand.text' (ws.map Written.strand ++ ending body))) := by
    simp [pieces, Strand.text']
  have hback : Strand.text (ending body).tail = "\nendmodule".toList := by
    simp [ending, Strand.text]
  have hback' : Strand.text' (ending body).tail = "\nendmodule".toList := by
    simp [ending, Strand.text']
  have hending : Strand.text (ending body) = ')' :: ';' :: (body.code ++ "\nendmodule".toList) := by
    simp [ending, Strand.text]
  have hending' : Strand.text' (ending body) = ';' :: (body.code ++ "\nendmodule".toList) := by
    simp [ending, Strand.text']
  have hcut : Terminal.StartsCut (Strand.text (ending body)) :=
    Terminal.cuts_closeParen.startsCut _
  have hcut' : Terminal.StartsCut (Strand.text' (ending body)) :=
    Terminal.cuts_semicolon.startsCut _
  obtain ⟨i, hhead, hhead', -, -, hheadKeeps⟩ := h.exists_relocate hfirst (List.cons_ne_nil _ _)
    (Terminal.cuts_openParen.startsCut _) (Terminal.cuts_openParen.startsCut _) (.net head) hhead
  have hsecond : pieces name w ws body = (pieces name w ws body).take 1 ++
      ⟨['('], '(' :: ((",".intercalate ((w :: ws).flatMap Written.names)).toList ++ [')', ';']),
        w.code⟩ :: (ws.map Written.strand ++ ending body) := rfl
  obtain ⟨j, hw, hw', htrees, hkeeps, hkeeps'⟩ := h.exists_relocate hsecond
    (List.cons_ne_nil _ _) (Strand.startsCut_text ws hcut) (Strand.startsCut_text' ws hcut')
    w.phrase w.scans
  obtain ⟨ts, us, more, hts, hus, habreast, hnames⟩ := h.exists_abreast rfl hcut hcut'
    (.one h.known (w.phrase.relocate j) hkeeps')
  have hlast : pieces name w ws body = ((pieces name w ws body).take 2 ++ ws.map Written.strand) ++
      ⟨[')', ';'], [';'], body.code⟩ :: (ending body).tail := by
    simp [pieces, ending]
  obtain ⟨k, hbody, hbody', -, -, hbodyKeeps⟩ := h.exists_relocate hlast (List.cons_ne_nil _ _)
    (Terminal.cuts_newline.startsCut _) (Terminal.cuts_newline.startsCut _) body.phrase body.scans
  have hdeclared : Tree.portNames ((w.phrase.relocate j).trees source ++ more) =
      (w :: ws).flatMap Written.names := by
    rw [Tree.portNames_append, hnames, htrees, Tree.portNames_relocate hkeeps]
    rfl
  rw [hfront] at hhead
  rw [hfront'] at hhead'
  rw [hending] at hts
  rw [hending'] at hus
  rw [hback] at hbody
  rw [hback'] at hbody'
  refine ⟨Lexeme.relocate i head, body.phrase.relocate k, _, _, _,
    name.toList ++ '(' :: (w.code ++ Strand.text (ws.map Written.strand ++ ending body)), _, _,
    name.toList ++ '(' :: ((",".intercalate ((w :: ws).flatMap Written.names)).toList ++
        ')' :: ';' :: (w.code ++ Strand.text' (ws.map Written.strand ++ ending body))), _, _,
    ?_, hhead, hw.append hts, hbody, ?_, hhead', hw'.append hus, hbody', habreast, hdeclared,
    hheadKeeps _ List.mem_cons_self, hbodyKeeps⟩
  · rw [h.contents, ← hfront]
    rfl
  · rw [h.contents', ← hfront']
    rfl

/-- Both texts are read as modules of the same name with the same declarations and items, up to a
list of the names that are declared. -/
theorem exists_parseFile (h : Strand.Makes (pieces name w ws body) source source')
    (hname : Terminal.Claims .identifier name.toList) :
    ∃ (g : Relocation) (head list : Tree) (declarations items : List Tree) (l l' k k' : Location)
        (t t' : Tree),
      (parseFile source = .ok (.node .sourceFile l [t]) ∧ t.Whole) ∧
      (parseFile source' = .ok (.node .sourceFile l' [t']) ∧ t'.Whole) ∧
      t = .node .moduleDeclaration k (head :: (declarations ++ items)) ∧
      t' = .node .moduleDeclaration k'
        (head.relocate g :: list :: (declarations ++ items).map (Tree.relocate g)) ∧
      list.kind = .listOfPorts ∧
      (list.childrenOf .simpleIdentifier).map Tree.text = Tree.portNames declarations ∧
      (∀ t ∈ declarations, t.kind = .portDeclaration) ∧
      ∀ t ∈ head :: (declarations ++ items), g.Keeps True t := by
  obtain ⟨g, hg⟩ : ∃ g, g = Strand.relocation source' h.known' (pieces name w ws body) := ⟨_, rfl⟩
  have hgsource : g.source = source' := by rw [hg]; rfl
  obtain ⟨head, items, ts, us, declarations, c₁, c₂, c₃, c₁', c₂', c₃', hsource, hhead, hts, hitems,
    hsource', hhead', hus, hitems', ⟨⟨row, hrow, hports⟩, ⟨front, last, hlast, hfront⟩, hkeeps⟩,
    hnames, hheadKeeps, hitemsKeeps⟩ := exists_read h hname hg
  rw [hgsource] at hfront
  -- the text that declares its ports in the header
  rw [← hrow] at hts
  obtain ⟨l, t, hparse, hwhole, k, ht⟩ := parseFile_of_parts hsource hhead hts hitems
  rw [hports] at ht
  -- the text that lists their names there, and declares them in front of the items
  have hne : (w :: ws).flatMap Written.names ≠ [] := by simp [Written.names_ne_nil]
  have hclaims : ∀ name ∈ (w :: ws).flatMap Written.names,
      Terminal.Claims .identifier name.toList := by
    intro name hmem
    obtain ⟨v, -, hv⟩ := List.mem_flatMap.1 hmem
    exact Written.claims_of_mem_names hv
  have hparen := List.IsSuffix.trans (List.suffix_cons '(' _) hhead'.suffix
  obtain ⟨names, hlists, hlisted⟩ := exists_row hne hclaims (Token.ends_cons rfl) hparen
  obtain ⟨s, hs⟩ := exists_sign (p := .semicolon) rfl hus.suffix
  have hdeclared : Token.Stretch source' c₂'
      ((front.snoc (.portsItem last s)).append (items.relocate g)).yield "\nendmodule".toList := by
    have hall := hus.append (hs.append hitems')
    rw [← hlast] at hall
    simpa [Phrase.yield_append, Phrase.yield] using hall
  obtain ⟨l', t', hparse', hwhole', k', ht'⟩ :=
    parseFile_of_parts hsource' hhead' hlisted hdeclared
  have hlistedNe : names.trees source' ≠ [] := by
    intro hnil
    have htexts := hlists.texts
    rw [hnil] at htexts
    exact hne htexts.symm
  have hheadNode := relocate_tokenNode g h.known .simpleIdentifier head.1
  have hitemsTrees := items.trees_relocate g h.known
  rw [hgsource] at hheadNode hitemsTrees
  have hnodes : ((front.snoc (.portsItem last s)).append (items.relocate g)).trees source' =
      (declarations ++ items.trees source).map (Tree.relocate g) := by
    rw [Phrase.trees_append, Phrase.trees, Phrase.trees, hfront, hitemsTrees, List.map_append]
  rw [Ports.ofItems_names hlists.isName, Ports.nodes_names hlistedNe, hnodes] at ht'
  obtain ⟨m, hm⟩ := Tree.spanning_eq_node .listOfPorts (names.trees source')
  have hnamesOf : (names.trees source').filter (fun c => c.kind == .simpleIdentifier) =
      names.trees source' := by
    rw [List.filter_eq_self]
    exact fun t ht => beq_iff_eq.2 (hlists.isName t ht)
  have hsorted := Ports.sorted_ofItems (row.trees source)
  rw [hports] at hsorted
  refine ⟨g, _, .spanning .listOfPorts (names.trees source'), declarations, items.trees source,
    l, l', k, k', t, t', ⟨hparse, hwhole⟩, ⟨hparse', hwhole'⟩, ht, ?_, Tree.kind_spanning _ _, ?_,
    hsorted, ?_⟩
  · rw [ht', hheadNode]
    rfl
  · rw [hm, Tree.childrenOf, Tree.children_node, hnamesOf, hlists.texts, hnames]
  · exact List.forall_mem_cons.2 ⟨hheadKeeps, List.forall_mem_append.2 ⟨hkeeps, hitemsKeeps⟩⟩

/-! ## Loading both texts -/

/-- Where a name is listed that declarations declare, they declare it elsewhere as well. -/
theorem declares_relocate {g : Relocation} {c : Tree} {before declarations items : List Tree}
    (hkind : ∀ t ∈ declarations, t.kind = .portDeclaration)
    (hkeeps : ∀ t ∈ declarations, g.Keeps True t) (hc : c.text ∈ Tree.portNames declarations) :
    Draft.Declares (before ++ (declarations ++ items).map (Tree.relocate g)) c.word := by
  obtain ⟨t, ht, htext⟩ := List.mem_flatMap.1 hc
  obtain ⟨nameNode, hname, hword⟩ := List.mem_map.1 htext
  have hmem : t.relocate g ∈ (declarations ++ items).map (Tree.relocate g) :=
    List.mem_map_of_mem (List.mem_append_left _ ht)
  have hrelocated : nameNode.relocate g ∈ (t.relocate g).childrenOf .simpleIdentifier := by
    rw [Tree.childrenOf_relocate]
    exact List.mem_map_of_mem hname
  refine ⟨t.relocate g, List.mem_append_right _ hmem, ?_, nameNode.relocate g, hrelocated, ?_⟩
  · rw [Tree.kind_relocate, hkind t ht]
  · have hnode := (hkeeps t ht).of_mem_children (Tree.mem_childrenOf.1 hname).1
    rw [Tree.word, hnode.text trivial, hword, Tree.word]

theorem outcomeOf_congr {t t' : Tree} (h : Draft.assemble t = Draft.assemble t') :
    outcomeOf (.ok t) = outcomeOf (.ok t') := by
  rw [outcomeOf, outcomeOf, h]

/-- Where a module is read as another one elsewhere, up to a list of its own ports, the two are
alike. -/
theorem alikeInFull_of_listed {g : Relocation} {head list : Tree} {declarations items : List Tree}
    {k k' : Location}
    (h : (Tree.node .moduleDeclaration k (head :: (declarations ++ items))).IsModule)
    (h' : (Tree.node .moduleDeclaration k'
      (head.relocate g :: list :: (declarations ++ items).map (Tree.relocate g))).IsModule)
    (hlist : list.kind = .listOfPorts)
    (hnames : (list.childrenOf .simpleIdentifier).map Tree.text = Tree.portNames declarations)
    (hkind : ∀ t ∈ declarations, t.kind = .portDeclaration)
    (hkeeps : ∀ t ∈ head :: (declarations ++ items), g.Keeps True t) :
    (Tree.node .moduleDeclaration k (head :: (declarations ++ items))).moduleName =
      (Tree.node .moduleDeclaration k'
        (head.relocate g :: list :: (declarations ++ items).map (Tree.relocate g))).moduleName ∧
    AlikeInFull (outcomeOf (.ok (.node .moduleDeclaration k (head :: (declarations ++ items)))))
      (outcomeOf (.ok (.node .moduleDeclaration k'
        (head.relocate g :: list :: (declarations ++ items).map (Tree.relocate g))))) := by
  -- the node of the whole module covers the header, which is different; only its children count
  have hmodule : (Tree.node .moduleDeclaration head.location
      (head :: (declarations ++ items))).IsModule := by
    obtain ⟨hparts⟩ := h
    exact .intro hparts
  have hwhole : g.Keeps True
      (.node .moduleDeclaration head.location (head :: (declarations ++ items))) := by
    have hhead := (List.forall_mem_cons.1 hkeeps).1.text trivial
    rw [Tree.text, Tree.location_relocate] at hhead
    exact .intro (fun _ => hhead) hkeeps
  have hboth : ∀ t, .ok (.node .moduleDeclaration head.location (head :: (declarations ++ items))) =
      (.ok t : Except ModuleError Tree) → t.IsModule ∧ g.Keeps True t := by
    intro t ht
    rw [← Except.ok.inj ht]
    exact ⟨hmodule, hwhole⟩
  have hmirrors := mirrors_outcomeOf hboth
  have hdeclared : ∀ c ∈ list.childrenOf .simpleIdentifier,
      Draft.Declares ([head.relocate g] ++ (declarations ++ items).map (Tree.relocate g))
        c.word := by
    intro c hc
    refine declares_relocate hkind (fun t ht => hkeeps t (by simp [ht])) ?_
    rw [← hnames]
    exact List.mem_map_of_mem hc
  have hassemble :=
    Draft.assemble_listed (g.location head.location) [head.relocate g] h' hlist hdeclared
  have hsame := outcomeOf_congr hassemble
  have hname := hmodule.moduleName_relocate hwhole
  rw [Tree.relocate_node] at hname
  refine ⟨?_, ?_⟩
  · exact hname.symm.trans
      (Draft.moduleName_listed (g.location head.location) [head.relocate g]
        (by rw [hlist]; decide)).symm
  · have halike := alikeInFull_of_mirrors hmirrors
    have hplaced : ∀ l, outcomeOf (.ok (.node .moduleDeclaration l
        (head :: (declarations ++ items)))) = outcomeOf (.ok (.node .moduleDeclaration head.location
          (head :: (declarations ++ items)))) := fun _ => outcomeOf_congr rfl
    simp only [Except.map, Except.mapError, Tree.relocate_node, List.map_cons] at halike
    rw [List.singleton_append, List.singleton_append] at hsame
    rw [hplaced k, hsame]
    exact halike

theorem AlikeInFull.refl (x : Logged (Except LoadError Module)) : AlikeInFull x x :=
  ⟨⟨rfl, rfl⟩, rfl⟩

theorem whole_eq_ok {t : Tree} (h : t.IsModule) (hwhole : t.Whole) : whole t = .ok t := by
  rw [whole, h.descendants_error_eq_nil_iff.2 hwhole]

/-- Two files of one module each are loaded alike if the modules have one name and are alike. -/
theorem alikeInFull_select {l l' : Location} {t t' : Tree}
    (hfile : (Tree.node .sourceFile l [t]).IsFile) (hfile' : (Tree.node .sourceFile l' [t']).IsFile)
    (hwhole : t.Whole) (hwhole' : t'.Whole) (hname : t.moduleName = t'.moduleName)
    (h : AlikeInFull (outcomeOf (.ok t)) (outcomeOf (.ok t'))) (top : Option String) :
    AlikeInFull (outcomeOf (select (.node .sourceFile l [t]) top))
      (outcomeOf (select (.node .sourceFile l' [t']) top)) := by
  have hfound : whole t = .ok t := whole_eq_ok (hfile.isModule t List.mem_cons_self) hwhole
  have hfound' : whole t' = .ok t' := whole_eq_ok (hfile'.isModule t' List.mem_cons_self) hwhole'
  rw [select_eq hfile, select_eq hfile', Tree.children_node, Tree.children_node]
  cases top with
  | none =>
    have hfirst : ∀ t, choose [t] none >>= whole = whole t := fun _ => rfl
    rw [hfirst, hfirst, hfound, hfound']
    exact h
  | some name =>
    by_cases hnamed : t.moduleName = name
    · have hfirst : ∀ t, t.moduleName = name → choose [t] (some name) >>= whole = whole t := by
        intro t ht
        simp [choose, ht, bind, Except.bind]
      rw [hfirst t hnamed, hfirst t' (hname ▸ hnamed), hfound, hfound']
      exact h
    · have hnone : ∀ t, t.moduleName ≠ name →
          choose [t] (some name) >>= whole = .error (.noSuchModule name) := by
        intro t ht
        simp [choose, ht, bind, Except.bind]
      rw [hnone t hnamed, hnone t' (hname ▸ hnamed)]
      exact .refl _

/-- Both styles of headers mean the same. Whatever declarations of ports and whatever other items
are written, the module that declares its ports in its header, and the one that lists their names
there and declares them in front of its other items, are loaded as the same module, with the same
diagnostics in the same order, or fail for the same reason. Only places are different. -/
theorem load_header_styles (name : String) (hname : Terminal.Claims .identifier name.toList)
    (groups : List (Written .portDeclaration)) (body : Written (.many (.item false)))
    (top : Option String) :
    AlikeInFull (load (.ofText (declaredInHeader name groups body)) top).run
      (load (.ofText (declaredInBody name groups body)) top).run := by
  cases groups with
  | nil =>
    have htext : declaredInHeader name [] body = declaredInBody name [] body := by
      simp [declaredInHeader, declaredInBody]
    rw [htext]
    exact .refl _
  | cons w ws =>
    have hmakes : Strand.Makes (pieces name w ws body)
        (codeOf (.ofText (declaredInHeader name (w :: ws) body)))
        (codeOf (.ofText (declaredInBody name (w :: ws) body))) :=
      ⟨nofun, nofun, strip_declaredInHeader hname, strip_declaredInBody hname⟩
    obtain ⟨g, head, list, declarations, items, l, l', k, k', t, t', ⟨hparse, hwhole⟩,
      ⟨hparse', hwhole'⟩, ht, ht', hlist, hnames, hkind, hkeeps⟩ := exists_parseFile hmakes hname
    have hfile : Tree.IsFile _ := isFile_of_parseFile hparse
    have hfile' : Tree.IsFile _ := isFile_of_parseFile hparse'
    have hmodule : t.IsModule := hfile.isModule t List.mem_cons_self
    have hmodule' : t'.IsModule := hfile'.isModule t' List.mem_cons_self
    rw [run_load_eq hparse, run_load_eq hparse']
    subst ht ht'
    obtain ⟨hsame, halike⟩ := alikeInFull_of_listed hmodule hmodule' hlist hnames hkind hkeeps
    exact alikeInFull_select hfile hfile' hwhole hwhole' hsame halike top

/-- A range of two bits that starts at an offset. -/
def pairRange (n : Nat) : Phrase .range :=
  .range ⟨⟨_, n, n + 1⟩, rfl⟩ (.ofPrimary (.number ⟨⟨_, n + 1, n + 2⟩, rfl⟩))
    ⟨⟨_, n + 2, n + 3⟩, rfl⟩ (.ofPrimary (.number ⟨⟨_, n + 3, n + 4⟩, rfl⟩))
    ⟨⟨_, n + 4, n + 5⟩, rfl⟩

/-- Two inputs, with a comment between their names. -/
def pairInputs : Written .portDeclaration where
  text := "input [1:0] a/* , */, b"
  phrase := .nextPort (.port (.portHead ⟨⟨.keyword .input, 0, 5⟩, .input, by decide, rfl⟩ .absent
    (.present (pairRange 6)) ⟨⟨_, 12, 13⟩, rfl⟩)) ⟨⟨_, 20, 21⟩, rfl⟩ ⟨⟨_, 22, 23⟩, rfl⟩
  closed _ := rfl
  scans := Token.scan_eq_ok_iff.1 (by decide +kernel)

/-- An output. -/
def pairOutput : Written .portDeclaration where
  text := "output logic [1:0] y"
  phrase := .port (.portHead ⟨⟨.keyword .output, 0, 6⟩, .output, by decide, rfl⟩
    (.present (.netType ⟨⟨.keyword .logic, 7, 12⟩, .logic, by decide, rfl⟩))
    (.present (pairRange 13)) ⟨⟨_, 19, 20⟩, rfl⟩)
  closed _ := rfl
  scans := Token.scan_eq_ok_iff.1 (by decide +kernel)

/-- The definition of the output. -/
def pairBody : Written (.many (.item false)) where
  text := "assign y = a;"
  phrase := .snoc .none (.assignsItem (.continuousAssign ⟨⟨_, 0, 6⟩, rfl⟩
    (.one (.assignment (.name ⟨⟨_, 7, 8⟩, rfl⟩) ⟨⟨_, 9, 10⟩, rfl⟩
      (.ofPrimary (.name ⟨⟨_, 11, 12⟩, rfl⟩))))) ⟨⟨_, 12, 13⟩, rfl⟩)
  closed _ := rfl
  scans := Token.scan_eq_ok_iff.1 (by decide +kernel)

/-- A bare name is joined to the range before it, in either style. -/
theorem load_header_styles_pair :
    Terminal.Claims .identifier "pair".toList ∧
    declaredInHeader "pair" [pairInputs, pairOutput] pairBody =
      "module pair(input [1:0] a/* , */, b,output logic [1:0] y);assign y = a;\nendmodule" ∧
    declaredInBody "pair" [pairInputs, pairOutput] pairBody =
      "module pair(a,b,y);input [1:0] a/* , */, b;output logic [1:0] y;assign y = a;\nendmodule" ∧
    (load (.ofText (declaredInHeader "pair" [pairInputs, pairOutput] pairBody))
      none).run.value.isOk = true ∧
    AlikeInFull
      (load (.ofText (declaredInHeader "pair" [pairInputs, pairOutput] pairBody)) none).run
      (load (.ofText (declaredInBody "pair" [pairInputs, pairOutput] pairBody)) none).run := by
  have hname : Terminal.Claims .identifier "pair".toList :=
    Terminal.claims_of_lexeme? (by decide)
  exact ⟨hname, by decide +kernel, by decide +kernel, by decide +kernel,
    load_header_styles "pair" hname [pairInputs, pairOutput] pairBody none⟩

end Module

end Netlist
