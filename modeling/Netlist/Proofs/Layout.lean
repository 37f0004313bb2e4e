/-
Texts of the same words.

What a text says is in its words and their order; the blanks between them may be any, and between
some words there need be none. A row of words is therefore written with a blank in front of each
(`Token.spaced`), so that none of its tokens touches another (`Token.exists_spaced`). From there the
tokens, or some of them, go in order to any other tokens that are the same words
(`Relocation.exists_of_spellings`), and trees that are built over the tokens go along and keep their
words (`Grammar.Built.keeps`).
-/
import Netlist.Proofs.Fidelity
import Netlist.Proofs.Gaps
import Netlist.Proofs.Mirrors

set_option autoImplicit false

namespace Netlist

open Text (byteLength)

/-! ## Words -/

/-- A lexeme that nothing follows is not cut short. -/
theorem Terminal.Claims.leads_nil {x : Terminal} {lexeme : List Char} (h : x.Claims lexeme) :
    x.Leads lexeme [] where
  spells := h.spells
  preferred := h.preferred
  longest := by
    intro y lexeme' rest' heq _
    rw [← List.append_nil lexeme, ← heq, List.length_append]
    exact Nat.le_add_right _ _

theorem Terminal.Claims.unique {x y : Terminal} {lexeme : List Char} (h : x.Claims lexeme)
    (h' : y.Claims lexeme) : x = y :=
  (Token.Leads.unique h.leads_nil h'.leads_nil rfl).1

namespace Token

/-- The texts of tokens, in their order. -/
def words (source : Source) (ts : List Token) : List String :=
  ts.map fun t => (⟨source, t.start, t.stop⟩ : Location).text

/-- A word of the source: the terminal that the token is, and the text that it covers. -/
def spelling (source : Source) (t : Token) : Terminal × String :=
  (t.terminal, (⟨source, t.start, t.stop⟩ : Location).text)

/-- The words of the source, in their order. -/
def spellings (source : Source) (ts : List Token) : List (Terminal × String) :=
  ts.map (spelling source)

variable {source : Source} {ts : List Token} {ws : List (Terminal × String)}

theorem claims_of_scans (h : Scans 0 source.contents ts []) :
    ∀ w ∈ spellings source ts, w.1.Claims w.2.toList := by
  intro w hw
  obtain ⟨t, ht, rfl⟩ := List.mem_map.1 hw
  have hread := readFrom_of_scan (scan_eq_ok_iff.2 h) t ht
  obtain ⟨_, lexeme, _, -, -, -, hleads, htext⟩ := hread.exists_lexeme
  rw [spelling, htext, String.toList_ofList]
  exact hleads.claims

/-- The text of a word tells which terminal it is. -/
theorem eq_of_map_snd_eq {vs : List (Terminal × String)} (hws : ∀ w ∈ ws, w.1.Claims w.2.toList)
    (hvs : ∀ v ∈ vs, v.1.Claims v.2.toList) (h : vs.map Prod.snd = ws.map Prod.snd) : vs = ws := by
  induction vs generalizing ws with
  | nil => exact (List.map_eq_nil_iff.1 h.symm).symm
  | cons v vs ih =>
    obtain ⟨w, ws, rfl, hw, hrest⟩ := List.map_eq_cons_iff.1 h.symm
    obtain ⟨hclaims, hws⟩ := List.forall_mem_cons.1 hws
    obtain ⟨hclaims', hvs⟩ := List.forall_mem_cons.1 hvs
    rw [hw] at hclaims
    rw [ih hws hvs hrest.symm]
    exact congrArg (· :: ws) (Prod.ext (hclaims'.unique hclaims) hw.symm)

theorem words_eq_map (source : Source) (ts : List Token) :
    words source ts = (spellings source ts).map Prod.snd := by
  rw [words, spellings, List.map_map]
  rfl

/-! ## Words with blanks in front -/

/-- The words with a blank in front of each. -/
def spaced (ws : List (Terminal × String)) : List Char :=
  ws.flatMap fun w => ' ' :: w.2.toList

/-- Their tokens, if the first blank is at the offset. -/
def rowFrom (offset : Nat) : List (Terminal × String) → List Token
  | [] => []
  | w :: ws =>
    ⟨w.1, offset + 1, offset + 1 + byteLength w.2.toList⟩ ::
      rowFrom (offset + 1 + byteLength w.2.toList) ws

theorem scans_spaced (h : ∀ w ∈ ws, w.1.Claims w.2.toList) (offset : Nat) :
    Scans offset (spaced ws) (rowFrom offset ws) [] := by
  induction ws generalizing offset with
  | nil => exact .done
  | cons w ws ih =>
    obtain ⟨hw, hws⟩ := List.forall_mem_cons.1 h
    have hleads : w.1.Leads w.2.toList (spaced ws) := by
      cases ws with
      | nil => exact hw.leads_nil
      | cons v ws =>
        have hcut : w.1.Leads w.2.toList ([] ++ spaced (v :: ws)) :=
          (Terminal.leads_append_cut_iff (Terminal.cuts_of_isBlank rfl)).2 hw.leads_nil
        exact hcut
    exact .blank rfl (.token hleads (ih hws _))

theorem spellings_rowFrom {offset : Nat} {before : List Char}
    (hsource : source.contents = before ++ spaced ws) (hoffset : offset = byteLength before) :
    spellings source (rowFrom offset ws) = ws := by
  induction ws generalizing offset before with
  | nil => rfl
  | cons w ws ih =>
    have hrest : source.contents = before ++ ' ' :: w.2.toList ++ spaced ws := by
      simp [hsource, spaced]
    have hword : source.contents = (before ++ [' ']) ++ w.2.toList ++ spaced ws := by
      simp [hsource, spaced]
    have hslice := Text.slice?_append (before ++ [' ']) w.2.toList (spaced ws)
    have hlength : byteLength (before ++ [' ']) = offset + 1 := by
      rw [Text.byteLength_append, hoffset]
      rfl
    rw [← hword, hlength] at hslice
    have hoffset' : offset + 1 + byteLength w.2.toList =
        byteLength (before ++ ' ' :: w.2.toList) := by
      rw [List.append_cons, Text.byteLength_append, hlength]
    have hnext := ih hrest hoffset'
    rw [rowFrom, spellings, List.map_cons, ← spellings, hnext]
    simp only [spelling, Location.text, hslice, String.ofList_toList]

/-! ## Tokens that do not touch -/

/-- The tokens stand one behind the other. -/
structure Ordered (ts : List Token) : Prop where
  bounds : ∀ t ∈ ts, t.start < t.stop
  pairwise : ts.Pairwise fun a b => a.stop ≤ b.start

/-- The tokens stand one behind the other, and none touches the next one. -/
structure Apart (ts : List Token) : Prop where
  bounds : ∀ t ∈ ts, t.start < t.stop
  pairwise : ts.Pairwise fun a b => a.stop < b.start

theorem InOrder.ordered {lo hi : Nat} (h : InOrder source lo ts hi) : Ordered ts := by
  refine ⟨fun t ht => (h.bounds t ht).2.1, ?_⟩
  induction h with
  | nil => exact .nil
  | cons _ _ _ _ h ih => exact .cons (fun t ht => (h.bounds t ht).1) ih

variable {us : List Token}

theorem Ordered.sublist (h : Ordered ts) (hus : us.Sublist ts) : Ordered us :=
  ⟨fun t ht => h.bounds t (hus.subset ht), h.pairwise.sublist hus⟩

theorem Apart.sublist (h : Apart ts) (hus : us.Sublist ts) : Apart us :=
  ⟨fun t ht => h.bounds t (hus.subset ht), h.pairwise.sublist hus⟩

theorem le_start_of_mem_rowFrom {offset : Nat} : ∀ t ∈ rowFrom offset ws, offset < t.start := by
  induction ws generalizing offset with
  | nil => exact nofun
  | cons w ws ih =>
    refine List.forall_mem_cons.2 ⟨Nat.lt_succ_self offset, fun t ht => ?_⟩
    have hrest := ih t ht
    omega

theorem apart_rowFrom (h : ∀ w ∈ ws, w.2.toList ≠ []) (offset : Nat) :
    Apart (rowFrom offset ws) := by
  induction ws generalizing offset with
  | nil => exact ⟨nofun, .nil⟩
  | cons w ws ih =>
    obtain ⟨hw, hws⟩ := List.forall_mem_cons.1 h
    have hrest := ih hws (offset + 1 + byteLength w.2.toList)
    have hpos := Text.byteLength_pos hw
    exact ⟨List.forall_mem_cons.2 ⟨Nat.lt_add_of_pos_right hpos, hrest.bounds⟩,
      .cons (fun t ht => le_start_of_mem_rowFrom t ht) hrest.pairwise⟩

/-- The words of a text may be written so that no two of them touch. -/
theorem exists_spaced (h : Scans 0 source.contents ts []) : ∃ (spread : Source) (us : List Token),
    spread.origin ≠ .unknown ∧ Scans 0 spread.contents us [] ∧ Apart us ∧
      spellings spread us = spellings source ts := by
  have hclaims := claims_of_scans h
  refine ⟨.ofChars (spaced (spellings source ts)), rowFrom 0 (spellings source ts),
    Source.known_ofChars _, scans_spaced hclaims 0, apart_rowFrom ?_ 0, ?_⟩
  · exact fun w hw => (hclaims w hw).spells.ne_nil
  · have hcontents : (Source.ofChars (spaced (spellings source ts))).contents =
        [] ++ spaced (spellings source ts) := rfl
    exact spellings_rowFrom hcontents rfl

end Token

/-! ## From tokens to tokens -/

namespace Relocation

/-- The last end of a token in the second row of which the counterpart in the first row has been
reached. -/
def reach : List (Token × Token) → Nat → Nat
  | [], _ => 0
  | (t, t') :: ps, n =>
    max (if t.start ≤ n then t'.start else 0) (max (if t.stop ≤ n then t'.stop else 0) (reach ps n))

variable {ps qs : List (Token × Token)} {n bound : Nat}

theorem reach_mono (ps : List (Token × Token)) {m n : Nat} (h : m ≤ n) :
    reach ps m ≤ reach ps n := by
  induction ps with
  | nil => exact Nat.le_refl _
  | cons p ps ih =>
    simp only [reach]
    split <;> split <;> split <;> split <;> omega

theorem reach_append : reach (ps ++ qs) n = max (reach ps n) (reach qs n) := by
  induction ps with
  | nil => exact (Nat.zero_max _).symm
  | cons p ps ih =>
    rw [List.cons_append, reach, reach, ih]
    omega

theorem reach_eq_zero (h : ∀ p ∈ ps, n < p.1.start ∧ n < p.1.stop) : reach ps n = 0 := by
  induction ps with
  | nil => rfl
  | cons p ps ih =>
    obtain ⟨⟨hstart, hstop⟩, hps⟩ := List.forall_mem_cons.1 h
    rw [reach, ih hps, if_neg (Nat.not_le.2 hstart), if_neg (Nat.not_le.2 hstop)]
    rfl

theorem reach_le (h : ∀ p ∈ ps, p.2.start ≤ bound ∧ p.2.stop ≤ bound) : reach ps n ≤ bound := by
  induction ps with
  | nil => exact Nat.zero_le _
  | cons p ps ih =>
    obtain ⟨⟨hstart, hstop⟩, hps⟩ := List.forall_mem_cons.1 h
    have hrest := ih hps
    rw [reach]
    split <;> split <;> omega

/-- The relocation that takes tokens to their counterparts. -/
def between (source : Source) (known : source.origin ≠ .unknown) (ps : List (Token × Token)) :
    Relocation where
  source := source
  place := reach ps
  known := known
  mono h := reach_mono ps h

variable {source : Source} {known : source.origin ≠ .unknown}

/-- Tokens that do not touch go to their counterparts. -/
theorem relocate_between {p : Token × Token} (hp : p ∈ ps)
    (hapart : Token.Apart (ps.map Prod.fst)) (hordered : Token.Ordered (ps.map Prod.snd))
    (hterminal : p.2.terminal = p.1.terminal) :
    p.1.relocate (between source known ps) = p.2 := by
  obtain ⟨before, after, rfl⟩ := List.append_of_mem hp
  obtain ⟨t, t'⟩ := p
  simp only [List.map_append, List.map_cons] at hapart hordered
  have hbounds := hapart.bounds t (by simp)
  have hbounds' := hordered.bounds t' (by simp)
  obtain ⟨-, hafter, -⟩ := List.pairwise_append.1 hapart.pairwise
  obtain ⟨-, -, hbefore'⟩ := List.pairwise_append.1 hordered.pairwise
  -- what stands behind has not been reached, and what stands in front ends before
  have hzero : ∀ n ≤ t.stop, reach after n = 0 := by
    intro n hn
    refine reach_eq_zero fun q hq => ?_
    have hmem : q.1 ∈ after.map Prod.fst := List.mem_map_of_mem hq
    have hnext := List.rel_of_pairwise_cons hafter hmem
    have hnextBounds := hapart.bounds q.1 (by simp [hmem])
    omega
  have hle : ∀ n, reach before n ≤ t'.start := by
    intro n
    refine reach_le fun q hq => ?_
    have hmem : q.2 ∈ before.map Prod.snd := List.mem_map_of_mem hq
    have hprevious := hbefore' q.2 hmem t' List.mem_cons_self
    have hpreviousBounds := hordered.bounds q.2 (by simp [hmem])
    omega
  have hstart : reach (before ++ (t, t') :: after) t.start = t'.start := by
    have hfront := hle t.start
    rw [reach_append, reach, hzero t.start (Nat.le_of_lt hbounds), if_pos (Nat.le_refl _),
      if_neg (Nat.not_le.2 hbounds)]
    omega
  have hstop : reach (before ++ (t, t') :: after) t.stop = t'.stop := by
    have hfront := hle t.stop
    rw [reach_append, reach, hzero t.stop (Nat.le_refl _), if_pos (Nat.le_of_lt hbounds),
      if_pos (Nat.le_refl _)]
    omega
  rw [Token.relocate, between]
  dsimp only at hterminal ⊢
  rw [hstart, hstop, ← hterminal]

/-- A row of tokens that do not touch goes to any row of tokens in order that are the same
terminals. -/
theorem map_relocate_between (source : Source) (known : source.origin ≠ .unknown)
    {ts ts' : List Token} (hapart : Token.Apart ts)
    (hordered : Token.Ordered ts') (h : ts'.map Token.terminal = ts.map Token.terminal) :
    ts.map (Token.relocate (between source known (ts.zip ts'))) = ts' := by
  have hlength : ts'.length = ts.length := by simpa using congrArg List.length h
  have hfst : (ts.zip ts').map Prod.fst = ts := List.map_fst_zip hlength.ge
  have hsnd : (ts.zip ts').map Prod.snd = ts' := List.map_snd_zip hlength.le
  have hterminals : (ts.zip ts').map (Token.terminal ∘ Prod.snd) =
      (ts.zip ts').map (Token.terminal ∘ Prod.fst) := by
    rw [← List.map_map, hsnd, ← List.map_map, hfst, h]
  have hterminal : ∀ p ∈ ts.zip ts', p.2.terminal = p.1.terminal := List.map_inj_left.1 hterminals
  have hgone : ∀ p ∈ ts.zip ts', p.1.relocate (between source known (ts.zip ts')) = p.2 := by
    intro p hp
    exact relocate_between hp (hfst.symm ▸ hapart) (hsnd.symm ▸ hordered) (hterminal p hp)
  have hmap : (ts.zip ts').map (Token.relocate (between source known (ts.zip ts')) ∘ Prod.fst) =
      (ts.zip ts').map Prod.snd := List.map_congr_left hgone
  rwa [← List.map_map, hfst, hsnd] at hmap

/-- Tokens that do not touch go to other tokens that are the same words. -/
theorem exists_of_spellings {source source' : Source} (known : source'.origin ≠ .unknown)
    {ts ts' : List Token} (hapart : Token.Apart ts) (hordered : Token.Ordered ts')
    (h : Token.spellings source' ts' = Token.spellings source ts) :
    ∃ g : Relocation, g.source = source' ∧ ts.map (Token.relocate g) = ts' ∧
      ∀ t ∈ ts, (t.relocate g).spelling g.source = t.spelling source := by
  have hterminals : ts'.map Token.terminal = ts.map Token.terminal := by
    have hfst := congrArg (List.map Prod.fst) h
    rwa [Token.spellings, Token.spellings, List.map_map, List.map_map] at hfst
  have hgone := map_relocate_between source' known hapart hordered hterminals
  refine ⟨_, rfl, hgone, List.map_inj_left.1 ?_⟩
  have hspellings := congrArg (Token.spellings source') hgone
  rw [h, Token.spellings, List.map_map] at hspellings
  exact hspellings

end Relocation

/-- Trees over tokens that have their words elsewhere keep their words. -/
theorem Grammar.Built.keeps {source : Source} {g : Relocation} {recovers : Bool} {ts : List Token}
    {as : List Tree} (h : Built source recovers ts as) (known : source.origin ≠ .unknown)
    (hts : ∀ t ∈ ts, (t.relocate g).spelling g.source = t.spelling source) :
    ∀ a ∈ as, g.Keeps False a := by
  have htext : ∀ t ∈ ts, (g.location ⟨source, t.start, t.stop⟩).text =
      (⟨source, t.start, t.stop⟩ : Location).text := by
    intro t ht
    rw [g.location_mk known]
    exact (Prod.mk.inj (hts t ht)).2
  intro a ha
  have hleaf := h.everywhere_leaf (P := fun l => (g.location l).text = l.text) htext a ha
  exact hleaf.imp fun node h hnode => h (hnode.resolve_left id)

end Netlist
