/-
A module is read part by part.

Whatever stands in front of a semicolon in a module, good or spoiled, the reader stands between two
items behind it (`step_semicolon`). What the items in front have left has no say in what follows:
their nodes only stand in front (`run_behind`). So what stands between two semicolons adds nodes of
its own (`Adds`), the same ones wherever it stands in the module, and a module is put together of
such parts.
-/
import Netlist.Proofs.JoinedTexts

set_option autoImplicit false

namespace Netlist.Grammar

variable {source : Source} {t : Token} {ts us vs : List Token}

/-! ## Behind a semicolon -/

/-- No expression goes on behind a semicolon. -/
theorem Reader.step_semicolon (r : Reader) (ht : t.terminal = .punctuation .semicolon) :
    r.step source t = none := by
  obtain ⟨goal, stack, progress⟩ := r
  cases progress with
  | awaiting => simp only [step, stepAwaiting, ht, Punctuation.unary?]
  | operand read =>
    simp only [step, stepOperand, ht]
    split
    · rfl
    · simp only [stepSign, Punctuation.binary?]
  | copied start count inner => simp only [step, ht]

theorem Head.step_semicolon (h : Head) (ht : t.terminal = .punctuation .semicolon) :
    h.step source t = none := by
  obtain ⟨parts, stage⟩ := h
  cases stage with
  | direction => simp [step, netTypeNode?, stepRange, stepName, nameNode?, ht]
  | netType => simp [step, stepRange, stepName, nameNode?, ht]
  | range => simp [step, stepName, nameNode?, ht]
  | upper start e =>
    simp only [step, Reader.feed, e.step_semicolon ht, ht]
    cases e.finish? <;> rfl
  | lower start upper e =>
    simp only [step, Reader.feed, e.step_semicolon ht, ht]
    cases e.finish? <;> rfl

/-- No item goes on behind a semicolon. -/
theorem Item.step_semicolon (i next : Item) (ht : t.terminal = .punctuation .semicolon) :
    i.step source t ≠ some (.reading next) := by
  cases i with
  | blank => simp [step, stepBlank, directionNode?, netTypeNode?, ht]
  | port h => simp [step, h.step_semicolon ht]
  | portNamed declaration => simp [step, ht]
  | portComma declaration => simp [step, nameNode?, ht]
  | net h => simp [step, h.step_semicolon ht]
  | netNamed parts name => simp [step, stepNetPart, ht]
  | netValue parts name e =>
    simp only [step, Reader.feed, e.step_semicolon ht, stepNetPart, ht]
    cases e.finish? <;> simp
  | netComma parts => simp [step, nameNode?, ht]
  | target start parts e =>
    simp only [step, Reader.feed, e.step_semicolon ht, ht]
    cases e.finish? <;> simp
  | value start parts left e =>
    simp only [step, Reader.feed, e.step_semicolon ht, stepAssignment, ht]
    cases e.finish? <;> simp

/-- No header goes on behind a semicolon. -/
theorem Header.step_semicolon (h next : Header) (ht : t.terminal = .punctuation .semicolon) :
    h.step source t ≠ some (.reading next) := by
  cases h with
  | port name ports h => simp [step, h.step_semicolon ht]
  | _ => simp [step, stepPort, directionNode?, nameNode?, ht]

namespace SourceFile

variable {f : SourceFile}

/-- Behind a semicolon the reader stands between two items, unless the file is spoiled. -/
theorem step_semicolon (source : Source) (f : SourceFile)
    (ht : t.terminal = .punctuation .semicolon) :
    (∃ refused, (f.step source t).place = .lost refused) ∨
      ∃ start children, f.step source t = ⟨f.modules, .body start children .blank⟩ := by
  obtain ⟨modules, place⟩ := f
  have hrefuse : ∀ f : SourceFile, ∀ start children, f.refuse source start children t =
      f.goto (afterSpoiled source start children t t.stop) := by
    intro f start children
    rw [refuse, ht]
  cases place with
  | outside =>
    simp only [step, ht]
    exact .inl ⟨t, rfl⟩
  | header start h =>
    cases hstep : h.step source t with
    | none =>
      simp only [step, hstep]
      exact .inl ⟨t, rfl⟩
    | some s =>
      cases s with
      | reading next => exact absurd hstep (h.step_semicolon next ht)
      | complete children =>
        simp only [step, hstep]
        exact .inr ⟨start, children, rfl⟩
  | body start children item =>
    have hoffered : item = .blank → t.terminal ≠ .keyword .endmodule := by
      intro _
      rw [ht]
      exact Terminal.noConfusion
    rw [step_body_offered hoffered]
    cases hstep : item.step source t with
    | none =>
      dsimp only
      rw [hrefuse]
      exact .inr ⟨start, _, rfl⟩
    | some s =>
      cases s with
      | reading next => exact absurd hstep (item.step_semicolon next ht)
      | complete node => exact .inr ⟨start, _, rfl⟩
  | closed start stop children =>
    simp only [step, ht, hrefuse]
    exact .inr ⟨start, _, rfl⟩
  | spoiled start children refused stop =>
    simp only [step, ht]
    exact .inr ⟨start, _, rfl⟩
  | lost refused => exact .inl ⟨refused, rfl⟩

end SourceFile

/-! ## Nodes in front -/

/-- The place with more nodes in front of those of the module. -/
def Place.behind (nodes : List Tree) : Place → Place
  | .body start children item => .body start (nodes ++ children) item
  | .closed start stop children => .closed start stop (nodes ++ children)
  | .spoiled start children refused stop => .spoiled start (nodes ++ children) refused stop
  | place => place

/-- The place is behind the header of a module that starts at the offset. -/
inductive Place.Inside (offset : Nat) : Place → Prop
  | body (children : List Tree) (item : Item) : Inside offset (.body offset children item)
  | closed (stop : Nat) (children : List Tree) : Inside offset (.closed offset stop children)
  | spoiled (children : List Tree) (refused : Token) (stop : Nat) :
      Inside offset (.spoiled offset children refused stop)

namespace SourceFile

variable {f : SourceFile} {offset : Nat} {nodes : List Tree}

/-- The file with more nodes in front of those of the module that is read. -/
def behind (nodes : List Tree) (f : SourceFile) : SourceFile :=
  ⟨f.modules, f.place.behind nodes⟩

theorem refuse_behind (nodes : List Tree) (f : SourceFile) (start : Nat) (children : List Tree)
    (t : Token) :
    (f.behind nodes).refuse source start (nodes ++ children) t =
      (f.refuse source start children t).behind nodes := by
  unfold refuse
  split
  · simp [goto, behind, afterSpoiled, Place.behind]
  · rfl

theorem inside_refuse (f : SourceFile) (children : List Tree) (t : Token) :
    (f.refuse source offset children t).place.Inside offset := by
  unfold refuse
  split
  · exact .body _ _
  · exact .spoiled _ _ _

theorem length_modules_step (source : Source) (f : SourceFile) (t : Token) :
    f.modules.length ≤ (f.step source t).modules.length := by
  have hrefuse : ∀ start children, (f.refuse source start children t).modules = f.modules := by
    intro start children
    unfold refuse
    split <;> rfl
  unfold step
  split
  · split <;> exact Nat.le_refl _
  · split <;> exact Nat.le_refl _
  · split
    · exact Nat.le_refl _
    · split
      · exact Nat.le_refl _
      · exact Nat.le_refl _
      · rw [hrefuse]
  · split
    · simp
    · rw [hrefuse]
  · split <;> exact Nat.le_refl _
  · exact Nat.le_refl _

theorem length_modules_run (source : Source) (f : SourceFile) (ts : List Token) :
    f.modules.length ≤ (f.run source ts).modules.length := by
  induction ts generalizing f with
  | nil => exact Nat.le_refl _
  | cons t ts ih => exact Nat.le_trans (length_modules_step source f t) (ih (f.step source t))

/-- As long as the module is not complete, the nodes in front have no say in what a token does. -/
theorem step_behind (hf : f.place.Inside offset)
    (h : ((f.behind nodes).step source t).modules.length ≤ f.modules.length) :
    (f.step source t).place.Inside offset ∧
      ∀ front, (f.behind front).step source t = (f.step source t).behind front := by
  obtain ⟨modules, place⟩ := f
  cases hf with
  | body children item =>
    by_cases hend : item = .blank ∧ t.terminal = .keyword .endmodule
    · obtain ⟨rfl, hkey⟩ := hend
      simp only [step, behind, Place.behind, hkey]
      exact ⟨.closed _ _, fun _ => rfl⟩
    · have hoffered : item = .blank → t.terminal ≠ .keyword .endmodule := fun hitem hkey =>
        hend ⟨hitem, hkey⟩
      rw [step_body_offered hoffered]
      refine ⟨?_, fun front => ?_⟩
      · rcases item.step source t with _ | next | node
        · exact inside_refuse _ _ _
        · exact .body _ _
        · exact .body _ _
      · have hfront : (⟨modules, .body offset children item⟩ : SourceFile).behind front =
            ⟨modules, .body offset (front ++ children) item⟩ := rfl
        rw [hfront, step_body_offered hoffered]
        rcases item.step source t with _ | next | node
        · exact refuse_behind front ⟨modules, .body offset children item⟩ offset children t
        · rfl
        · simp [behind, Place.behind]
  | closed stop children =>
    by_cases hkey : t.terminal = .keyword .module
    · simp [step, behind, Place.behind, hkey] at h
    · have hstep : ∀ cs, (⟨modules, .closed offset stop cs⟩ : SourceFile).step source t =
          refuse source ⟨modules, .closed offset stop cs⟩ offset cs t := by
        intro cs
        simp only [step]
      rw [hstep]
      refine ⟨inside_refuse _ _ _, fun front => ?_⟩
      have hfront : (⟨modules, .closed offset stop children⟩ : SourceFile).behind front =
          ⟨modules, .closed offset stop (front ++ children)⟩ := rfl
      rw [hfront, hstep, ← hfront]
      exact refuse_behind front ⟨modules, .closed offset stop children⟩ offset children t
  | spoiled children refused stop =>
    simp only [step, behind, Place.behind]
    split
    · exact ⟨.body _ _, fun front => by simp [goto, afterSpoiled]⟩
    · exact ⟨.spoiled _ _ _, fun _ => rfl⟩

/-- Nor have they any say in what a row of tokens does. The induction is on the row. -/
theorem run_behind (hf : f.place.Inside offset)
    (h : ((f.behind nodes).run source ts).modules.length ≤ f.modules.length) :
    (f.run source ts).place.Inside offset ∧
      ∀ front, (f.behind front).run source ts = (f.run source ts).behind front := by
  induction ts generalizing f with
  | nil => exact ⟨hf, fun _ => rfl⟩
  | cons t ts ih =>
    rw [run_cons] at h
    have hlength := length_modules_run source ((f.behind nodes).step source t) ts
    obtain ⟨hinside, hstep⟩ := step_behind hf (Nat.le_trans hlength h)
    rw [hstep] at h
    have hgrown := length_modules_step source f t
    obtain ⟨hrunInside, hrun⟩ := ih hinside (Nat.le_trans h hgrown)
    refine ⟨hrunInside, fun front => ?_⟩
    rw [run_cons, hstep, hrun, run_cons]

/-! ## Parts of a module -/

/-- Between two items of the first module of a file, which starts at the offset, the tokens add the
nodes to those that the module has. -/
def Adds (source : Source) (offset : Nat) (ts : List Token) (nodes : List Tree) : Prop :=
  ∀ children, (⟨[], .body offset children .blank⟩ : SourceFile).run source ts =
    ⟨[], .body offset (children ++ nodes) .blank⟩

/-- The tokens are the header of the first module of a file, which starts at the offset, and items
that make up its nodes so far. -/
def Opens (source : Source) (offset : Nat) (ts : List Token) (children : List Tree) : Prop :=
  start.run source ts = ⟨[], .body offset children .blank⟩

variable {children children' more : List Tree} {offset' : Nat}

theorem Adds.append (h : Adds source offset ts nodes) (h' : Adds source offset us more) :
    Adds source offset (ts ++ us) (nodes ++ more) := by
  intro children
  rw [run_append, h, h', List.append_assoc]

theorem Opens.append (h : Opens source offset ts children) (h' : Adds source offset us nodes) :
    Opens source offset (ts ++ us) (children ++ nodes) := by
  rw [Opens, run_append, h, h']

/-- A good item adds its node. -/
theorem adds_item (d : Phrase (.item false)) : Adds source offset d.yield (d.trees source) :=
  fun _ => run_item d

/-- What leads from between two items to between two items adds nodes. -/
theorem exists_adds (h : (⟨[], .body offset children .blank⟩ : SourceFile).run source ts =
      ⟨[], .body offset' children' .blank⟩) :
    offset' = offset ∧ ∃ nodes, children' = children ++ nodes ∧ Adds source offset ts nodes := by
  have hfront : ∀ front, (⟨[], .body offset front .blank⟩ : SourceFile) =
      behind front ⟨[], .body offset [] .blank⟩ := by
    intro front
    simp [behind, Place.behind]
  rw [hfront] at h
  have hinside : Place.Inside offset (.body offset [] .blank) := .body _ _
  have hlength : ((behind children ⟨[], .body offset [] .blank⟩).run source ts).modules.length ≤
      0 := by rw [h]; exact Nat.le_refl _
  obtain ⟨hplace, hrun⟩ := run_behind (f := ⟨[], .body offset [] .blank⟩) hinside hlength
  rw [hrun] at h
  -- the tokens lead to the same place with no nodes in front
  generalize hg : (⟨[], .body offset [] .blank⟩ : SourceFile).run source ts = g at *
  obtain ⟨modules, place⟩ := g
  cases hplace with
  | body nodes item =>
    simp only [behind, Place.behind, SourceFile.mk.injEq, Place.body.injEq] at h
    obtain ⟨rfl, rfl, rfl, rfl⟩ := h
    refine ⟨rfl, nodes, rfl, fun front => ?_⟩
    rw [hfront, hrun]
    rfl
  | closed stop nodes => simp [behind, Place.behind] at h
  | spoiled nodes refused stop => simp [behind, Place.behind] at h

/-- Tokens add the same nodes wherever they stand in the module. -/
theorem Adds.unique (h : Adds source offset ts nodes)
    (h' : Adds source offset ts more) : nodes = more := by
  have heq := (h []).symm.trans (h' [])
  simpa using heq

/-- Tokens in front of a semicolon lead between two items with it, if the module goes on. -/
theorem exists_body_of_run {s : Token} (hs : s.terminal = .punctuation .semicolon)
    (h : f.run source (ts ++ s :: us) = ⟨[], .body offset children .blank⟩) :
    ∃ offset' children', f.run source (ts ++ [s]) = ⟨[], .body offset' children' .blank⟩ := by
  rw [List.append_cons, run_append, run_concat] at h
  rw [run_concat]
  have hlength := length_modules_run source ((f.run source ts).step source s) us
  rw [h] at hlength
  rcases step_semicolon source (f.run source ts) hs with ⟨refused, hlost⟩ | hbody
  · generalize hg : (f.run source ts).step source s = g at h hlost
    obtain ⟨modules, place⟩ := g
    obtain rfl : place = .lost refused := hlost
    rw [run_lost] at h
    cases h
  · obtain ⟨offset', children', hbody⟩ := hbody
    rw [hbody] at hlength ⊢
    have hnil : (f.run source ts).modules = [] := List.length_eq_zero_iff.1 (Nat.le_zero.1 hlength)
    rw [hnil]
    exact ⟨offset', children', rfl⟩

/-- What has been read of a module may be cut behind any semicolon. -/
theorem Opens.cut {s : Token} (hs : s.terminal = .punctuation .semicolon)
    (h : Opens source offset (ts ++ s :: us) children) : ∃ front nodes,
      Opens source offset (ts ++ [s]) front ∧ Adds source offset us nodes ∧
        children = front ++ nodes := by
  obtain ⟨offset', front, hfront⟩ := exists_body_of_run hs h
  rw [Opens, List.append_cons, run_append, hfront] at h
  obtain ⟨rfl, nodes, rfl, hnodes⟩ := exists_adds h
  exact ⟨front, nodes, hfront, hnodes, rfl⟩

/-- A part of a module may be cut behind any semicolon. -/
theorem Adds.cut {s : Token} (hs : s.terminal = .punctuation .semicolon)
    (h : Adds source offset (ts ++ s :: us) nodes) : ∃ front back,
      Adds source offset (ts ++ [s]) front ∧ Adds source offset us back ∧
        nodes = front ++ back := by
  have hrun := h []
  obtain ⟨offset', children', hfront⟩ := exists_body_of_run hs hrun
  obtain ⟨rfl, front, -, hadds⟩ := exists_adds hfront
  rw [List.append_cons, run_append, hadds] at hrun
  obtain ⟨-, back, heq, hback⟩ := exists_adds hrun
  exact ⟨front, back, hadds, hback, by simpa using heq⟩

/-! ## Parts elsewhere -/

theorem Adds.relocate (g : Relocation) (known : source.origin ≠ .unknown)
    (h : Adds source offset ts nodes) :
    Adds g.source (g.place offset) (ts.map (Token.relocate g)) (nodes.map (Tree.relocate g)) := by
  have hrun := run_relocate g known ⟨[], .body offset [] .blank⟩ ts
  rw [h] at hrun
  obtain ⟨-, more, hmore, hadds⟩ := exists_adds hrun
  have heq : nodes.map (Tree.relocate g) = more := by simpa using hmore
  exact heq ▸ hadds

theorem Opens.relocate (g : Relocation) (known : source.origin ≠ .unknown)
    (h : Opens source offset ts children) :
    Opens g.source (g.place offset) (ts.map (Token.relocate g))
      (children.map (Tree.relocate g)) := by
  have hrun := run_relocate g known .start ts
  rw [h] at hrun
  exact hrun

/-! ## Parts as phrases -/

theorem Accounts.opening (h : Accounts source ⟨[], .body offset children .blank⟩ ts) :
    Opening source offset children ts := by
  obtain ⟨ds, us, hds, hplace, rfl⟩ := h
  cases ds with
  | none =>
    cases hplace with
    | body hopening hitem =>
      cases hitem
      rw [List.append_nil]
      exact hopening
  | snoc ds d =>
    cases d
    simp [Phrase.trees] at hds

theorem Opens.opening (h : Opens source offset ts children) : Opening source offset children ts := by
  have hrun : (start.run source ts).Accounts source ([] ++ ts) := accounts_start.run ts
  rw [h] at hrun
  exact hrun.opening

/-! ## Whole modules -/

theorem place_step_ne_outside (source : Source) (f : SourceFile) (t : Token) :
    (f.step source t).place ≠ .outside := by
  have hrefuse : ∀ start children, (f.refuse source start children t).place ≠ .outside := by
    intro start children
    unfold refuse
    split <;> exact nofun
  unfold step
  split
  · split <;> exact nofun
  · split <;> exact nofun
  · split
    · exact nofun
    · split
      · exact nofun
      · exact nofun
      · exact hrefuse _ _
  · split
    · exact nofun
    · exact hrefuse _ _
  · split <;> exact nofun
  · next refused hplace =>
    rw [hplace]
    exact nofun

/-- A module is closed by the keyword that ends it, between two items. -/
theorem of_step_eq_closed {stop : Nat}
    (h : f.step source t = ⟨[], .closed offset stop children⟩) :
    f = ⟨[], .body offset children .blank⟩ ∧ t.terminal = .keyword .endmodule ∧
      stop = t.stop := by
  have hplace : (f.step source t).place = .closed offset stop children := by rw [h]
  have hrefuse : ∀ start nodes,
      (f.refuse source start nodes t).place ≠ .closed offset stop children := by
    intro start nodes
    unfold refuse
    split <;> exact nofun
  unfold step at h hplace
  split at hplace
  · split at hplace <;> cases hplace
  · split at hplace <;> cases hplace
  · next start nodes item hbody =>
    split at hplace
    · next hkey =>
      obtain ⟨modules, place⟩ := f
      obtain rfl : place = .body start nodes .blank := hbody
      simp only [goto, hkey, SourceFile.mk.injEq, Place.closed.injEq] at h
      obtain ⟨rfl, rfl, rfl, rfl⟩ := h
      exact ⟨rfl, hkey, rfl⟩
    · split at hplace
      · cases hplace
      · cases hplace
      · exact absurd hplace (hrefuse _ _)
  · split at hplace
    · cases hplace
    · exact absurd hplace (hrefuse _ _)
  · split at hplace <;> cases hplace
  · next refused hlost =>
    rw [hlost] at hplace
    cases hplace

/-- A file of one module is the module up to the keyword that ends it. -/
theorem exists_opens_of_finish {node : Tree}
    (h : (start.run source ts).finish source = .ok [node]) :
    ∃ (us : List Token) (e : Key .endmodule) (offset : Nat) (children : List Tree),
      ts = us ++ [e.1] ∧ Opens source offset us children ∧
        node = moduleNode source offset e.1.stop children := by
  rcases List.eq_nil_or_concat ts with rfl | ⟨us, t, rfl⟩
  · cases h
  · rw [List.concat_eq_append] at h ⊢
    rw [run_concat] at h
    have houtside := place_step_ne_outside source (start.run source us) t
    generalize hg : (start.run source us).step source t = g at h houtside
    obtain ⟨modules, place⟩ := g
    cases place with
    | outside => exact absurd rfl houtside
    | closed offset stop children =>
      have hsingle : modules ++ [moduleNode source offset stop children] = [node] := Except.ok.inj h
      obtain ⟨rfl, hnode⟩ := List.append_eq_singleton_iff.1 hsingle |>.resolve_right (by simp)
      obtain ⟨hopens, ht, rfl⟩ := of_step_eq_closed hg
      exact ⟨us, ⟨t, ht⟩, offset, children, rfl, hopens, (List.cons.inj hnode).1.symm⟩
    | _ => cases h

theorem Opens.finish (h : Opens source offset ts children) (e : Key .endmodule) :
    (start.run source (ts ++ [e.1])).finish source =
      .ok [moduleNode source offset e.1.stop children] := by
  have hstep : (start.run source (ts ++ [e.1])) = ⟨[], .closed offset e.1.stop children⟩ := by
    rw [run_concat, h]
    simp only [step, e.2]
    rfl
  rw [hstep]
  rfl

end SourceFile

end Netlist.Grammar
