/-
What the reader of files has read is derived.

Every state of a reader accounts for the tokens that have been read since it started: each relation
below has one constructor a state, which names the parts that are complete and the tokens between
them. A step keeps the account or completes a phrase. In the body of a module a token that no item
reads starts a recovery, which takes the tokens of the spoiled item along, so a file that is read is
derived in the grammar that recovers, whatever stands in it (`exists_phrase_of_finish`).
-/
import Netlist.Proofs.PhraseRuns
import Netlist.Proofs.RunDerivations

set_option autoImplicit false

namespace Netlist.Grammar

variable {source : Source} {t : Token} {ts us vs : List Token} {nodes : List Tree}

/-! ## Phrases in the making -/

/-- The phrases of a row so far, with a comma behind each. -/
inductive Started (source : Source) (x : Symbol) : List Tree → List Token → Prop
  | first : Started source x [] []
  | next (ds : Phrase (.row x)) (s : Sign .comma) :
      Started source x (ds.trees source) (ds.yield ++ [s.1])

theorem Started.row {x : Symbol} (h : Started source x nodes ts) (d : Phrase x) :
    ∃ ds : Phrase (.row x), ds.yield = ts ++ d.yield ∧
      ds.trees source = nodes ++ d.trees source := by
  cases h with
  | first => exact ⟨.one d, rfl, rfl⟩
  | next ds s =>
    refine ⟨.more ds s d, ?_, rfl⟩
    rw [Phrase.yield, List.append_assoc, List.singleton_append]

theorem Started.comma {x : Symbol} (h : Started source x nodes ts) (d : Phrase x)
    (s : Sign .comma) :
    Started source x (nodes ++ d.trees source) (ts ++ d.yield ++ [s.1]) := by
  obtain ⟨ds, hyield, htrees⟩ := h.row d
  rw [← hyield, ← htrees]
  exact .next ds s

/-! ## Expressions inside larger constructs -/

/-- What an expression accounts for after it was offered a token. -/
def Reader.Fed.Accounts (source : Source) (goal : Goal) (ts : List Token) (t : Token) :
    Reader.Fed → Prop
  | .reading next => next.Accounts source goal (ts ++ [t])
  | .complete e => Derives source goal.nonterminal ts e

theorem Reader.Accounts.feed {goal : Goal} {r : Reader} {fed : Reader.Fed}
    (h : r.Accounts source goal ts) (hs : r.feed source t = some fed) :
    fed.Accounts source goal ts t := by
  unfold Reader.feed at hs
  split at hs
  · next hstep =>
    cases hs
    exact h.step hstep
  · obtain ⟨e, hfinish, rfl⟩ := Option.map_eq_some_iff.1 hs
    exact h.derives hfinish

/-! ## Declarations up to their first name -/

namespace Head

variable {typed : Bool} {first : Tree} {head : Head}

/-- The declaration accounts for the tokens behind its first one. A declaration that starts with a
type is `typed` and has no type behind that. -/
inductive Accounts (source : Source) (typed : Bool) (first : Tree) : Head → List Token → Prop
  | direction : typed = false → Accounts source typed first ⟨[first], .direction⟩ []
  | netType (ty : Phrase (.optional .netType)) : (typed = true → ty = .absent) →
      Accounts source typed first ⟨first :: ty.trees source, .netType⟩ ty.yield
  | upper (ty : Phrase (.optional .netType)) (o : Sign .openBracket) {e : Reader}
      {us : List Token} : (typed = true → ty = .absent) → e.Accounts source .any us →
      Accounts source typed first ⟨first :: ty.trees source, .upper o.1.start e⟩
        (ty.yield ++ [o.1] ++ us)
  | lower (ty : Phrase (.optional .netType)) (o : Sign .openBracket) (s : Sign .colon)
      {upper : Tree} {e : Reader} {us vs : List Token} : (typed = true → ty = .absent) →
      Derives source .expression us upper → e.Accounts source .any vs →
      Accounts source typed first ⟨first :: ty.trees source, .lower o.1.start upper e⟩
        (ty.yield ++ [o.1] ++ us ++ [s.1] ++ vs)
  | range (ty : Phrase (.optional .netType)) (r : Phrase (.optional .range)) :
      (typed = true → ty = .absent) →
      Accounts source typed first ⟨first :: (ty.trees source ++ r.trees source), .range⟩
        (ty.yield ++ r.yield)

/-- All that stands between the first token and the name. -/
def Complete (source : Source) (typed : Bool) (first : Tree) (parts : List Tree)
    (ts : List Token) : Prop :=
  ∃ (ty : Phrase (.optional .netType)) (r : Phrase (.optional .range)),
    (typed = true → ty = .absent) ∧ parts = first :: (ty.trees source ++ r.trees source) ∧
      ts = ty.yield ++ r.yield

/-- What the declaration accounts for after a step. -/
def Step.Accounts (source : Source) (typed : Bool) (first : Tree) (ts : List Token) (t : Token) :
    Head.Step → Prop
  | .reading h => h.Accounts source typed first (ts ++ [t])
  | .named parts name => Complete source typed first parts ts ∧ t.terminal = .identifier ∧
      name = tokenNode source .simpleIdentifier t

theorem stepName_accounts {parts : List Tree} {stage : HeadStage} {s : Head.Step}
    (h : Complete source typed first parts ts) (hs : stepName source ⟨parts, stage⟩ t = some s) :
    s.Accounts source typed first ts t := by
  obtain ⟨name, hname, rfl⟩ := Option.map_eq_some_iff.1 hs
  exact ⟨h, nameNode?_eq_some_iff.1 hname⟩

theorem stepRange_accounts {stage : HeadStage} {s : Head.Step} (ty : Phrase (.optional .netType))
    (hty : typed = true → ty = .absent)
    (hs : stepRange source ⟨first :: ty.trees source, stage⟩ t = some s) :
    s.Accounts source typed first ty.yield t := by
  unfold stepRange at hs
  split at hs
  · next ht =>
    cases hs
    rw [Step.Accounts, ← List.append_nil (_ ++ [t])]
    exact .upper ty ⟨t, ht⟩ hty (Reader.accounts_start .any)
  · apply stepName_accounts _ hs
    refine ⟨ty, .absent, hty, ?_, ?_⟩
    · rw [Phrase.trees, List.append_nil]
    · rw [Phrase.yield, List.append_nil]

theorem Accounts.step {s : Head.Step} (h : head.Accounts source typed first ts)
    (hs : head.step source t = some s) : s.Accounts source typed first ts t := by
  cases h with
  | direction htyped =>
    simp only [Head.step] at hs
    split at hs
    · next hnode =>
      cases hs
      obtain ⟨ht, rfl⟩ := netTypeNode?_eq_some_iff.1 hnode
      exact .netType (.present (.netType ⟨t, ht⟩)) fun hcontra => by
        rw [htyped] at hcontra
        cases hcontra
    · exact stepRange_accounts .absent (fun _ => rfl) hs
  | netType ty hty => exact stepRange_accounts ty hty hs
  | upper ty o hty he =>
    simp only [Head.step] at hs
    split at hs
    · next hfed =>
      cases hs
      rw [Step.Accounts, List.append_assoc]
      exact .upper ty o hty (he.feed hfed)
    · next hfed ht =>
      cases hs
      rw [Step.Accounts, ← List.append_nil (_ ++ [t])]
      exact .lower ty o ⟨t, ht⟩ hty (he.feed hfed) (Reader.accounts_start .any)
    · cases hs
  | @lower ty o s upper e us vs hty hu he =>
    simp only [Head.step] at hs
    split at hs
    · next hfed =>
      cases hs
      rw [Step.Accounts, List.append_assoc]
      exact .lower ty o s hty hu (he.feed hfed)
    · next lower hfed ht =>
      cases hs
      obtain ⟨u, rfl, hu⟩ := hu
      have hlower : Derives source .expression _ _ := he.feed hfed
      obtain ⟨l, rfl, hl⟩ := hlower
      have hyield : ty.yield ++ [o.1] ++ u.yield ++ [s.1] ++ l.yield ++ [t] =
          ty.yield ++ (Phrase.present (.range o u s l ⟨t, ht⟩)).yield := by
        simp [Phrase.yield]
      have htrees : (Phrase.present (.range o u s l ⟨t, ht⟩)).trees source =
          [nodeOver source .packedDimension o.1.start t.stop [upper, lower]] := by
        rw [Phrase.trees, Phrase.trees, hu, hl]
        rfl
      rw [Step.Accounts, hyield, List.cons_append, ← htrees]
      exact .range ty _ hty
    · cases hs
  | range ty r hty => exact stepName_accounts ⟨ty, r, hty, rfl, rfl⟩ hs

/-- What stands between a direction and a name makes the declaration of a port. -/
theorem Complete.portHead {d : KeyAmong directions} {parts : List Tree}
    (h : Complete source false (tokenNode source .portDirection d.1) parts ts)
    (name : Lexeme .identifier) : ∃ p : Phrase .portHead, p.yield = d.1 :: (ts ++ [name.1]) ∧
      p.trees source = [portNode parts (tokenNode source .simpleIdentifier name.1)] := by
  obtain ⟨ty, r, -, rfl, rfl⟩ := h
  refine ⟨.portHead d ty r name, ?_, ?_⟩
  · rw [Phrase.yield, List.append_assoc]
  · rw [Phrase.trees, portNode, List.cons_append, List.append_assoc]

end Head

/-! ## Items -/

namespace Item

/-- The declaration of nets up to where a name has to come. -/
def NetParts (source : Source) (parts : List Tree) (ts : List Token) : Prop :=
  ∃ (k : KeyAmong netTypes) (r : Phrase (.optional .range)) (nodes : List Tree) (us : List Token),
    Started source .netItem nodes us ∧
      parts = tokenNode source .netType k.1 :: (r.trees source ++ nodes) ∧
      ts = k.1 :: (r.yield ++ us)

/-- The item accounts for the tokens that have been read of it. -/
inductive Accounts (source : Source) : Item → List Token → Prop
  | blank : Accounts source .blank []
  | port (d : KeyAmong directions) {h : Head} {us : List Token} :
      h.Accounts source false (tokenNode source .portDirection d.1) us →
      Accounts source (.port h) (d.1 :: us)
  | portNamed (p : Phrase .portDeclaration) {node : Tree} : p.trees source = [node] →
      Accounts source (.portNamed node) p.yield
  | portComma (p : Phrase .portDeclaration) (s : Sign .comma) {node : Tree} :
      p.trees source = [node] → Accounts source (.portComma node) (p.yield ++ [s.1])
  | net (k : KeyAmong netTypes) {h : Head} {us : List Token} :
      h.Accounts source true (tokenNode source .netType k.1) us →
      Accounts source (.net h) (k.1 :: us)
  | netNamed (name : Lexeme .identifier) {parts : List Tree} {us : List Token} :
      NetParts source parts us →
      Accounts source (.netNamed parts (tokenNode source .simpleIdentifier name.1)) (us ++ [name.1])
  | netValue (name : Lexeme .identifier) (s : Sign .equals) {parts : List Tree} {e : Reader}
      {us vs : List Token} : NetParts source parts us → e.Accounts source .any vs →
      Accounts source (.netValue parts (tokenNode source .simpleIdentifier name.1) e)
        (us ++ [name.1] ++ [s.1] ++ vs)
  | netComma {parts : List Tree} {us : List Token} : NetParts source parts us →
      Accounts source (.netComma parts) us
  | target (k : Key .assign) {parts : List Tree} {e : Reader} {us vs : List Token} :
      Started source .assignment parts us → e.Accounts source .operand vs →
      Accounts source (.target k.1.start parts e) (k.1 :: us ++ vs)
  | value (k : Key .assign) (s : Sign .equals) {parts : List Tree} {left : Tree} {e : Reader}
      {us vs ws : List Token} : Started source .assignment parts us →
      Derives source (.tier 12) vs left → e.Accounts source .any ws →
      Accounts source (.value k.1.start parts left e) (k.1 :: us ++ vs ++ [s.1] ++ ws)

/-- What the item accounts for after a step: a complete item is a phrase. -/
def Step.Accounts (source : Source) (ts : List Token) (t : Token) : Item.Step → Prop
  | .reading i => i.Accounts source (ts ++ [t])
  | .complete node => ∃ d : Phrase (.item true), d.yield = ts ++ [t] ∧ d.trees source = [node]

variable {parts : List Tree} {s : Item.Step}

theorem NetParts.comma (h : NetParts source parts us) (d : Phrase .netItem) (s : Sign .comma) :
    NetParts source (parts ++ d.trees source) (us ++ d.yield ++ [s.1]) := by
  obtain ⟨k, r, nodes, vs, hstarted, rfl, rfl⟩ := h
  refine ⟨k, r, _, _, hstarted.comma d s, ?_, ?_⟩
  · simp
  · simp

/-- The first token tells what the item is. -/
theorem stepBlank_accounts (hs : stepBlank source t = some s) : s.Accounts source [] t := by
  unfold stepBlank at hs
  split at hs
  · next hnode =>
    cases hs
    obtain ⟨ht, rfl⟩ := directionNode?_eq_some_iff.1 hnode
    exact .port ⟨t, ht⟩ (.direction rfl)
  · next hnode =>
    cases hs
    obtain ⟨ht, rfl⟩ := netTypeNode?_eq_some_iff.1 hnode
    exact .net ⟨t, ht⟩ (.netType .absent fun _ => rfl)
  · next ht =>
    cases hs
    exact .target ⟨t, ht⟩ .first (Reader.accounts_start .operand)
  · cases hs

/-- The sign behind a net of a declaration. -/
theorem stepNetPart_accounts (h : NetParts source parts us) (d : Phrase .netItem)
    (hs : stepNetPart (parts ++ d.trees source) t = some s) :
    s.Accounts source (us ++ d.yield) t := by
  unfold stepNetPart at hs
  split at hs
  · next ht =>
    cases hs
    exact .netComma (h.comma d ⟨t, ht⟩)
  · next ht =>
    cases hs
    obtain ⟨k, r, nodes, vs, hstarted, rfl, rfl⟩ := h
    obtain ⟨ds, hyield, htrees⟩ := hstarted.row d
    refine ⟨.netsItem (.netDeclaration (.netType k) r ds) ⟨t, ht⟩, ?_, ?_⟩
    · simp [Phrase.yield, hyield]
    · simp [Phrase.trees, htrees]
  · cases hs

/-- The sign behind an assignment. -/
theorem stepAssignment_accounts (k : Key .assign) (h : Started source .assignment parts us)
    (d : Phrase .assignment) {last : Tree} (hlast : d.trees source = [last])
    (hs : stepAssignment source k.1.start parts last t = some s) :
    s.Accounts source (k.1 :: us ++ d.yield) t := by
  unfold stepAssignment at hs
  split at hs
  · next ht =>
    cases hs
    have hcomma := h.comma d ⟨t, ht⟩
    rw [hlast] at hcomma
    rw [Step.Accounts, ← List.append_nil (_ ++ [t]), List.cons_append, List.cons_append]
    exact .target k hcomma (Reader.accounts_start .operand)
  · next ht =>
    cases hs
    obtain ⟨ds, hyield, htrees⟩ := h.row d
    refine ⟨.assignsItem (.continuousAssign k ds) ⟨t, ht⟩, ?_, ?_⟩
    · simp [Phrase.yield, hyield]
    · rw [Phrase.trees, Phrase.trees, htrees, hlast, assignsNode_snoc]
  · cases hs

theorem Accounts.step {i : Item} (h : i.Accounts source ts) (hs : i.step source t = some s) :
    s.Accounts source ts t := by
  cases h with
  | blank => exact stepBlank_accounts hs
  | port d h =>
    obtain ⟨step, hstep, rfl⟩ := Option.map_eq_some_iff.1 hs
    have hstep := h.step hstep
    cases step with
    | reading next => exact .port d hstep
    | named parts name =>
      obtain ⟨hparts, ht, rfl⟩ := hstep
      obtain ⟨p, hyield, htrees⟩ := hparts.portHead ⟨t, ht⟩
      rw [Step.Accounts, List.cons_append, ← hyield]
      exact .portNamed (.port p) htrees
  | portNamed p hp =>
    simp only [Item.step] at hs
    split at hs
    · next ht =>
      cases hs
      exact .portComma p ⟨t, ht⟩ hp
    · next ht =>
      cases hs
      exact ⟨.portsItem p ⟨t, ht⟩, rfl, hp⟩
    · cases hs
  | portComma p s hp =>
    obtain ⟨name, hname, rfl⟩ := Option.map_eq_some_iff.1 hs
    obtain ⟨ht, rfl⟩ := nameNode?_eq_some_iff.1 hname
    rw [Step.Accounts, List.append_assoc]
    apply Accounts.portNamed (.nextPort p s ⟨t, ht⟩)
    rw [Phrase.trees, hp]
    rfl
  | net k h =>
    obtain ⟨step, hstep, rfl⟩ := Option.map_eq_some_iff.1 hs
    have hstep := h.step hstep
    cases step with
    | reading next => exact .net k hstep
    | named parts name =>
      obtain ⟨⟨ty, r, hty, rfl, rfl⟩, ht, rfl⟩ := hstep
      obtain rfl := hty rfl
      apply Accounts.netNamed ⟨t, ht⟩
      refine ⟨k, r, [], [], .first, ?_, ?_⟩
      · rw [Phrase.trees, List.nil_append, List.append_nil]
      · rw [Phrase.yield, List.nil_append, List.append_nil]
  | netNamed name h =>
    simp only [Item.step] at hs
    split at hs
    · next ht =>
      cases hs
      rw [Step.Accounts, ← List.append_nil (_ ++ [t])]
      exact .netValue name ⟨t, ht⟩ h (Reader.accounts_start .any)
    · exact stepNetPart_accounts h (.net name) hs
  | netValue name s h he =>
    simp only [Item.step] at hs
    split at hs
    · next hfed =>
      cases hs
      rw [Step.Accounts, List.append_assoc]
      exact .netValue name s h (he.feed hfed)
    -- the sign ends the expression and belongs to the declaration
    · next whole hfed =>
      have hwhole : Derives source .expression _ _ := he.feed hfed
      obtain ⟨w, rfl, hw⟩ := hwhole
      have hnet : (Phrase.definedNet name s w).trees source =
          [.spanning .netDeclAssignment [tokenNode source .simpleIdentifier name.1, whole]] := by
        rw [Phrase.trees, hw]
      rw [← hnet] at hs
      have hend := stepNetPart_accounts h (.definedNet name s w) hs
      rwa [Phrase.yield, List.append_cons, List.append_cons] at hend
    · cases hs
  | netComma h =>
    obtain ⟨name, hname, rfl⟩ := Option.map_eq_some_iff.1 hs
    obtain ⟨ht, rfl⟩ := nameNode?_eq_some_iff.1 hname
    exact .netNamed ⟨t, ht⟩ h
  | target k h he =>
    simp only [Item.step] at hs
    split at hs
    · next hfed =>
      cases hs
      rw [Step.Accounts, List.append_assoc]
      exact .target k h (he.feed hfed)
    · next hfed ht =>
      cases hs
      rw [Step.Accounts, ← List.append_nil (_ ++ [t])]
      exact .value k ⟨t, ht⟩ h (he.feed hfed) (Reader.accounts_start .any)
    · cases hs
  | @value k s parts left e us vs ws h hleft he =>
    simp only [Item.step] at hs
    split at hs
    · next hfed =>
      cases hs
      rw [Step.Accounts, List.append_assoc]
      exact .value k s h hleft (he.feed hfed)
    -- the sign ends the expression and belongs to the assignment
    · next right hfed =>
      have hright : Derives source .expression _ _ := he.feed hfed
      obtain ⟨r, rfl, hr⟩ := hright
      obtain ⟨l, rfl, hl⟩ := hleft
      have hassignment : (Phrase.assignment l s r).trees source =
          [.spanning .netAssignment [left, right]] := by
        rw [Phrase.trees, hl, hr]
        rfl
      have hend := stepAssignment_accounts k h _ hassignment hs
      rwa [Phrase.yield, ← List.append_assoc, List.append_cons] at hend
    · cases hs

end Item

/-! ## Headers -/

namespace Header

/-- The header accounts for the tokens that have been read of it. -/
inductive Accounts (source : Source) : Header → List Token → Prop
  | blank : Accounts source .blank []
  | named (name : Lexeme .identifier) :
      Accounts source (.named (tokenNode source .simpleIdentifier name.1)) [name.1]
  | opened (name : Lexeme .identifier) (o : Sign .openParen) :
      Accounts source (.opened (tokenNode source .simpleIdentifier name.1)) [name.1, o.1]
  | port (name : Lexeme .identifier) (o : Sign .openParen) (d : KeyAmong directions) {h : Head}
      {nodes : List Tree} {us vs : List Token} : Started source .portItem nodes us →
      h.Accounts source false (tokenNode source .portDirection d.1) vs →
      Accounts source (.port (tokenNode source .simpleIdentifier name.1) (Ports.ofItems nodes) h)
        (name.1 :: o.1 :: us ++ d.1 :: vs)
  | portRead (name : Lexeme .identifier) (o : Sign .openParen) (ds : Phrase (.row .portItem)) :
      Accounts source (.portRead (tokenNode source .simpleIdentifier name.1)
        (Ports.ofItems (ds.trees source))) (name.1 :: o.1 :: ds.yield)
  | portComma (name : Lexeme .identifier) (o : Sign .openParen) (ds : Phrase (.row .portItem))
      (s : Sign .comma) :
      Accounts source (.portComma (tokenNode source .simpleIdentifier name.1)
        (Ports.ofItems (ds.trees source))) (name.1 :: o.1 :: (ds.yield ++ [s.1]))
  | closed (name : Lexeme .identifier) (d : Phrase .ports) {ports : Ports} :
      d.trees source = ports.nodes →
      Accounts source (.closed (tokenNode source .simpleIdentifier name.1) ports)
        (name.1 :: d.yield)

/-- What the header accounts for after a step. -/
def Step.Accounts (source : Source) (ts : List Token) (t : Token) : Header.Step → Prop
  | .reading h => h.Accounts source (ts ++ [t])
  | .complete children => t.terminal = .punctuation .semicolon ∧
      ∃ (name : Lexeme .identifier) (d : Phrase (.optional .ports)), ts = name.1 :: d.yield ∧
        children = tokenNode source .simpleIdentifier name.1 :: d.trees source

variable {s : Header.Step}

/-- A port of the header behind those that have been read. -/
theorem accounts_portRead (name : Lexeme .identifier) (o : Sign .openParen)
    (h : Started source .portItem nodes us) (d : Phrase .portItem) :
    Accounts source (.portRead (tokenNode source .simpleIdentifier name.1)
      ((d.trees source).foldl Ports.add (Ports.ofItems nodes)))
      (name.1 :: o.1 :: (us ++ d.yield)) := by
  obtain ⟨ds, hyield, htrees⟩ := h.row d
  rw [← hyield, Ports.ofItems, ← List.foldl_append, ← htrees]
  exact .portRead name o ds

theorem stepPort_accounts (name : Lexeme .identifier) (o : Sign .openParen)
    (h : Started source .portItem nodes us)
    (hs : stepPort source (tokenNode source .simpleIdentifier name.1) (Ports.ofItems nodes) t =
      some s) : s.Accounts source (name.1 :: o.1 :: us) t := by
  unfold stepPort at hs
  split at hs
  · next hnode =>
    cases hs
    obtain ⟨ht, rfl⟩ := directionNode?_eq_some_iff.1 hnode
    exact .port name o ⟨t, ht⟩ h (.direction rfl)
  · next hnode =>
    cases hs
    obtain ⟨ht, rfl⟩ := nameNode?_eq_some_iff.1 hnode
    exact accounts_portRead name o h (.listedPort ⟨t, ht⟩)
  · cases hs

theorem Accounts.step {h : Header} (hh : h.Accounts source ts) (hs : h.step source t = some s) :
    s.Accounts source ts t := by
  cases hh with
  | blank =>
    obtain ⟨name, hname, rfl⟩ := Option.map_eq_some_iff.1 hs
    obtain ⟨ht, rfl⟩ := nameNode?_eq_some_iff.1 hname
    exact .named ⟨t, ht⟩
  | named name =>
    simp only [Header.step] at hs
    split at hs
    · next ht =>
      cases hs
      exact .opened name ⟨t, ht⟩
    · next ht =>
      cases hs
      exact ⟨ht, name, .absent, rfl, rfl⟩
    · cases hs
  | opened name o =>
    simp only [Header.step] at hs
    split at hs
    · next ht =>
      cases hs
      exact .closed name (.noPorts o ⟨t, ht⟩) rfl
    · exact stepPort_accounts name o .first hs
  | port name o d hstarted h =>
    obtain ⟨step, hstep, rfl⟩ := Option.map_eq_some_iff.1 hs
    have hstep := h.step hstep
    cases step with
    | reading next =>
      rw [Step.Accounts, List.append_assoc, List.cons_append]
      exact .port name o d hstarted hstep
    | named parts portName =>
      obtain ⟨hparts, ht, rfl⟩ := hstep
      obtain ⟨p, hyield, htrees⟩ := hparts.portHead ⟨t, ht⟩
      have hread := accounts_portRead name o hstarted (.declaredPort p)
      rw [Phrase.trees, htrees, List.foldl_cons, List.foldl_nil, portNode, Ports.add_declaration,
        Phrase.yield, hyield] at hread
      rw [Step.Accounts, List.append_assoc]
      exact hread
  | portRead name o ds =>
    simp only [Header.step] at hs
    split at hs
    · next ht =>
      cases hs
      exact .portComma name o ds ⟨t, ht⟩
    · next ht =>
      cases hs
      exact .closed name (.ports o ds ⟨t, ht⟩) rfl
    · cases hs
  | portComma name o ds s => exact stepPort_accounts name o (.next ds s) hs
  | closed name d hd =>
    simp only [Header.step] at hs
    split at hs
    · next ht =>
      cases hs
      exact ⟨ht, name, .present d, rfl, by rw [Phrase.trees, hd]⟩
    · cases hs

end Header

/-! ## Files -/

/-- A module up to the end of its last complete item. -/
def Opening (source : Source) (start : Nat) (children : List Tree) (ts : List Token) : Prop :=
  ∃ (k : Key .module) (name : Lexeme .identifier) (listed : Phrase (.optional .ports))
    (s : Sign .semicolon) (items : Phrase (.many (.item true))), start = k.1.start ∧
      children = tokenNode source .simpleIdentifier name.1 ::
        (listed.trees source ++ items.trees source) ∧
      ts = k.1 :: name.1 :: (listed.yield ++ s.1 :: items.yield)

theorem Opening.item {start : Nat} {children : List Tree} (h : Opening source start children ts)
    (d : Phrase (.item true)) :
    Opening source start (children ++ d.trees source) (ts ++ d.yield) := by
  obtain ⟨k, name, listed, s, items, rfl, rfl, rfl⟩ := h
  refine ⟨k, name, listed, s, .snoc items d, rfl, ?_, ?_⟩
  · simp [Phrase.trees]
  · simp [Phrase.yield]

theorem Opening.module {start : Nat} {children : List Tree} (h : Opening source start children ts)
    (e : Key .endmodule) : ∃ d : Phrase (.module true), d.yield = ts ++ [e.1] ∧
      d.trees source = [SourceFile.moduleNode source start e.1.stop children] := by
  obtain ⟨k, name, listed, s, items, rfl, rfl, rfl⟩ := h
  refine ⟨.module k name listed s items e, ?_, rfl⟩
  simp [Phrase.yield]

/-- The place accounts for the tokens behind the complete modules. A lost place accounts for
nothing. -/
inductive Place.Accounts (source : Source) : Place → List Token → Prop
  | outside : Place.Accounts source .outside []
  | header (k : Key .module) {h : Header} {us : List Token} : h.Accounts source us →
      Place.Accounts source (.header k.1.start h) (k.1 :: us)
  | body {start : Nat} {children : List Tree} {i : Item} {us vs : List Token} :
      Opening source start children us → i.Accounts source vs →
      Place.Accounts source (.body start children i) (us ++ vs)
  | closed (e : Key .endmodule) {start : Nat} {children : List Tree} {us : List Token} :
      Opening source start children us →
      Place.Accounts source (.closed start e.1.stop children) (us ++ [e.1])
  | spoiled (before : List Token) (refused : Token) (dropped : List Token) {start : Nat}
      {children : List Tree} {us : List Token} : Opening source start children us →
      Place.Accounts source (.spoiled start children refused (dropped.getLast?.getD refused).stop)
        (us ++ before ++ refused :: dropped)
  | lost (refused : Token) {us : List Token} : Place.Accounts source (.lost refused) us

/-- Between two items. -/
theorem Opening.between {start : Nat} {children : List Tree}
    (h : Opening source start children ts) :
    Place.Accounts source (.body start children .blank) ts := by
  rw [← List.append_nil ts]
  exact .body h .blank

namespace SourceFile

/-- All that has been read of a file: its modules, and what stands behind them. -/
def Accounts (source : Source) (f : SourceFile) (ts : List Token) : Prop :=
  ∃ (ds : Phrase (.many (.module true))) (us : List Token), ds.trees source = f.modules ∧
    f.place.Accounts source us ∧ ts = ds.yield ++ us

theorem accounts_start : start.Accounts source [] :=
  ⟨.none, [], rfl, .outside, rfl⟩

variable {f : SourceFile}

/-- A token that leads to another place of the same module. -/
theorem accounts_goto {place : Place} (ds : Phrase (.many (.module true)))
    (hds : ds.trees source = f.modules) (h : place.Accounts source (us ++ [t])) :
    (f.goto place).Accounts source (ds.yield ++ us ++ [t]) :=
  ⟨ds, us ++ [t], hds, h, List.append_assoc _ _ _⟩

/-- A refused token starts a recovery, which takes along what has been read of the item. -/
theorem refuse_accounts {start : Nat} {children : List Tree} (ds : Phrase (.many (.module true)))
    (hds : ds.trees source = f.modules) (h : Opening source start children us)
    (before : List Token) :
    (f.refuse source start children t).Accounts source (ds.yield ++ (us ++ before) ++ [t]) := by
  unfold refuse
  split
  · next ht =>
    apply accounts_goto ds hds
    rw [List.append_assoc]
    exact (h.item (.cutShort before ⟨t, ht⟩)).between
  · apply accounts_goto ds hds
    exact .spoiled before t [] h

/-- In the body of a module the keyword that ends it is read between items only. Any other token is
offered to the item, and refused if the item does not read it. -/
theorem accounts_step_body {start : Nat} {children : List Tree} {i : Item}
    (ds : Phrase (.many (.module true))) (hds : ds.trees source = f.modules)
    (hplace : f.place = .body start children i) (h : Opening source start children us)
    (hi : i.Accounts source vs) :
    (f.step source t).Accounts source (ds.yield ++ (us ++ vs) ++ [t]) := by
  unfold SourceFile.step
  rw [hplace]
  dsimp only
  split
  · next ht =>
    cases hi
    apply accounts_goto ds hds
    rw [List.append_nil]
    exact .closed ⟨t, ht⟩ h
  · split
    · next hs =>
      apply accounts_goto ds hds
      rw [List.append_assoc]
      exact .body h (hi.step hs)
    · next hs =>
      obtain ⟨d, hyield, htrees⟩ := hi.step hs
      apply accounts_goto ds hds
      rw [List.append_assoc, ← hyield, ← htrees]
      exact (h.item d).between
    · exact refuse_accounts ds hds h vs

theorem Accounts.step (h : f.Accounts source ts) :
    (f.step source t).Accounts source (ts ++ [t]) := by
  obtain ⟨ds, us, hds, hplace, rfl⟩ := h
  generalize hp : f.place = place at hplace
  cases hplace with
  | outside =>
    simp only [SourceFile.step, hp]
    split
    · next ht => exact accounts_goto ds hds (.header ⟨t, ht⟩ .blank)
    · exact accounts_goto ds hds (.lost t)
  | header k h =>
    simp only [SourceFile.step, hp]
    split
    · next hs => exact accounts_goto ds hds (.header k (h.step hs))
    · next hs =>
      obtain ⟨ht, name, listed, rfl, rfl⟩ := h.step hs
      apply accounts_goto ds hds
      apply Opening.between
      refine ⟨k, name, listed, ⟨t, ht⟩, .none, rfl, ?_, ?_⟩
      · rw [Phrase.trees, List.append_nil]
      · rfl
    · exact accounts_goto ds hds (.lost t)
  | body hopening hitem => exact accounts_step_body ds hds hp hopening hitem
  | closed e hopening =>
    simp only [SourceFile.step, hp]
    split
    · next ht =>
      obtain ⟨d, hyield, htrees⟩ := hopening.module e
      refine ⟨.snoc ds d, [t], ?_, .header ⟨t, ht⟩ .blank, ?_⟩
      · rw [Phrase.trees, hds, htrees]
      · rw [Phrase.yield, hyield]
    · exact refuse_accounts ds hds hopening [e.1]
  | spoiled before refused dropped hopening =>
    simp only [SourceFile.step, hp]
    split
    · next ht =>
      apply accounts_goto ds hds
      have hitem := hopening.item (.spoiled before refused dropped ⟨t, ht⟩)
      rw [List.append_assoc _ before, List.append_assoc, List.append_assoc, List.cons_append]
      exact hitem.between
    · apply accounts_goto ds hds
      have hspoiled := Place.Accounts.spoiled before refused (dropped ++ [t]) hopening
      rw [List.getLast?_concat] at hspoiled
      rw [List.append_assoc _ (refused :: dropped)]
      exact hspoiled
  -- what a lost place accounts for does not matter, as nothing finishes there
  | lost refused =>
    simp only [SourceFile.step, hp]
    refine ⟨ds, us ++ [t], hds, ?_, List.append_assoc _ _ _⟩
    rw [hp]
    exact .lost refused

theorem Accounts.run (h : f.Accounts source ts) (us : List Token) :
    (f.run source us).Accounts source (ts ++ us) := by
  induction us generalizing f ts with
  | nil =>
    rw [List.append_nil]
    exact h
  | cons t us ih =>
    rw [List.append_cons]
    exact ih h.step

/-- A file that ends where it may is derived in the grammar that recovers. -/
theorem exists_phrase_of_finish {modules : List Tree}
    (h : (start.run source ts).finish source = .ok modules) :
    ∃ ds : Phrase (.many (.module true)), ds.yield = ts ∧ ds.trees source = modules := by
  have hrun : (start.run source ts).Accounts source ([] ++ ts) := accounts_start.run ts
  obtain ⟨ds, us, hds, hplace, hts⟩ := hrun
  unfold finish at h
  split at h
  · next hp =>
    cases h
    rw [hp] at hplace
    cases hplace
    rw [List.nil_append, List.append_nil] at hts
    exact ⟨ds, hts.symm, hds⟩
  · next hp =>
    cases h
    rw [hp] at hplace
    cases hplace with
    | closed e hopening =>
      obtain ⟨d, hyield, htrees⟩ := hopening.module e
      refine ⟨.snoc ds d, ?_, ?_⟩
      · rw [Phrase.yield, hyield, ← hts, List.nil_append]
      · rw [Phrase.trees, hds, htrees]
  all_goals cases h

end SourceFile

end Netlist.Grammar
