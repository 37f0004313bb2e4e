/-
What loading guarantees.

Each stage of loading leaves something behind that simulation relies on: the parser builds
trees of the shapes of the language only, so that every operator has a meaning; assembling a
module makes each wire come after all that it reads; and scheduling puts the wires into an order
in which everything that a wire reads stands before it (`ordered_of_load`). A loaded module can
therefore fail to simulate only at a literal, at a count of copies, or at a sum of widths in a build that
checks it (`simulate_load_outcome`). No stage looks at these.
-/
import Netlist.Module.Load
import Netlist.Module.Simulate
import Netlist.Proofs.Assembly
import Netlist.Proofs.Equations
import Netlist.Proofs.Lowering
import Netlist.Proofs.Overflow
import Netlist.Proofs.ReadFiles

set_option autoImplicit false

namespace Netlist

/-! ## Stages that may fail -/

theorem of_mapError_eq_ok {ε ε' α : Type} {f : ε → ε'} {x : Except ε α} {a : α}
    (h : x.mapError f = .ok a) : x = .ok a := by
  cases x with
  | error e => cases h
  | ok b =>
    cases h
    rfl

/-! ## Trees that define signals in a module that was read -/

namespace Tree

/-- What defines a signal in a module that was read is an expression. -/
theorem IsModule.isExpression_of_defines {t e : Tree} (h : t.IsModule) (he : t.Defines e) :
    e.IsExpression := by
  rcases he with ⟨d, hd, item, hitem, name, hkind, hchildren⟩ | ⟨a, ha, item, hitem, target, hc⟩
  · rw [h.descendants_eq_childrenOf rfl, mem_childrenOf] at hd
    have hpart := (h.isModulePart d hd.1).isNetPart hd.2 item hitem
    exact hpart.isExpression hkind hchildren
  · rw [h.descendants_eq_childrenOf rfl, mem_childrenOf] at ha
    have hpart := (h.isModulePart a ha.1).isAssignment ha.2 item (mem_childrenOf.1 hitem).1
    exact hpart.isExpression hc

end Tree

namespace Module

variable {source : Source} {top : Option String} {root t : Tree} {m s : Module}

/-! ## The stages of loading -/

theorem mem_of_choose_eq_ok {modules : List Tree} (h : choose modules top = .ok t) :
    t ∈ modules := by
  unfold choose at h
  split at h
  · split at h
    · cases h
    · cases h
      exact List.mem_cons_self
  · split at h
    · next hfind =>
      cases h
      exact List.mem_of_find?_eq_some hfind
    · cases h

theorem mem_of_select_eq_ok (h : select root top = .ok t) :
    t ∈ root.descendants .moduleDeclaration := by
  unfold select at h
  split at h
  · cases h
  · obtain ⟨chosen, hchosen, h⟩ := exists_of_bind_eq_ok h
    split at h
    · cases h
      exact mem_of_choose_eq_ok hchosen
    · cases h

theorem of_ofTree_eq_ok (h : (ofTree root top).run.value = .ok m) :
    ∃ t, select root top = .ok t ∧ (Draft.assemble t).value = m := by
  unfold ofTree at h
  split at h
  · next t ht =>
    cases h
    exact ⟨t, ht, rfl⟩
  · cases h

/-- The source without its comments. -/
def codeOf (source : Source) : Source :=
  ⟨source.origin, Comment.strip source.contents⟩

/-- What is loaded went through all stages: the text was read, one of its modules was chosen and
assembled, and the wires of that module were scheduled. -/
theorem of_load_eq_ok (h : (load source top).run.value = .ok s) :
    ∃ root t, Grammar.parseFile (codeOf source) = .ok root ∧ select root top = .ok t ∧
      (Draft.assemble t).value.schedule = .ok s := by
  obtain ⟨root, hroot, h⟩ := Work.value_bind_eq_ok.1 h
  obtain ⟨m, hm, hs⟩ := Work.value_bind_eq_ok.1 h
  obtain ⟨t, ht, rfl⟩ := of_ofTree_eq_ok (of_mapError_eq_ok hm)
  exact ⟨root, t, of_mapError_eq_ok hroot, ht, of_mapError_eq_ok hs⟩

/-! ## What loading records -/

theorem log_ofTree (h : select root top = .ok t) :
    (ofTree root top).run.log = (Draft.assemble t).log := by
  rw [ofTree, h]
  exact List.append_nil _

theorem run_load_of_parse_error {e : Grammar.ParseError}
    (h : Grammar.parseFile (codeOf source) = .error e) :
    (load source top).run = ⟨.error (.parse e), []⟩ := by
  have hparse : Grammar.parseFile ⟨source.origin, Comment.strip source.contents⟩ = .error e := h
  unfold load
  dsimp only
  rw [hparse]
  rfl

/-- Once the text is read, the rest depends on its tree alone. -/
theorem run_load_of_parse (hroot : Grammar.parseFile (codeOf source) = .ok root) :
    (load source top).run = (do
      match ← (ofTree root top).run with
      | .ok m => return m.schedule.mapError .schedule
      | .error e => return .error (.assemble e)) := by
  have hparse : Grammar.parseFile ⟨source.origin, Comment.strip source.contents⟩ = .ok root := hroot
  unfold load
  dsimp only
  rw [hparse]
  have hlift : (liftM (Except.mapError LoadError.parse (.ok root)) :
      ExceptT LoadError Logged Tree) = pure root := rfl
  rw [hlift, pure_bind, ExceptT.run_bind, ExceptT.run_mk, bind_assoc]
  refine congrArg _ (funext fun r => ?_)
  cases r with
  | error e => rfl
  | ok m =>
    show (liftM (m.schedule.mapError LoadError.schedule) : ExceptT LoadError Logged Module).run =
      pure (m.schedule.mapError LoadError.schedule)
    cases m.schedule <;> rfl

theorem run_load_of_select_error {e : ModuleError}
    (hroot : Grammar.parseFile (codeOf source) = .ok root) (h : select root top = .error e) :
    (load source top).run = ⟨.error (.assemble e), []⟩ := by
  rw [run_load_of_parse hroot, ofTree, h]
  rfl

/-- Only assembling the module records anything. -/
theorem run_load (hroot : Grammar.parseFile (codeOf source) = .ok root)
    (hselect : select root top = .ok t) :
    (load source top).run =
      ⟨(Draft.assemble t).value.schedule.mapError .schedule, (Draft.assemble t).log⟩ := by
  rw [run_load_of_parse hroot, ofTree, hselect]
  refine Logged.ext rfl ?_
  rw [Logged.log_bind]
  exact (List.append_nil _).trans (List.append_nil _)

theorem log_load (hroot : Grammar.parseFile (codeOf source) = .ok root)
    (hselect : select root top = .ok t) :
    (load source top).run.log = (Draft.assemble t).log := by
  rw [run_load hroot hselect]

/-! ## Shapes of what is loaded -/

theorem isModule_of_select (hroot : Grammar.parseFile source = .ok root)
    (hselect : select root top = .ok t) : t.IsModule := by
  have hfile : root.IsFile := Grammar.isFile_of_parseFile hroot
  have hmem := mem_of_select_eq_ok hselect
  rw [hfile.descendants_eq_children] at hmem
  exact hfile.isModule t hmem

/-! ## Why a loaded module fails -/

/-- Every wire of a loaded module is defined by operators that have a meaning, and each reads
only inputs and what stands before it. -/
theorem ordered_of_load (h : (load source top).run.value = .ok s) :
    s.Ordered ∧ ∀ w ∈ s.wires, w.definition.OperatorsKnown := by
  obtain ⟨root, t, hroot, hselect, hs⟩ := of_load_eq_ok h
  have hmodule := isModule_of_select hroot hselect
  have hread := Draft.readOff_of_assemble t
  obtain ⟨-, hord⟩ := of_schedule_eq_ok hs
  refine ⟨hord.inOrder hread.coversReads, fun w hw => ?_⟩
  obtain ⟨e, he, hlower⟩ := hread.definition w (hord.perm.mem_iff.1 hw)
  exact Expr.operatorsKnown_of_ofTree (hmodule.isExpression_of_defines he) hlower

/-- A module that was loaded from text either simulates or fails at a literal or at a count of
copies, in a build that does not look at the widths. -/
theorem value_simulate_of_load (h : (load source top).run.value = .ok s) (given : Env) :
    (∃ env, (s.simulate given).run.value = .ok env) ∨
    (∃ e, (s.simulate given).run.value = .error (.literal e)) ∨
    ∃ n, (s.simulate given).run.value = .error (.badCount n) := by
  obtain ⟨hord, hknown⟩ := ordered_of_load h
  cases hresult : (s.simulate given).run.value with
  | ok env => exact .inl ⟨env, rfl⟩
  | error err =>
    -- all signals of the wire that fails are bound when it is read
    obtain ⟨w, hw, env, hbound, heval⟩ := error_of_simulate hord hresult
    have hblames := Expr.blames_of_eval heval
    cases err with
    | unboundSignal name =>
      exact absurd (hbound name hblames.1) (NameMap.get?_eq_none_iff.1 hblames.2)
    | unknownOperator op =>
      obtain ⟨part, hpart, hunknown⟩ := hblames
      exact absurd hunknown (hknown w hw part hpart op)
    | badCount n => exact .inr (.inr ⟨n, rfl⟩)
    | literal e => exact .inr (.inl ⟨e, rfl⟩)
    | overflow => exact hblames.elim

/-- A text whose module makes as many copies of an input as the input says. -/
def copierText : String :=
  "module m(input a, output y); assign y = \x7ba\x7ba\x7d\x7d; endmodule"

/-- The module of `copierText`. -/
def copier : Module where
  name := "m"
  inputs := [⟨"a", 1⟩]
  wires := [⟨"y", 1, .replicate (.signal "a") (.signal "a"), NameSet.ofNames [],
    some ⟨.ofText copierText, 36, 46⟩⟩]
  outputs := ["y"]

/-- A text whose module puts as many zeros as can be counted on top of a bit. -/
def tooWideText : String :=
  "module m(output y); assign y = \x7b18446744073709551615'h0, 1'b1\x7d; endmodule"

/-- The module of `tooWideText`. -/
def tooWide : Module where
  name := "m"
  inputs := []
  wires := [⟨"y", 1, .concat [.constant "18446744073709551615'h0", .constant "1'b1"],
    NameSet.ofNames [], some ⟨.ofText tooWideText, 27, 62⟩⟩]
  outputs := ["y"]

end Module

end Netlist
