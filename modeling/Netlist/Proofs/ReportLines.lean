/-
Which lines a report has.

Behind the line of the module, a text report is a row of entries: the inputs, then the wires as they are
evaluated, then the outputs that have no value (`Report.lines_eq`). Each line is left out if the
environment does not go with it, so in general nothing is said of how many there are. After a run of a
module that was loaded from text nothing is left out, and no signal is there twice (`Report.Accounts`).
Two facts about the module carry this: names are not shared, which the module had before its wires were put
into order; and the run binds just the inputs and the wires, so an output has no value exactly if no wire
has its name.

The same fact decides what finishing the module records. So the outputs that the report calls undefined are
those which loading has warned of already (`Draft.exists_mem_log_assemble`).
-/
import Netlist.Proofs.Definitions
import Netlist.Report

set_option autoImplicit false

namespace Netlist

/-! ## Entries -/

namespace Report

/-- What a line of a text report says, behind the first line. -/
inductive Entry where
  | input (name : String) (value : Word)
  | wire (isOutput : Bool) (name : String) (value : Word)
  | undefined (name : String)

namespace Entry

/-- The name of the signal that the line is about. -/
def subject : Entry → String
  | input name _ | wire _ name _ | undefined name => name

/-- The line itself. -/
def text (r : Radix) : Entry → String
  | input name value => s!"  input  {name} = {value.render r}"
  | wire isOutput name value =>
    let mark := if isOutput then "output" else "wire  "
    s!"  {mark} {name} = {value.render r}"
  | undefined name => s!"  output {name} is undefined"

end Entry

/-- The entry of an input. -/
def entryOfInput? (env : Env) (i : Input) : Option Entry :=
  (env.get? i.name).map (.input i.name)

/-- The entry of a wire. -/
def entryOfWire? (m : Module) (env : Env) (w : Wire) : Option Entry :=
  (env.get? w.name).map (.wire (m.isOutput w.name) w.name)

/-- The entry of an output that has no value. -/
def entryOfOutput? (env : Env) (name : String) : Option Entry :=
  if env.contains name then none else some (.undefined name)

/-- The entries of a report. -/
def entries (m : Module) (env : Env) : List Entry :=
  m.inputs.filterMap (entryOfInput? env) ++ m.wires.filterMap (entryOfWire? m env) ++
    m.outputs.filterMap (entryOfOutput? env)

/-- The lines of a report are those of its entries, behind the one of the module. -/
theorem lines_eq (m : Module) (env : Env) (r : Radix) :
    lines m env r = s!"module {m.name}" :: (entries m env).map (Entry.text r) := by
  have hinput : inputLine? env r = fun i => (entryOfInput? env i).map (Entry.text r) := by
    funext i
    rw [inputLine?, entryOfInput?, Option.map_map]
    rfl
  have hwire : wireLine? m env r = fun w => (entryOfWire? m env w).map (Entry.text r) := by
    funext w
    rw [wireLine?, entryOfWire?, Option.map_map]
    rfl
  have hundefined : undefinedLine? env = fun name =>
      (entryOfOutput? env name).map (Entry.text r) := by
    funext name
    rw [undefinedLine?, entryOfOutput?]
    split <;> rfl
  rw [lines, entries, hinput, hwire, hundefined, List.map_append, List.map_append,
    List.map_filterMap, List.map_filterMap, List.map_filterMap]

/-- An output is reported to be undefined if the environment has no value for it. -/
theorem undefined_mem_entries {m : Module} {env : Env} {name : String} :
    .undefined name ∈ entries m env ↔ name ∈ m.outputs ∧ name ∉ env.keys := by
  have hentry : ∀ other, entryOfOutput? env other = some (.undefined name) ↔
      other = name ∧ name ∉ env.keys := by
    intro other
    rw [entryOfOutput?, Option.ite_none_left_eq_some, NameMap.contains, ← NameMap.mem_keys_iff,
      Option.some.injEq, Entry.undefined.injEq, and_comm]
    exact and_congr_right fun heq => by rw [heq]
  simp [entries, entryOfInput?, entryOfWire?, hentry]

/-- The entries account for the signals of the module: the inputs and the wires, in their order and with
their values, and the outputs that no wire defines. No signal has two entries, and that of an output says
that it is one: as a wire with the mark of an output, or as an undefined one. -/
structure Accounts (m : Module) (env : Env) (es : List Entry) : Prop where
  rows : ∃ inputs wires,
    es = inputs ++ wires ++
      (m.outputs.filter fun name => !m.wireNames.contains name).map Entry.undefined ∧
    List.Forall₂ (fun i e => ∃ v, env.get? i.name = some v ∧ e = .input i.name v) m.inputs inputs ∧
    List.Forall₂ (fun w e => ∃ v, env.get? w.name = some v ∧
      e = .wire (m.isOutput w.name) w.name v) m.wires wires
  nodup : (es.map Entry.subject).Nodup
  output : ∀ name ∈ m.outputs, ∃ e, es.filter (fun e => e.subject == name) = [e] ∧
    ((∃ v, e = .wire true name v) ∨ e = .undefined name)

end Report

namespace Module

open Report

variable {m : Module} {given env : Env}

/-! ## The entries after a run -/

/-- If all members of a row have values, each has an entry. -/
theorem forall₂_entries {α : Type} {name : α → String} {entry : α → Word → Entry} {xs : List α}
    (h : ∀ x ∈ xs, name x ∈ env.keys) :
    List.Forall₂ (fun x e => ∃ v, env.get? (name x) = some v ∧ e = entry x v) xs
      (xs.filterMap fun x => (env.get? (name x)).map (entry x)) := by
  have hnone : (xs.countP fun x => ((env.get? (name x)).map (entry x)).isNone) = 0 := by
    refine List.countP_eq_zero.2 fun x hx => ?_
    rw [Option.isNone_map, Option.isNone_iff_eq_none, NameMap.get?_eq_none_iff, not_not]
    exact h x hx
  refine (forall₂_filterMap hnone).imp fun x e he => ?_
  obtain ⟨v, hv, rfl⟩ := Option.map_eq_some_iff.1 he
  exact ⟨v, hv, rfl⟩

/-- Outputs have no value just if no wire defines them. -/
theorem filterMap_entryOfOutput? (hdisjoint : ∀ name ∈ m.outputs, name ∉ m.inputNames)
    (hkeys : ∀ name, name ∈ env.keys ↔ name ∈ m.inputNames ∨ name ∈ m.wireNames) :
    m.outputs.filterMap (entryOfOutput? env) =
      (m.outputs.filter fun name => !m.wireNames.contains name).map Entry.undefined := by
  rw [← List.filterMap_eq_map, List.filterMap_filter]
  refine List.filterMap_congr fun name hname => ?_
  have hcontains : env.contains name = m.wireNames.contains name := by
    rw [Bool.eq_iff_iff, List.contains_iff_mem, NameMap.contains, ← NameMap.mem_keys_iff, hkeys]
    exact or_iff_right (hdisjoint name hname)
  rw [entryOfOutput?, hcontains]
  cases m.wireNames.contains name <;> rfl

/-- A name has one entry if the subjects of entries differ and one of them is the name. -/
theorem filter_subject {es : List Entry} {e : Entry} (hnodup : (es.map Entry.subject).Nodup)
    (he : e ∈ es) : es.filter (fun e' => e'.subject == e.subject) = [e] := by
  have h := filter_flatMap_of_unique (f := fun e' : Entry => [e'])
    (p := fun e' => e'.subject == e.subject) (List.Nodup.of_map _ hnodup) he (fun e' he' => ?_)
    fun e' hmem hne e'' he'' hsubject => ?_
  · rwa [List.flatMap_singleton'] at h
  · rw [List.mem_singleton.1 he']
    exact beq_self_eq_true _
  · rw [List.mem_singleton.1 he''] at hsubject
    exact hne (List.inj_on_of_nodup_map hnodup hmem he (beq_iff_eq.1 hsubject))

/-- A run binds the inputs and the wires, so its report accounts for the signals of the module. -/
theorem WellFormed.accounts (hm : m.WellFormed) (hsol : m.Solves given env) :
    Accounts m env (entries m env) := by
  have hinputs : List.Forall₂ (fun i e => ∃ v, env.get? i.name = some v ∧ e = Entry.input i.name v)
      m.inputs (m.inputs.filterMap (entryOfInput? env)) :=
    forall₂_entries fun i hi => (hsol.mem_keys _).2 (.inl (List.mem_map_of_mem hi))
  have hwires : List.Forall₂ (fun w e => ∃ v, env.get? w.name = some v ∧
      e = Entry.wire (m.isOutput w.name) w.name v) m.wires (m.wires.filterMap (entryOfWire? m env)) :=
    forall₂_entries fun w hw => (hsol.mem_keys _).2 (.inr (List.mem_map_of_mem hw))
  have hundefined := filterMap_entryOfOutput? hm.outputs_disjoint hsol.mem_keys
  have hentries : entries m env = m.inputs.filterMap (entryOfInput? env) ++
      m.wires.filterMap (entryOfWire? m env) ++
        (m.outputs.filter fun name => !m.wireNames.contains name).map Entry.undefined := by
    rw [entries, hundefined]
  have hnodup : ((entries m env).map Entry.subject).Nodup := by
    have hinputNames : (m.inputs.filterMap (entryOfInput? env)).map Entry.subject = m.inputNames := by
      refine (map_eq_map_of_forall₂ (hinputs.imp fun i e he => ?_)).symm
      obtain ⟨v, -, rfl⟩ := he
      rfl
    have hwireNames : (m.wires.filterMap (entryOfWire? m env)).map Entry.subject = m.wireNames := by
      refine (map_eq_map_of_forall₂ (hwires.imp fun w e he => ?_)).symm
      obtain ⟨v, -, rfl⟩ := he
      rfl
    have houtputNames : ((m.outputs.filter fun name => !m.wireNames.contains name).map
        Entry.undefined).map Entry.subject =
          m.outputs.filter fun name => !m.wireNames.contains name := by
      rw [List.map_map]
      exact List.map_id _
    rw [hentries, List.map_append, List.map_append, hinputNames, hwireNames, houtputNames]
    refine (hm.inputs_nodup.append hm.wires_nodup fun name hinput hwire => ?_).append
      (hm.outputs_nodup.filter _) fun name hsignal houtput => ?_
    · exact hm.disjoint name hwire hinput
    · obtain ⟨houtput, hnot⟩ := List.mem_filter.1 houtput
      rcases List.mem_append.1 hsignal with hinput | hwire
      · exact hm.outputs_disjoint name houtput hinput
      · simp [hwire] at hnot
  refine ⟨⟨_, _, hentries, hinputs, hwires⟩, hnodup, fun name hname => ?_⟩
  by_cases hwire : name ∈ m.wireNames
  · obtain ⟨w, hw, rfl⟩ := List.mem_map.1 hwire
    obtain ⟨v, hv⟩ := Option.isSome_iff_exists.1
      (NameMap.mem_keys_iff.1 ((hsol.mem_keys w.name).2 (.inr hwire)))
    have hentry : entryOfWire? m env w = some (.wire true w.name v) := by
      rw [entryOfWire?, hv, isOutput, List.contains_iff_mem.2 hname]
      rfl
    have hmem : Entry.wire true w.name v ∈ entries m env := by
      rw [entries, List.mem_append, List.mem_append]
      exact .inl (.inr (List.mem_filterMap.2 ⟨w, hw, hentry⟩))
    exact ⟨_, filter_subject hnodup hmem, .inl ⟨v, rfl⟩⟩
  · have hmem : Entry.undefined name ∈ entries m env := by
      rw [hentries, List.mem_append]
      exact .inr (List.mem_map_of_mem (List.mem_filter.2 ⟨hname, by simpa using hwire⟩))
    exact ⟨_, filter_subject hnodup hmem, .inr rfl⟩

end Module

/-! ## What is recorded of outputs -/

namespace Draft

variable {d : Draft} {name : String}

theorem isDefined_iff : d.isDefined name = true ↔ name ∈ d.wires.map Wire.name := by
  rw [isDefined, List.any_eq_true, List.mem_map]
  simp only [beq_iff_eq]

/-- Of the outputs those are warned of that no wire defines. -/
theorem exists_mem_log_checkOutputs :
    (∃ location, ⟨.warning, location, .undefinedOutput name⟩ ∈ (d.outputs.forM d.checkOutput).log) ↔
      name ∈ d.outputs ∧ name ∉ d.wires.map Wire.name := by
  rw [Logged.log_forM, ← isDefined_iff]
  constructor
  · rintro ⟨location, hmem⟩
    obtain ⟨output, houtput, hmem⟩ := List.mem_flatMap.1 hmem
    rw [checkOutput] at hmem
    split at hmem
    · cases hmem
    · next hundefined =>
      cases List.mem_singleton.1 hmem
      exact ⟨houtput, hundefined⟩
  · rintro ⟨houtput, hundefined⟩
    refine ⟨(d.nets.get? name).bind Net.location, List.mem_flatMap.2 ⟨name, houtput, ?_⟩⟩
    rw [checkOutput, if_neg hundefined, Logged.log_warn]
    exact List.mem_singleton_self _

/-- Finishing a draft warns of the outputs that no wire of the finished module defines, and nothing that is
recorded before says the same. -/
theorem exists_mem_log_assemble (t : Tree) (name : String) :
    (∃ location, ⟨.warning, location, .undefinedOutput name⟩ ∈ (assemble t).log) ↔
      name ∈ (assemble t).value.outputs ∧ name ∉ (assemble t).value.wireNames := by
  have hpasses : (ofModule t).Records fun d => d.finding ≠ .undefinedOutput name :=
    Permits.records_ofModule
      { declarations := by
          rintro location finding hfinding rfl
          cases hfinding
        expression := fun e _ => Expr.records_ofTree e fun location finding hfinding => by
          rintro rfl
          cases hfinding
        definition := fun _ _ _ _ _ _ => Finding.noConfusion
        assignment := fun _ _ _ _ _ => Finding.noConfusion }
  have hkept := records_keepWires (wellFormed_ofModule t).not_isInput_of_mem
  rw [assemble_eq, Logged.log_bind, Logged.value_bind]
  generalize (ofModule t).value = d at hkept ⊢
  have hnets : (d.nets.entries.forM d.pruned.checkNet).Records
      fun x => x.finding ≠ .undefinedOutput name :=
    .forM fun _ _ => records_checkNet fun _ => Finding.noConfusion
  -- of the four parts of what is recorded only the third one can say it
  have hmem : ∀ location, ⟨.warning, location, .undefinedOutput name⟩ ∈
      (ofModule t).log ++ (d.finish t.moduleName).log ↔
        ⟨.warning, location, .undefinedOutput name⟩ ∈ (d.pruned.outputs.forM d.pruned.checkOutput).log := by
    intro location
    rw [log_finish, List.mem_append, List.mem_append, List.mem_append]
    constructor
    · rintro (h | h | h | h)
      · exact absurd rfl (hpasses _ h)
      · obtain ⟨other, hother⟩ := hkept _ h
        cases hother
      · exact h
      · exact absurd rfl (hnets _ h)
    · exact fun h => .inr (.inr (.inl h))
  simp only [hmem]
  exact exists_mem_log_checkOutputs

end Draft

/-! ## Loaded modules -/

namespace Module

variable {source : Source} {top : Option String} {m s : Module} {given env : Env}

/-- A module stays well formed when its wires are put into another order. -/
theorem IsOrderingOf.wellFormed (hs : s.IsOrderingOf m) (hm : m.WellFormed) : s.WellFormed where
  toWellNamed := hs.wellNamed hm.toWellNamed
  outputs_nodup := by
    rw [hs.outputs]
    exact hm.outputs_nodup
  outputs_disjoint := by
    rw [hs.outputs, hs.inputNames_eq]
    exact hm.outputs_disjoint
  inputs_pos := by
    rw [hs.inputs]
    exact hm.inputs_pos
  wires_pos w hw := hm.wires_pos w (hs.perm.mem_iff.1 hw)
  deps_eq w hw := by
    simp only [isInput, input?, hs.inputs]
    exact hm.deps_eq w (hs.perm.mem_iff.1 hw)

/-- A text whose module has one output that is defined, before what it reads, and one that is not. -/
def unfinishedText : String :=
  "module m(input a, output y, output z); wire x; assign y = x; assign x = ~a; endmodule"

/-- The module of `unfinishedText`. -/
def unfinished : Module where
  name := "m"
  inputs := [⟨"a", 1⟩]
  wires := [⟨"x", 1, .unary "~" (.signal "a"), NameSet.ofNames [], some ⟨.ofText unfinishedText, 68, 74⟩⟩,
    ⟨"y", 1, .signal "x", NameSet.ofNames ["x"], some ⟨.ofText unfinishedText, 54, 59⟩⟩]
  outputs := ["y", "z"]

end Module

end Netlist
