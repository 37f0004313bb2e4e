/-
Bindings bind what they say.

An argument that sets an input is a name, an equals sign and a literal. Its width is looked at twice: a
number without a width takes that of the input if it fits, and whatever still has another width when the
module is simulated is made to fit there and reported. What both steps together come to is said here for
one input and the last literal that it is set to (`Input.IsSetTo`): the number of the literal, reduced,
and one report if the literal does not fit, where an unsized number does not fit from `2 ^ width` on and
a sized one if its width is another.

The environment of a list of bindings answers for the last binding of each name (`get?_bind`), and
nothing but that answer reaches the input (`isSetTo_of_gives`). The reports of a whole run about one name
are picked out of its log, where there is at most one, since inputs and bound names do not repeat.

A wire with the name of an input takes its place when its turn comes. Modules that were loaded have no such
wires, but of others the environment at the end tells what an input was set to only if no wire has its
name.
-/
import Netlist.CommandLine
import Netlist.Proofs.CarriedInputs
import Netlist.Proofs.Definitions
import Netlist.Proofs.LiteralReading

set_option autoImplicit false

namespace Netlist

open CommandLine (Binding)

/-! ## Entries of dictionaries -/

/-- A dictionary of a list of entries says about a name what the last entry of that name does. -/
theorem NameMap.get?_ofList {α : Type} (entries : List (String × α)) (name : String) :
    (NameMap.ofList entries).get? name =
      ((entries.filter fun e => e.1 == name).getLast?).map Prod.snd := by
  induction entries using List.reverseRecOn with
  | nil => rfl
  | append_singleton entries e ih =>
    have hsnoc : NameMap.ofList (entries ++ [e]) = (NameMap.ofList entries).insert e.1 e.2 := by
      rw [ofList, ofList, List.foldl_append, List.foldl_cons, List.foldl_nil]
    rw [hsnoc, get?_insert, List.filter_append, ih]
    by_cases h : name = e.1
    · have heq : (e.1 == name) = true := beq_iff_eq.2 h.symm
      rw [if_pos h, List.filter_cons, if_pos heq, List.filter_nil, List.getLast?_concat,
        Option.map_some]
    · have hne : ¬(e.1 == name) = true := fun heq => h (beq_iff_eq.1 heq).symm
      rw [if_neg h, List.filter_cons, if_neg hne, List.filter_nil, List.append_nil]

/-! ## Arguments -/

/-- A name and the literal that it is set to, both as texts without blanks around them. -/
structure Setting where
  name : String
  literal : String

namespace Setting

variable {s : Setting} {text : String} {b : Binding}

/-- The name of the setting stands before the first equals sign of the text, and the literal behind it. -/
def SpelledBy (s : Setting) (text : String) : Prop :=
  ∃ before behind : List Char, text.toList = before ++ '=' :: behind ∧ '=' ∉ before ∧
    s.name = Text.trim (String.ofList before) ∧ s.literal = Text.trim (String.ofList behind)

/-- The binding has the name and the word of the setting, and remembers whether the literal names a
width. -/
structure Gives (s : Setting) (b : Binding) : Prop where
  name : b.name = s.name
  read : Literal.read s.literal = .ok b.word
  isSized : b.isSized = s.literal.toList.contains Literal.mark

theorem contains_trim (cs : List Char) :
    (Text.trim (String.ofList cs)).toList.contains Literal.mark = cs.contains Literal.mark := by
  have htrim : Text.trim (String.ofList cs) = Text.trim (String.ofList cs) := rfl
  obtain ⟨⟨front, back, hcs, hfront, hback⟩, -, -⟩ := Text.trim_eq_iff.1 htrim
  rw [String.toList_ofList] at hcs
  -- the mark is no blank, so it does not go with the ends
  have hmark : ∀ ds : List Char, (∀ c ∈ ds, Text.isBlank c) → Literal.mark ∉ ds :=
    fun ds hds hmem => absurd (hds _ hmem) (by decide)
  conv_rhs => rw [hcs]
  rw [Bool.eq_iff_iff, List.contains_iff_mem, List.contains_iff_mem]
  simp [hmark front hfront, hmark back hback]

/-- A text that is read as a binding spells a setting that gives the binding. -/
theorem exists_of_read (h : Binding.read text = .ok b) : ∃ s : Setting, s.SpelledBy text ∧ s.Gives b := by
  have hsplit := List.takeWhile_append_dropWhile (p := (· != '=')) (l := text.toList)
  have hbefore : '=' ∉ text.toList.takeWhile (· != '=') :=
    fun hmem => absurd (List.mem_takeWhile_imp hmem) (by decide)
  unfold Binding.read at h
  dsimp only at h
  split at h
  · cases h
  · next sign behind hdrop =>
    obtain rfl : sign = '=' := by
      have hhead := List.head?_dropWhile_not (· != '=') text.toList
      rw [hdrop] at hhead
      simpa using hhead
    rw [hdrop] at hsplit
    generalize text.toList.takeWhile (· != '=') = before at h hsplit hbefore
    have htrim : Literal.read (Text.trim (String.ofList behind)) =
        Literal.read (String.ofList behind) := by
      rw [Literal.read, Literal.read, Text.trim_trim]
    by_cases hempty : (Text.trim (String.ofList before)).isEmpty = true
    · rw [if_pos hempty] at h
      cases h
    · rw [if_neg hempty] at h
      split at h
      · next w hw =>
        obtain rfl := Except.ok.inj h
        refine ⟨⟨Text.trim (String.ofList before), Text.trim (String.ofList behind)⟩,
          ⟨before, behind, hsplit.symm, hbefore, rfl, rfl⟩, rfl, ?_, (contains_trim behind).symm⟩
        rw [htrim, hw]
      · cases h

end Setting

/-! ## The last binding of a name -/

/-- The members of two rows that stand last stand in the same relation as all others. -/
theorem forall₂_getLast? {α β : Type} {R : α → β → Prop} {as : List α} {bs : List β}
    (h : List.Forall₂ R as bs) : Option.Rel R as.getLast? bs.getLast? := by
  have hreverse := List.forall₂_reverse_iff.2 h
  rw [List.getLast?_eq_head?_reverse, List.getLast?_eq_head?_reverse]
  generalize as.reverse = as at hreverse ⊢
  generalize bs.reverse = bs at hreverse ⊢
  cases hreverse with
  | nil => exact .none
  | cons hlast _ => exact .some hlast

namespace CommandLine

variable {m : Module} {settings : List Setting} {bindings : List Binding} {name : String}

/-- The literal that a name is set to last. -/
def lastLiteral (settings : List Setting) (name : String) : Option String :=
  ((settings.filter fun s => s.name == name).getLast?).map Setting.literal

/-- The last binding of a name. -/
def lastBinding (bindings : List Binding) (name : String) : Option Binding :=
  (bindings.filter fun b => b.name == name).getLast?

/-- Binds the name of a setting to its literal, which is read for it. -/
def bindSetting (m : Module) (env : Env) (s : Setting) : Except LiteralError Env :=
  (Literal.read s.literal).map fun w =>
    env.insert s.name (Binding.wordFor m ⟨s.name, s.literal.toList.contains Literal.mark, w⟩)

/-- Binds the names of settings to their literals, one after the other. -/
def bindSettings (m : Module) (settings : List Setting) : Except LiteralError Env :=
  settings.foldlM (bindSetting m) NameMap.empty

theorem bindSetting_eq {s : Setting} {b : Binding} (h : s.Gives b) (m : Module) (env : Env) :
    bindSetting m env s = .ok (env.insert b.name (b.wordFor m)) := by
  have hb : (⟨s.name, s.literal.toList.contains Literal.mark, b.word⟩ : Binding) = b := by
    rw [← h.name, ← h.isSized]
  rw [bindSetting, h.read, Except.map, hb, h.name]

/-- Literals that were read once can be read again, and bind the same words. -/
theorem bindSettings_eq (m : Module) (h : List.Forall₂ Setting.Gives settings bindings) :
    bindSettings m settings = .ok (bind m bindings) := by
  have hfold : ∀ env : Env, settings.foldlM (bindSetting m) env =
      .ok (env.fill Binding.name (Binding.wordFor m) bindings) := by
    induction h with
    | nil => exact fun env => rfl
    | cons hs _ ih =>
      intro env
      rw [List.foldlM_cons, bindSetting_eq hs]
      exact ih _
  rw [bindSettings, hfold, bind, NameMap.ofList, NameMap.fill, List.foldl_map]

theorem get?_bind (m : Module) (bindings : List Binding) (name : String) :
    (bind m bindings).get? name = (lastBinding bindings name).map (Binding.wordFor m) := by
  rw [bind, NameMap.get?_ofList, List.filter_map, List.getLast?_map, Option.map_map]
  rfl

theorem mem_keys_bind : name ∈ (bind m bindings).keys ↔ name ∈ bindings.map Binding.name := by
  rw [NameMap.mem_keys_iff, get?_bind, Option.isSome_map, lastBinding, List.getLast?_isSome,
    ← List.isEmpty_eq_false_iff, List.isEmpty_eq_false_iff_exists_mem, List.mem_map]
  simp

theorem rel_last (h : List.Forall₂ Setting.Gives settings bindings) (name : String) :
    Option.Rel Setting.Gives (settings.filter fun s => s.name == name).getLast?
      (lastBinding bindings name) := by
  refine forall₂_getLast? (List.rel_filter (fun s b hs => ?_) h)
  show (s.name == name) = true ↔ (b.name == name) = true
  rw [hs.name]

theorem map_name_eq (h : List.Forall₂ Setting.Gives settings bindings) :
    bindings.map Binding.name = settings.map Setting.name :=
  (map_eq_map_of_forall₂ (h.imp fun _ _ hs => hs.name.symm)).symm

end CommandLine

/-! ## Literals that do not fit -/

namespace Literal

/-- The word of a literal does not fit an input of the width: as a number it is too large, or it comes with
a width of its own and that is another one. -/
inductive Misfits (literal : String) (v : Word) (width : Nat) : Prop
  | tooLarge {digits : List Char} : HasShape (Text.trim literal).toList (.bare digits) →
      2 ^ width ≤ v.bits → Misfits literal v width
  | otherWidth {size digits : List Char} {letter : Char} {radix : Radix} :
      HasShape (Text.trim literal).toList (.sized size letter radix digits) → v.width ≠ width →
      Misfits literal v width

variable {literal : String} {v : Word} {width : Nat}

theorem misfits_bare_iff {digits : List Char}
    (h : HasShape (Text.trim literal).toList (.bare digits)) :
    Misfits literal v width ↔ 2 ^ width ≤ v.bits := by
  refine ⟨fun hmisfits => ?_, .tooLarge h⟩
  cases hmisfits with
  | tooLarge _ hle => exact hle
  | otherWidth h' _ => cases h'.ofChars?_eq.symm.trans h.ofChars?_eq

theorem misfits_sized_iff {size digits : List Char} {letter : Char} {radix : Radix}
    (h : HasShape (Text.trim literal).toList (.sized size letter radix digits)) :
    Misfits literal v width ↔ v.width ≠ width := by
  refine ⟨fun hmisfits => ?_, .otherWidth h⟩
  cases hmisfits with
  | tooLarge h' _ => cases h'.ofChars?_eq.symm.trans h.ofChars?_eq
  | otherWidth _ hne => exact hne

/-- A number without a width of its own is as wide as it needs to be, and its literal has no mark. -/
theorem cases_of_read (h : read literal = .ok v) :
    (literal.toList.contains mark = false ∧ v.width = max 1 v.bits.size ∧
      ∃ digits, HasShape (Text.trim literal).toList (.bare digits)) ∨
    (literal.toList.contains mark = true ∧ ∃ size letter radix digits,
      HasShape (Text.trim literal).toList (.sized size letter radix digits)) := by
  have hmark := Setting.contains_trim literal.toList
  rw [String.ofList_toList] at hmark
  have houtcome := outcome_read literal
  rw [h] at houtcome
  cases houtcome with
  | @bare digits _ hshape _ hwidth =>
    refine .inl ⟨?_, hwidth, digits, hshape⟩
    rw [← hmark]
    generalize (Text.trim literal).toList = cs at hshape
    cases hshape with
    | @bare digit rest hdigit hrest =>
      rw [Bool.eq_false_iff, ne_eq, List.contains_iff_mem, List.mem_cons, not_or]
      constructor
      · rintro rfl
        exact absurd hdigit (by decide)
      · intro hmem
        exact absurd (hrest _ hmem) (by decide)
  | @sized size digits letter radix _ hshape _ _ _ _ _ =>
    refine .inr ⟨?_, size, letter, radix, digits, hshape⟩
    rw [← hmark]
    generalize (Text.trim literal).toList = cs at hshape
    cases hshape with
    | sized => simp

end Literal

/-! ## One input -/

namespace Finding

/-- The finding is that a word was made to fit the input of the name. -/
def resizes (name : String) : Finding → Bool
  | resizedInput other _ _ => other == name
  | _ => false

/-- The finding is that the name is bound and is none of an input. -/
def rejects (name : String) : Finding → Bool
  | unknownInput other => other == name
  | _ => false

variable {f : Finding}

theorem isAboutInput_of_resizes {name : String} (h : f.resizes name = true) :
    f.isAboutInput = true := by
  cases f <;> simp [resizes, isAboutInput] at h ⊢

theorem isAboutInput_of_rejects {name : String} (h : f.rejects name = true) :
    f.isAboutInput = true := by
  cases f <;> simp [rejects, isAboutInput] at h ⊢

end Finding

/-- A literal sets an input to a word and is reported or not: the word has the number of the literal,
reduced to the width of the input, and there is one report if the literal does not fit, and else none. -/
def Input.IsSetTo (i : Input) (literal : String) (w : Word) (reports : Log) : Prop :=
  ∃ v, Literal.read literal = .ok v ∧ w.width = i.width ∧ w.bits = v.bits % 2 ^ i.width ∧
    (Literal.Misfits literal v i.width ∧
        reports = [⟨.warning, none, .resizedInput i.name v i.width⟩] ∨
      ¬Literal.Misfits literal v i.width ∧ reports = [])

namespace Module

open CommandLine

variable {m : Module} {given : Env} {i : Input} {settings : List Setting} {bindings : List Binding}

theorem input?_of_mem (hnodup : m.inputNames.Nodup) (hi : i ∈ m.inputs) : m.input? i.name = some i := by
  obtain ⟨j, hj⟩ := Option.isSome_iff_exists.1 (isInput_iff.2 (List.mem_map_of_mem (f := Input.name) hi))
  have hname : j.name = i.name := by simpa using List.find?_some hj
  have hmem : j ∈ m.inputs := List.mem_of_find?_eq_some hj
  rw [hj, List.inj_on_of_nodup_map hnodup hmem hi hname]

/-- A binding sets its input to what its literal says. Both times that the width is looked at count:
before the simulation a number that fits is widened, and during it the rest is cut and reported. -/
theorem isSetTo_of_gives {s : Setting} {b : Binding} (hnodup : m.inputNames.Nodup) (hi : i ∈ m.inputs)
    (hpos : 0 < i.width) (hs : s.Gives b) (hname : s.name = i.name)
    (hget : given.get? i.name = some (b.wordFor m)) :
    i.IsSetTo s.literal (i.word given) (inputValue given i).log := by
  have hinput : m.input? b.name = some i := by rw [hs.name, hname, input?_of_mem hnodup hi]
  have hbits : (b.wordFor m).bits % 2 ^ i.width = b.word.bits % 2 ^ i.width := by
    simp only [Binding.wordFor, hinput]
    split
    · rw [Word.bits_resize, modulus_eq_two_pow, Nat.mod_mod]
    · rfl
  refine ⟨b.word, hs.read, i.width_word given, ?_, ?_⟩
  · rw [i.bits_word, hget, Option.elim_some, hbits]
  rw [log_inputValue hget]
  rcases Literal.cases_of_read hs.read with
    ⟨hmark, hwidth, digits, hshape⟩ | ⟨hmark, size, letter, radix, digits, hshape⟩
  · rw [Literal.misfits_bare_iff hshape]
    -- an input has a bit, so only the bits of the number decide whether it fits
    have hfits : b.word.width ≤ i.width ↔ b.word.bits < 2 ^ i.width := by
      rw [hwidth, max_le_iff, Nat.size_le]
      exact and_iff_right hpos
    have hsized : b.isSized = false := hs.isSized.trans hmark
    have hword : b.wordFor m =
        if b.word.width ≤ i.width then b.word.resize i.width else b.word := by
      simp [Binding.wordFor, hinput, hsized]
    by_cases hle : b.word.width ≤ i.width
    · refine .inr ⟨Nat.not_le.2 (hfits.1 hle), ?_⟩
      rw [hword, if_pos hle, if_pos (Word.width_resize _ _)]
    · refine .inl ⟨Nat.not_lt.1 fun hlt => hle (hfits.2 hlt), ?_⟩
      rw [hword, if_neg hle, if_neg fun heq => hle (Nat.le_of_eq heq)]
  · rw [Literal.misfits_sized_iff hshape]
    have hsized : b.isSized = true := hs.isSized.trans hmark
    have hword : b.wordFor m = b.word := by
      simp [Binding.wordFor, hinput, hsized]
    rw [hword]
    by_cases heq : b.word.width = i.width
    · exact .inr ⟨fun hne => hne heq, if_pos heq⟩
    · exact .inl ⟨heq, if_neg heq⟩

/-! ## A whole run -/

/-- What a run says about bound words it says while the inputs are bound. -/
theorem filter_log_simulate {p : Finding → Bool} (hp : ∀ f, p f = true → f.isAboutInput = true)
    (m : Module) (given : Env) :
    (m.simulate given).run.log.filter (fun d => p d.finding) =
      (m.inputs.flatMap fun i => (inputValue given i).log).filter (fun d => p d.finding) ++
        (given.keys.flatMap fun name =>
          if m.isInput name then [] else [⟨.warning, none, .unknownInput name⟩]).filter
            (fun d => p d.finding) := by
  have hwires : (m.wires.foldlM bindWire (m.bindInputs given).value).run.log.filter
      (fun d => p d.finding) = [] := by
    rw [List.filter_eq_nil_iff]
    intro d hd hmatches
    exact Bool.false_ne_true ((records_bindWires m.wires _ d hd).symm.trans (hp _ hmatches))
  rw [log_simulate, log_bindInputs, List.filter_append, List.filter_append, hwires, List.append_nil]

/-- What is recorded about one input in a run is what is recorded when it is bound. -/
theorem filter_log_simulate_resizes (hnodup : m.inputNames.Nodup) (hi : i ∈ m.inputs) (given : Env) :
    (m.simulate given).run.log.filter (fun d => d.finding.resizes i.name) =
      (inputValue given i).log := by
  have hkeys : (given.keys.flatMap fun name => if m.isInput name then [] else
      [(⟨.warning, none, .unknownInput name⟩ : Diagnostic)]).filter
        (fun d => d.finding.resizes i.name) = [] := by
    rw [List.filter_eq_nil_iff]
    intro d hd
    obtain ⟨name, -, hd⟩ := List.mem_flatMap.1 hd
    rw [eq_unknownInput_of_mem hd]
    exact Bool.false_ne_true
  rw [filter_log_simulate (fun _ => Finding.isAboutInput_of_resizes), hkeys, List.append_nil]
  refine filter_flatMap_of_unique (List.Nodup.of_map _ hnodup) hi (fun d hd => ?_)
    fun j hj hne d hd hresizes => ?_
  · obtain ⟨v, rfl⟩ := eq_resizedInput_of_mem hd
    exact beq_self_eq_true i.name
  · obtain ⟨v, rfl⟩ := eq_resizedInput_of_mem hd
    exact hne (List.inj_on_of_nodup_map hnodup hj hi (beq_iff_eq.1 hresizes))

/-- A run reports a name once if it is bound and is none of an input, and not otherwise. -/
theorem filter_log_simulate_rejects (m : Module) (given : Env) (name : String) :
    (m.simulate given).run.log.filter (fun d => d.finding.rejects name) =
      if name ∈ given.keys ∧ name ∉ m.inputNames then [⟨.warning, none, .unknownInput name⟩]
      else [] := by
  have hinputs : (m.inputs.flatMap fun i => (inputValue given i).log).filter
      (fun d => d.finding.rejects name) = [] := by
    rw [List.filter_eq_nil_iff]
    intro d hd
    obtain ⟨i, -, hd⟩ := List.mem_flatMap.1 hd
    obtain ⟨v, rfl⟩ := eq_resizedInput_of_mem hd
    exact Bool.false_ne_true
  rw [filter_log_simulate (fun _ => Finding.isAboutInput_of_rejects), hinputs, List.nil_append]
  by_cases hmem : name ∈ given.keys
  · rw [filter_flatMap_of_unique given.keys_nodup hmem (fun d hd => ?_)
      fun other _ hne d hd hrejects => ?_]
    · by_cases hinput : name ∈ m.inputNames
      · rw [if_pos (isInput_iff.2 hinput), if_neg fun h => h.2 hinput]
      · rw [if_neg fun h => hinput (isInput_iff.1 h), if_pos ⟨hmem, hinput⟩]
    · rw [eq_unknownInput_of_mem hd]
      exact beq_self_eq_true name
    · rw [eq_unknownInput_of_mem hd] at hrejects
      exact hne (beq_iff_eq.1 hrejects)
  · rw [if_neg fun h => hmem h.1, List.filter_eq_nil_iff]
    intro d hd hrejects
    obtain ⟨other, hother, hd⟩ := List.mem_flatMap.1 hd
    rw [eq_unknownInput_of_mem hd] at hrejects
    exact hmem (beq_iff_eq.1 hrejects ▸ hother)

/-- A run takes from settings what they say: each input that is set has what the last literal for it
says, and is reported if that does not fit; the other inputs are zero; and the names that are none of
an input are reported, each once. Inputs keep their words until the end unless a wire has their name. -/
structure TakesSettings (m : Module) (settings : List Setting) (given : Env) : Prop where
  set : ∀ i ∈ m.inputs, ∀ literal, lastLiteral settings i.name = some literal →
    ∃ w, (m.bindInputs given).value.get? i.name = some w ∧
      i.IsSetTo literal w ((m.simulate given).run.log.filter fun d => d.finding.resizes i.name)
  unset : ∀ i ∈ m.inputs, lastLiteral settings i.name = none →
    (m.bindInputs given).value.get? i.name = some (.zero i.width) ∧
      (m.simulate given).run.log.filter (fun d => d.finding.resizes i.name) = []
  unknown : ∀ name, (m.simulate given).run.log.filter (fun d => d.finding.rejects name) =
    if name ∈ settings.map Setting.name ∧ name ∉ m.inputNames then
      [⟨.warning, none, .unknownInput name⟩]
    else []
  kept : ∀ env, (m.simulate given).run.value = .ok env → ∀ name ∈ m.inputNames,
    name ∉ m.wireNames → env.get? name = (m.bindInputs given).value.get? name

theorem takesSettings_bind (hnodup : m.inputNames.Nodup) (hpos : ∀ i ∈ m.inputs, 0 < i.width)
    (h : List.Forall₂ Setting.Gives settings bindings) :
    m.TakesSettings settings (bind m bindings) where
  set i hi literal hliteral := by
    refine ⟨i.word (bind m bindings), get?_bindInputs hnodup _ hi, ?_⟩
    rw [filter_log_simulate_resizes hnodup hi]
    have hget := get?_bind m bindings i.name
    have hlast := rel_last h i.name
    obtain ⟨s, hs, rfl⟩ := Option.map_eq_some_iff.1 hliteral
    rw [hs] at hlast
    generalize lastBinding bindings i.name = b at hget hlast
    cases hlast with
    | some hgives =>
      have hname : (s.name == i.name) = true :=
        List.of_mem_filter (p := fun s : Setting => s.name == i.name) (List.mem_of_getLast? hs)
      exact isSetTo_of_gives hnodup hi (hpos i hi) hgives (beq_iff_eq.1 hname) hget
  unset i hi hliteral := by
    have hlast := rel_last h i.name
    rw [Option.map_eq_none_iff.1 hliteral] at hlast
    have hget : (bind m bindings).get? i.name = none := by
      rw [get?_bind]
      generalize lastBinding bindings i.name = b at hlast
      cases hlast with
      | none => rfl
    refine ⟨?_, ?_⟩
    · rw [get?_bindInputs hnodup _ hi, Input.word, hget]
    · rw [filter_log_simulate_resizes hnodup hi, log_inputValue_of_none hget]
  unknown name := by
    rw [filter_log_simulate_rejects]
    simp only [mem_keys_bind, map_name_eq h]
  kept env henv name _ hname := by
    rw [value_simulate] at henv
    exact get?_bindWires_of_notMem hname henv

/-- Arguments that are accepted can be read a second time, for a module, and its run takes them as what
they say. -/
theorem takesSettings_of_read {texts : List String} (hnodup : m.inputNames.Nodup)
    (hpos : ∀ i ∈ m.inputs, 0 < i.width)
    (hread : List.Forall₂ (fun text b => Binding.read text = .ok b) texts bindings) :
    ∃ settings, List.Forall₂ Setting.SpelledBy settings texts ∧
      bindSettings m settings = .ok (bind m bindings) ∧
      m.TakesSettings settings (bind m bindings) := by
  have hsettings : ∃ settings, List.Forall₂ Setting.SpelledBy settings texts ∧
      List.Forall₂ Setting.Gives settings bindings := by
    induction hread with
    | nil => exact ⟨[], .nil, .nil⟩
    | cons htext _ ih =>
      obtain ⟨s, hspelled, hgives⟩ := Setting.exists_of_read htext
      obtain ⟨settings, hspelledAll, hgivesAll⟩ := ih
      exact ⟨s :: settings, .cons hspelled hspelledAll, .cons hgives hgivesAll⟩
  obtain ⟨settings, hspelled, hgives⟩ := hsettings
  exact ⟨settings, hspelled, bindSettings_eq m hgives, takesSettings_bind hnodup hpos hgives⟩

/-- A module whose first input is set twice below, whose second one takes a sized literal, and whose last
one is left alone. -/
def overridden : Module where
  name := "overridden"
  inputs := [⟨"a", 4⟩, ⟨"b", 8⟩, ⟨"c", 3⟩]
  wires := [.ofExpr "y" 8 (.signal "b")]
  outputs := ["y"]

/-- What the arguments of the run below are read as. -/
def overriding : List Binding :=
  [⟨"a", false, .ofNat 3 7⟩, ⟨"z", false, .ofNat 1 1⟩, ⟨"b", true, .ofNat 4 15⟩,
    ⟨"a", false, .ofNat 5 16⟩, ⟨"z", false, .ofNat 2 2⟩]

theorem read_overriding : List.Forall₂ (fun text b => Binding.read text = .ok b)
    ["a=7", "z=1", "b=4'hf", " a = 16", "z=2"] overriding :=
  .cons rfl (.cons rfl (.cons rfl (.cons rfl (.cons rfl .nil))))

/-- Sixteen is the first number that four bits do not hold; the seven before it leaves no trace, and the
unknown name is reported once. -/
theorem takesSettings_of_read_overridden :
    overridden.inputNames.Nodup ∧ (∀ i ∈ overridden.inputs, 0 < i.width) ∧
    (∃ settings, bindSettings overridden settings = .ok (bind overridden overriding) ∧
      overridden.TakesSettings settings (bind overridden overriding)) ∧
    (overridden.simulate (bind overridden overriding)).run =
      ⟨.ok (.ofList [("a", .zero 4), ("b", .ofNat 8 15), ("c", .zero 3), ("y", .ofNat 8 15)]),
        [⟨.warning, none, .resizedInput "a" (.ofNat 5 16) 4⟩,
          ⟨.warning, none, .resizedInput "b" (.ofNat 4 15) 8⟩,
          ⟨.warning, none, .unknownInput "z"⟩]⟩ := by
  have hnodup : overridden.inputNames.Nodup := by decide
  have hpos : ∀ i ∈ overridden.inputs, 0 < i.width := by decide
  obtain ⟨settings, -, hbind, htakes⟩ := takesSettings_of_read hnodup hpos read_overriding
  exact ⟨hnodup, hpos, ⟨settings, hbind, htakes⟩, rfl⟩

/-- A module with a wire that has the name of its input. -/
def shadowed : Module where
  name := "shadowed"
  inputs := [⟨"a", 4⟩]
  wires := [.ofExpr "a" 4 (.constant "9")]
  outputs := []

/-- Without a word about wires the environment at the end need not hold what the inputs are set to: the
three that the input is set to is replaced by the nine of the wire. -/
theorem not_set_at_end_shadowed :
    ¬∀ (m : Module) (texts : List String) (bindings : List Binding), m.inputNames.Nodup →
      (∀ i ∈ m.inputs, 0 < i.width) →
      List.Forall₂ (fun text b => Binding.read text = .ok b) texts bindings →
      ∀ env, (m.simulate (bind m bindings)).run.value = .ok env →
        ∀ i ∈ m.inputs, ∀ b, lastBinding bindings i.name = some b →
          ∃ w, env.get? i.name = some w ∧ w.bits = b.word.bits % 2 ^ i.width := by
  intro hclaim
  have hread : List.Forall₂ (fun text b => Binding.read text = .ok b) ["a=3"]
      [⟨"a", false, .ofNat 2 3⟩] := .cons rfl .nil
  have hrun : (shadowed.simulate (bind shadowed [⟨"a", false, .ofNat 2 3⟩])).run.value =
      .ok (.ofList [("a", .ofNat 4 9)]) := rfl
  obtain ⟨w, hget, hbits⟩ := hclaim shadowed _ _ (by decide) (by decide) hread _ hrun ⟨"a", 4⟩
    List.mem_cons_self _ rfl
  cases hget
  exact absurd hbits (by decide)

end Module

end Netlist
