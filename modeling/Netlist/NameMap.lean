/-
Dictionaries of names.

A dictionary keeps its entries in the order of their names, which is the order of their
code points, and no name twice. So a walk over the entries has one possible order, and
two dictionaries that answer every question alike are equal (`ext_get?`).
-/

set_option autoImplicit false

namespace Netlist

/-! ## The type -/

/-- A dictionary with names as keys. -/
structure NameMap (α : Type) where
  entries : List (String × α)
  sorted : entries.Pairwise fun a b => a.1 < b.1
deriving DecidableEq

namespace NameMap

variable {α : Type}

/-- The dictionary without entries. -/
def empty : NameMap α :=
  ⟨[], List.Pairwise.nil⟩

/-- What the dictionary says about a name. -/
def get? (m : NameMap α) (name : String) : Option α :=
  m.entries.lookup name

/-- The dictionary says something about a name. -/
def contains (m : NameMap α) (name : String) : Bool :=
  (m.get? name).isSome

/-- The names in their order. -/
def keys (m : NameMap α) : List String :=
  m.entries.map Prod.fst

/-! ## Adding entries -/

/-- Puts an entry into its place among sorted entries; an older entry of that name goes. -/
def insertInto (name : String) (value : α) : List (String × α) → List (String × α)
  | [] => [(name, value)]
  | entry :: rest =>
    if entry.1 < name then entry :: insertInto name value rest
    else if name < entry.1 then (name, value) :: entry :: rest
    else (name, value) :: rest

theorem lt_of_mem_insertInto {bound name : String} {value : α} {entries : List (String × α)}
    (hname : bound < name) (hentries : ∀ e ∈ entries, bound < e.1) :
    ∀ e ∈ insertInto name value entries, bound < e.1 := by
  induction entries with
  | nil =>
    intro e he
    simp only [insertInto, List.mem_singleton] at he
    rw [he]
    exact hname
  | cons entry rest ih =>
    intro e he
    unfold insertInto at he
    split at he
    · rcases List.mem_cons.1 he with rfl | he
      · exact hentries _ List.mem_cons_self
      · exact ih (fun e he => hentries e (List.mem_cons_of_mem _ he)) e he
    · split at he
      · rcases List.mem_cons.1 he with rfl | he
        · exact hname
        · exact hentries e he
      · rcases List.mem_cons.1 he with rfl | he
        · exact hname
        · exact hentries e (List.mem_cons_of_mem _ he)

theorem sorted_insertInto (name : String) (value : α) {entries : List (String × α)}
    (h : entries.Pairwise fun a b => a.1 < b.1) :
    (insertInto name value entries).Pairwise fun a b => a.1 < b.1 := by
  induction entries with
  | nil => exact List.pairwise_singleton _ _
  | cons entry rest ih =>
    obtain ⟨hentry, hrest⟩ := List.pairwise_cons.1 h
    unfold insertInto
    split
    · next hlt => exact List.pairwise_cons.2 ⟨lt_of_mem_insertInto hlt hentry, ih hrest⟩
    · next hge =>
      split
      · next hlt =>
        refine List.pairwise_cons.2 ⟨fun e he => ?_, h⟩
        rcases List.mem_cons.1 he with rfl | he
        · exact hlt
        · exact String.lt_trans hlt (hentry e he)
      · next hle =>
        have heq : entry.1 = name :=
          String.le_antisymm (String.not_lt.1 hle) (String.not_lt.1 hge)
        exact List.pairwise_cons.2 ⟨fun e he => heq ▸ hentry e he, hrest⟩

/-- The dictionary with one more entry; an older entry of that name goes. -/
def insert (m : NameMap α) (name : String) (value : α) : NameMap α :=
  ⟨insertInto name value m.entries, sorted_insertInto name value m.sorted⟩

/-- The dictionary without the names that fail a test. -/
def filter (m : NameMap α) (keep : String → Bool) : NameMap α :=
  ⟨m.entries.filter fun e => keep e.1, m.sorted.filter _⟩

/-- The dictionary without a name. -/
def erase (m : NameMap α) (name : String) : NameMap α :=
  m.filter (· != name)

/-- The dictionary of a list of entries, of which later ones replace earlier ones. -/
def ofList (entries : List (String × α)) : NameMap α :=
  entries.foldl (fun m e => m.insert e.1 e.2) empty

/-! ## What look-ups find -/

@[simp] theorem get?_empty (name : String) : (empty : NameMap α).get? name = none := rfl

theorem lookup_cons_self (entry : String × α) (rest : List (String × α)) :
    (entry :: rest).lookup entry.1 = some entry.2 := by
  rw [List.lookup_cons, beq_self_eq_true]

theorem lookup_cons_of_ne {name : String} {entry : String × α} (h : name ≠ entry.1)
    (rest : List (String × α)) : (entry :: rest).lookup name = rest.lookup name := by
  rw [List.lookup_cons, beq_false_of_ne h]

/-- A name below all entries is not among them. -/
theorem lookup_eq_none_of_lt {name : String} {entries : List (String × α)}
    (h : ∀ e ∈ entries, name < e.1) : entries.lookup name = none := by
  rw [List.lookup_eq_none_iff]
  intro e he
  have hne : name ≠ e.1 := fun heq => String.lt_irrefl e.1 (heq ▸ h e he)
  simpa using hne

theorem lookup_insertInto (name : String) (value : α) (other : String)
    {entries : List (String × α)} (h : entries.Pairwise fun a b => a.1 < b.1) :
    (insertInto name value entries).lookup other =
      if other = name then some value else entries.lookup other := by
  have hhead : ∀ rest : List (String × α), ((name, value) :: rest).lookup other =
      if other = name then some value else rest.lookup other := by
    intro rest
    split
    · next heq => exact heq ▸ lookup_cons_self (name, value) rest
    · next heq => exact lookup_cons_of_ne heq rest
  induction entries with
  | nil => exact hhead []
  | cons entry rest ih =>
    obtain ⟨hentry, hrest⟩ := List.pairwise_cons.1 h
    unfold insertInto
    split
    · next hlt =>
      have hne : entry.1 ≠ name := fun heq => String.lt_irrefl name (heq ▸ hlt)
      by_cases hother : other = entry.1
      · rw [hother, lookup_cons_self, lookup_cons_self, if_neg hne]
      · rw [lookup_cons_of_ne hother, lookup_cons_of_ne hother, ih hrest]
    · next hge =>
      split
      · exact hhead (entry :: rest)
      · next hle =>
        have hname : entry.1 = name :=
          String.le_antisymm (String.not_lt.1 hle) (String.not_lt.1 hge)
        rw [hhead rest]
        split
        · rfl
        · next heq => rw [lookup_cons_of_ne (hname ▸ heq)]

theorem get?_insert (m : NameMap α) (name : String) (value : α) (other : String) :
    (m.insert name value).get? other = if other = name then some value else m.get? other :=
  lookup_insertInto name value other m.sorted

@[simp] theorem get?_insert_self (m : NameMap α) (name : String) (value : α) :
    (m.insert name value).get? name = some value := by
  rw [get?_insert, if_pos rfl]

theorem lookup_filter (keep : String → Bool) (name : String) (entries : List (String × α)) :
    (entries.filter fun e => keep e.1).lookup name =
      if keep name then entries.lookup name else none := by
  induction entries with
  | nil => simp
  | cons entry rest ih =>
    rw [List.filter_cons]
    by_cases heq : name = entry.1
    · subst heq
      split
      · rw [lookup_cons_self, lookup_cons_self]
      · next hkeep => rw [ih, if_neg hkeep]
    · split
      · rw [lookup_cons_of_ne heq, lookup_cons_of_ne heq, ih]
      · rw [lookup_cons_of_ne heq, ih]

theorem get?_filter (m : NameMap α) (keep : String → Bool) (name : String) :
    (m.filter keep).get? name = if keep name then m.get? name else none :=
  lookup_filter keep name m.entries

theorem get?_erase (m : NameMap α) (name other : String) :
    (m.erase name).get? other = if other = name then none else m.get? other := by
  rw [erase, get?_filter]
  by_cases h : other = name <;> simp [h]

theorem mem_keys_iff {m : NameMap α} {name : String} :
    name ∈ m.keys ↔ (m.get? name).isSome := by
  unfold keys get?
  induction m.entries with
  | nil => simp
  | cons entry rest ih =>
    by_cases h : name = entry.1
    · subst h
      simp [lookup_cons_self]
    · simp [lookup_cons_of_ne h, h, ih]

/-! ## Equality -/

theorem entries_eq_of_lookup {as bs : List (String × α)}
    (ha : as.Pairwise fun a b => a.1 < b.1) (hb : bs.Pairwise fun a b => a.1 < b.1)
    (h : ∀ name, as.lookup name = bs.lookup name) : as = bs := by
  induction as generalizing bs with
  | nil =>
    cases bs with
    | nil => rfl
    | cons b bs =>
      have := h b.1
      rw [lookup_cons_self] at this
      contradiction
  | cons a as ih =>
    cases bs with
    | nil =>
      have := h a.1
      rw [lookup_cons_self] at this
      contradiction
    | cons b bs =>
      obtain ⟨hahead, hatail⟩ := List.pairwise_cons.1 ha
      obtain ⟨hbhead, hbtail⟩ := List.pairwise_cons.1 hb
      have hfirst : a.1 = b.1 := by
        refine String.le_antisymm (String.not_lt.1 fun hlt => ?_) (String.not_lt.1 fun hlt => ?_)
        · have hnone : (a :: as).lookup b.1 = none :=
            lookup_eq_none_of_lt fun e he => by
              rcases List.mem_cons.1 he with rfl | he
              · exact hlt
              · exact String.lt_trans hlt (hahead e he)
          rw [h b.1, lookup_cons_self] at hnone
          contradiction
        · have hnone : (b :: bs).lookup a.1 = none :=
            lookup_eq_none_of_lt fun e he => by
              rcases List.mem_cons.1 he with rfl | he
              · exact hlt
              · exact String.lt_trans hlt (hbhead e he)
          rw [← h a.1, lookup_cons_self] at hnone
          contradiction
      have hvalue : a.2 = b.2 := by
        have := h a.1
        rw [lookup_cons_self, hfirst, lookup_cons_self] at this
        exact Option.some.inj this
      have htail : as = bs := by
        refine ih hatail hbtail fun name => ?_
        by_cases heq : name = a.1
        · subst heq
          rw [lookup_eq_none_of_lt hahead, lookup_eq_none_of_lt (hfirst ▸ hbhead)]
        · have := h name
          rwa [lookup_cons_of_ne heq, lookup_cons_of_ne (hfirst ▸ heq)] at this
      rw [htail, Prod.ext hfirst hvalue]

/-- Two dictionaries that say the same about every name are equal. -/
theorem ext_get? {m n : NameMap α} (h : ∀ name, m.get? name = n.get? name) : m = n := by
  have := entries_eq_of_lookup m.sorted n.sorted h
  cases m
  cases n
  simpa using this

end NameMap

/-! ## Sets of names -/

/-- A set of names, which is a dictionary that says nothing more about them. -/
abbrev NameSet := NameMap Unit

namespace NameSet

/-- The set with one more name. -/
def add (s : NameSet) (name : String) : NameSet :=
  NameMap.insert s name ()

/-- The names of a list. -/
def ofNames (names : List String) : NameSet :=
  names.foldl add NameMap.empty

end NameSet

end Netlist
