/-
Which names a dictionary holds.

`get?_insert` and `get?_filter` say what look-ups find after a change. The questions asked
further on are mostly coarser: whether a name is among the keys at all. This file turns the
one kind of fact into the other, and adds that the keys stand in strictly ascending order,
so that no key occurs twice and the first key that passes a test is the least that does.
-/
import Netlist.NameMap

set_option autoImplicit false

namespace Netlist

namespace NameMap

variable {α : Type}

/-! ## Keys after a change -/

@[simp] theorem keys_empty : (empty : NameMap α).keys = [] := rfl

theorem mem_keys_of_get? {m : NameMap α} {name : String} {value : α}
    (h : m.get? name = some value) : name ∈ m.keys := by
  rw [mem_keys_iff, h]
  rfl

theorem get?_eq_none_iff {m : NameMap α} {name : String} :
    m.get? name = none ↔ name ∉ m.keys := by
  rw [mem_keys_iff]
  cases m.get? name <;> simp

theorem mem_keys_insert {m : NameMap α} {name other : String} {value : α} :
    other ∈ (m.insert name value).keys ↔ other = name ∨ other ∈ m.keys := by
  rw [mem_keys_iff, get?_insert, mem_keys_iff]
  by_cases h : other = name <;> simp [h]

theorem mem_keys_filter {m : NameMap α} {keep : String → Bool} {name : String} :
    name ∈ (m.filter keep).keys ↔ keep name = true ∧ name ∈ m.keys := by
  rw [mem_keys_iff, get?_filter, mem_keys_iff]
  by_cases h : keep name = true <;> simp [h]

/-! ## The order of the keys -/

theorem keys_sorted (m : NameMap α) : m.keys.Pairwise (· < ·) :=
  List.pairwise_map.2 m.sorted

theorem keys_nodup (m : NameMap α) : m.keys.Nodup := by
  apply m.keys_sorted.imp
  intro a b hlt heq
  exact String.lt_irrefl b (heq ▸ hlt)

/-! ## Dictionaries filled from a list -/

section Fill

variable {β : Type} (name : β → String) (value : β → α)

/-- Binds the name of each member of a list to the value of that member. -/
def fill (m : NameMap α) (bs : List β) : NameMap α :=
  bs.foldl (fun m b => m.insert (name b) (value b)) m

theorem mem_keys_fill {m : NameMap α} {bs : List β} {other : String} :
    other ∈ (m.fill name value bs).keys ↔ other ∈ m.keys ∨ other ∈ bs.map name := by
  induction bs generalizing m with
  | nil => simp [fill]
  | cons b bs ih =>
    rw [fill, List.foldl_cons, ← fill, ih, mem_keys_insert, List.map_cons, List.mem_cons,
      or_assoc, or_left_comm]

theorem get?_fill_of_notMem {m : NameMap α} {bs : List β} {other : String}
    (h : other ∉ bs.map name) : (m.fill name value bs).get? other = m.get? other := by
  induction bs generalizing m with
  | nil => rfl
  | cons b bs ih =>
    rw [List.map_cons, List.mem_cons, not_or] at h
    rw [fill, List.foldl_cons, ← fill, ih h.2, get?_insert, if_neg h.1]

/-- A member of the list is found under its name, if no other has that name. -/
theorem get?_fill_of_mem {m : NameMap α} {bs : List β} (hnodup : (bs.map name).Nodup) {b : β}
    (hb : b ∈ bs) : (m.fill name value bs).get? (name b) = some (value b) := by
  induction bs generalizing m with
  | nil => cases hb
  | cons first rest ih =>
    rw [List.map_cons, List.nodup_cons] at hnodup
    rw [fill, List.foldl_cons, ← fill]
    rcases List.mem_cons.1 hb with rfl | hb
    · rw [get?_fill_of_notMem name value hnodup.1, get?_insert_self]
    · exact ih hnodup.2 hb

end Fill

/-! ## Dictionaries with other values -/

section Map

variable {β : Type} (f : α → β)

/-- The dictionary with each value replaced by what the function makes of it. -/
def map (m : NameMap α) : NameMap β where
  entries := m.entries.map fun e => (e.1, f e.2)
  sorted := List.pairwise_map.2 m.sorted

theorem lookup_map (name : String) (entries : List (String × α)) :
    (entries.map fun e => (e.1, f e.2)).lookup name = (entries.lookup name).map f := by
  induction entries with
  | nil => rfl
  | cons entry rest ih =>
    by_cases h : name = entry.1
    · subst h
      rw [List.map_cons, lookup_cons_self, lookup_cons_self (entry.1, f entry.2), Option.map_some]
    · have h' : name ≠ (entry.1, f entry.2).1 := h
      rw [List.map_cons, lookup_cons_of_ne h, lookup_cons_of_ne h', ih]

@[simp] theorem get?_map (m : NameMap α) (name : String) :
    (m.map f).get? name = (m.get? name).map f :=
  lookup_map f name m.entries

@[simp] theorem contains_map (m : NameMap α) (name : String) :
    (m.map f).contains name = m.contains name := by
  rw [contains, get?_map, Option.isSome_map, contains]

theorem map_insert (m : NameMap α) (name : String) (value : α) :
    (m.insert name value).map f = (m.map f).insert name (f value) := by
  refine ext_get? fun other => ?_
  rw [get?_map, get?_insert, get?_insert, get?_map]
  split <;> rfl

end Map

/-! ## Saying more -/

/-- Everything that one dictionary says, the other says as well. -/
def Within (m n : NameMap α) : Prop :=
  ∀ name value, m.get? name = some value → n.get? name = some value

theorem Within.refl (m : NameMap α) : m.Within m :=
  fun _ _ h => h

theorem Within.trans {l m n : NameMap α} (hlm : l.Within m) (hmn : m.Within n) : l.Within n :=
  fun name value h => hmn name value (hlm name value h)

theorem within_insert {m : NameMap α} {name : String} (h : name ∉ m.keys) (value : α) :
    m.Within (m.insert name value) := by
  intro other w hw
  have hne : other ≠ name := fun heq => h (heq ▸ mem_keys_of_get? hw)
  rw [get?_insert, if_neg hne, hw]

end NameMap

/-! ## Sets built from lists -/

namespace NameSet

theorem mem_keys_foldl_add {names : List String} {s : NameSet} {name : String} :
    name ∈ (names.foldl add s).keys ↔ name ∈ names ∨ name ∈ s.keys := by
  induction names generalizing s with
  | nil => simp
  | cons first rest ih =>
    rw [List.foldl_cons, ih, add, NameMap.mem_keys_insert, List.mem_cons, or_assoc]
    exact or_left_comm

/-- Sets with the same names are equal. -/
theorem ext_keys {s t : NameSet} (h : ∀ name, name ∈ s.keys ↔ name ∈ t.keys) : s = t := by
  refine NameMap.ext_get? fun name => ?_
  have hiff := h name
  rw [NameMap.mem_keys_iff, NameMap.mem_keys_iff] at hiff
  cases hs : s.get? name <;> cases ht : t.get? name <;> simp_all

@[simp] theorem mem_keys_ofNames {names : List String} {name : String} :
    name ∈ (ofNames names).keys ↔ name ∈ names := by
  rw [ofNames, mem_keys_foldl_add]
  simp

end NameSet

end Netlist
