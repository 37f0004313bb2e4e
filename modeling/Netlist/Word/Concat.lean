/-
Many words side by side.

`concat` puts a row of words together, the first one on top. `joinCopies` puts copies of one
word together; it doubles what it has, so that the number of copies may be huge as long as
the result is not. How two words are put together is up to the caller, who may want to break
off where the widths add up to more than can be counted.
-/
import Netlist.Word

set_option autoImplicit false

namespace Netlist.Word

/-- The words of a row side by side, the first one on top. -/
def concat (ws : List Word) : Word :=
  ws.foldl append (zero 0)

@[simp] theorem concat_nil : concat [] = zero 0 := rfl

theorem concat_append_singleton (ws : List Word) (w : Word) :
    concat (ws ++ [w]) = (concat ws).append w := by
  simp [concat, List.foldl_append]

/-- Puts `n` copies of a word below what is there already. -/
def joinCopies {m : Type → Type} [Monad m] (join : Word → Word → m Word) (n : Nat)
    (copies there : Word) : m Word :=
  if n = 0 then pure there
  else do
    let there ← (if n % 2 = 1 then join there copies else pure there)
    let copies ← (if n / 2 = 0 then pure copies else join copies copies)
    joinCopies join (n / 2) copies there
termination_by n
decreasing_by exact Nat.div_lt_self (by omega) (by decide)

/-- The same if two words can always be put together. -/
def replicateBelow (n : Nat) (copies there : Word) : Word :=
  Id.run (joinCopies (fun high low => pure (high.append low)) n copies there)

/-- `n` copies of a word side by side. -/
def replicate (n : Nat) (w : Word) : Word :=
  replicateBelow n w (zero 0)

/-- One round, if there are any copies left. -/
theorem replicateBelow_round (n : Nat) (copies there : Word) :
    replicateBelow n copies there =
      if n = 0 then there
      else
        replicateBelow (n / 2) (if n / 2 = 0 then copies else copies.append copies)
          (if n % 2 = 1 then there.append copies else there) := by
  rw [replicateBelow, joinCopies]
  split
  · rfl
  · split <;> split <;> rfl

/-- Where nothing is broken off, the copies are put together as they are. The induction is on the number
of copies. -/
theorem joinCopies_pure {m : Type → Type} [Monad m] [LawfulMonad m] (n : Nat)
    (copies there : Word) :
    joinCopies (m := m) (fun high low => pure (high.append low)) n copies there =
      pure (replicateBelow n copies there) := by
  induction n using Nat.strongRecOn generalizing copies there with
  | ind n ih =>
    rw [joinCopies, replicateBelow_round]
    by_cases hn : n = 0
    · rw [if_pos hn, if_pos hn]
    · have hhalf : n / 2 < n := Nat.div_lt_self (Nat.pos_of_ne_zero hn) (by decide)
      rw [if_neg hn, if_neg hn, ← ih _ hhalf]
      split <;> split <;> simp only [pure_bind]

end Netlist.Word
