/-
  McuFirmware.Lib.Deltas

  Delta lists: a queue of items in the order of their times, where each entry
  holds the time since the entry before it.  `dues` turns the list into absolute
  times; the lemmas say what an operation on the differences does to these.
-/

import Mathlib.Data.List.Basic

namespace McuFirmware.Lib

/-- An entry of a delta list. -/
structure Delta (α : Type _) where
  item : α
  time : Nat

section

variable {α : Type _} {base d m : Nat} {a : α} {e : α × Nat} {t : Delta α} {ts xs ys : List (Delta α)}

/-- The items with their absolute times, counted from `base`. -/
def dues (base : Nat) : List (Delta α) → List (α × Nat)
  | [] => []
  | t :: ts => (t.item, base + t.time) :: dues (base + t.time) ts

/-- The time of the last entry, counted from the base. -/
def span : List (Delta α) → Nat
  | [] => 0
  | t :: ts => t.time + span ts

theorem dues_append (base : Nat) (xs ys : List (Delta α)) :
    dues base (xs ++ ys) = dues base xs ++ dues (base + span xs) ys := by
  induction xs generalizing base with
  | nil => rfl
  | cons t xs ih => rw [List.cons_append, dues, dues, ih, span, Nat.add_assoc, List.cons_append]

/-- Counted from a later base. -/
theorem dues_add (base d : Nat) (ts : List (Delta α)) :
    dues (base + d) ts = (dues base ts).map fun e => (e.1, e.2 + d) := by
  induction ts generalizing base with
  | nil => rfl
  | cons t ts ih => rw [dues, dues, List.map_cons, ← ih, Nat.add_right_comm]

theorem map_fst_dues (base : Nat) (ts : List (Delta α)) :
    (dues base ts).map Prod.fst = ts.map Delta.item := by
  induction ts generalizing base with
  | nil => rfl
  | cons t ts ih => rw [dues, List.map_cons, ih, List.map_cons]

theorem bounds_of_mem_dues (h : e ∈ dues base ts) : base ≤ e.2 ∧ e.2 ≤ base + span ts := by
  induction ts generalizing base with
  | nil => exact absurd h List.not_mem_nil
  | cons t ts ih =>
      rw [dues] at h
      rw [span]
      rcases List.mem_cons.mp h with rfl | hin
      · exact ⟨Nat.le_add_right _ _, by dsimp only; omega⟩
      · have hle := ih hin
        omega

theorem exists_mem_dues (base : Nat) (h : t ∈ ts) : ∃ due, (t.item, due) ∈ dues base ts := by
  have hin : t.item ∈ (dues base ts).map Prod.fst := by
    rw [map_fst_dues]
    exact List.mem_map_of_mem h
  obtain ⟨e, he, heq⟩ := List.mem_map.mp hin
  exact ⟨e.2, heq ▸ he⟩

/-- An entry put in front, where the old first one is only corrected by `m`:
    everything else moves back by `d`. -/
theorem dues_front (base d : Nat) (a : α) (ts : List (Delta α)) (h : m ≤ t.time) :
    dues base (⟨a, m + d⟩ :: { t with time := t.time - m } :: ts) =
      (a, base + (m + d)) :: (dues base (t :: ts)).map fun e => (e.1, e.2 + d) := by
  have hsum : base + (m + d) + (t.time - m) = base + t.time + d := by omega
  simp only [dues, List.map_cons, hsum, dues_add]

/-- The time of a removed entry goes to the one behind it. -/
theorem dues_merge (base : Nat) (t n : Delta α) (ts : List (Delta α)) :
    dues base ({ n with time := n.time + t.time } :: ts) = (dues base (t :: n :: ts)).tail := by
  have hsum : base + (n.time + t.time) = base + t.time + n.time := by omega
  simp only [dues, hsum, List.tail_cons]

end

end McuFirmware.Lib
