/-
  McuFirmware.Lib.CellRuns

  Runs of consecutive cells and the map that records them without boundaries.

  `Marks f l` says that `f` holds, in every cell of a run of `l`, the length of
  that run, and 0 in every other cell.  Adjacent runs of one length cannot be
  told apart in `f`; `Marks.add` and `Marks.remove` are the two edits under
  which the map nevertheless keeps describing the runs.
-/

import Mathlib.Data.List.Basic

namespace McuFirmware.Lib

/-- The cells `first`, …, `first + count - 1`. -/
structure CellRun where
  first : Nat
  count : Nat
deriving DecidableEq

/-- Cell `i` belongs to the run. -/
def CellRun.Contains (r : CellRun) (i : Nat) : Prop := r.first ≤ i ∧ i < r.first + r.count

instance (r : CellRun) (i : Nat) : Decidable (r.Contains i) := inferInstanceAs (Decidable (_ ∧ _))

/-- The runs have no cell in common. -/
def CellRun.Apart (r s : CellRun) : Prop := ∀ i, r.Contains i → ¬ s.Contains i

theorem CellRun.Apart.symm {r s : CellRun} (h : r.Apart s) : s.Apart r :=
  fun i hs hr => h i hr hs

theorem CellRun.contains_first {r : CellRun} (h : 0 < r.count) : r.Contains r.first :=
  ⟨Nat.le_refl _, Nat.lt_add_of_pos_right h⟩

/-- The map `f` records exactly the runs `l`. -/
structure Marks (f : Nat → Nat) (l : List CellRun) : Prop where
  apart : l.Pairwise CellRun.Apart
  count_pos : ∀ r ∈ l, 0 < r.count
  marked : ∀ r ∈ l, ∀ i, r.Contains i → f i = r.count
  unmarked : ∀ i, (∀ r ∈ l, ¬ r.Contains i) → f i = 0

section Marks

variable {f g : Nat → Nat} {l l' : List CellRun} {r : CellRun}

theorem marks_nil : Marks f [] ↔ ∀ i, f i = 0 := by
  constructor
  · intro h i
    exact h.unmarked i (fun _ hr => absurd hr List.not_mem_nil)
  · intro h
    exact ⟨.nil, fun _ hr => absurd hr List.not_mem_nil, fun _ hr => absurd hr List.not_mem_nil,
      fun i _ => h i⟩

/-- A cell is 0 exactly when no run contains it. -/
theorem Marks.eq_zero_iff (h : Marks f l) (i : Nat) : f i = 0 ↔ ∀ r ∈ l, ¬ r.Contains i := by
  constructor
  · intro hzero r hr hi
    have hpos := h.count_pos r hr
    have hmark := h.marked r hr i hi
    omega
  · exact h.unmarked i

theorem Marks.perm (h : Marks f l) (hperm : l.Perm l') : Marks f l' where
  apart := hperm.pairwise h.apart (fun h => h.symm)
  count_pos r hr := h.count_pos r (hperm.mem_iff.mpr hr)
  marked r hr := h.marked r (hperm.mem_iff.mpr hr)
  unmarked i hi := h.unmarked i (fun r hr => hi r (hperm.mem_iff.mp hr))

/-- **A new run** on cells that are all 0. -/
theorem Marks.add (h : Marks f l) (hcount : 0 < r.count) (hfree : ∀ i, r.Contains i → f i = 0)
    (hg : ∀ i, g i = if r.Contains i then r.count else f i) : Marks g (r :: l) where
  apart := by
    refine List.pairwise_cons.mpr ⟨?_, h.apart⟩
    intro s hs i hr
    exact (h.eq_zero_iff i).mp (hfree i hr) s hs
  count_pos := List.forall_mem_cons.mpr ⟨hcount, h.count_pos⟩
  marked := by
    refine List.forall_mem_cons.mpr ⟨fun i hi => ?_, fun s hs i hi => ?_⟩
    · rw [hg, if_pos hi]
    · have hout : ¬ r.Contains i := fun hr => (h.eq_zero_iff i).mp (hfree i hr) s hs hi
      rw [hg, if_neg hout, h.marked s hs i hi]
  unmarked i hi := by
    obtain ⟨hout, hrest⟩ := List.forall_mem_cons.mp hi
    rw [hg, if_neg hout, h.unmarked i hrest]

/-- **A run removed**: its cells, and no others, become 0. -/
theorem Marks.remove (h : Marks f (r :: l)) (hg : ∀ i, g i = if r.Contains i then 0 else f i) :
    Marks g l := by
  obtain ⟨hapart, hrest⟩ := List.pairwise_cons.mp h.apart
  refine ⟨hrest, fun s hs => h.count_pos s (List.mem_cons_of_mem r hs), ?_, ?_⟩
  · intro s hs i hi
    rw [hg, if_neg (fun hr => hapart s hs i hr hi), h.marked s (List.mem_cons_of_mem r hs) i hi]
  · intro i hi
    rw [hg]
    by_cases hr : r.Contains i
    · exact if_pos hr
    · rw [if_neg hr]
      exact h.unmarked i (List.forall_mem_cons.mpr ⟨hr, hi⟩)

end Marks

end McuFirmware.Lib
