/-
  McuFirmware.Lib.Groups

  Chunks collected up to a boundary.

  A collector appends chunk after chunk and starts over when what it has
  collected satisfies `ends`.  `groups` is the sequence of finished groups and
  the unfinished rest; `Fits cap` bounds them, and `fits_cons` turns that bound
  on the whole sequence into one bound per chunk.
-/

import Mathlib.Data.List.Basic

namespace McuFirmware.Lib

variable {α : Type _} (ends : List α → Prop) [DecidablePred ends]

/-- The finished groups and the rest, when `acc` has been collected before the
    chunks. -/
def groups (acc : List α) : List (List α) → List (List α) × List α
  | [] => ([], acc)
  | c :: cs =>
      if ends (acc ++ c) then ((acc ++ c) :: (groups [] cs).1, (groups [] cs).2)
      else groups (acc ++ c) cs

/-- Every finished group has at most `cap` elements, and the rest fewer. -/
def Fits (cap : Nat) (acc : List α) (cs : List (List α)) : Prop :=
  (∀ g ∈ (groups ends acc cs).1, g.length ≤ cap) ∧ (groups ends acc cs).2.length < cap

instance (cap : Nat) (acc : List α) (cs : List (List α)) : Decidable (Fits ends cap acc cs) :=
  inferInstanceAs (Decidable (_ ∧ _))

variable {ends} {cap : Nat} {acc c : List α} {cs : List (List α)}

theorem fits_nil : Fits ends cap acc [] ↔ acc.length < cap :=
  and_iff_right (fun _ hg => absurd hg List.not_mem_nil)

theorem fits_cons_ends (h : ends (acc ++ c)) :
    Fits ends cap acc (c :: cs) ↔ (acc ++ c).length ≤ cap ∧ Fits ends cap [] cs := by
  rw [Fits, groups, if_pos h, List.forall_mem_cons, and_assoc]
  rfl

theorem fits_cons_not_ends (h : ¬ ends (acc ++ c)) :
    Fits ends cap acc (c :: cs) ↔ Fits ends cap (acc ++ c) cs := by
  rw [Fits, groups, if_neg h]
  rfl

/-- What has been collected is part of a group or of the rest. -/
theorem Fits.length_le (h : Fits ends cap acc cs) : acc.length ≤ cap := by
  induction cs generalizing acc with
  | nil => exact Nat.le_of_lt (fits_nil.mp h)
  | cons c cs ih =>
      have hle : (acc ++ c).length ≤ cap := by
        by_cases hends : ends (acc ++ c)
        · exact ((fits_cons_ends hends).mp h).1
        · exact ih ((fits_cons_not_ends hends).mp h)
      rw [List.length_append] at hle
      omega

/-- **One chunk.**  The groups fit iff this chunk fits behind what has been
    collected and the later ones fit behind what is kept. -/
theorem fits_cons :
    Fits ends cap acc (c :: cs) ↔
      acc.length + c.length ≤ cap ∧ Fits ends cap (if ends (acc ++ c) then [] else acc ++ c) cs := by
  rw [← List.length_append]
  by_cases hends : ends (acc ++ c)
  · rw [fits_cons_ends hends, if_pos hends]
  · rw [fits_cons_not_ends hends, if_neg hends]
    exact (and_iff_right_of_imp Fits.length_le).symm

end McuFirmware.Lib
