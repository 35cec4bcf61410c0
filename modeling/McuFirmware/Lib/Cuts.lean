/-
  McuFirmware.Lib.Cuts

  Two ways of cutting one sequence into pieces.  The sequence is made of blocks
  of lengths `ns` and delivered in pieces of lengths `ms`; only positions
  matter.  `Respects gap` says that every block end is a piece end and that no
  piece ends `gap` elements into a block, and `respects_cons_iff` unfolds it
  piece by piece.
-/

import Mathlib.Data.List.Basic

namespace McuFirmware.Lib

/-- Where consecutive pieces of lengths `ns` end, the first one starting at `pos`. -/
def endsFrom (pos : Nat) : List Nat → List Nat
  | [] => []
  | n :: ns => (pos + n) :: endsFrom (pos + n) ns

/-- Where they start. -/
def startsFrom (pos : Nat) : List Nat → List Nat
  | [] => []
  | n :: ns => pos :: startsFrom (pos + n) ns

/-- The pieces `ms` from `pos` on end at every end of the blocks `ns` from
    `start` on, and nowhere `gap` behind the start of one. -/
def Respects (gap start : Nat) (ns : List Nat) (pos : Nat) (ms : List Nat) : Prop :=
  (∀ e ∈ endsFrom start ns, e ∈ endsFrom pos ms) ∧
    ∀ b ∈ startsFrom start ns, b + gap ∉ endsFrom pos ms

instance (gap start : Nat) (ns : List Nat) (pos : Nat) (ms : List Nat) :
    Decidable (Respects gap start ns pos ms) := inferInstanceAs (Decidable (_ ∧ _))

theorem lt_of_mem_endsFrom {pos e : Nat} {ns : List Nat} (hpos : ∀ n ∈ ns, 0 < n)
    (he : e ∈ endsFrom pos ns) : pos < e := by
  induction ns generalizing pos with
  | nil => exact absurd he List.not_mem_nil
  | cons n ns ih =>
      have hn : 0 < n := hpos n List.mem_cons_self
      rcases List.mem_cons.mp he with rfl | he
      · omega
      · have hlt := ih (fun m hm => hpos m (List.mem_cons_of_mem n hm)) he
        omega

theorem le_of_mem_startsFrom {pos b : Nat} {ns : List Nat} (hb : b ∈ startsFrom pos ns) :
    pos ≤ b := by
  induction ns generalizing pos with
  | nil => exact absurd hb List.not_mem_nil
  | cons n ns ih =>
      rcases List.mem_cons.mp hb with rfl | hb
      · exact Nat.le_refl b
      · have hle := ih hb
        omega

theorem respects_nil (gap start pos : Nat) (ms : List Nat) : Respects gap start [] pos ms :=
  ⟨fun _ he => absurd he List.not_mem_nil, fun _ hb => absurd hb List.not_mem_nil⟩

section Cons

variable {gap start pos n m : Nat} {ns ms : List Nat}

/-- **Piece by piece.**  Inside a block, the next piece ends at the block's end
    at the latest and not `gap` behind its start; what follows respects the
    rest. -/
theorem respects_cons_iff (hgap : 0 < gap) (hn : gap < n) (hlt : pos < start + n)
    (hns : ∀ k ∈ ns, 0 < k) (hms : ∀ k ∈ ms, 0 < k) :
    Respects gap start (n :: ns) pos (m :: ms) ↔
      pos + m ≤ start + n ∧ pos + m ≠ start + gap ∧
      (pos + m = start + n → Respects gap (start + n) ns (pos + m) ms) ∧
      (pos + m < start + n → Respects gap start (n :: ns) (pos + m) ms) := by
  constructor
  · rintro ⟨hends, hgaps⟩
    have hle : pos + m ≤ start + n := by
      rcases List.mem_cons.mp (hends (start + n) List.mem_cons_self) with heq | hmem
      · omega
      · exact Nat.le_of_lt (lt_of_mem_endsFrom hms hmem)
    have hoff {b : Nat} (hb : b ∈ startsFrom start (n :: ns)) : b + gap ∉ endsFrom (pos + m) ms :=
      fun hmem => hgaps b hb (List.mem_cons_of_mem _ hmem)
    refine ⟨hle, ?_, ?_, ?_⟩
    · intro heq
      exact hgaps start List.mem_cons_self (heq ▸ List.mem_cons_self)
    · intro heq
      refine ⟨?_, fun b hb => hoff (List.mem_cons_of_mem _ hb)⟩
      intro e he
      have hgt := lt_of_mem_endsFrom hns he
      rcases List.mem_cons.mp (hends e (List.mem_cons_of_mem _ he)) with rfl | hmem
      · omega
      · exact hmem
    · intro hless
      refine ⟨?_, fun b hb => hoff hb⟩
      intro e he
      rcases List.mem_cons.mp (hends e he) with rfl | hmem
      · -- an end of a block lies behind the piece
        rcases List.mem_cons.mp he with heq | he
        · omega
        · have hgt := lt_of_mem_endsFrom hns he
          omega
      · exact hmem
  · rintro ⟨hle, hne, heq, hless⟩
    rcases Nat.lt_or_eq_of_le hle with hin | hend
    · obtain ⟨hends, hgaps⟩ := hless hin
      refine ⟨fun e he => List.mem_cons_of_mem _ (hends e he), ?_⟩
      intro b hb hmem
      rcases List.mem_cons.mp hmem with hhere | hmem
      · rcases List.mem_cons.mp hb with rfl | hb
        · omega
        · have hge := le_of_mem_startsFrom hb
          omega
      · exact hgaps b hb hmem
    · obtain ⟨hends, hgaps⟩ := heq hend
      constructor
      · intro e he
        rcases List.mem_cons.mp he with rfl | he
        · exact hend ▸ List.mem_cons_self
        · exact List.mem_cons_of_mem _ (hends e he)
      · intro b hb hmem
        rcases List.mem_cons.mp hb with rfl | hb
        · rcases List.mem_cons.mp hmem with hhere | hmem
          · omega
          · have hgt := lt_of_mem_endsFrom hms hmem
            omega
        · rcases List.mem_cons.mp hmem with hhere | hmem
          · have hge := le_of_mem_startsFrom hb
            omega
          · exact hgaps b hb hmem

end Cons

end McuFirmware.Lib
