/-
  McuFirmware.Lib.Links

  Chains of cells that are linked by a function: each cell leads to the next one, and
  the last one to a mark that ends the chain.

  A chain is given by the list of its cells, so that stretching and cutting it are
  operations on lists; the lemmas say which links have to change for that.
-/

import Mathlib.Data.List.Basic
import Mathlib.Logic.Function.Basic

namespace McuFirmware.Lib

variable {α : Type _} {next next' : α → α} {End : α → Prop} {c d : α} {cs xs ys : List α}

/-- Each cell of the list leads to the one behind it, the last one to an end mark. -/
def Chained (next : α → α) (End : α → Prop) : List α → Prop
  | [] => True
  | [c] => End (next c)
  | c :: d :: cs => next c = d ∧ Chained next End (d :: cs)

namespace Chained

/-- A chain rests on the links of its own cells. -/
theorem congr (h : Chained next End cs) (heq : ∀ c ∈ cs, next' c = next c) :
    Chained next' End cs := by
  induction cs with
  | nil => trivial
  | cons c cs ih =>
      have hc := heq c List.mem_cons_self
      have hrest := fun d hd => heq d (List.mem_cons_of_mem c hd)
      cases cs with
      | nil => exact (congrArg End hc).mpr h
      | cons d cs => exact ⟨hc.trans h.1, ih h.2 hrest⟩

theorem tail (h : Chained next End (c :: cs)) : Chained next End cs := by
  cases cs with
  | nil => trivial
  | cons d cs => exact h.2

theorem append_right (h : Chained next End (xs ++ ys)) : Chained next End ys := by
  induction xs with
  | nil => exact h
  | cons x xs ih => exact ih h.tail

theorem step {j : Nat} (h : Chained next End cs) (hc : cs[j]? = some c) (hd : cs[j + 1]? = some d) :
    next c = d := by
  induction cs generalizing j with
  | nil => cases hc
  | cons x xs ih =>
      cases j with
      | zero =>
          cases xs with
          | nil => cases hd
          | cons y ys =>
              cases hc
              cases hd
              exact h.1
      | succ j => exact ih h.tail hc hd

theorem last {j : Nat} (h : Chained next End cs) (hc : cs[j]? = some c) (hj : j + 1 = cs.length) :
    End (next c) := by
  induction cs generalizing j with
  | nil => cases hc
  | cons x xs ih =>
      cases j with
      | zero =>
          have hnil : xs = [] := List.length_eq_zero_iff.mp (by simpa using hj.symm)
          subst hnil
          cases hc
          exact h
      | succ j => exact ih h.tail hc (by simpa using hj)

/-- The chain cut behind `c`, which leads to an end mark now. -/
theorem cut (h : Chained next End (xs ++ c :: ys)) (hxs : ∀ x ∈ xs, next' x = next x)
    (hc : End (next' c)) : Chained next' End (xs ++ [c]) := by
  induction xs with
  | nil => exact hc
  | cons x xs ih =>
      have hrest := ih h.tail fun y hy => hxs y (List.mem_cons_of_mem x hy)
      have hx := hxs x List.mem_cons_self
      cases xs with
      | nil => exact ⟨hx.trans h.1, hrest⟩
      | cons y ys => exact ⟨hx.trans h.1, hrest⟩

/-- The chain stretched by `d`, to which its last cell leads now. -/
theorem stretch (h : Chained next End (xs ++ [c])) (hxs : ∀ x ∈ xs, next' x = next x)
    (hc : next' c = d) (hd : End (next' d)) : Chained next' End (xs ++ [c] ++ [d]) := by
  induction xs with
  | nil => exact ⟨hc, hd⟩
  | cons x xs ih =>
      have hrest := ih h.tail fun y hy => hxs y (List.mem_cons_of_mem x hy)
      have hx := hxs x List.mem_cons_self
      cases xs with
      | nil => exact ⟨hx.trans h.1, hrest⟩
      | cons y ys => exact ⟨hx.trans h.1, hrest⟩

end Chained

end McuFirmware.Lib
