/-
  McuFirmware.Lib.Ring

  Records one behind the other in a memory that is walked by a successor function
  on addresses, as in a ring buffer whose last cell is followed by its first.

  `readFrom` and `writeFrom` visit the cells from an address on.  As long as the
  walk does not come back (`DistinctFor`), a write behind the cells in use leaves
  them alone, and a queue of records (`Queued`) grows at its end and shrinks at
  its front.
-/

import Mathlib.Logic.Function.Iterate

namespace McuFirmware.Lib

variable {α ι : Type _} {next : Nat → Nat} {mem : Nat → α}

/-- The `n` cells from `p` on. -/
def readFrom (next : Nat → Nat) (mem : Nat → α) : Nat → Nat → List α
  | _, 0 => []
  | p, n + 1 => mem p :: readFrom next mem (next p) n

/-- The memory after the cells from `p` on are written. -/
def writeFrom (next : Nat → Nat) (mem : Nat → α) : Nat → List α → Nat → α
  | _, [] => mem
  | p, a :: as => writeFrom next (Function.update mem p a) (next p) as

/-- The first `n` cells from `p` on are different cells. -/
def DistinctFor (next : Nat → Nat) (p n : Nat) : Prop :=
  ∀ i < n, ∀ j < n, next^[i] p = next^[j] p → i = j

theorem DistinctFor.mono {p m n : Nat} (h : DistinctFor next p n) (hle : m ≤ n) :
    DistinctFor next p m :=
  fun i hi j hj => h i (by omega) j (by omega)

/-- The cells behind the first `k` are different ones too. -/
theorem DistinctFor.drop {p n : Nat} (k : Nat) (h : DistinctFor next p (k + n)) :
    DistinctFor next (next^[k] p) n := by
  intro i hi j hj heq
  simp only [← Function.iterate_add_apply] at heq
  have := h (i + k) (by omega) (j + k) (by omega) heq
  omega

-- ============================================================================
-- Reading
-- ============================================================================

@[simp] theorem length_readFrom (p n : Nat) : (readFrom next mem p n).length = n := by
  induction n generalizing p with
  | zero => rfl
  | succ n ih => simp [readFrom, ih]

theorem readFrom_add (p m n : Nat) :
    readFrom next mem p (m + n) =
      readFrom next mem p m ++ readFrom next mem (next^[m] p) n := by
  induction m generalizing p with
  | zero => simp [readFrom]
  | succ m ih =>
      rw [Nat.add_right_comm]
      simp only [readFrom, ih, List.cons_append, Function.iterate_succ_apply]

/-- A shorter read from the same address. -/
theorem take_readFrom (p : Nat) {m n : Nat} (h : m ≤ n) :
    (readFrom next mem p n).take m = readFrom next mem p m := by
  obtain ⟨k, rfl⟩ := Nat.exists_eq_add_of_le h
  rw [readFrom_add, List.take_left' (length_readFrom p m)]

theorem readFrom_congr {mem' : Nat → α} {p n : Nat}
    (h : ∀ i < n, mem (next^[i] p) = mem' (next^[i] p)) :
    readFrom next mem p n = readFrom next mem' p n := by
  induction n generalizing p with
  | zero => rfl
  | succ n ih =>
      have htail := ih (p := next p) fun i hi => h (i + 1) (by omega)
      have hhead : mem p = mem' p := h 0 (by omega)
      simp only [readFrom, hhead, htail]

-- ============================================================================
-- Writing
-- ============================================================================

theorem writeFrom_of_ne {p q : Nat} {as : List α} (h : ∀ i < as.length, q ≠ next^[i] p) :
    writeFrom next mem p as q = mem q := by
  induction as generalizing mem p with
  | nil => rfl
  | cons a as ih =>
      have htail : ∀ i < as.length, q ≠ next^[i] (next p) := fun i hi =>
        h (i + 1) (by rw [List.length_cons]; omega)
      have hhead : q ≠ p := h 0 (by simp)
      simp only [writeFrom]
      rw [ih htail, Function.update_of_ne hhead]

/-- What was written is read back. -/
theorem readFrom_writeFrom {p : Nat} {as : List α} (h : DistinctFor next p as.length) :
    readFrom next (writeFrom next mem p as) p as.length = as := by
  induction as generalizing mem p with
  | nil => rfl
  | cons a as ih =>
      have hdrop : DistinctFor next (next p) as.length :=
        DistinctFor.drop 1 (h.mono (by rw [List.length_cons]; omega))
      have hhead : writeFrom next (Function.update mem p a) (next p) as p = a := by
        rw [writeFrom_of_ne, Function.update_self]
        intro i hi heq
        have := h 0 (by simp) (i + 1) (by rw [List.length_cons]; omega) heq
        omega
      simp only [List.length_cons, readFrom, writeFrom, hhead, ih hdrop]

/-- A write behind the first `m` cells leaves them alone. -/
theorem readFrom_writeFrom_behind {p k m : Nat} {as : List α} (hk : k ≤ m)
    (h : DistinctFor next p (m + as.length)) :
    readFrom next (writeFrom next mem (next^[m] p) as) p k = readFrom next mem p k := by
  apply readFrom_congr
  intro i hi
  apply writeFrom_of_ne
  intro j hj heq
  rw [← Function.iterate_add_apply] at heq
  have := h i (by omega) (j + m) (by omega) heq
  omega

-- ============================================================================
-- A queue of records
-- ============================================================================

section Queue

variable {cells : Nat → ι → List α} {size : ι → Nat}

/-- The cells taken by the records. -/
def totalSize (size : ι → Nat) : List ι → Nat
  | [] => 0
  | r :: rs => size r + totalSize size rs

@[simp] theorem totalSize_nil : totalSize size [] = 0 := rfl

@[simp] theorem totalSize_cons (r : ι) (rs : List ι) :
    totalSize size (r :: rs) = size r + totalSize size rs := rfl

@[simp] theorem totalSize_append (rs ss : List ι) :
    totalSize size (rs ++ ss) = totalSize size rs + totalSize size ss := by
  induction rs with
  | nil => simp
  | cons r rs ih => simp [ih, Nat.add_assoc]

/-- The records lie one behind the other from `p` on.  What a record looks like
    may depend on where it lies. -/
def Queued (next : Nat → Nat) (cells : Nat → ι → List α) (size : ι → Nat) (mem : Nat → α) :
    Nat → List ι → Prop
  | _, [] => True
  | p, r :: rs =>
      readFrom next mem p (cells p r).length = cells p r ∧
        Queued next cells size mem (next^[size r] p) rs

/-- A record behind the queue extends it. -/
theorem Queued.push {p : Nat} {rs : List ι} (r : ι) (hsize : ∀ p r, (cells p r).length ≤ size r)
    (h : Queued next cells size mem p rs)
    (hroom : DistinctFor next p (totalSize size rs + size r)) :
    Queued next cells size
      (writeFrom next mem (next^[totalSize size rs] p) (cells (next^[totalSize size rs] p) r))
      p (rs ++ [r]) := by
  induction rs generalizing p with
  | nil =>
      simp only [totalSize_nil, Nat.zero_add, Function.iterate_zero_apply] at hroom ⊢
      exact ⟨readFrom_writeFrom (hroom.mono (hsize p r)), trivial⟩
  | cons s rs ih =>
      have hs := hsize p s
      have hr := hsize (next^[totalSize size (s :: rs)] p) r
      rw [totalSize_cons] at hr
      rw [totalSize_cons, Nat.add_assoc] at hroom
      rw [totalSize_cons]
      constructor
      · -- the cells of `s` lie in front of those that are written
        exact (readFrom_writeFrom_behind (by omega) (hroom.mono (by omega))).trans h.1
      · have htail := ih h.2 hroom.drop
        rw [← Function.iterate_add_apply, Nat.add_comm _ (size s)] at htail
        exact htail

end Queue

end McuFirmware.Lib
