/-
  McuFirmware.Lib.Run

  Runs of a total step function: the state a list of inputs leads to, the
  predicate that every step of a run meets a condition in the state it is
  taken from, and the induction rules that turn a step lemma into a statement
  about whole runs.

  Nothing here mentions a particular machine; the callback models instantiate
  `step` with their own transition function.
-/

import Mathlib.Data.List.Basic

namespace McuFirmware.Lib

variable {σ ι : Type _} {step : σ → ι → σ}

/-- The state reached from `s` by the inputs `is`, taken from left to right. -/
def run (step : σ → ι → σ) (s : σ) (is : List ι) : σ :=
  is.foldl step s

@[simp] theorem run_nil (s : σ) : run step s [] = s := rfl

@[simp] theorem run_cons (s : σ) (i : ι) (is : List ι) :
    run step s (i :: is) = run step (step s i) is := rfl

theorem run_append (s : σ) (is js : List ι) :
    run step s (is ++ js) = run step (run step s is) js :=
  List.foldl_append

theorem run_concat (s : σ) (is : List ι) (i : ι) :
    run step s (is ++ [i]) = step (run step s is) i := by
  rw [run_append]
  rfl

/-- Every step of the run meets `C`, read in the state the step is taken from. -/
def StepsMeet (step : σ → ι → σ) (C : σ → ι → Prop) : σ → List ι → Prop
  | _, [] => True
  | s, i :: is => C s i ∧ StepsMeet step C (step s i) is

instance decidableStepsMeet {C : σ → ι → Prop} [∀ s i, Decidable (C s i)] :
    (s : σ) → (is : List ι) → Decidable (StepsMeet step C s is)
  | _, [] => isTrue trivial
  | s, i :: is =>
      have := decidableStepsMeet (C := C) (step s i) is
      inferInstanceAs (Decidable (C s i ∧ StepsMeet step C (step s i) is))

theorem stepsMeet_append {C : σ → ι → Prop} (s : σ) (is js : List ι) :
    StepsMeet step C s (is ++ js) ↔
      StepsMeet step C s is ∧ StepsMeet step C (run step s is) js := by
  induction is generalizing s with
  | nil => simp [StepsMeet]
  | cons i is ih => simp only [List.cons_append, StepsMeet, ih, run_cons, and_assoc]

theorem stepsMeet_concat {C : σ → ι → Prop} (s : σ) (is : List ι) (i : ι) :
    StepsMeet step C s (is ++ [i]) ↔ StepsMeet step C s is ∧ C (run step s is) i := by
  rw [stepsMeet_append]
  simp [StepsMeet]

theorem stepsMeet_of_forall {C : σ → ι → Prop} {is : List ι} (h : ∀ i ∈ is, ∀ s, C s i) (s : σ) :
    StepsMeet step C s is := by
  induction is generalizing s with
  | nil => trivial
  | cons i is ih =>
      exact ⟨h i List.mem_cons_self s, ih (fun j hj => h j (List.mem_cons_of_mem i hj)) _⟩

/-- **Invariant rule.**  What a step meeting `C` preserves, a run whose steps
    all meet `C` preserves. -/
theorem run_inv {C : σ → ι → Prop} {I : σ → Prop}
    (hstep : ∀ s i, I s → C s i → I (step s i))
    {s : σ} {is : List ι} (h0 : I s) (hmeet : StepsMeet step C s is) :
    I (run step s is) := by
  induction is generalizing s with
  | nil => exact h0
  | cons i is ih => exact ih (hstep s i h0 hmeet.1) hmeet.2

/-- **Simulation rule.**  Two machines stay related if each input that meets `C`
    keeps them so. -/
theorem run_related {τ : Type _} {step' : τ → ι → τ} {R : σ → τ → Prop} {C : ι → Prop}
    (hstep : ∀ s t i, R s t → C i → R (step s i) (step' t i)) {s : σ} {t : τ} {is : List ι}
    (h0 : R s t) (hC : ∀ i ∈ is, C i) : R (run step s is) (run step' t is) := by
  induction is generalizing s t with
  | nil => exact h0
  | cons i is ih =>
      exact ih (hstep s t i h0 (hC i List.mem_cons_self)) fun j hj =>
        hC j (List.mem_cons_of_mem i hj)

/-- What the steps meet under an invariant that they keep. -/
theorem stepsMeet_of_inv {C D : σ → ι → Prop} {I : σ → Prop}
    (hstep : ∀ s i, I s → C s i → I (step s i)) (hmeet : ∀ s i, I s → C s i → D s i)
    {s : σ} {is : List ι} (h0 : I s) (h : StepsMeet step C s is) : StepsMeet step D s is := by
  induction is generalizing s with
  | nil => trivial
  | cons i is ih => exact ⟨hmeet s i h0 h.1, ih (hstep s i h0 h.1) h.2⟩

theorem StepsMeet.and {C D : σ → ι → Prop} {s : σ} {is : List ι} (hC : StepsMeet step C s is)
    (hD : StepsMeet step D s is) : StepsMeet step (fun s i => C s i ∧ D s i) s is := by
  induction is generalizing s with
  | nil => trivial
  | cons i is ih => exact ⟨⟨hC.1, hD.1⟩, ih hC.2 hD.2⟩

/-- Two step conditions that agree wherever an invariant holds admit the same
    runs. -/
theorem stepsMeet_congr {C D : σ → ι → Prop} {I : σ → Prop} (hstep : ∀ s i, I s → I (step s i))
    (hiff : ∀ s i, I s → (C s i ↔ D s i)) {s : σ} {is : List ι} (h0 : I s) :
    StepsMeet step C s is ↔ StepsMeet step D s is := by
  induction is generalizing s with
  | nil => exact Iff.rfl
  | cons i is ih => exact and_congr (hiff s i h0) (ih (hstep s i h0))

/-- A property holds in every state of a run iff every step meets the condition
    under which one step keeps it. -/
theorem always_iff_stepsMeet {C : σ → ι → Prop} {P : σ → Prop}
    (hiff : ∀ s i, P s → (P (step s i) ↔ C s i)) {s : σ} {is : List ι} (h0 : P s) :
    (∀ pre post, is = pre ++ post → P (run step s pre)) ↔ StepsMeet step C s is := by
  induction is generalizing s with
  | nil =>
      refine iff_of_true ?_ trivial
      intro pre post h
      rw [List.nil_eq, List.append_eq_nil_iff] at h
      rw [h.1]
      exact h0
  | cons i is ih =>
      constructor
      · intro hall
        have hstep : P (step s i) := hall [i] is rfl
        refine ⟨(hiff s i h0).mp hstep, (ih hstep).mp ?_⟩
        intro pre post h
        exact hall (i :: pre) post (by rw [h, List.cons_append])
      · rintro ⟨hi, hmeet⟩ pre post h
        cases pre with
        | nil => exact h0
        | cons j pre =>
            obtain ⟨rfl, hrest⟩ := List.cons.inj h
            exact (ih ((hiff s i h0).mpr hi)).mpr hmeet pre post hrest

/-- The same rule where one step keeps the property only under an invariant that
    every run has. -/
theorem always_iff_stepsMeet_of_inv {C : σ → ι → Prop} {I P : σ → Prop}
    (hinv : ∀ s i, I s → I (step s i)) (hiff : ∀ s i, I s → P s → (P (step s i) ↔ C s i))
    {s : σ} {is : List ι} (hI : I s) (hP : P s) :
    (∀ pre post, is = pre ++ post → P (run step s pre)) ↔ StepsMeet step C s is := by
  have hboth : ∀ s i, I s ∧ P s → (I (step s i) ∧ P (step s i) ↔ C s i) := by
    rintro s i ⟨hI, hP⟩
    rw [← hiff s i hI hP]
    exact and_iff_right (hinv s i hI)
  have hrun (pre : List ι) : I (run step s pre) :=
    run_inv (C := fun _ _ => True) (fun s i h _ => hinv s i h) hI
      (stepsMeet_of_forall (fun _ _ _ => trivial) s)
  rw [← always_iff_stepsMeet hboth ⟨hI, hP⟩]
  constructor
  · intro hall pre post h
    exact ⟨hrun pre, hall pre post h⟩
  · intro hall pre post h
    exact (hall pre post h).2

end McuFirmware.Lib
