/-
  McuFirmware.Lib.Trace

  Statements about the order of events in a trace: `EachMeets P l` says that
  every event of `l` meets `P` relative to the events that came before it.
  A machine that only appends to its trace keeps such a statement when each
  appended block meets it, which is the rule the step lemmas use.
-/

import McuFirmware.Lib.Run

namespace McuFirmware.Lib

variable {ε : Type _} {P : List ε → ε → Prop}

/-- Every event meets `P`, given the events before it. -/
def EachMeets (P : List ε → ε → Prop) (l : List ε) : Prop :=
  ∀ pre ev post, l = pre ++ ev :: post → P pre ev

@[simp] theorem eachMeets_nil : EachMeets P [] := by
  intro pre ev post h
  simp at h

@[simp] theorem eachMeets_cons (a : ε) (l : List ε) :
    EachMeets P (a :: l) ↔ P [] a ∧ EachMeets (fun pre ev => P (a :: pre) ev) l := by
  constructor
  · intro h
    refine ⟨h [] a l rfl, ?_⟩
    intro pre ev post heq
    exact h (a :: pre) ev post (by rw [heq, List.cons_append])
  · rintro ⟨hhead, htail⟩ pre ev post heq
    cases pre with
    | nil =>
        obtain ⟨rfl, rfl⟩ := List.cons.inj heq
        exact hhead
    | cons b pre =>
        obtain ⟨rfl, hl⟩ := List.cons.inj heq
        exact htail pre ev post hl

/-- A longer trace: the old part is untouched, the new events see all of it. -/
theorem eachMeets_append (l es : List ε) :
    EachMeets P (l ++ es) ↔ EachMeets P l ∧ EachMeets (fun pre ev => P (l ++ pre) ev) es := by
  induction l generalizing P with
  | nil => simp
  | cons a l ih => simp [ih, and_assoc]

theorem eachMeets_of_forall {l : List ε} (h : ∀ ev ∈ l, ∀ pre, P pre ev) : EachMeets P l := by
  intro pre ev post heq
  exact h ev (by simp [heq]) pre

end McuFirmware.Lib
