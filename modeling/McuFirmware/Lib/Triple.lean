/-
  McuFirmware.Lib.Triple

  Pre- and postconditions for programs that read and change a state and may stop
  on the way (`EStateM`).  A triple has two postconditions: `Q` for the value and
  the state the program returns with, `E` for the state it stops in.  With
  `E := fun _ => False` a triple says that the program returns.

  The rules follow the program text: one per way of composing programs, and
  `Keeps` for the common case that a program only maintains an invariant.
-/

import Mathlib.Init

namespace McuFirmware.Lib

universe u

variable {ε σ α β : Type u} {P P' : σ → Prop} {Q Q' : α → σ → Prop} {E E' I : σ → Prop}
variable {x : EStateM ε σ α}

/-- The outcome of a program meets the postcondition it falls under. -/
def Meets (Q : α → σ → Prop) (E : σ → Prop) : EStateM.Result ε σ α → Prop
  | .ok a s => Q a s
  | .error _ s => E s

/-- From a state that meets `P`, `x` returns in `Q` or stops in `E`. -/
def Triple (P : σ → Prop) (x : EStateM ε σ α) (Q : α → σ → Prop) (E : σ → Prop) : Prop :=
  ∀ s, P s → Meets Q E (x.run s)

namespace Triple

theorem pure (a : α) : Triple (Q a) (Pure.pure a : EStateM ε σ α) Q E := by
  intro s h
  exact h

/-- A triple may be shown one start state at a time. -/
theorem of_eq (h : ∀ s, P s → Triple (fun t => t = s) x Q E) : Triple P x Q E := by
  intro s hs
  exact h s hs s rfl

/-- The precondition may be chosen by the start state. -/
theorem choose (h : ∀ s, P s → ∃ R : σ → Prop, R s ∧ Triple R x Q E) : Triple P x Q E := by
  intro s hs
  obtain ⟨R, hR, hx⟩ := h s hs
  exact hx s hR

theorem get : Triple P (MonadState.get : EStateM ε σ σ) (fun a s => P s ∧ a = s) E := by
  intro s h
  exact ⟨h, rfl⟩

theorem modify (f : σ → σ) :
    Triple P (MonadState.modifyGet fun s => (PUnit.unit, f s) : EStateM ε σ PUnit)
      (fun _ s => ∃ t, P t ∧ s = f t) E := by
  intro s h
  exact ⟨s, h, rfl⟩

/-- Nothing is asked of the program. -/
theorem trivial : Triple P x (fun _ _ => True) (fun _ => True) := by
  intro s _
  cases hout : x.run s with
  | ok a t => exact True.intro
  | error e t => exact True.intro

theorem stop (e : ε) : Triple E (throw e : EStateM ε σ α) Q E := by
  intro s h
  exact h

/-- The rule of composition. -/
theorem bind {R : β → σ → Prop} {f : α → EStateM ε σ β} (hx : Triple P x Q E)
    (hf : ∀ a, Triple (Q a) (f a) R E) : Triple P (x >>= f) R E := by
  intro s h
  have hs := hx s h
  change Meets R E (EStateM.bind x f s)
  unfold EStateM.bind
  unfold EStateM.run at hs
  cases hout : x s with
  | ok a t =>
      rw [hout] at hs
      exact hf a t hs
  | error e t =>
      rw [hout] at hs
      exact hs

/-- Composition behind a program whose value is known. -/
theorem bind_value {R : σ → Prop} {S : β → σ → Prop} {v : α} {f : α → EStateM ε σ β}
    (hx : Triple P x (fun a s => R s ∧ a = v) E) (hf : Triple R (f v) S E) :
    Triple P (x >>= f) S E := by
  apply bind hx
  rintro a s ⟨hs, rfl⟩
  exact hf s hs

/-- The rule of consequence. -/
theorem conseq (hx : Triple P' x Q' E) (hpre : ∀ s, P s → P' s)
    (hpost : ∀ a s, Q' a s → Q a s) : Triple P x Q E := by
  intro s h
  have hs := hx s (hpre s h)
  cases hout : x.run s with
  | ok a t =>
      rw [hout] at hs
      exact hpost a t hs
  | error e t =>
      rw [hout] at hs
      exact hs

/-- Two triples of one program. -/
theorem and (hx : Triple P x Q E) (hx' : Triple P' x Q' E') :
    Triple (fun s => P s ∧ P' s) x (fun a s => Q a s ∧ Q' a s) E := by
  rintro s ⟨h, h'⟩
  have hs := hx s h
  have hs' := hx' s h'
  cases hout : x.run s with
  | ok a t =>
      rw [hout] at hs hs'
      exact ⟨hs, hs'⟩
  | error e t =>
      rw [hout] at hs
      exact hs

/-- Where it does not matter how a program stops. -/
theorem ignore_stop (hx : Triple P x Q E) : Triple P x Q (fun _ => True) := by
  intro s h
  have hs := hx s h
  cases hout : x.run s with
  | ok a t =>
      rw [hout] at hs
      exact hs
  | error e t => exact True.intro

/-- Strengthening the precondition. -/
theorem pre (hx : Triple P' x Q E) (h : ∀ s, P s → P' s) : Triple P x Q E :=
  hx.conseq h fun _ _ hq => hq

/-- Weakening the postcondition. -/
theorem post (hx : Triple P x Q' E) (h : ∀ a s, Q' a s → Q a s) : Triple P x Q E :=
  hx.conseq (fun _ hp => hp) h

/-- A program that only returns. -/
theorem pure_of {a : α} (h : ∀ s, P s → Q a s) : Triple P (Pure.pure a : EStateM ε σ α) Q E :=
  (pure a).pre h

theorem cond {c : Prop} [Decidable c] {y : EStateM ε σ α} (hx : c → Triple P x Q E)
    (hy : ¬ c → Triple P y Q E) : Triple P (if c then x else y) Q E := by
  split
  · exact hx ‹c›
  · exact hy ‹¬ c›

/-- A program that cannot stop returns. -/
theorem returns (hx : Triple P x Q (fun _ => False)) {s : σ} (h : P s) :
    ∃ a t, x.run s = .ok a t ∧ Q a t := by
  have hs := hx s h
  cases hout : x.run s with
  | ok a t =>
      rw [hout] at hs
      exact ⟨a, t, rfl, hs⟩
  | error e t =>
      rw [hout] at hs
      exact hs.elim

end Triple

/-- `x` maintains `I`, whether it returns or stops. -/
def Keeps (I : σ → Prop) (x : EStateM ε σ α) : Prop :=
  Triple I x (fun _ => I) I

namespace Keeps

theorem pure (a : α) : Keeps I (Pure.pure a : EStateM ε σ α) :=
  Triple.pure (Q := fun _ => I) a

theorem stop (e : ε) : Keeps I (throw e : EStateM ε σ α) :=
  Triple.stop e

theorem bind {f : α → EStateM ε σ β} (hx : Keeps I x) (hf : ∀ a, Keeps I (f a)) :
    Keeps I (x >>= f) :=
  Triple.bind hx hf

theorem cond {c : Prop} [Decidable c] {y : EStateM ε σ α} (hx : Keeps I x) (hy : Keeps I y) :
    Keeps I (if c then x else y) :=
  Triple.cond (fun _ => hx) (fun _ => hy)

end Keeps

end McuFirmware.Lib
