/-
  McuFirmware.Lib.Family

  A family of components of one kind: an input either asks for a new component
  or goes to the component with a given index.  The two rules lift what one
  component does to the whole family, over whole runs: an invariant that every
  new component has and every admitted step keeps, and its sharp form, where a
  step that is not admitted leaves a mark that no later step removes.
-/

import Mathlib.Data.List.Induction
import McuFirmware.Lib.Run

namespace McuFirmware.Lib

variable {σ ι ρ : Type _}

/-- An input of the family. -/
inductive FamilyInput (ρ ι : Type _) where
  | spawn (r : ρ)
  | deliver (k : Nat) (i : ι)

/-- A request may add a component; an input to a missing index does nothing. -/
def familyStep (spawn : ρ → Option σ) (step : σ → ι → σ) (l : List σ) :
    FamilyInput ρ ι → List σ
  | .spawn r => l ++ (spawn r).toList
  | .deliver k i => l.modify k (step · i)

/-- The component an input goes to meets `C`. -/
def AtComponent (C : σ → ι → Prop) (l : List σ) : FamilyInput ρ ι → Prop
  | .spawn _ => True
  | .deliver k i => ∀ c, l[k]? = some c → C c i

theorem getElem?_modify_of_some {l : List σ} {k j : Nat} {f : σ → σ} {c : σ}
    (h : l[j]? = some c) : (l.modify k f)[j]? = some (if k = j then f c else c) := by
  rw [List.getElem?_modify, h]
  rfl

/-- Members of a list with one element replaced. -/
theorem mem_modify {l : List σ} {k : Nat} {f : σ → σ} {c : σ} (h : c ∈ l.modify k f) :
    c ∈ l ∨ ∃ c₀, l[k]? = some c₀ ∧ c = f c₀ := by
  obtain ⟨j, hj⟩ := List.mem_iff_getElem?.mp h
  rw [List.getElem?_modify, Option.map_eq_map, Option.map_eq_some_iff] at hj
  obtain ⟨c₀, hc₀, hc⟩ := hj
  by_cases hkj : k = j
  · rw [if_pos hkj] at hc
    subst hkj
    exact .inr ⟨c₀, hc₀, hc.symm⟩
  · rw [if_neg hkj] at hc
    subst hc
    exact .inl (List.mem_of_getElem? hc₀)

variable {spawn : ρ → Option σ} {step : σ → ι → σ}

section Invariant

variable {C : σ → ι → Prop} {I : σ → Prop}

theorem atComponent_of_forall (h : ∀ c i, C c i) (l : List σ) (x : FamilyInput ρ ι) :
    AtComponent C l x := by
  cases x with
  | spawn r => trivial
  | deliver k i => exact fun c _ => h c i

/-- **Step rule.** -/
theorem familyStep_inv (hspawn : ∀ r c, spawn r = some c → I c)
    (hstep : ∀ c i, I c → C c i → I (step c i)) {l : List σ} {x : FamilyInput ρ ι}
    (hl : ∀ c ∈ l, I c) (hx : AtComponent C l x) : ∀ c ∈ familyStep spawn step l x, I c := by
  intro c hc
  cases x with
  | spawn r =>
      rcases List.mem_append.mp hc with hc | hc
      · exact hl c hc
      · exact hspawn r c (Option.mem_toList.mp hc)
  | deliver k i =>
      rcases mem_modify hc with hc | ⟨c₀, hc₀, rfl⟩
      · exact hl c hc
      · exact hstep c₀ i (hl c₀ (List.mem_of_getElem? hc₀)) (hx c₀ hc₀)

/-- **Run rule.** -/
theorem family_run_inv (hspawn : ∀ r c, spawn r = some c → I c)
    (hstep : ∀ c i, I c → C c i → I (step c i)) {l : List σ} {xs : List (FamilyInput ρ ι)}
    (hl : ∀ c ∈ l, I c) (hxs : StepsMeet (familyStep spawn step) (AtComponent C) l xs) :
    ∀ c ∈ run (familyStep spawn step) l xs, I c :=
  run_inv (I := fun l => ∀ c ∈ l, I c)
    (fun _ _ hl hx => familyStep_inv hspawn hstep hl hx) hl hxs

/-- A mark that no step removes stays in the family. -/
theorem family_run_mark {B : σ → Prop} (hkeep : ∀ c i, B c → B (step c i)) {l : List σ}
    (hl : ∃ c ∈ l, B c) (xs : List (FamilyInput ρ ι)) :
    ∃ c ∈ run (familyStep spawn step) l xs, B c := by
  induction xs generalizing l with
  | nil => exact hl
  | cons x xs ih =>
      apply ih
      obtain ⟨c, hc, hB⟩ := hl
      cases x with
      | spawn r => exact ⟨c, List.mem_append_left _ hc, hB⟩
      | deliver k i =>
          obtain ⟨j, hj⟩ := List.mem_iff_getElem?.mp hc
          refine ⟨_, List.mem_of_getElem? (getElem?_modify_of_some hj), ?_⟩
          split
          · exact hkeep c i hB
          · exact hB

/-- **Sharp run rule.**  If a step outside `C` marks its component for good, a
    run without marks is exactly a run inside `C`. -/
theorem family_run_iff {B : σ → Prop} (hspawn : ∀ r c, spawn r = some c → I c)
    (hstep : ∀ c i, I c → C c i → I (step c i)) (hmark : ∀ c i, I c → ¬ C c i → B (step c i))
    (hkeep : ∀ c i, B c → B (step c i)) (hclean : ∀ c, I c → ¬ B c) {l : List σ}
    {xs : List (FamilyInput ρ ι)} (hl : ∀ c ∈ l, I c) :
    (∀ c ∈ run (familyStep spawn step) l xs, ¬ B c) ↔
      StepsMeet (familyStep spawn step) (AtComponent C) l xs := by
  constructor
  · intro hnone
    induction xs generalizing l with
    | nil => trivial
    | cons x xs ih =>
        have hx : AtComponent C l x := by
          cases x with
          | spawn r => trivial
          | deliver k i =>
              intro c hc
              by_contra hC
              -- the mark made here survives to the end of the run
              have hnew : (l.modify k (step · i))[k]? = some (step c i) := by
                rw [getElem?_modify_of_some hc, if_pos rfl]
              have hB := hmark c i (hl c (List.mem_of_getElem? hc)) hC
              have hmarked : ∃ c' ∈ familyStep spawn step l (.deliver k i), B c' :=
                ⟨_, List.mem_of_getElem? hnew, hB⟩
              obtain ⟨c', hc', hB'⟩ := family_run_mark hkeep hmarked xs
              exact hnone c' hc' hB'
        exact ⟨hx, ih (familyStep_inv hspawn hstep hl hx) hnone⟩
  · intro hmeet c hc
    exact hclean c (family_run_inv hspawn hstep hl hmeet c hc)

end Invariant

-- ============================================================================
-- Relations between different components
-- ============================================================================

section Apart

variable {R : σ → σ → Prop} {l : List σ}

/-- Any two components at different places are related. -/
def Apart (R : σ → σ → Prop) (l : List σ) : Prop :=
  ∀ (j k : Nat) (c d : σ), j ≠ k → l[j]? = some c → l[k]? = some d → R c d

theorem apart_nil : Apart R [] := by
  intro j k c d _ hc
  simp at hc

/-- A new component has to be related to each that is there. -/
theorem apart_concat (c : σ) :
    Apart R (l ++ [c]) ↔ Apart R l ∧ ∀ d ∈ l, R d c ∧ R c d := by
  have hold {j : Nat} {d : σ} (h : l[j]? = some d) : (l ++ [c])[j]? = some d := by
    rw [List.getElem?_append_left (List.getElem?_eq_some_iff.mp h).1, h]
  have hnew : (l ++ [c])[l.length]? = some c := List.getElem?_concat_length
  constructor
  · intro h
    refine ⟨fun j k a b hjk ha hb => h j k a b hjk (hold ha) (hold hb), ?_⟩
    intro d hd
    obtain ⟨j, hj⟩ := List.mem_iff_getElem?.mp hd
    have hlt : j < l.length := (List.getElem?_eq_some_iff.mp hj).1
    exact ⟨h j l.length d c (by omega) (hold hj) hnew, h l.length j c d (by omega) hnew (hold hj)⟩
  · rintro ⟨h, hc⟩ j k a b hjk ha hb
    -- each of the two places is an old one or the last
    rw [List.getElem?_append] at ha hb
    split at ha <;> split at hb
    · exact h j k a b hjk ha hb
    · obtain ⟨-, rfl⟩ := List.getElem?_eq_some_iff.mp hb
      simp only [List.getElem_singleton]
      exact (hc a (List.mem_of_getElem? ha)).1
    · obtain ⟨-, rfl⟩ := List.getElem?_eq_some_iff.mp ha
      simp only [List.getElem_singleton]
      exact (hc b (List.mem_of_getElem? hb)).2
    · have hj := (List.getElem?_eq_some_iff.mp ha).1
      have hk := (List.getElem?_eq_some_iff.mp hb).1
      rw [List.length_singleton] at hj hk
      omega

/-- A step of one component that keeps its relation to every other keeps all. -/
theorem apart_modify {f : σ → σ} (k : Nat)
    (hf : ∀ a ∈ l, ∀ b, (R a b → R (f a) b) ∧ (R b a → R b (f a))) (h : Apart R l) :
    Apart R (l.modify k f) := by
  intro i j c d hij hc hd
  rw [List.getElem?_modify, Option.map_eq_map, Option.map_eq_some_iff] at hc hd
  obtain ⟨a, ha, rfl⟩ := hc
  obtain ⟨b, hb, rfl⟩ := hd
  have hab := h i j a b hij ha hb
  by_cases hi : k = i
  · have hj : k ≠ j := by omega
    rw [if_pos hi, if_neg hj]
    exact (hf a (List.mem_of_getElem? ha) b).1 hab
  · rw [if_neg hi]
    split
    · exact (hf b (List.mem_of_getElem? hb) a).2 hab
    · exact hab

end Apart

-- ============================================================================
-- What the components hold
-- ============================================================================

section Collect

variable {β : Type _} {f : Nat → σ → Option β} {l l' : List σ}

/-- What the components hold, each with its index, in order. -/
def collect (f : Nat → σ → Option β) (l : List σ) : List β :=
  (List.range l.length).filterMap fun k => (l[k]?).bind (f k)

theorem collect_concat (f : Nat → σ → Option β) (l : List σ) (c : σ) :
    collect f (l ++ [c]) = collect f l ++ (f l.length c).toList := by
  have hold : (List.range l.length).filterMap (fun k => ((l ++ [c])[k]?).bind (f k))
      = collect f l := by
    apply List.filterMap_congr
    intro k hk
    rw [List.getElem?_append_left (List.mem_range.mp hk)]
  rw [collect, List.length_append, List.length_singleton, List.range_succ, List.filterMap_append,
    hold]
  congr 1
  rw [List.filterMap_cons, List.getElem?_concat_length, List.filterMap_nil, Option.bind_some]
  cases f l.length c <;> rfl

theorem mem_collect {b : β} :
    b ∈ collect f l ↔ ∃ k c, l[k]? = some c ∧ f k c = some b := by
  rw [collect, List.mem_filterMap]
  constructor
  · rintro ⟨k, -, hk⟩
    obtain ⟨c, hc, hb⟩ := Option.bind_eq_some_iff.mp hk
    exact ⟨k, c, hc, hb⟩
  · rintro ⟨k, c, hc, hb⟩
    have hlt : k < l.length := (List.getElem?_eq_some_iff.mp hc).1
    exact ⟨k, List.mem_range.mpr hlt, Option.bind_eq_some_iff.mpr ⟨c, hc, hb⟩⟩

/-- Components that hold the same. -/
theorem collect_congr (hlen : l'.length = l.length)
    (h : ∀ k, (l'[k]?).bind (f k) = (l[k]?).bind (f k)) : collect f l' = collect f l := by
  rw [collect, collect, hlen]
  apply List.filterMap_congr
  intro k _
  exact h k

/-- One component gives up what it holds. -/
theorem collect_drop {k : Nat} {p : β → Bool} (hlen : l'.length = l.length)
    (hk : (l'[k]?).bind (f k) = none)
    (hother : ∀ j ≠ k, (l'[j]?).bind (f j) = (l[j]?).bind (f j))
    (hp : ∀ j c b, f j c = some b → (p b = true ↔ j ≠ k)) :
    collect f l' = (collect f l).filter p := by
  rw [collect, collect, hlen, List.filter_filterMap]
  apply List.filterMap_congr
  intro j _
  by_cases hj : j = k
  · subst hj
    rw [hk]
    cases hb : (l[j]?).bind (f j) with
    | none => rfl
    | some b =>
        obtain ⟨c, -, hc⟩ := Option.bind_eq_some_iff.mp hb
        have hnot : ¬ p b = true := fun h => (hp j c b hc).mp h rfl
        rw [Option.filter_some, if_neg hnot]
  · rw [hother j hj]
    cases hb : (l[j]?).bind (f j) with
    | none => rfl
    | some b =>
        obtain ⟨c, -, hc⟩ := Option.bind_eq_some_iff.mp hb
        rw [Option.filter_some, if_pos ((hp j c b hc).mpr hj)]

theorem length_collect {live : σ → Bool} (hf : ∀ k c, (f k c).isSome = live c) :
    (collect f l).length = l.countP live := by
  induction l using List.reverseRecOn with
  | nil => rfl
  | append_singleton l c ih =>
      rw [collect_concat, List.length_append, ih, List.countP_append, List.countP_singleton,
        ← hf l.length c]
      cases f l.length c <;> rfl

end Collect

end McuFirmware.Lib
