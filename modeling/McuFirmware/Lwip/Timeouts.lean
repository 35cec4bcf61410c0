/-
  McuFirmware.Lwip.Timeouts

  The timers of lwIP (`core/timeouts.c`): a delta list counted from
  `timeouts_last_time`, in 32-bit milliseconds that wrap after 49.7 days.

  The model is small-step, since the handlers that `sys_check_timeouts` calls set
  and clear timers themselves and take time: one step is one call, one turn of the
  loop of `sys_check_timeouts`, or time passing.  `World` adds to the variables of
  the code a clock that does not wrap, and what the results are stated with.
-/

import McuFirmware.Lib.Run
import McuFirmware.Lib.Word32
import McuFirmware.Lib.Deltas

namespace McuFirmware.Lwip

open McuFirmware.Lib

-- ============================================================================
-- The code
-- ============================================================================

/-- `timeouts_last_time` and the list `next_timeout`. -/
structure Timeouts (α : Type _) where
  lastTime : Nat
  list : List (Delta α)

section Code

variable {α : Type _}

/-- The loop of `sys_timeout`; `first` is `next_timeout->time`. -/
def insertFrom (msecs first : Nat) (new : α) (time : Nat) : List (Delta α) → List (Delta α)
  | [] => []
  | [t] =>
      let time := sub32 time t.time
      [t, ⟨new, if msecs < time then (msecs + first) % 2 ^ 32 else time⟩]
  | t :: n :: rest =>
      let time := sub32 time t.time
      if time < n.time then t :: ⟨new, time⟩ :: { n with time := sub32 n.time time } :: rest
      else t :: insertFrom msecs first new time (n :: rest)

/-- `sys_timeout` with `pool` entries in `MEMP_SYS_TIMEOUT`; none is its failed
    assertion. -/
def sysTimeout (pool : Nat) (s : Timeouts α) (now msecs : Nat) (new : α) : Option (Timeouts α) :=
  if pool ≤ s.list.length then none
  else
    match s.list with
    | [] => some ⟨now, [⟨new, msecs⟩]⟩
    | t :: rest =>
        let time := (msecs + sub32 now s.lastTime) % 2 ^ 32
        if msecs < t.time then
          some { s with list := ⟨new, time⟩ :: { t with time := sub32 t.time msecs } :: rest }
        else some { s with list := insertFrom msecs t.time new time (t :: rest) }

/-- `sys_untimeout` for the handler and argument that `same` tells. -/
def sysUntimeout (same : α → Bool) : List (Delta α) → List (Delta α)
  | [] => []
  | [t] => if same t.item then [] else [t]
  | t :: n :: rest =>
      if same t.item then { n with time := (n.time + t.time) % 2 ^ 32 } :: rest
      else t :: sysUntimeout same (n :: rest)

/-- A turn of the loop of `sys_check_timeouts` up to the call of the handler: the
    timer that has expired, the new list and the new `diff`. -/
def expireNext (s : Timeouts α) (diff : Nat) : Option (α × Timeouts α × Nat) :=
  match s.list with
  | [] => none
  | t :: rest =>
      if t.time ≤ diff then
        some (t.item, ⟨(s.lastTime + t.time) % 2 ^ 32, rest⟩, diff - t.time)
      else none

end Code

-- ============================================================================
-- Absolute times
-- ============================================================================

section Dues

variable {α : Type _} {msecs first time base clock pool : Nat} {new : α} {t : Delta α}
  {ts rest : List (Delta α)}

/-- Where `sys_timeout` puts the timer behind the first one: at its time between
    the others, or, when all of them are overdue, `msecs` and the time of the first
    one behind the last. -/
theorem insertFrom_spec (new : α) (rest : List (Delta α)) (ht : t.time ≤ time) (htime : time < 2 ^ 32)
    (hspan : span (t :: rest) < 2 ^ 32) (hfirst : msecs + first < 2 ^ 32) :
    (∃ xs ys, t :: rest = xs ++ ys ∧
      ∀ b, dues b (insertFrom msecs first new time (t :: rest)) =
        dues b xs ++ (new, b + time) :: dues (b + span xs) ys) ∨
    msecs + span (t :: rest) < time ∧
      insertFrom msecs first new time (t :: rest) = t :: rest ++ [⟨new, msecs + first⟩] := by
  induction rest generalizing t time with
  | nil =>
      rw [insertFrom, sub32_eq ht htime, Nat.mod_eq_of_lt hfirst]
      by_cases hover : msecs < time - t.time
      · refine .inr ⟨?_, by rw [if_pos hover]; rfl⟩
        simp only [span]
        omega
      · refine .inl ⟨[t], [], rfl, fun b => ?_⟩
        have hdue : b + t.time + (time - t.time) = b + time := by omega
        simp only [if_neg hover, dues, hdue, List.cons_append, List.nil_append]
  | cons n rest ih =>
      rw [insertFrom, sub32_eq ht htime]
      simp only [span] at hspan
      by_cases hnext : time - t.time < n.time
      · refine .inl ⟨[t], n :: rest, rfl, fun b => ?_⟩
        have hdue : b + t.time + (time - t.time) = b + time := by omega
        have hbehind : b + time + (n.time - (time - t.time)) = b + t.time + n.time := by omega
        simp only [if_pos hnext, sub32_eq (Nat.le_of_lt hnext) (by omega : n.time < 2 ^ 32), dues, hdue,
          hbehind, span, Nat.add_zero, List.cons_append, List.nil_append]
      · simp only [if_neg hnext]
        rcases ih (by omega : n.time ≤ time - t.time) (by omega)
          (by simp only [span]; omega) with ⟨xs, ys, hsplit, hdues⟩ | ⟨hover, happend⟩
        · refine .inl ⟨t :: xs, ys, by rw [hsplit, List.cons_append], fun b => ?_⟩
          have hdue : b + t.time + (time - t.time) = b + time := by omega
          rw [dues, hdues, hdue, dues, span, Nat.add_assoc b, List.cons_append]
        · refine .inr ⟨?_, by rw [happend]; rfl⟩
          simp only [span] at hover ⊢
          omega

/-- What `sys_timeout` does to the times when the list is not empty: put in front,
    the new timer moves the others back by the time since `timeouts_last_time`. -/
theorem sysTimeout_spec {s s' : Timeouts α} (hlist : s.list = t :: rest)
    (hlast : s.lastTime = base % 2 ^ 32) (hle : base ≤ clock)
    (hrange : clock - base + span s.list + msecs < 2 ^ 32)
    (h : sysTimeout pool s (clock % 2 ^ 32) msecs new = some s') :
    s'.lastTime = s.lastTime ∧
      ∀ e ∈ dues base s'.list,
        (∃ e₀ ∈ dues base s.list,
          e = (e₀.1, e₀.2 + if msecs < t.time then clock - base else 0)) ∨
        e.1 = new ∧ (e.2 = clock + msecs ∨
          base + span s.list < clock ∧ base + span s.list + msecs ≤ e.2) := by
  have hdiff := sub32_clock hle (by omega : clock - base < 2 ^ 32)
  have htime : t.time ≤ span s.list := by
    rw [hlist, span]
    omega
  have hclock : base + (msecs + (clock - base)) = clock + msecs := by omega
  rw [sysTimeout] at h
  split at h
  · exact absurd h (by simp)
  rw [hlist] at h
  dsimp only at h
  rw [hlast, hdiff, Nat.mod_eq_of_lt (by omega : msecs + (clock - base) < 2 ^ 32)] at h
  split at h
  next hfront =>
    obtain rfl := Option.some.inj h
    refine ⟨hlast.symm, fun e he => ?_⟩
    rw [sub32_eq (Nat.le_of_lt hfront) (by omega),
      dues_front base (clock - base) new rest (Nat.le_of_lt hfront), hclock] at he
    rw [hlist, if_pos hfront]
    rcases List.mem_cons.mp he with rfl | hold
    · exact .inr ⟨rfl, .inl rfl⟩
    · obtain ⟨e₀, he₀, rfl⟩ := List.mem_map.mp hold
      exact .inl ⟨e₀, he₀, rfl⟩
  next hbehind =>
    obtain rfl := Option.some.inj h
    refine ⟨hlast.symm, fun e he => ?_⟩
    rw [if_neg hbehind]
    rw [hlist] at hrange htime ⊢
    rcases insertFrom_spec new rest (by omega : t.time ≤ msecs + (clock - base)) (by omega)
      (by omega) (by omega : msecs + t.time < 2 ^ 32) with ⟨xs, ys, hsplit, hdues⟩ | ⟨hover, happend⟩
    · rw [hdues, hclock] at he
      rw [hsplit, dues_append]
      rcases List.mem_append.mp he with hold | hin
      · exact .inl ⟨e, List.mem_append_left _ hold, rfl⟩
      rcases List.mem_cons.mp hin with rfl | hold
      · exact .inr ⟨rfl, .inl rfl⟩
      · exact .inl ⟨e, List.mem_append_right _ hold, rfl⟩
    · rw [happend, dues_append] at he
      rcases List.mem_append.mp he with hold | hin
      · exact .inl ⟨e, hold, rfl⟩
      · rw [List.mem_singleton.mp hin]
        exact .inr ⟨rfl, .inr ⟨by omega, by dsimp only; omega⟩⟩

theorem dues_sysUntimeout (same : α → Bool) (b : Nat) (h : span ts < 2 ^ 32) :
    dues b (sysUntimeout same ts) = (dues b ts).eraseP fun e => same e.1 := by
  induction ts generalizing b with
  | nil => rfl
  | cons t ts ih =>
      cases ts with
      | nil =>
          simp only [sysUntimeout, dues, List.eraseP_cons, List.eraseP_nil]
          cases same t.item <;> rfl
      | cons n rest =>
          simp only [span] at h
          rw [sysUntimeout, dues, List.eraseP_cons]
          cases hsame : same t.item with
          | true =>
              rw [if_pos rfl, Nat.mod_eq_of_lt (by omega), dues_merge]
              rfl
          | false =>
              rw [if_neg Bool.false_ne_true, dues, ih _ (by simp only [span]; omega)]
              rfl

theorem items_insertFrom (hne : ts ≠ []) :
    ((insertFrom msecs first new time ts).map Delta.item).Perm (new :: ts.map Delta.item) := by
  induction ts generalizing time with
  | nil => exact absurd rfl hne
  | cons t ts ih =>
      cases ts with
      | nil => exact List.Perm.swap _ _ _
      | cons n rest =>
          rw [insertFrom]
          split
          · exact List.Perm.swap _ _ _
          · exact ((ih (List.cons_ne_nil n rest)).cons t.item).trans (List.Perm.swap _ _ _)

/-- `sys_timeout` adds its timer and takes none away. -/
theorem items_sysTimeout {s s' : Timeouts α} {now : Nat}
    (h : sysTimeout pool s now msecs new = some s') :
    (s'.list.map Delta.item).Perm (new :: s.list.map Delta.item) := by
  rw [sysTimeout] at h
  split at h
  · exact absurd h (by simp)
  cases hlist : s.list with
  | nil =>
      rw [hlist] at h
      obtain rfl := Option.some.inj h
      exact List.Perm.refl _
  | cons t rest =>
      rw [hlist] at h
      dsimp only at h
      split at h
      · obtain rfl := Option.some.inj h
        exact List.Perm.refl _
      · obtain rfl := Option.some.inj h
        exact items_insertFrom (List.cons_ne_nil t rest)

/-- `sys_untimeout` takes away the first timer it is called for. -/
theorem items_sysUntimeout (same : α → Bool) (ts : List (Delta α)) :
    (sysUntimeout same ts).map Delta.item = (ts.map Delta.item).eraseP same := by
  induction ts with
  | nil => rfl
  | cons t ts ih =>
      rw [List.map_cons, List.eraseP_cons]
      cases ts with
      | nil =>
          rw [sysUntimeout]
          cases same t.item <;> rfl
      | cons n rest =>
          rw [sysUntimeout]
          cases same t.item with
          | true => rfl
          | false => exact congrArg (List.cons t.item) ih

end Dues

-- ============================================================================
-- Runs
-- ============================================================================

/-- A timer as its owner sees it: handler and argument, when it was set and for
    how long, and `World.shift` at that moment. -/
structure Timer (κ : Type _) where
  key : κ
  setAt : Nat
  msecs : Nat
  shift : Nat
deriving DecidableEq

/-- When the timer is due if the others have been moved back by `shift` in all. -/
def Timer.due {κ : Type _} (τ : Timer κ) (shift : Nat) : Nat :=
  τ.setAt + τ.msecs + (shift - τ.shift)

/-- The firmware's timers.  The code has `timeouts`, the low 32 bits of `clock`,
    and inside `sys_check_timeouts` its `diff`; the rest is bookkeeping. -/
structure World (κ : Type _) where
  clock : Nat
  timeouts : Timeouts (Timer κ)
  diff : Option Nat
  /-- the clock at `timeouts_last_time` -/
  base : Nat
  /-- by how much timers set in front have moved back the others, in all -/
  shift : Nat
  /-- the clock at the start of the last `sys_check_timeouts` -/
  entered : Nat
  /-- the timers that expired, with clock and `shift` at that moment -/
  fired : List (Nat × Nat × Timer κ)

inductive TimerStep (κ : Type _) where
  | tick (msecs : Nat)
  | timeout (msecs : Nat) (key : κ)
  | untimeout (key : κ)
  | check
  | loop

namespace World

variable {κ : Type _} [DecidableEq κ]

/-- A timer for `msecs` would go to the front of the list. -/
def goesFirst (w : World κ) (msecs : Nat) : Bool :=
  w.timeouts.list.head?.any fun t => decide (msecs < t.time)

def step (pool : Nat) (w : World κ) : TimerStep κ → Option (World κ)
  | .tick msecs => some { w with clock := w.clock + msecs }
  | .timeout msecs key =>
      let shift := if w.goesFirst msecs then w.shift + (w.clock - w.base) else w.shift
      (sysTimeout pool w.timeouts (w.clock % 2 ^ 32) msecs ⟨key, w.clock, msecs, shift⟩).map fun s =>
        { w with
          timeouts := s
          base := if w.timeouts.list.isEmpty then w.clock else w.base
          shift := shift }
  | .untimeout key =>
      some { w with
        timeouts := { w.timeouts with
          list := sysUntimeout (fun τ => decide (τ.key = key)) w.timeouts.list } }
  | .check =>
      -- no handler calls `sys_check_timeouts`
      if w.diff.isSome then none
      else if w.timeouts.list.isEmpty then some w
      else
        some { w with
          diff := some (sub32 (w.clock % 2 ^ 32) w.timeouts.lastTime)
          entered := w.clock }
  | .loop =>
      w.diff.map fun diff =>
        match expireNext w.timeouts diff with
        | none => { w with diff := none }
        | some (τ, s, diff') =>
            { w with
              timeouts := s
              diff := some diff'
              base := w.base + (diff - diff')
              fired := w.fired ++ [(w.clock, w.shift, τ)] }

/-- The sums of the code stay below 2^32 ms; and when a timer is set, the last one
    in the list is not overdue by more than `late`. -/
def Bounded (late : Nat) (w : World κ) : TimerStep κ → Prop
  | .tick _ | .loop => True
  | .timeout msecs _ =>
      if w.timeouts.list.isEmpty then msecs < 2 ^ 32
      else w.clock - w.base + span w.timeouts.list + msecs < 2 ^ 32 ∧
        w.clock ≤ w.base + span w.timeouts.list + late
  | .untimeout _ => span w.timeouts.list < 2 ^ 32
  | .check => w.clock - w.base < 2 ^ 32 ∨ w.timeouts.list = []

/-- A timer that is set inside `sys_check_timeouts` finds another one in the list. -/
def FindsTimer (w : World κ) : TimerStep κ → Prop
  | .timeout _ _ => w.timeouts.list.isEmpty = true → w.diff = none
  | .tick _ | .untimeout _ | .check | .loop => True

/-- What the code relies on; `permitted_after_init` says that the cyclic timers see
    to the second half. -/
def May (late : Nat) (w : World κ) (a : TimerStep κ) : Prop := w.Bounded late a ∧ w.FindsTimer a

def stepAll (pool : Nat) (o : Option (World κ)) (a : TimerStep κ) : Option (World κ) :=
  o.bind fun w => w.step pool a

def Permitted (late : Nat) (o : Option (World κ)) (a : TimerStep κ) : Prop := ∀ w ∈ o, w.May late a

/-- No timer set, the clock anywhere. -/
def start (clock : Nat) : World κ := ⟨clock, ⟨0, []⟩, none, 0, 0, 0, []⟩

-- ============================================================================
-- What a step keeps
-- ============================================================================

/-- The time of an entry is the one its timer is due at, but for `late`. -/
structure Timely (late shift : Nat) (e : Timer κ × Nat) : Prop where
  known : e.1.shift ≤ shift
  early : e.1.due shift ≤ e.2 + late
  exact : late = 0 → e.2 ≤ e.1.due shift

structure Inv (late : Nat) (w : World κ) : Prop where
  last_eq : w.timeouts.lastTime = w.base % 2 ^ 32
  base_le : w.base ≤ w.clock
  timely : ∀ e ∈ dues w.base w.timeouts.list, Timely late w.shift e
  check : ∀ d ∈ w.diff, w.base + d = w.entered ∧ w.entered ≤ w.clock
  fired : ∀ r ∈ w.fired, r.2.2.due r.2.1 ≤ r.1 + late

variable {late pool : Nat} {w w' : World κ}

omit [DecidableEq κ] in
/-- Moved back with the others, a timer keeps what it is owed. -/
theorem Timely.move {shift : Nat} {e : Timer κ × Nat} (h : Timely late shift e) (d : Nat) :
    Timely late (shift + d) (e.1, e.2 + d) := by
  obtain ⟨hknown, hearly, hexact⟩ := h
  have hdue : e.1.due (shift + d) = e.1.due shift + d := by
    rw [Timer.due, Timer.due]
    omega
  refine ⟨by dsimp only; omega, ?_, fun hlate => ?_⟩
  · dsimp only
    omega
  · have hle := hexact hlate
    dsimp only
    omega

omit [DecidableEq κ] in
/-- A timer just set. -/
theorem timely_new {key : κ} {clock msecs shift due : Nat} (hearly : clock + msecs ≤ due + late)
    (hexact : late = 0 → due ≤ clock + msecs) :
    Timely late shift (⟨key, clock, msecs, shift⟩, due) := by
  have hdue : Timer.due ⟨key, clock, msecs, shift⟩ shift = clock + msecs := by
    rw [Timer.due, Nat.sub_self, Nat.add_zero]
  exact ⟨Nat.le_refl _, hdue ▸ hearly, fun hlate => hdue ▸ hexact hlate⟩

theorem timeout_inv {msecs : Nat} {key : κ} (hinv : w.Inv late) (hmay : w.May late (.timeout msecs key))
    (h : w.step pool (.timeout msecs key) = some w') : w'.Inv late := by
  obtain ⟨s, hcall, rfl⟩ := Option.map_eq_some_iff.mp h
  cases hlist : w.timeouts.list with
  | nil =>
      have hidle : w.diff = none := hmay.2 (by rw [hlist]; rfl)
      have hfirst : w.goesFirst msecs = false := by rw [goesFirst, hlist]; rfl
      rw [sysTimeout, hlist, hfirst] at hcall
      split at hcall
      · exact absurd hcall (by simp)
      obtain rfl := Option.some.inj hcall
      simp only [hfirst, List.isEmpty_nil, if_true, Bool.false_eq_true, if_false]
      refine ⟨rfl, Nat.le_refl _, fun e he => ?_, fun d hd => ?_, hinv.fired⟩
      · rw [List.mem_singleton.mp he]
        exact timely_new (Nat.le_add_right _ _) fun _ => Nat.le_refl _
      · exact absurd (hidle ▸ hd) (Option.not_mem_none d)
  | cons t rest =>
      have hbounded := hmay.1
      rw [Bounded, hlist, List.isEmpty_cons, if_neg Bool.false_ne_true, ← hlist] at hbounded
      obtain ⟨hrange, hlate⟩ := hbounded
      obtain ⟨hlast, hdues⟩ := sysTimeout_spec hlist hinv.last_eq hinv.base_le hrange hcall
      have hfirst : w.goesFirst msecs = decide (msecs < t.time) := by rw [goesFirst, hlist]; rfl
      have hshift : (if w.goesFirst msecs = true then w.shift + (w.clock - w.base) else w.shift) =
          w.shift + if msecs < t.time then w.clock - w.base else 0 := by
        rw [hfirst]
        by_cases hfront : msecs < t.time <;> simp [hfront]
      simp only [List.isEmpty_cons, Bool.false_eq_true, if_false]
      refine ⟨hlast.trans hinv.last_eq, hinv.base_le, fun e he => ?_, hinv.check, hinv.fired⟩
      rw [hshift] at hdues ⊢
      rcases hdues e he with ⟨e₀, he₀, rfl⟩ | ⟨hnew, hdue⟩
      · exact (hinv.timely e₀ he₀).move _
      · obtain ⟨τ, due⟩ := e
        obtain rfl := hnew
        refine timely_new ?_ fun hzero => ?_
        · dsimp only at hdue
          omega
        · dsimp only at hdue
          omega

theorem untimeout_inv {key : κ} (hinv : w.Inv late) (hmay : w.May late (.untimeout key))
    (h : w.step pool (.untimeout key) = some w') : w'.Inv late := by
  obtain rfl := Option.some.inj h
  refine ⟨hinv.last_eq, hinv.base_le, fun e he => ?_, hinv.check, hinv.fired⟩
  rw [dues_sysUntimeout _ _ hmay.1] at he
  exact hinv.timely e (List.mem_of_mem_eraseP he)

theorem check_inv (hinv : w.Inv late) (hmay : w.May late .check)
    (h : w.step pool .check = some w') : w'.Inv late := by
  rw [step] at h
  split at h
  · exact absurd h (by simp)
  split at h
  · obtain rfl := Option.some.inj h
    exact hinv
  next hne =>
    obtain rfl := Option.some.inj h
    refine ⟨hinv.last_eq, hinv.base_le, hinv.timely, fun d hd => ?_, hinv.fired⟩
    have hlt : w.clock - w.base < 2 ^ 32 := hmay.1.resolve_right fun hnil => hne (by rw [hnil]; rfl)
    have hle := hinv.base_le
    rw [hinv.last_eq, sub32_clock hle hlt, Option.mem_some_iff] at hd
    dsimp only
    omega

/-- A turn of the loop: the first timer is due and expires, or no timer is due. -/
theorem loop_cases (pool : Nat) {d : Nat} (hinv : w.Inv late) (hdiff : w.diff = some d) :
    (∃ τ due rest, dues w.base w.timeouts.list = (τ, due) :: dues due rest ∧ due ≤ w.entered ∧
      w.timeouts.list.map Delta.item = τ :: rest.map Delta.item ∧
      w.step pool .loop = some { w with
        timeouts := ⟨due % 2 ^ 32, rest⟩
        diff := some (w.entered - due)
        base := due
        fired := w.fired ++ [(w.clock, w.shift, τ)] }) ∨
    (∀ e ∈ dues w.base w.timeouts.list, w.entered < e.2) ∧
      w.step pool .loop = some { w with diff := none } := by
  obtain ⟨hentered, -⟩ := hinv.check d hdiff
  simp only [step, hdiff, Option.map_some, expireNext]
  cases hlist : w.timeouts.list with
  | nil => exact .inr ⟨fun e he => absurd he List.not_mem_nil, rfl⟩
  | cons t rest =>
      by_cases htime : t.time ≤ d
      · refine .inl ⟨t.item, w.base + t.time, rest, rfl, by omega, rfl, ?_⟩
        have hrest : w.entered - (w.base + t.time) = d - t.time := by omega
        have hstep : w.base + (d - (d - t.time)) = w.base + t.time := by omega
        simp only [if_pos htime, hinv.last_eq, hrest, hstep, Nat.mod_add_mod]
      · refine .inr ⟨fun e he => ?_, by simp only [if_neg htime]⟩
        rw [dues] at he
        rcases List.mem_cons.mp he with rfl | hin
        · dsimp only
          omega
        · have hle := (bounds_of_mem_dues hin).1
          omega

theorem loop_inv (hinv : w.Inv late) (h : w.step pool .loop = some w') : w'.Inv late := by
  cases hdiff : w.diff with
  | none =>
      rw [step, hdiff] at h
      exact absurd h (by simp)
  | some d =>
      obtain ⟨hentered, hclock⟩ := hinv.check d hdiff
      rcases loop_cases pool hinv hdiff with
        ⟨τ, due, rest, hdues, hdue, -, hstep⟩ | ⟨-, hstep⟩
      · obtain rfl := Option.some.inj (hstep.symm.trans h)
        have hτ := hinv.timely (τ, due) (hdues ▸ List.mem_cons_self)
        refine ⟨rfl, by dsimp only; omega, fun e he => hinv.timely e ?_, fun d' hd' => ?_, ?_⟩
        · rw [hdues]
          exact List.mem_cons_of_mem _ he
        · rw [Option.mem_some_iff] at hd'
          dsimp only
          omega
        · refine List.forall_mem_append.mpr ⟨hinv.fired, ?_⟩
          rw [List.forall_mem_singleton]
          have hearly := hτ.early
          dsimp only at hearly ⊢
          omega
      · obtain rfl := Option.some.inj (hstep.symm.trans h)
        exact ⟨hinv.last_eq, hinv.base_le, hinv.timely, fun d' hd' => absurd hd' (Option.not_mem_none d'),
          hinv.fired⟩

theorem step_inv {a : TimerStep κ} (hinv : w.Inv late) (hmay : w.May late a)
    (h : w.step pool a = some w') : w'.Inv late := by
  cases a with
  | tick msecs =>
      obtain rfl := Option.some.inj h
      refine ⟨hinv.last_eq, Nat.le_add_right_of_le hinv.base_le, hinv.timely, fun d hd => ?_,
        hinv.fired⟩
      exact ⟨(hinv.check d hd).1, Nat.le_add_right_of_le (hinv.check d hd).2⟩
  | timeout msecs key => exact timeout_inv hinv hmay h
  | untimeout key => exact untimeout_inv hinv hmay h
  | check => exact check_inv hinv hmay h
  | loop => exact loop_inv hinv h

-- ============================================================================
-- Whole runs
-- ============================================================================

instance (late : Nat) (w : World κ) (a : TimerStep κ) : Decidable (w.Bounded late a) :=
  match a with
  | .tick _ | .loop => isTrue trivial
  | .timeout msecs _ =>
      inferInstanceAs (Decidable
        (if w.timeouts.list.isEmpty then msecs < 2 ^ 32
        else w.clock - w.base + span w.timeouts.list + msecs < 2 ^ 32 ∧
          w.clock ≤ w.base + span w.timeouts.list + late))
  | .untimeout _ => inferInstanceAs (Decidable (_ < _))
  | .check =>
      decidable_of_iff (w.clock - w.base < 2 ^ 32 ∨ w.timeouts.list.isEmpty = true)
        (or_congr Iff.rfl List.isEmpty_iff)

instance (w : World κ) (a : TimerStep κ) : Decidable (w.FindsTimer a) :=
  match a with
  | .timeout _ _ => inferInstanceAs (Decidable (_ → w.diff = none))
  | .tick _ | .untimeout _ | .check | .loop => isTrue trivial

instance (late : Nat) (w : World κ) (a : TimerStep κ) : Decidable (w.May late a) :=
  inferInstanceAs (Decidable (_ ∧ _))

instance (late : Nat) (o : Option (World κ)) (a : TimerStep κ) : Decidable (Permitted late o a) :=
  match o with
  | none => isTrue fun _ h => absurd h (Option.not_mem_none _)
  | some w => decidable_of_iff (w.May late a) (by simp [Permitted])

omit [DecidableEq κ] in
theorem start_inv (late clock : Nat) : (start clock : World κ).Inv late :=
  ⟨rfl, Nat.zero_le _, fun _ h => absurd h List.not_mem_nil,
    fun _ h => absurd h (Option.not_mem_none _), fun _ h => absurd h List.not_mem_nil⟩

theorem run_world_inv {clock : Nat} {steps : List (TimerStep κ)}
    (hmeet : StepsMeet (stepAll pool) (Permitted late) (some (start clock)) steps)
    (hrun : run (stepAll pool) (some (start clock)) steps = some w) : w.Inv late := by
  have hall : ∀ v ∈ run (stepAll pool) (some (start clock)) steps, v.Inv late := by
    refine run_inv (C := Permitted late) (I := fun o => ∀ v ∈ o, v.Inv late) ?_ ?_ hmeet
    · intro o a hinv hmay v hv
      obtain ⟨u, hu, hstep⟩ := Option.bind_eq_some_iff.mp hv
      exact step_inv (hinv u hu) (hmay u hu) hstep
    · intro v hv
      rw [← Option.mem_some_iff.mp hv]
      exact start_inv late clock
  exact hall w hrun

-- ============================================================================
-- The cyclic timers
-- ============================================================================

section Cyclic

variable {a b key : κ}

/-- The timer is in the list. -/
def Queued (w : World κ) (key : κ) : Prop := ∃ τ ∈ w.timeouts.list.map Delta.item, τ.key = key

/-- `sys_timeouts_init`: `cyclic_timer` for `ip_reass_tmr` and for `etharp_tmr`,
    every `IP_TMR_INTERVAL` and `ARP_TMR_INTERVAL`, at one reading of the clock: the
    assignment to `timeouts_last_time` behind them changes nothing. -/
def sysTimeoutsInit (ipReassTmr etharpTmr : κ) : List (TimerStep κ) :=
  [.timeout 1000 ipReassTmr, .timeout 1000 etharpTmr]

/-- What the firmware does with them: `cyclic_timer` sets its timer again before it
    returns to `sys_check_timeouts`, and nothing clears it. -/
def KeepsCyclic (ipReassTmr etharpTmr : κ) (w : World κ) : TimerStep κ → Prop
  | .loop => w.Queued ipReassTmr ∧ w.Queued etharpTmr
  | .untimeout key => key ≠ ipReassTmr ∧ key ≠ etharpTmr
  | .tick _ | .timeout _ _ | .check => True

theorem queued_timeout {msecs : Nat} {key' : κ} (hkey : key = key' ∨ w.Queued key)
    (h : w.step pool (.timeout msecs key') = some w') : w'.Queued key := by
  obtain ⟨s, hcall, rfl⟩ := Option.map_eq_some_iff.mp h
  have hitems := items_sysTimeout hcall
  rcases hkey with rfl | ⟨τ, hτ, rfl⟩
  · exact ⟨_, hitems.mem_iff.mpr List.mem_cons_self, rfl⟩
  · exact ⟨τ, hitems.mem_iff.mpr (List.mem_cons_of_mem _ hτ), rfl⟩

theorem queued_untimeout {key' : κ} (hne : key' ≠ key) (hkey : w.Queued key)
    (h : w.step pool (.untimeout key') = some w') : w'.Queued key := by
  obtain rfl := Option.some.inj h
  obtain ⟨τ, hτ, rfl⟩ := hkey
  refine ⟨τ, ?_, rfl⟩
  dsimp only
  rw [items_sysUntimeout]
  exact (List.mem_eraseP_of_neg (by simpa using hne.symm)).mpr hτ

/-- A turn of the loop takes one timer off the list. -/
theorem queued_loop (hab : a ≠ b) (ha : w.Queued a) (hb : w.Queued b)
    (h : w.step pool .loop = some w') : w'.Queued a ∨ w'.Queued b := by
  obtain ⟨diff, -, rfl⟩ := Option.map_eq_some_iff.mp h
  obtain ⟨τa, hτa, rfl⟩ := ha
  obtain ⟨τb, hτb, rfl⟩ := hb
  cases hlist : w.timeouts.list with
  | nil =>
      rw [hlist] at hτa
      exact absurd hτa List.not_mem_nil
  | cons t rest =>
      simp only [expireNext, hlist]
      rw [hlist, List.map_cons] at hτa hτb
      split
      next hnone => exact .inl ⟨τa, by rw [hlist]; exact hτa, rfl⟩
      next τ s diff' hsome =>
        split at hsome
        · obtain ⟨rfl, rfl, rfl⟩ := Prod.mk.inj (Option.some.inj hsome)
          rcases List.mem_cons.mp hτa with rfl | hin
          · rcases List.mem_cons.mp hτb with rfl | hin'
            · exact absurd rfl hab
            · exact .inr ⟨τb, hin', rfl⟩
          · exact .inl ⟨τa, hin, rfl⟩
        · exact absurd hsome (by simp)

/-- One of the two cyclic timers stays in the list. -/
theorem step_queued {e : TimerStep κ} (hab : a ≠ b) (hone : w.Queued a ∨ w.Queued b)
    (hkeeps : w.KeepsCyclic a b e) (h : w.step pool e = some w') : w'.Queued a ∨ w'.Queued b := by
  cases e with
  | tick msecs =>
      obtain rfl := Option.some.inj h
      exact hone
  | timeout msecs key =>
      exact hone.imp (fun ha => queued_timeout (.inr ha) h) fun hb => queued_timeout (.inr hb) h
  | untimeout key =>
      exact hone.imp (fun ha => queued_untimeout hkeeps.1 ha h)
        fun hb => queued_untimeout hkeeps.2 hb h
  | check =>
      rw [step] at h
      split at h
      · exact absurd h (by simp)
      split at h
      · exact Option.some.inj h ▸ hone
      · obtain rfl := Option.some.inj h
        exact hone
  | loop => exact queued_loop hab hkeeps.1 hkeeps.2 h

omit [DecidableEq κ] in
theorem findsTimer_of_queued {e : TimerStep κ} (hone : w.Queued a ∨ w.Queued b) :
    w.FindsTimer e := by
  cases e with
  | timeout msecs key =>
      intro hempty
      rw [List.isEmpty_iff] at hempty
      rcases hone with ⟨τ, hτ, -⟩ | ⟨τ, hτ, -⟩
      · rw [hempty] at hτ
        exact absurd hτ List.not_mem_nil
      · rw [hempty] at hτ
        exact absurd hτ List.not_mem_nil
  | _ => trivial

/-- **No handler finds the list empty.**  From `sys_timeouts_init` on, one of the two
    cyclic timers is always in the list, so the runs of the firmware are permitted
    as long as the times stay in their bounds. -/
theorem permitted_after_init (late pool clock : Nat) (steps : List (TimerStep κ)) (hab : a ≠ b)
    (hmeet : StepsMeet (stepAll pool) (fun o e => ∀ w ∈ o, w.Bounded late e ∧ w.KeepsCyclic a b e)
      (run (stepAll pool) (some (start clock)) (sysTimeoutsInit a b)) steps) :
    StepsMeet (stepAll pool) (Permitted late) (some (start clock))
      (sysTimeoutsInit a b ++ steps) := by
  rw [stepsMeet_append]
  constructor
  · refine ⟨fun w hw => ?_, fun w hw => ?_, trivial⟩
    · obtain rfl := Option.some.inj hw
      exact ⟨show (1000 : Nat) < 2 ^ 32 by decide, fun _ => rfl⟩
    · -- the second one is set at the same time as the first
      obtain ⟨s, hcall, rfl⟩ := Option.map_eq_some_iff.mp hw
      refine ⟨?_, fun _ => rfl⟩
      rw [sysTimeout] at hcall
      split at hcall
      · exact absurd hcall (by simp)
      · obtain rfl := Option.some.inj hcall
        change clock - clock + (1000 + 0) + 1000 < 2 ^ 32 ∧ clock ≤ clock + (1000 + 0) + late
        omega
  · refine stepsMeet_of_inv (I := fun o => ∀ w ∈ o, w.Queued a ∨ w.Queued b) ?_ ?_ ?_ hmeet
    · intro o e hone hstep w hw
      obtain ⟨u, hu, hcall⟩ := Option.bind_eq_some_iff.mp hw
      exact step_queued hab (hone u hu) (hstep u hu).2 hcall
    · exact fun o e hone hstep w hw => ⟨(hstep w hw).1, findsTimer_of_queued (hone w hw)⟩
    · intro w hw
      obtain ⟨u, -, hcall⟩ := Option.bind_eq_some_iff.mp hw
      exact .inr (queued_timeout (.inl rfl) hcall)

end Cyclic

-- ============================================================================
-- The timers of a run
-- ============================================================================

/-- **No timer is early.**  Along every run in which no handler sets a timer on an
    empty list and the sums stay below 2^32 ms, with the clock wrapping where it
    will and handlers setting and clearing timers while others are overdue: a timer
    expires no sooner than it was set for, and later by what timers set in front of
    it have moved it back, but for the `late` milliseconds by which the whole list
    was overdue when a timer was set. -/
theorem timers_never_early (late pool clock : Nat) (steps : List (TimerStep κ)) (w : World κ)
    (hmeet : StepsMeet (stepAll pool) (Permitted late) (some (start clock)) steps)
    (hrun : run (stepAll pool) (some (start clock)) steps = some w) :
    ∀ r ∈ w.fired, r.2.2.setAt + r.2.2.msecs + (r.2.1 - r.2.2.shift) ≤ r.1 + late :=
  (run_world_inv hmeet hrun).fired

/-- Across the wrap of the clock: a timer of 100 ms set 300 ms after two of one
    second, and a check that comes 2.5 s late, in which the first of these expires
    again as soon as it is set. -/
theorem timers_never_early_wrap :
    let steps : List (TimerStep Nat) := [.timeout 1000 0, .timeout 1000 1, .tick 300,
      .timeout 100 2, .tick 100, .check, .loop, .timeout 100 2, .loop, .tick 2500, .check, .loop,
      .loop, .timeout 1000 0, .loop, .timeout 1000 1, .loop]
    (run (stepAll 15) (some (start (2 ^ 32 - 500))) steps).map (fun w => w.fired.length) = some 5 ∧
      ∀ w ∈ run (stepAll 15) (some (start (2 ^ 32 - 500))) steps,
        ∀ r ∈ w.fired, r.2.2.setAt + r.2.2.msecs + (r.2.1 - r.2.2.shift) ≤ r.1 + 1600 :=
  ⟨by decide +kernel,
    fun w hw => timers_never_early 1600 15 (2 ^ 32 - 500) _ w (by decide +kernel) hw⟩

end World

end McuFirmware.Lwip
