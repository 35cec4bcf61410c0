/-
  McuFirmware.App.Timers

  The timers of the whole application, and the pool they come from.

  Three parties take entries of `MEMP_SYS_TIMEOUT`: every TFTP connection for its
  `tftp_server_tmr`, `udp_trigger` for `trigger_timeout`, and lwIP for its own
  timers.  The entries of a connection are counted in the connection (`timers`),
  the others are the list `armed`.  When an entry expires is left open: any armed
  entry may be the next one.  A `sys_timeout` that finds the pool empty runs into
  its assertion, and the device does nothing more.
-/

import McuFirmware.Tftp.Net

namespace McuFirmware.App

open McuFirmware.Lib McuFirmware.Lwip McuFirmware.Tftp

/-- `MEMP_NUM_SYS_TIMEOUT`: `LWIP_TCP`, `IP_REASSEMBLY`, `LWIP_ARP`,
    `MEMP_NUM_UDP_PCB` and four more. -/
def mempNumSysTimeout : Nat := 1 + 1 + 1 + mempNumUdpPcb + 4

/-- `TRIGGER_TIMER_MAXAGE`. -/
def triggerTimerMaxage : UInt8 := 150

/-- The handlers other than `tftp_server_tmr`: `trigger_timeout`, `cyclic_timer`
    for `ip_reass_tmr` and for `etharp_tmr`, and `tcpip_tcp_timer`. -/
inductive Timer where
  | trigger
  | ipReass
  | arp
  | tcp
deriving DecidableEq

/-- What stops the device: the assertion of `sys_timeout`, or the null pointer of
    a failed `pbuf_alloc` that `udp_trigger` writes through. -/
inductive Halt where
  | poolEmpty
  | nullPbuf
deriving DecidableEq

structure Device where
  net : Net
  ftFlag : UInt8
  triggerTime : UInt8
  triggerFlag : UInt8
  /-- `tcpip_tcp_timer_active` -/
  tcpTimerActive : Bool
  armed : List Timer

/-- After `sys_timeouts_init`; the TCP timer is started on demand. -/
def Device.init : Device := ⟨Net.init, 0, 0, 0, false, [.arp, .ipReass]⟩

namespace Device

/-- The armed `tftp_server_tmr` entries. -/
def tftpTimers (s : Device) : Nat := (s.net.conns.map (·.timers)).sum

/-- The entries of the pool that are in use. -/
def used (s : Device) : Nat := s.tftpTimers + s.armed.length

/-- `memp_malloc` in a `sys_timeout` that is reached with `used` entries taken. -/
def mempMalloc (used : Nat) (next : Device) : Except Halt Device :=
  if used < mempNumSysTimeout then .ok next else .error .poolEmpty

def sysTimeout (s : Device) (t : Timer) : Except Halt Device :=
  mempMalloc s.used { s with armed := t :: s.armed }

/-- Only the first match is removed. -/
def sysUntimeout (s : Device) (t : Timer) : Device := { s with armed := s.armed.erase t }

-- ============================================================================
-- The trigger
-- ============================================================================

def triggerTimeout (s : Device) : Except Halt Device :=
  let s := { s with
    triggerFlag := if s.triggerFlag = 0 then 1 else 0
    triggerTime := s.triggerTime + 1 }
  if triggerTimerMaxage < s.triggerTime then .ok { s with ftFlag := 0 } else s.sysTimeout .trigger

def triggerTimerStart (s : Device) : Except Halt Device :=
  { s with triggerTime := 0, triggerFlag := 0 }.sysTimeout .trigger

def udpTriggerCallback (s : Device) : Device := { s.sysUntimeout .trigger with ftFlag := 0 }

/-- The result of `pbuf_alloc` is not checked. -/
def udpTrigger (s : Device) (pbufAlloc : Bool) : Except Halt Device :=
  if pbufAlloc then s.triggerTimerStart.map fun s => { s with ftFlag := 1 } else .error .nullPbuf

-- ============================================================================
-- Steps
-- ============================================================================

def cyclicTimer (s : Device) (t : Timer) : Except Halt Device := s.sysTimeout t

/-- `tcpPcbs`: a TCP pcb is active or in time-wait. -/
def tcpipTcpTimer (s : Device) (tcpPcbs : Bool) : Except Halt Device :=
  if tcpPcbs then s.sysTimeout .tcp else .ok { s with tcpTimerActive := false }

def tcpTimerNeeded (s : Device) (tcpPcbs : Bool) : Except Halt Device :=
  if !s.tcpTimerActive && tcpPcbs then { s with tcpTimerActive := true }.sysTimeout .tcp else .ok s

def handler (s : Device) (tcpPcbs : Bool) : Timer → Except Halt Device
  | .trigger => s.triggerTimeout
  | .ipReass => s.cyclicTimer .ipReass
  | .arp => s.cyclicTimer .arp
  | .tcp => s.tcpipTcpTimer tcpPcbs

/-- `sys_check_timeouts` for one expired entry, which is freed before its handler
    is called. -/
def expire (s : Device) (t : Timer) (tcpPcbs : Bool) : Except Halt Device :=
  if t ∈ s.armed then (s.sysUntimeout t).handler tcpPcbs t else .ok s

/-- The same for an entry of `tftp_server_tmr`, which arms itself again first. -/
def tick (H : Placement) (s : Device) (k : Nat) (e : Env) : Except Halt Device :=
  let next := { s with net := s.net.step H (.tick k e) }
  if (s.net.conns[k]?).any (fun c => decide (0 < c.timers)) then mempMalloc (s.used - 1) next
  else .ok next

/-- The request got as far as its `sys_timeout`: the connection is open, or was
    closed again. -/
def Started (c : Conn) : Prop := c.pcbLive = true ∨ 0 < c.closes

instance (c : Conn) : Decidable (Started c) := inferInstanceAs (Decidable (_ ∨ _))

def udp (H : Placement) (s : Device) (e : ReqEnv) (p : Pbuf) (addr : UInt32) (src dest : UInt16) :
    Except Halt Device :=
  let next := { s with net := s.net.step H (.udp e p addr src dest) }
  match s.net.route addr src dest with
  | some .tftp =>
      if (next.net.conns[s.net.conns.length]?).any (fun c => decide (Started c)) then
        mempMalloc s.used next
      else .ok next
  | some .trigger => .ok next.udpTriggerCallback
  | some (.conn _) | none => .ok next

end Device

inductive DeviceInput where
  | udp (e : ReqEnv) (p : Pbuf) (addr : UInt32) (src dest : UInt16)
  /-- `tftp_server_tmr` of the `k`-th connection expires -/
  | tick (k : Nat) (e : Env)
  | expire (t : Timer) (tcpPcbs : Bool)
  | tcpTimerNeeded (tcpPcbs : Bool)
  /-- `Key0_Scan` reports the key -/
  | key (pbufAlloc : Bool)

def Device.step (H : Placement) (s : Device) : DeviceInput → Except Halt Device
  | .udp e p addr src dest => s.udp H e p addr src dest
  | .tick k e => s.tick H k e
  | .expire t tcpPcbs => s.expire t tcpPcbs
  | .tcpTimerNeeded tcpPcbs => s.tcpTimerNeeded tcpPcbs
  -- the main loop looks at the key only while `ft_flag` is 0
  | .key pbufAlloc => if s.ftFlag = 0 then s.udpTrigger pbufAlloc else .ok s

/-- A device that has stopped takes no further step. -/
def exec (H : Placement) (r : Except Halt Device) (x : DeviceInput) : Except Halt Device :=
  r.bind (·.step H x)

-- ============================================================================
-- How many entries are in use
-- ============================================================================

/-- Each party has the entries its own flags say. -/
structure Timed (s : Device) : Prop where
  wired : Wired s.net
  trigger : s.armed.count .trigger = s.ftFlag.toNat
  flag : s.ftFlag.toNat ≤ 1
  -- the last of the 151 expiries clears `ft_flag`
  time : s.triggerTime.toNat + s.ftFlag.toNat ≤ 151
  ipReass : s.armed.count .ipReass = 1
  arp : s.armed.count .arp = 1
  tcp : s.armed.count .tcp = s.tcpTimerActive.toNat

theorem length_eq_counts (l : List Timer) :
    l.length = l.count .trigger + l.count .ipReass + l.count .arp + l.count .tcp := by
  induction l with
  | nil => rfl
  | cons t l ih => cases t <;> simp <;> omega

/-- A connection has one timer while it is open, and none afterwards. -/
theorem timers_eq_live {l : List Conn} (h : ∀ c ∈ l, c.ClosedOnce) :
    (l.map (·.timers)).sum = l.countP (·.pcbLive) := by
  induction l with
  | nil => rfl
  | cons c l ih =>
      have hc : c.timers = if c.pcbLive then 1 else 0 := by
        rcases h c List.mem_cons_self with ⟨hlive, -⟩ | ⟨hdead, -⟩
        · rw [hlive.timer, hlive.pcb]
          rfl
        · rw [hdead.timer, if_neg hdead.pcb_not_live]
      rw [List.map_cons, List.sum_cons, List.countP_cons, hc,
        ih (fun d hd => h d (List.mem_cons_of_mem c hd)), Nat.add_comm]

/-- The pcbs that the two listeners leave. -/
theorem live_le_six {n : Net} (h : Wired n) : n.conns.countP (·.pcbLive) ≤ 6 := by
  have hsome (k : Nat) (c : Conn) : (activeOf k c).isSome = c.pcbLive := by
    rw [activeOf]
    cases c.pcbLive <;> rfl
  have hcount : (collect activeOf n.conns).length = n.conns.countP (·.pcbLive) :=
    length_collect hsome
  have hlen := h.pcbs.length_eq
  have hlisten : listeners.length = 2 := rfl
  have hroom : n.pcbs.length ≤ 8 := h.room
  rw [List.length_append, hcount, hlisten] at hlen
  omega

section Timed

variable {H : Placement} {s : Device}

theorem Timed.tftpTimers (h : Timed s) : s.tftpTimers = s.net.conns.countP (·.pcbLive) :=
  timers_eq_live h.wired.once

/-- Six connections, the trigger and three timers of lwIP. -/
theorem Timed.used_le (h : Timed s) : s.used ≤ 10 := by
  have hlive := live_le_six h.wired
  have hlen := length_eq_counts s.armed
  have htcp : s.tcpTimerActive.toNat ≤ 1 := Bool.toNat_le _
  have hflag := h.flag
  rw [h.trigger, h.ipReass, h.arp, h.tcp] at hlen
  rw [Device.used, h.tftpTimers]
  omega

/-- The device goes on in good order, or `udp_trigger` was out of memory. -/
def Fine : Except Halt Device → Prop
  | .ok s => Timed s
  | .error halt => halt = .nullPbuf

theorem mempMalloc_of_room {n : Nat} (hn : n ≤ 10) (next : Device) :
    Device.mempMalloc n next = .ok next :=
  if_pos (Nat.lt_of_le_of_lt hn (by decide))

/-- Freeing an entry makes no party use more. -/
theorem used_untimeout_le (h : Timed s) (t : Timer) : (s.sysUntimeout t).used ≤ 10 := by
  have hle : (s.armed.erase t).length ≤ s.armed.length := List.length_erase_le
  have hused := h.used_le
  rw [Device.used] at hused ⊢
  exact Nat.le_trans (Nat.add_le_add_left hle _) hused

/-- An expired entry that is armed again at once. -/
theorem count_rearm {t : Timer} (ht : t ∈ s.armed) (u : Timer) :
    (t :: s.armed.erase t).count u = s.armed.count u :=
  (List.perm_cons_erase ht).symm.count_eq u

theorem fine_rearm (h : Timed s) {t : Timer} (ht : t ∈ s.armed) :
    Fine ((s.sysUntimeout t).sysTimeout t) := by
  rw [Device.sysTimeout, mempMalloc_of_room (used_untimeout_le h t)]
  exact ⟨h.wired, (count_rearm ht _).trans h.trigger, h.flag, h.time,
    (count_rearm ht _).trans h.ipReass, (count_rearm ht _).trans h.arp,
    (count_rearm ht _).trans h.tcp⟩

/-- Taking `trigger_timeout` off the list together with `ft_flag`. -/
theorem timed_disarm (h : Timed s) {time : UInt8} (htime : time.toNat ≤ 151) (flag : UInt8) :
    Timed { s with
      armed := s.armed.erase .trigger, ftFlag := 0, triggerTime := time, triggerFlag := flag } where
  wired := h.wired
  trigger := by
    have hflag := h.flag
    rw [List.count_erase_self, h.trigger]
    change s.ftFlag.toNat - 1 = 0
    omega
  flag := Nat.zero_le 1
  time := htime
  ipReass := (List.count_erase_of_ne (by decide)).trans h.ipReass
  arp := (List.count_erase_of_ne (by decide)).trans h.arp
  tcp := (List.count_erase_of_ne (by decide)).trans h.tcp

theorem fine_triggerTimeout (h : Timed s) (ht : Timer.trigger ∈ s.armed) :
    Fine (s.sysUntimeout .trigger).triggerTimeout := by
  have hflag : s.ftFlag.toNat = 1 := by
    have hpos := List.count_pos_iff.mpr ht
    have hle := h.flag
    rw [h.trigger] at hpos
    omega
  have htime : (s.triggerTime + 1).toNat = s.triggerTime.toNat + 1 := by
    have hle := h.time
    rw [UInt8.toNat_add]
    change (s.triggerTime.toNat + 1) % 256 = _
    omega
  have hbound : (s.triggerTime + 1).toNat ≤ 151 := by
    have hle := h.time
    omega
  change Fine (if triggerTimerMaxage < s.triggerTime + 1 then _ else _)
  by_cases hage : triggerTimerMaxage < s.triggerTime + 1
  · rw [if_pos hage]
    exact timed_disarm h hbound _
  · have hyoung : (s.triggerTime + 1).toNat ≤ 150 := Nat.not_lt.mp hage
    have haged : Timed { s with
        triggerTime := s.triggerTime + 1, triggerFlag := if s.triggerFlag = 0 then 1 else 0 } := by
      refine ⟨h.wired, h.trigger, h.flag, ?_, h.ipReass, h.arp, h.tcp⟩
      change (s.triggerTime + 1).toNat + s.ftFlag.toNat ≤ 151
      omega
    rw [if_neg hage]
    exact fine_rearm haged ht

theorem fine_tcpipTcpTimer (h : Timed s) (ht : Timer.tcp ∈ s.armed) (tcpPcbs : Bool) :
    Fine ((s.sysUntimeout .tcp).tcpipTcpTimer tcpPcbs) := by
  rw [Device.tcpipTcpTimer]
  split
  · exact fine_rearm h ht
  · refine ⟨h.wired, (List.count_erase_of_ne (by decide)).trans h.trigger, h.flag, h.time,
      (List.count_erase_of_ne (by decide)).trans h.ipReass,
      (List.count_erase_of_ne (by decide)).trans h.arp, ?_⟩
    have hle : s.tcpTimerActive.toNat ≤ 1 := Bool.toNat_le _
    change (s.armed.erase .tcp).count .tcp = 0
    rw [List.count_erase_self, h.tcp]
    omega

theorem fine_expire (h : Timed s) (t : Timer) (tcpPcbs : Bool) : Fine (s.expire t tcpPcbs) := by
  rw [Device.expire]
  split
  case isFalse => exact h
  case isTrue ht =>
    cases t with
    | trigger => exact fine_triggerTimeout h ht
    | ipReass | arp => exact fine_rearm h ht
    | tcp => exact fine_tcpipTcpTimer h ht tcpPcbs

theorem fine_tcpTimerNeeded (h : Timed s) (tcpPcbs : Bool) : Fine (s.tcpTimerNeeded tcpPcbs) := by
  rw [Device.tcpTimerNeeded]
  split
  case isFalse => exact h
  case isTrue hneeded =>
    have hoff : s.tcpTimerActive = false := by
      cases hactive : s.tcpTimerActive with
      | false => rfl
      | true => simp [hactive] at hneeded
    have hcount : s.armed.count .tcp = 0 := by
      rw [h.tcp, hoff]
      rfl
    have hroom : Device.used { s with tcpTimerActive := true } ≤ 10 := h.used_le
    rw [Device.sysTimeout, mempMalloc_of_room hroom]
    refine ⟨h.wired, (List.count_cons_of_ne (by decide)).trans h.trigger, h.flag, h.time,
      (List.count_cons_of_ne (by decide)).trans h.ipReass,
      (List.count_cons_of_ne (by decide)).trans h.arp, ?_⟩
    change (Timer.tcp :: s.armed).count .tcp = 1
    rw [List.count_cons_self, hcount]

/-- With `ft_flag` at 0 no `trigger_timeout` is armed, so the key arms the first. -/
theorem fine_udpTrigger (h : Timed s) (hflag : s.ftFlag = 0) (pbufAlloc : Bool) :
    Fine (s.udpTrigger pbufAlloc) := by
  rw [Device.udpTrigger]
  split
  case isFalse => exact rfl
  case isTrue =>
    have hcount : s.armed.count .trigger = 0 := by
      rw [h.trigger, hflag]
      rfl
    have hroom : Device.used { s with triggerTime := 0, triggerFlag := 0 } ≤ 10 := h.used_le
    rw [Device.triggerTimerStart, Device.sysTimeout, mempMalloc_of_room hroom]
    refine ⟨h.wired, ?_, Nat.le_refl 1, show 0 + 1 ≤ 151 by decide,
      (List.count_cons_of_ne (by decide)).trans h.ipReass,
      (List.count_cons_of_ne (by decide)).trans h.arp,
      (List.count_cons_of_ne (by decide)).trans h.tcp⟩
    change (Timer.trigger :: s.armed).count .trigger = 1
    rw [List.count_cons_self, hcount]

/-- The net is the only thing the TFTP server changes. -/
theorem timed_net (h : Timed s) {x : NetInput} (hread : x.ReadsOk) :
    Timed { s with net := s.net.step H x } :=
  ⟨wired_step h.wired hread, h.trigger, h.flag, h.time, h.ipReass, h.arp, h.tcp⟩

theorem fine_tick (h : Timed s) (k : Nat) (e : Env) : Fine (s.tick H k e) := by
  have hnext : Timed { s with net := s.net.step H (.tick k e) } := timed_net h trivial
  rw [Device.tick]
  split
  · rw [mempMalloc_of_room (Nat.le_trans (Nat.sub_le _ _) h.used_le)]
    exact hnext
  · exact hnext

theorem fine_udp (h : Timed s) {e : ReqEnv} (hread : e.lib.fRead = 0) (p : Pbuf) (addr : UInt32)
    (src dest : UInt16) : Fine (s.udp H e p addr src dest) := by
  have hnext : Timed { s with net := s.net.step H (.udp e p addr src dest) } := timed_net h hread
  have hpast : s.triggerTime.toNat ≤ 151 := Nat.le_trans (Nat.le_add_right _ _) h.time
  rw [Device.udp]
  split
  · split
    · rw [mempMalloc_of_room h.used_le]
      exact hnext
    · exact hnext
  · exact timed_disarm hnext hpast _
  · exact hnext
  · exact hnext

/-- No `fop.read` reports an error. -/
def DeviceInput.ReadsOk : DeviceInput → Prop
  | .udp e _ _ _ _ => e.lib.fRead = 0
  | .tick _ _ | .expire _ _ | .tcpTimerNeeded _ | .key _ => True

/-- **Step lemma.** -/
theorem fine_step (h : Timed s) {x : DeviceInput} (hread : x.ReadsOk) : Fine (s.step H x) := by
  cases x with
  | udp e p addr src dest => exact fine_udp h hread p addr src dest
  | tick k e => exact fine_tick h k e
  | expire t tcpPcbs => exact fine_expire h t tcpPcbs
  | tcpTimerNeeded tcpPcbs => exact fine_tcpTimerNeeded h tcpPcbs
  | key pbufAlloc =>
      rw [Device.step]
      split
      case isTrue hflag => exact fine_udpTrigger h hflag pbufAlloc
      case isFalse => exact h

theorem timed_init : Timed Device.init :=
  ⟨wired_init, rfl, Nat.zero_le 1, Nat.zero_le 151, rfl, rfl, rfl⟩

/-- **Run lemma.** -/
theorem fine_run {xs : List DeviceInput} (hread : ∀ x ∈ xs, x.ReadsOk) :
    Fine (run (exec H) (.ok Device.init) xs) := by
  refine run_inv (C := fun _ x => x.ReadsOk) ?_ timed_init (stepsMeet_of_forall ?_ _)
  · intro r x hr hx
    cases r with
    | ok s => exact fine_step hr hx
    | error halt => exact hr
  · intro x hx _
    exact hread x hx

end Timed

/-- Whatever the application does, no `sys_timeout` finds the pool empty: at most
    six connections have one entry each, `trigger_timeout` is armed as often as
    `ft_flag` says, and lwIP has at most three timers of its own. -/
theorem sysTimeout_finds_entry (H : Placement) (xs : List DeviceInput)
    (hread : ∀ x ∈ xs, x.ReadsOk) :
    run (exec H) (.ok Device.init) xs ≠ .error .poolEmpty ∧
      ∀ s, run (exec H) (.ok Device.init) xs = .ok s →
        s.tftpTimers = s.net.conns.countP (·.pcbLive) ∧ s.tftpTimers ≤ 6 ∧
        s.armed.count .trigger = s.ftFlag.toNat ∧ (s.ftFlag = 0 ∨ s.ftFlag = 1) ∧
        s.triggerTime.toNat ≤ 151 ∧
        s.armed.count .ipReass + s.armed.count .arp + s.armed.count .tcp ≤ 3 ∧
        s.used < mempNumSysTimeout := by
  have hfine : Fine (run (exec H) (.ok Device.init) xs) := fine_run hread
  constructor
  · intro hempty
    rw [hempty] at hfine
    exact nomatch hfine
  · intro s hs
    rw [hs] at hfine
    have h : Timed s := hfine
    have htcp : s.tcpTimerActive.toNat ≤ 1 := Bool.toNat_le _
    refine ⟨h.tftpTimers, ?_, h.trigger, ?_, ?_, ?_, ?_⟩
    · rw [h.tftpTimers]
      exact live_le_six h.wired
    · have hflag := h.flag
      have hcases : s.ftFlag.toNat = 0 ∨ s.ftFlag.toNat = 1 := by omega
      exact hcases.imp (fun h => UInt8.toNat_inj.mp h) (fun h => UInt8.toNat_inj.mp h)
    · exact Nat.le_trans (Nat.le_add_right _ _) h.time
    · rw [h.ipReass, h.arp, h.tcp]
      omega
    · exact Nat.lt_of_le_of_lt h.used_le (by decide)

/-- Blocks that lie too far apart for one to reach another. -/
def farApart : Placement := ⟨fun _ _ _ x => x, fun _ _ _ => rfl⟩

/-- The TCP timer is running, the key is pressed, and seven hosts ask for a file. -/
def busy : List DeviceInput :=
  [.tcpTimerNeeded true, .key true] ++
    [1, 2, 3, 4, 5, 6, 7].map fun addr => .udp (sampleReqEnv []) (sampleRq tftpWrq) addr 2 69

/-- The seventh request finds no pcb, so ten entries are in use. -/
theorem sysTimeout_finds_entry_busy :
    ∃ s, run (exec farApart) (.ok Device.init) busy = .ok s ∧ s.used = 10 ∧
      s.tftpTimers = s.net.conns.countP (·.pcbLive) ∧ s.tftpTimers ≤ 6 ∧
      s.used < mempNumSysTimeout := by
  have hread : ∀ x ∈ busy, x.ReadsOk := by
    simp [busy, DeviceInput.ReadsOk, sampleReqEnv, Env.ok]
  obtain ⟨s, hs, hused⟩ : ∃ s, run (exec farApart) (.ok Device.init) busy = .ok s ∧ s.used = 10 :=
    ⟨_, rfl, rfl⟩
  obtain ⟨hlive, hsix, -, -, -, -, hroom⟩ := (sysTimeout_finds_entry farApart busy hread).2 s hs
  exact ⟨s, hs, hused, hlive, hsix, hroom⟩

end McuFirmware.App
