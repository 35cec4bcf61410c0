/-
  McuFirmware.Lwip.Udp

  The active list of lwIP's UDP pcbs (`core/udp.c`): how `udp_input` chooses the
  pcb a datagram goes to, and how `udp_new_port` chooses a local port.

  Every pcb of the firmware is bound to `IP_ADDR_ANY`, so the local address
  matches and is left out.  `owner` stands for the receive callback of the pcb
  and its argument.
-/

import Mathlib.Data.List.Perm.Subperm
import Mathlib.Data.List.Nodup
import Mathlib.Logic.Function.Iterate

namespace McuFirmware.Lwip

/-- What `udp_input` reads of a `struct udp_pcb` on the list `udp_pcbs`. -/
structure ActivePcb (κ : Type _) where
  owner : κ
  localPort : UInt16
  remoteIp : UInt32
  remotePort : UInt16
  connected : Bool

section Input

variable {κ : Type _} {addr : UInt32} {src dest : UInt16}

/-- The pcb is connected to the sender of the datagram, or to any address. -/
def ActivePcb.FullMatch (pcb : ActivePcb κ) (addr : UInt32) (src : UInt16) : Prop :=
  pcb.remotePort = src ∧ (pcb.remoteIp = 0 ∨ pcb.remoteIp = addr)

instance (pcb : ActivePcb κ) (addr : UInt32) (src : UInt16) : Decidable (pcb.FullMatch addr src) :=
  inferInstanceAs (Decidable (_ ∧ _))

/-- The search loop of `udp_input` behind the pcbs `prev` (the last one first):
    the pcb found and the list, with a fully matching pcb moved to its front. -/
def udpSearch (addr : UInt32) (src dest : UInt16) (prev : List (ActivePcb κ))
    (uncon : Option (ActivePcb κ)) :
    List (ActivePcb κ) → Option (ActivePcb κ) × List (ActivePcb κ)
  | [] => (uncon, prev.reverse)
  | pcb :: rest =>
      if pcb.localPort = dest then
        let uncon := if !pcb.connected && uncon.isNone then some pcb else uncon
        if pcb.FullMatch addr src then (some pcb, pcb :: (prev.reverse ++ rest))
        else udpSearch addr src dest (pcb :: prev) uncon rest
      else udpSearch addr src dest (pcb :: prev) uncon rest

/-- `udp_input` up to the call of the receive callback: the pcb whose callback
    is called, if any, and the list it leaves. -/
def udpInput (pcbs : List (ActivePcb κ)) (addr : UInt32) (src dest : UInt16) :
    Option (ActivePcb κ) × List (ActivePcb κ) :=
  udpSearch addr src dest [] none pcbs

theorem udpSearch_perm (prev : List (ActivePcb κ)) (uncon : Option (ActivePcb κ))
    (rest : List (ActivePcb κ)) :
    (udpSearch addr src dest prev uncon rest).2.Perm (prev ++ rest) := by
  induction rest generalizing prev uncon with
  | nil =>
      rw [List.append_nil]
      exact prev.reverse_perm
  | cons pcb rest ih =>
      have hnext (uncon : Option (ActivePcb κ)) :
          (udpSearch addr src dest (pcb :: prev) uncon rest).2.Perm (prev ++ pcb :: rest) :=
        (ih (pcb :: prev) uncon).trans List.perm_middle.symm
      simp only [udpSearch]
      split
      · split
        · exact ((prev.reverse_perm.append_right rest).cons pcb).trans List.perm_middle.symm
        · exact hnext _
      · exact hnext _

/-- The list keeps its pcbs. -/
theorem udpInput_perm (pcbs : List (ActivePcb κ)) :
    (udpInput pcbs addr src dest).2.Perm pcbs :=
  udpSearch_perm [] none pcbs

/-- The pcb may get a datagram for `dest` from `addr` and `src`. -/
def ActivePcb.Admits (pcb : ActivePcb κ) (addr : UInt32) (src dest : UInt16) : Prop :=
  pcb.localPort = dest ∧ (pcb.FullMatch addr src ∨ pcb.connected = false)

theorem udpSearch_admits {prev rest : List (ActivePcb κ)} {uncon : Option (ActivePcb κ)}
    {pcb : ActivePcb κ} (h : (udpSearch addr src dest prev uncon rest).1 = some pcb)
    (huncon : ∀ q, uncon = some q → q ∈ prev ∧ q.Admits addr src dest) :
    pcb ∈ prev ++ rest ∧ pcb.Admits addr src dest := by
  induction rest generalizing prev uncon with
  | nil =>
      rw [List.append_nil]
      exact huncon pcb h
  | cons q rest ih =>
      have hnext {uncon' : Option (ActivePcb κ)}
          (h : (udpSearch addr src dest (q :: prev) uncon' rest).1 = some pcb)
          (huncon' : ∀ r, uncon' = some r → r ∈ q :: prev ∧ r.Admits addr src dest) :
          pcb ∈ prev ++ q :: rest ∧ pcb.Admits addr src dest := by
        obtain ⟨hin, hadmits⟩ := ih h huncon'
        exact ⟨List.perm_middle.mem_iff.mpr hin, hadmits⟩
      have hkeep (r : ActivePcb κ) (hr : uncon = some r) :
          r ∈ q :: prev ∧ r.Admits addr src dest :=
        ⟨List.mem_cons_of_mem q (huncon r hr).1, (huncon r hr).2⟩
      simp only [udpSearch] at h
      split at h
      case isFalse => exact hnext h hkeep
      case isTrue hport =>
        split at h
        case isTrue hfull =>
          obtain rfl : q = pcb := Option.some.inj h
          exact ⟨List.mem_append_right prev List.mem_cons_self, hport, .inl hfull⟩
        case isFalse =>
          refine hnext h (fun r hr => ?_)
          split at hr
          case isFalse => exact hkeep r hr
          case isTrue hfirst =>
            obtain rfl : q = r := Option.some.inj hr
            have hopen : q.connected = false := by
              simpa using (Bool.and_eq_true_iff.mp hfirst).1
            exact ⟨List.mem_cons_self, hport, .inr hopen⟩

/-- **Demultiplexing.**  The pcb chosen is on the list, bound to the destination
    port, and connected to the sender if it is connected. -/
theorem udpInput_admits {pcbs : List (ActivePcb κ)} {pcb : ActivePcb κ}
    (h : (udpInput pcbs addr src dest).1 = some pcb) :
    pcb ∈ pcbs ∧ pcb.Admits addr src dest :=
  udpSearch_admits h (fun _ hq => absurd hq (by simp))

end Input

-- ============================================================================
-- Local ports
-- ============================================================================

/-- `UDP_LOCAL_PORT_RANGE_START`; the range ends at `0xffff`. -/
def portRangeStart : UInt16 := 0xc000

/-- `if (udp_port++ == UDP_LOCAL_PORT_RANGE_END) udp_port = UDP_LOCAL_PORT_RANGE_START`. -/
def nextPort (port : UInt16) : UInt16 := if port = 0xffff then portRangeStart else port + 1

/-- `udp_new_port` with `tries` candidates left: the port, 0 if all of them are
    in use, and the new `udp_port`. -/
def udpNewPort (used : List UInt16) : Nat → UInt16 → UInt16 × UInt16
  | 0, udpPort => (0, udpPort)
  | tries + 1, udpPort =>
      let udpPort := nextPort udpPort
      if udpPort ∈ used then udpNewPort used tries udpPort else (udpPort, udpPort)

/-- The port lies in the range of local ports. -/
def InPortRange (port : UInt16) : Prop := 0xc000 ≤ port.toNat

section NewPort

variable {used : List UInt16} {port : UInt16}

/-- The position of a port in the range. -/
theorem toNat_nextPort (h : InPortRange port) :
    (nextPort port).toNat = 0xc000 + (port.toNat - 0xc000 + 1) % 16384 := by
  have hlt := port.toNat_lt
  rw [InPortRange] at h
  rw [nextPort]
  split
  case isTrue hend =>
    rw [hend]
    rfl
  case isFalse hend =>
    have hne : port.toNat ≠ 65535 := fun heq => hend (UInt16.toNat_inj.mp heq)
    rw [UInt16.toNat_add, UInt16.toNat_one]
    omega

theorem inPortRange_nextPort (h : InPortRange port) : InPortRange (nextPort port) := by
  rw [InPortRange, toNat_nextPort h]
  omega

/-- The `i`-th candidate. -/
theorem toNat_candidate (h : InPortRange port) (i : Nat) :
    InPortRange (nextPort^[i] port) ∧
      (nextPort^[i] port).toNat = 0xc000 + (port.toNat - 0xc000 + i) % 16384 := by
  have hlt := port.toNat_lt
  induction i with
  | zero =>
      refine ⟨h, ?_⟩
      rw [InPortRange] at h
      rw [Function.iterate_zero_apply]
      omega
  | succ i ih =>
      obtain ⟨hrange, hnat⟩ := ih
      rw [Function.iterate_succ_apply']
      refine ⟨inPortRange_nextPort hrange, ?_⟩
      rw [toNat_nextPort hrange, hnat]
      omega

/-- If the search fails, every candidate is in use. -/
theorem candidates_used {tries : Nat} (h : InPortRange port)
    (hfail : (udpNewPort used tries port).1 ∈ used ∨ (udpNewPort used tries port).1 = 0) :
    ∀ i < tries, nextPort^[i + 1] port ∈ used := by
  induction tries generalizing port with
  | zero => exact fun i hi => absurd hi (Nat.not_lt_zero i)
  | succ tries ih =>
      have hnext := inPortRange_nextPort h
      by_cases hused : nextPort port ∈ used
      · simp only [udpNewPort, if_pos hused] at hfail
        intro i hi
        cases i with
        | zero => exact hused
        | succ i => exact ih hnext hfail i (by omega)
      · simp only [udpNewPort, if_neg hused] at hfail
        rcases hfail with hin | hzero
        · exact absurd hin hused
        · rw [InPortRange, hzero] at hnext
          exact absurd hnext (by decide)

/-- **A free port.**  With fewer pcbs than candidates the port found is not in
    use, and not 0. -/
theorem udpNewPort_free {tries : Nat} (h : InPortRange port) (htries : tries ≤ 16384)
    (hroom : used.length < tries) :
    (udpNewPort used tries port).1 ∉ used ∧ (udpNewPort used tries port).1 ≠ 0 := by
  by_contra hfail
  rw [not_and_or, not_not, not_not] at hfail
  have hall := candidates_used h hfail
  -- the candidates are pairwise different, so the list is at least that long
  have hnodup : ((List.range tries).map fun i => nextPort^[i + 1] port).Nodup := by
    refine List.Nodup.map_on (fun i hi j hj heq => ?_) List.nodup_range
    have hnat := congrArg UInt16.toNat heq
    rw [(toNat_candidate h _).2, (toNat_candidate h _).2] at hnat
    rw [List.mem_range] at hi hj
    omega
  have hsub : ((List.range tries).map fun i => nextPort^[i + 1] port) ⊆ used := by
    intro q hq
    obtain ⟨i, hi, rfl⟩ := List.mem_map.mp hq
    exact hall i (List.mem_range.mp hi)
  have hle := hnodup.length_le_of_subset hsub
  rw [List.length_map, List.length_range] at hle
  omega

theorem inPortRange_udpNewPort {tries : Nat} (h : InPortRange port) :
    InPortRange (udpNewPort used tries port).2 := by
  induction tries generalizing port with
  | zero => exact h
  | succ tries ih =>
      simp only [udpNewPort]
      split
      · exact ih (inPortRange_nextPort h)
      · exact inPortRange_nextPort h

end NewPort

end McuFirmware.Lwip
