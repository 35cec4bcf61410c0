/-
  McuFirmware.Tftp.Exclusion

  Which connections have which file open.

  FatFs is configured without file locking (`_FS_LOCK 0`), and `ffconf.h` then
  leaves it to the application to avoid an illegal open of a file that is open
  already.  `request_recv_callback` opens the file of every request without a
  look at the connections that exist; the condition under which no file is
  written through one connection while another has it open is therefore a
  condition on the requests.

  A file is known here by the bytes of the name it was requested by.  FatFs takes
  names that differ in case, by a drive number `0:` or by leading slashes for the
  same file; such requests are not compared.
-/

import McuFirmware.Tftp.Server

namespace McuFirmware.Tftp

open McuFirmware.Lib McuFirmware.Lwip

namespace Conn

variable {c d : Conn}

/-- The connection is live and has a file open under exactly the bytes `name`. -/
def HasOpen (c : Conn) (name : List UInt8) : Prop := c.Live ∧ c.fil.name = name

/-- No file that `c` writes is open in `d`. -/
def KeepsOut (c d : Conn) : Prop := ∀ name, c.HasOpen name → c.fil.write = true → ¬ d.HasOpen name

/-- Two file objects were opened by the same call. -/
structure SameOpen (f g : Fil) : Prop where
  name : g.name = f.name
  write : g.write = f.write

/-- A step of a connection that stays live keeps the file it has open. -/
theorem sameOpen_step (h : c.Live) (i : Input) (hlive : (c.step i).Live) :
    SameOpen c.fil (c.step i).fil := by
  have hkept := kept_step h i hlive
  exact ⟨hkept.name, hkept.write⟩

/-- A step opens nothing: what a connection has open after it, it had open before. -/
theorem hasOpen_of_step (h : c.Settled) {i : Input} {name : List UInt8}
    (hopen : (c.step i).HasOpen name) :
    c.HasOpen name ∧ (c.step i).fil.write = c.fil.write := by
  rcases h with h | h
  · have hsame := sameOpen_step h i hopen.1
    exact ⟨⟨h, hsame.name.symm.trans hopen.2⟩, hsame.write⟩
  · rw [step_of_dead h] at hopen ⊢
    exact ⟨hopen, rfl⟩

/-- **Step lemma.**  A step of one connection keeps it apart from any other. -/
theorem keepsOut_step (h : c.Settled) (i : Input) (d : Conn) :
    (KeepsOut c d → KeepsOut (c.step i) d) ∧ (KeepsOut d c → KeepsOut d (c.step i)) := by
  constructor
  · intro hout name hopen hwrite
    obtain ⟨hopen', hwrite'⟩ := hasOpen_of_step h hopen
    exact hout name hopen' (hwrite'.symm.trans hwrite)
  · intro hout name hopen hwrite hopen'
    exact hout name hopen hwrite (hasOpen_of_step h hopen').1

/-- Two connections of which one has `name` open are apart iff the other does
    not have it open or both only read it. -/
theorem keepsOut_iff {name : List UInt8} (hc : c.HasOpen name) :
    (KeepsOut d c ∧ KeepsOut c d) ↔
      (d.HasOpen name → d.fil.write = false ∧ c.fil.write = false) := by
  constructor
  · rintro ⟨hdc, hcd⟩ hd
    refine ⟨Bool.eq_false_iff.mpr fun hwrite => hdc name hd hwrite hc, ?_⟩
    exact Bool.eq_false_iff.mpr fun hwrite => hcd name hc hwrite hd
  · intro h
    constructor
    · intro name' hd hwrite hc'
      obtain rfl : name' = name := hc'.2.symm.trans hc.2
      exact absurd hwrite (Bool.eq_false_iff.mp (h hd).1)
    · intro name' hc' hwrite hd
      obtain rfl : name' = name := hc'.2.symm.trans hc.2
      exact absurd hwrite (Bool.eq_false_iff.mp (h hd).2)

end Conn

-- ============================================================================
-- Requests
-- ============================================================================

/-- The file a request names. -/
def Rq.name (r : Rq) : List UInt8 := (filenameBytes r.p).takeWhile (· ≠ 0)

/-- A request that succeeds leaves a live connection with its file open, for
    writing iff it is a WRQ. -/
theorem open_of_succeeds {r : Rq} (h : r.Succeeds) :
    ∃ c, r.conn = some c ∧ c.HasOpen r.name ∧ c.fil.write = decide (r.p.u16 0 = tftpWrq) := by
  obtain ⟨⟨stale, hgranted⟩, hread⟩ := h
  have hlive := Conn.opened_live r.env r.p r.addr r.port stale
  rcases hgranted.opcode with hrrq | hwrq
  · exact ⟨_, request_granted_read hgranted hrrq (hread hrrq) r.addr r.port,
      ⟨Conn.live_after hlive, rfl⟩, rfl⟩
  · exact ⟨_, request_granted_write hgranted hwrq r.addr r.port,
      ⟨Conn.live_after hlive, rfl⟩, rfl⟩

/-- A request that succeeds names no file that is open, unless it and the
    connections that have the file open only read it. -/
def OpensFree (l : List Conn) : ServerInput → Prop
  | .spawn r => r.Succeeds → ∀ c ∈ l, c.HasOpen r.name →
      c.fil.write = false ∧ r.p.u16 0 = tftpRrq
  | .deliver _ _ => True

/-- No file is open for writing in one connection while another has it open. -/
def WriteExclusive (l : List Conn) : Prop := Apart Conn.KeepsOut l

/-- **Step lemma.**  One step keeps the files apart iff it opens none that is
    open already. -/
theorem writeExclusive_step {l : List Conn} (hl : ∀ c ∈ l, c.Settled) (h : WriteExclusive l)
    (x : ServerInput) : WriteExclusive (serverStep l x) ↔ OpensFree l x := by
  cases x with
  | deliver k i =>
      refine iff_of_true (apart_modify k ?_ h) trivial
      intro c hc d
      exact Conn.keepsOut_step (hl c hc) i d
  | spawn r =>
      show Apart Conn.KeepsOut (l ++ r.conn.toList) ↔ _
      by_cases hr : r.Succeeds
      · obtain ⟨c, hconn, hopen, hwrite⟩ := open_of_succeeds hr
        have hread : c.fil.write = false ↔ r.p.u16 0 = tftpRrq := by
          obtain ⟨⟨stale, hgranted⟩, -⟩ := hr
          rw [hwrite, decide_eq_false_iff_not]
          constructor
          · exact hgranted.opcode.resolve_right
          · intro hrrq hwrq
            exact tftpRrq_ne_wrq (hrrq.symm.trans hwrq)
        rw [hconn, Option.toList_some, apart_concat, OpensFree]
        simp only [Conn.keepsOut_iff hopen, hread]
        exact ⟨fun hall _ => hall.2, fun hall => ⟨h, hall hr⟩⟩
      · refine iff_of_true ?_ fun hr' => absurd hr' hr
        cases hconn : r.conn with
        | none =>
            rw [Option.toList_none, List.append_nil]
            exact h
        | some c =>
            have hdead (name : List UInt8) : ¬ c.HasOpen name := fun hopen =>
              hr (succeeds_of_live hconn hopen.1)
            rw [Option.toList_some, apart_concat]
            refine ⟨h, fun d _ => ⟨fun name _ _ hopen => hdead name hopen, ?_⟩⟩
            exact fun name hopen => absurd hopen (hdead name)

/-- **Exclusion.**  In every state of a run of the server, with any interleaving
    of requests, datagrams, ticks and failures, no file is written through one
    live connection while another has it open, exactly when no request that
    succeeds names a file some live connection has open, both only reading it
    apart. -/
theorem writeExclusive_iff (xs : List ServerInput) :
    (∀ pre post, xs = pre ++ post → WriteExclusive (run serverStep [] pre)) ↔
      StepsMeet serverStep OpensFree [] xs := by
  have hnil : ∀ c ∈ ([] : List Conn), c.Settled := List.forall_mem_nil _
  exact always_iff_stepsMeet_of_inv (fun l x hl => settled_serverStep l x hl)
    (fun l x hl h => writeExclusive_step hl h x) hnil apart_nil

/-- A client that did not get the first ACK sends its WRQ again: two live
    connections write the same file. -/
theorem repeated_wrq_shares :
    ¬ WriteExclusive (run serverStep []
      [.spawn ⟨sampleReqEnv [], sampleRq tftpWrq, 1, 2⟩,
        .spawn ⟨sampleReqEnv [], sampleRq tftpWrq, 1, 2⟩]) := by
  have hr : Rq.Succeeds ⟨sampleReqEnv [], sampleRq tftpWrq, 1, 2⟩ :=
    ⟨⟨_, granted_sample [] (.inr rfl)⟩, fun _ => rfl⟩
  obtain ⟨c, hconn, hopen, hwrite⟩ := open_of_succeeds hr
  have hrun : run serverStep [] [.spawn ⟨sampleReqEnv [], sampleRq tftpWrq, 1, 2⟩,
      .spawn ⟨sampleReqEnv [], sampleRq tftpWrq, 1, 2⟩] = [c, c] := by
    simp only [run_cons, run_nil, serverStep, familyStep, hconn]
    rfl
  rw [hrun]
  intro hall
  exact hall 0 1 c c (by decide) rfl rfl _ hopen (hwrite.trans (by decide)) hopen

end McuFirmware.Tftp
