/-
  McuFirmware.Lwip.Datagram

  A UDP datagram on its way down one stack and up another: the headers that
  `udp_sendto_if_src` and `ip4_output_if_src` put in front of the data, how
  `ip4_frag` cuts a packet that is longer than the MTU, and the checks of
  `ip4_input` and `udp_input` on what arrives (`core/udp.c`, `core/ipv4/ip4.c`,
  `core/ipv4/ip4_frag.c`).

  Addresses are the `u32_t` of their four bytes in memory, least significant byte
  first.  A received packet is one pbuf, as the driver allocates it: its bytes,
  and behind them whatever the memory holds (`beyond`), which the code reads
  before it checks the length.
-/

import McuFirmware.Lwip.Chksum
import McuFirmware.Lwip.Udp

namespace McuFirmware.Lwip

open McuFirmware.Lib

-- ============================================================================
-- Fields
-- ============================================================================

/-- A `u16_t` in memory. -/
def le16 (v : Nat) : List UInt8 := [UInt8.ofNat v, UInt8.ofNat (v / 256)]

/-- A `u32_t` in memory. -/
def le32 (v : Nat) : List UInt8 :=
  [UInt8.ofNat v, UInt8.ofNat (v / 256), UInt8.ofNat (v / 65536), UInt8.ofNat (v / 16777216)]

/-- The byte at an offset of the packet. -/
def byteAt (bs : List UInt8) (beyond : Nat → UInt8) (i : Nat) : Nat := (bs.getD i (beyond i)).toNat

/-- `lwip_ntohs` of the field at an offset. -/
def netWord (bs : List UInt8) (beyond : Nat → UInt8) (i : Nat) : Nat :=
  256 * byteAt bs beyond i + byteAt bs beyond (i + 1)

/-- The address at an offset. -/
def addrAt (bs : List UInt8) (beyond : Nat → UInt8) (i : Nat) : Nat :=
  byteAt bs beyond i + 256 * byteAt bs beyond (i + 1) + 65536 * byteAt bs beyond (i + 2) +
    16777216 * byteAt bs beyond (i + 3)

-- ============================================================================
-- Sending
-- ============================================================================

/-- `pbuf_header(p, n)` filled with `hdr`, or a header pbuf of its own at `spare`
    where the first pbuf has no room. -/
def prepend (room : Bool) (spare : Nat) (hdr : List UInt8) (chain : List Seg) : List Seg :=
  if room then
    match chain with
    | [] => [⟨spare, hdr⟩]
    | q :: qs => ⟨q.addr - hdr.length, hdr ++ q.data⟩ :: qs
  else if (chainBytes chain).length ≠ 0 then ⟨spare, hdr⟩ :: chain
  else [⟨spare, hdr⟩]

/-- `struct udp_hdr`. -/
def udpHeader (src dest len chksum : Nat) : List UInt8 :=
  le16 (swap16 src) ++ le16 (swap16 dest) ++ le16 (swap16 len) ++ le16 chksum

/-- `udp_sendto_if_src` up to `ip_output_if_src`: the chain that is sent. -/
def udpSendto (room : Bool) (spare : Nat) (chain : List Seg) (localPort dstPort srcIp dstIp : Nat) :
    List Seg :=
  let totLen := 8 + (chainBytes chain).length
  let udpchksum := inetChksumPseudo
    (prepend room spare (udpHeader localPort dstPort totLen 0) chain) 17 totLen srcIp dstIp
  let udpchksum := if udpchksum = 0 then 0xffff else udpchksum
  prepend room spare (udpHeader localPort dstPort totLen udpchksum) chain

/-- `struct ip_hdr` without options. -/
def ip4Header (tos totLen id ttl proto chksum src dest : Nat) : List UInt8 :=
  [0x45, UInt8.ofNat tos] ++ le16 (swap16 totLen) ++ le16 (swap16 id) ++ le16 0 ++
    [UInt8.ofNat ttl, UInt8.ofNat proto] ++ le16 chksum ++ le32 src ++ le32 dest

/-- The header checksum, summed while the header is filled in. -/
def ip4ChkSum (tos totLen id ttl proto src dest : Nat) : Nat :=
  let s := swap16 (proto + 256 * ttl) + dest % 65536 + dest / 65536 +
    swap16 (tos + 256 * 0x45) + swap16 totLen + swap16 id + src % 65536 + src / 65536
  let s := s / 65536 + s % 65536
  let s := s / 65536 + s
  65535 - s % 65536

/-- The chain with the header that `ip4_output_if_opt_src` fills in, at the front of
    its first pbuf. -/
def ip4Packet (chain : List Seg) (tos id ttl proto src dest : Nat) : List Seg :=
  let totLen := (20 + (chainBytes chain).length) % 2 ^ 16
  prepend true 0
    (ip4Header tos totLen id ttl proto (ip4ChkSum tos totLen id ttl proto src dest) src dest) chain

/-- A field of the header is overwritten. -/
def setBytes (h : List UInt8) (i : Nat) (bs : List UInt8) : List UInt8 :=
  h.take i ++ bs ++ h.drop (i + bs.length)

/-- `IPH_CHKSUM_SET(iphdr, 0)`, then with `inet_chksum(iphdr, IP_HLEN)`. -/
def resum (h : List UInt8) : List UInt8 :=
  setBytes h 10 (le16 (inetChksum 0 (setBytes h 10 [0, 0])))

/-- The header with its length and offset fields set, in host order. -/
def rewriteHeader (h : List UInt8) (len off : Nat) : List UInt8 :=
  resum (setBytes (setBytes h 6 (le16 (swap16 off))) 2 (le16 (swap16 len)))

/-- `IPH_HL(iphdr) * 4`. -/
def headerLen (h : List UInt8) : Nat := byteAt h (fun _ => 0) 0 % 16 * 4

/-- The offset field in units of 8 bytes. -/
def offsetField (h : List UInt8) : Nat := netWord h (fun _ => 0) 6 % 0x2000

/-- `IP_MF` is set. -/
def moreFragments (h : List UInt8) : Bool := netWord h (fun _ => 0) 6 / 0x2000 % 2 == 1

/-- The inner loop of `ip4_frag`: `left` bytes of the chain, whose first `poff`
    bytes are done, and where it stands afterwards. -/
def copyFrag (left poff : Nat) : List Seg → List UInt8 × List Seg × Nat
  | [] => ([], [], poff)
  | q :: qs =>
      let newpbuflen := min left (q.data.length - poff)
      let bytes := (q.data.drop poff).take newpbuflen
      if newpbuflen = 0 then copyFrag left 0 qs
      else if left - newpbuflen = 0 then (bytes, q :: qs, poff + newpbuflen)
      else
        let (more, rest) := copyFrag (left - newpbuflen) 0 qs
        (bytes ++ more, rest)

/-- The outer loop of `ip4_frag`. -/
def fragLoop (mtu : Nat) (hdr : List UInt8) : Nat → List Seg → Nat → Nat → Nat → List (List UInt8)
  | 0, _, _, _, _ => []
  | fuel + 1, p, poff, left, ofo =>
      if left = 0 then []
      else
        let nfb := (mtu - 20) / 8
        let fragsize := min left (nfb * 8)
        let (bytes, p', poff') := copyFrag fragsize poff p
        let tmp := ofo % 0x2000 + if left ≤ mtu - 20 then 0 else 0x2000
        (rewriteHeader hdr (fragsize + 20) tmp ++ bytes) ::
          fragLoop mtu hdr fuel p' poff' (left - fragsize) (ofo + nfb)

/-- `ip4_frag`, where no allocation fails: the fragments it sends, or `ERR_VAL`.
    A turn of the loop sends at least one byte. -/
def ip4Frag (mtu : Nat) (chain : List Seg) : Option (List (List UInt8)) :=
  let hdr := (chainBytes chain).take 20
  if headerLen hdr ≠ 20 then none
  else if moreFragments hdr then none
  else
    let left := ((chainBytes chain).length + (2 ^ 16 - 20)) % 2 ^ 16
    some (fragLoop mtu hdr left chain 20 left (offsetField hdr))

/-- `ip4_output_if_opt_src` of a packet without options, whose first pbuf has room
    for the header: the packets that go to `netif->output`, or the error of
    `ip4_frag`. -/
def ip4Output (mtu : Nat) (chain : List Seg) (tos id ttl proto src dest : Nat) :
    Option (List (List UInt8)) :=
  let p := ip4Packet chain tos id ttl proto src dest
  if mtu ≠ 0 ∧ mtu < (chainBytes p).length % 2 ^ 16 then ip4Frag mtu p else some [chainBytes p]

-- ============================================================================
-- Receiving
-- ============================================================================

/-- What `ip4_input` reads of the interface. -/
structure Netif where
  up : Bool
  broadcast : Bool
  ip : Nat
  netmask : Nat

/-- `ip4_addr_isbroadcast_u32`. -/
def Netif.isBroadcast (inp : Netif) (addr : Nat) : Bool :=
  if addr = 0xffffffff ∨ addr = 0 then true
  else if inp.broadcast = false then false
  else if addr = inp.ip then false
  else (addr &&& inp.netmask) == (inp.ip &&& inp.netmask) &&
    (addr &&& (0xffffffff - inp.netmask)) == 0xffffffff - inp.netmask

/-- `ip4_addr_ismulticast`: the first byte is 224 to 239. -/
def isMulticast (addr : Nat) : Bool := addr % 256 / 16 == 14

/-- The packet is for this interface, the only one there is. -/
def Netif.accepts (inp : Netif) (dest : Nat) : Bool :=
  inp.up && inp.ip != 0 && (isMulticast dest || dest == inp.ip || inp.isBroadcast dest)

/-- What becomes of an IP packet. -/
inductive Ip4Verdict where
  | drop
  | fragment (packet : List UInt8)
  | deliver (proto src dest : Nat) (payload : List UInt8)
deriving DecidableEq

/-- `ip4_input` up to `ip4_reass` or the transport protocol. -/
def ip4Input (inp : Netif) (addr : Nat) (beyond : Nat → UInt8) (packet : List UInt8) : Ip4Verdict :=
  let get := byteAt packet beyond
  if get 0 / 16 ≠ 4 then .drop
  else
    let hlen := get 0 % 16 * 4
    let len := netWord packet beyond 2
    let packet' := if len < packet.length then packet.take len else packet
    if packet'.length < hlen ∨ packet'.length < len ∨ hlen < 20 then .drop
    else if inetChksum addr (packet'.take hlen) ≠ 0 then .drop
    else
      let src := addrAt packet beyond 12
      let dest := addrAt packet beyond 16
      if inp.isBroadcast src || isMulticast src then .drop
      else if inp.accepts dest = false then .drop
      else if netWord packet beyond 6 % 0x4000 ≠ 0 then .fragment packet'
      else .deliver (get 9) src dest (packet'.drop hlen)

/-- The check of `udp_input` on the datagram `p`. -/
def udpChecks (addr srcIp dstIp : Nat) (p : List UInt8) : Bool :=
  let get := byteAt p fun _ => 0
  get 6 + 256 * get 7 == 0 || inetChksumPseudo [⟨addr, p⟩] 17 p.length srcIp dstIp == 0

/-- `udp_input`: the pcb whose callback gets the data, the sender's port, the
    data, and the list of pcbs. -/
def udpReceive {κ : Type _} (inp : Netif) (pcbs : List (ActivePcb κ)) (addr srcIp dstIp : Nat)
    (p : List UInt8) : Option (ActivePcb κ × Nat × List UInt8) × List (ActivePcb κ) :=
  if p.length < 8 then (none, pcbs)
  else
    let src := netWord p (fun _ => 0) 0
    let dest := netWord p (fun _ => 0) 2
    let found := udpInput pcbs (UInt32.ofNat srcIp) (UInt16.ofNat src) (UInt16.ofNat dest)
    let forUs := found.1.isSome || inp.ip == dstIp
    if forUs && udpChecks addr srcIp dstIp p then
      (found.1.map fun pcb => (pcb, src, p.drop 8), found.2)
    else (none, found.2)

-- ============================================================================
-- Headers as sums
-- ============================================================================

@[simp] theorem length_le16 (v : Nat) : (le16 v).length = 2 := rfl

@[simp] theorem length_udpHeader (src dest len chksum : Nat) :
    (udpHeader src dest len chksum).length = 8 := rfl

@[simp] theorem length_ip4Header (tos totLen id ttl proto chksum src dest : Nat) :
    (ip4Header tos totLen id ttl proto chksum src dest).length = 20 := rfl

/-- A word in front is added as it is. -/
theorem leNat_le16 {v : Nat} (hv : v < 65536) (bs : List UInt8) :
    OcEq (leNat (le16 v ++ bs)) (v + leNat bs) := by
  have hpair := leNat_pair (UInt8.ofNat v) (UInt8.ofNat (v / 256)) bs
  rw [UInt8.toNat_ofNat', UInt8.toNat_ofNat'] at hpair
  have hword : v % 2 ^ 8 + 256 * (v / 256 % 2 ^ 8) = v := by omega
  rwa [hword] at hpair

theorem leNat_words {ws : List Nat} (h : ∀ w ∈ ws, w < 65536) (bs : List UInt8) :
    OcEq (leNat (ws.flatMap le16 ++ bs)) (ws.foldr (· + ·) (leNat bs)) := by
  induction ws with
  | nil => exact OcEq.refl _
  | cons w ws ih =>
      obtain ⟨hw, hws⟩ := List.forall_mem_cons.mp h
      rw [List.flatMap_cons, List.append_assoc, List.foldr_cons]
      exact (leNat_le16 hw _).trans ((OcEq.refl w).add (ih hws))

theorem le32_eq (v : Nat) : le32 v = le16 (v % 65536) ++ le16 (v / 65536) := by
  have hlow : UInt8.ofNat (v % 65536) = UInt8.ofNat v := by
    apply UInt8.toNat_inj.mp
    rw [UInt8.toNat_ofNat', UInt8.toNat_ofNat']
    omega
  have hhigh : UInt8.ofNat (v % 65536 / 256) = UInt8.ofNat (v / 256) := by
    apply UInt8.toNat_inj.mp
    rw [UInt8.toNat_ofNat', UInt8.toNat_ofNat']
    omega
  have htop : v / 65536 / 256 = v / 16777216 := by omega
  rw [le32, le16, le16, hlow, hhigh, htop]
  rfl

/-- Two bytes of the header that are summed as one word. -/
theorem pair_eq_le16 {hi lo : Nat} (hhi : hi < 256) (hlo : lo < 256) :
    [UInt8.ofNat hi, UInt8.ofNat lo] = le16 (swap16 (lo + 256 * hi)) := by
  have hword : swap16 (lo + 256 * hi) = lo * 256 + hi := by
    rw [swap16]
    omega
  have hfirst : UInt8.ofNat (lo * 256 + hi) = UInt8.ofNat hi := by
    apply UInt8.toNat_inj.mp
    rw [UInt8.toNat_ofNat', UInt8.toNat_ofNat']
    omega
  have hsecond : (lo * 256 + hi) / 256 = lo := by omega
  rw [hword, le16, hfirst, hsecond]

theorem leNat_udpHeader {src dest len chksum : Nat} (hchk : chksum < 65536) (bs : List UInt8) :
    OcEq (leNat (udpHeader src dest len chksum ++ bs))
      (swap16 src + swap16 dest + swap16 len + leNat bs + chksum) := by
  have hsum := leNat_words
    (show ∀ w ∈ [swap16 src, swap16 dest, swap16 len, chksum], w < 65536 by simp [swap16_lt, hchk]) bs
  have hcomm : swap16 src + swap16 dest + swap16 len + leNat bs + chksum =
      [swap16 src, swap16 dest, swap16 len, chksum].foldr (· + ·) (leNat bs) := by
    simp only [List.foldr_cons, List.foldr_nil]
    omega
  rw [hcomm]
  exact hsum

-- ============================================================================
-- UDP
-- ============================================================================

section Udp

variable {chain : List Seg} {room : Bool} {spare : Nat} {hdr : List UInt8}

theorem chainBytes_prepend : chainBytes (prepend room spare hdr chain) = hdr ++ chainBytes chain := by
  cases room with
  | true =>
      cases chain with
      | nil => simp [prepend, chainBytes]
      | cons q qs => simp [prepend, chainBytes]
  | false =>
      rw [prepend.eq_def, if_neg Bool.false_ne_true]
      split
      · simp [chainBytes]
      next hempty =>
        have hnil : chainBytes chain = [] := List.length_eq_zero_iff.mp (by omega)
        rw [hnil]
        simp [chainBytes]

theorem length_le_chainBytes {q : Seg} (h : q ∈ chain) :
    q.data.length ≤ (chainBytes chain).length := by
  obtain ⟨xs, ys, rfl⟩ := List.append_of_mem h
  simp only [chainBytes, List.map_append, List.map_cons, List.flatten_append, List.flatten_cons,
    List.length_append]
  omega

/-- The bytes of a datagram sent, and that its checksum field completes the sum. -/
theorem udpSendto_spec (room : Bool) (spare localPort dstPort : Nat) {srcIp dstIp : Nat}
    (hlen : 8 + (chainBytes chain).length ≤ 65535) (hsrc : srcIp < 2 ^ 32) (hdst : dstIp < 2 ^ 32) :
    ∃ chksum, 0 < chksum ∧ chksum < 65536 ∧
      chainBytes (udpSendto room spare chain localPort dstPort srcIp dstIp) =
        udpHeader localPort dstPort (8 + (chainBytes chain).length) chksum ++ chainBytes chain ∧
      OcEq (pseudoSum 17 (8 + (chainBytes chain).length) srcIp dstIp +
        leNat (udpHeader localPort dstPort (8 + (chainBytes chain).length) chksum ++
          chainBytes chain)) 65535 := by
  generalize htot : 8 + (chainBytes chain).length = totLen at hlen ⊢
  have hsegs : ∀ q ∈ prepend room spare (udpHeader localPort dstPort totLen 0) chain,
      q.data.length ≤ 65535 := by
    intro q hq
    have hle := length_le_chainBytes hq
    rw [chainBytes_prepend, List.length_append, length_udpHeader] at hle
    omega
  obtain ⟨sum, hlt, hcall, hsum⟩ := inetChksumPseudo_spec 17 totLen hsegs hsrc hdst
  rw [chainBytes_prepend] at hsum
  have hbase := hsum.trans ((OcEq.refl _).add (leNat_udpHeader (by decide) _))
  rw [Nat.add_zero] at hbase
  refine ⟨if 65535 - sum = 0 then 0xffff else 65535 - sum, ?_, ?_, ?_, ?_⟩
  · split <;> omega
  · split <;> omega
  · rw [udpSendto, htot, hcall]
    exact chainBytes_prepend
  · have hck : (if 65535 - sum = 0 then 0xffff else 65535 - sum) < 65536 := by split <;> omega
    refine ((OcEq.refl _).add (leNat_udpHeader hck _)).trans ?_
    rw [← Nat.add_assoc]
    split
    next hfull =>
      -- the sum was 65535, which is zero, and so is 0xffff
      have hsum' : sum = 65535 := by omega
      rw [hsum'] at hbase
      exact (hbase.symm.add (OcEq.refl 0xffff)).trans ⟨by decide, by decide⟩
    next => exact hbase.complement hlt

end Udp

/-- The check of a receiver, on the bytes of the datagram alone. -/
theorem inetChksumPseudo_eq_zero_iff (addr : Nat) {proto src dest : Nat} {p : List UInt8}
    (hlen : p.length ≤ 65535) (hsrc : src < 2 ^ 32) (hdest : dest < 2 ^ 32) :
    inetChksumPseudo [⟨addr, p⟩] proto p.length src dest = 0 ↔
      OcEq (pseudoSum proto p.length src dest + leNat p) 65535 := by
  have hsegs : ∀ q ∈ [Seg.mk addr p], q.data.length ≤ 65535 := by
    intro q hq
    rw [List.mem_singleton.mp hq]
    exact hlen
  obtain ⟨sum, hlt, hcall, hsum⟩ := inetChksumPseudo_spec proto p.length hsegs hsrc hdest
  have hbytes : chainBytes [⟨addr, p⟩] = p := by simp [chainBytes]
  rw [hbytes] at hsum
  rw [hcall]
  constructor
  · intro hzero
    have hfull : sum = 65535 := by omega
    rw [hfull] at hsum
    exact hsum.symm
  · intro hfull
    have heq := (hsum.trans hfull).eq_of_lt hlt (by decide)
    omega

/-- A datagram sent passes the receiver's check, wherever it lies there. -/
theorem udpChecks_udpSendto {chain : List Seg} (room : Bool) (spare localPort dstPort : Nat)
    {srcIp dstIp : Nat} (addr : Nat)
    (hlen : 8 + (chainBytes chain).length ≤ 65535) (hsrc : srcIp < 2 ^ 32) (hdst : dstIp < 2 ^ 32) :
    udpChecks addr srcIp dstIp
      (chainBytes (udpSendto room spare chain localPort dstPort srcIp dstIp)) = true := by
  obtain ⟨chksum, -, -, hbytes, hsum⟩ :=
    udpSendto_spec room spare localPort dstPort hlen hsrc hdst
  rw [hbytes]
  generalize hp : udpHeader localPort dstPort (8 + (chainBytes chain).length) chksum ++
    chainBytes chain = p at hsum ⊢
  have hplen : p.length = 8 + (chainBytes chain).length := by
    rw [← hp, List.length_append, length_udpHeader]
  rw [← hplen] at hsum
  have hzero := (inetChksumPseudo_eq_zero_iff addr (by omega) hsrc hdst).mpr hsum
  rw [udpChecks, hzero]
  exact Bool.or_true _

-- ============================================================================
-- IP
-- ============================================================================

section Ip

variable {tos totLen id ttl proto chksum src dest : Nat}

theorem leNat_ip4Header (totLen id : Nat) (htos : tos < 256) (httl : ttl < 256) (hproto : proto < 256)
    (hchk : chksum < 65536) (hsrc : src < 2 ^ 32) (hdest : dest < 2 ^ 32) :
    OcEq (leNat (ip4Header tos totLen id ttl proto chksum src dest))
      (swap16 (proto + 256 * ttl) + dest % 65536 + dest / 65536 + swap16 (tos + 256 * 0x45) +
        swap16 totLen + swap16 id + src % 65536 + src / 65536 + chksum) := by
  have hwords : ip4Header tos totLen id ttl proto chksum src dest =
      [swap16 (tos + 256 * 0x45), swap16 totLen, swap16 id, 0, swap16 (proto + 256 * ttl), chksum,
        src % 65536, src / 65536, dest % 65536, dest / 65536].flatMap le16 ++ [] := by
    have hfirst : [0x45, UInt8.ofNat tos] = le16 (swap16 (tos + 256 * 0x45)) :=
      pair_eq_le16 (by decide) htos
    rw [ip4Header, hfirst, pair_eq_le16 httl hproto, le32_eq, le32_eq]
    rfl
  have hlt : ∀ w ∈ [swap16 (tos + 256 * 0x45), swap16 totLen, swap16 id, 0,
      swap16 (proto + 256 * ttl), chksum, src % 65536, src / 65536, dest % 65536, dest / 65536],
      w < 65536 := by
    simp only [List.forall_mem_cons, swap16_lt, hchk, true_and]
    refine ⟨by decide, by omega, by omega, by omega, by omega, fun w hw => ?_⟩
    exact absurd hw List.not_mem_nil
  have hsum := leNat_words hlt []
  rw [hwords]
  refine hsum.trans ?_
  simp only [List.foldr_cons, List.foldr_nil, leNat]
  exact ⟨by omega, by omega⟩

/-- The code folds the carries in twice and keeps the low half. -/
theorem ip4ChkSum_spec (tos totLen id ttl proto : Nat) (hsrc : src < 2 ^ 32)
    (hdest : dest < 2 ^ 32) :
    ∃ sum < 65536, ip4ChkSum tos totLen id ttl proto src dest = 65535 - sum ∧
      OcEq sum (swap16 (proto + 256 * ttl) + dest % 65536 + dest / 65536 +
        swap16 (tos + 256 * 0x45) + swap16 totLen + swap16 id + src % 65536 + src / 65536) := by
  generalize hs : swap16 (proto + 256 * ttl) + dest % 65536 + dest / 65536 +
    swap16 (tos + 256 * 0x45) + swap16 totLen + swap16 id + src % 65536 + src / 65536 = s
  have hbound : s < 2 ^ 32 := by
    have h0 := swap16_lt (proto + 256 * ttl)
    have h1 := swap16_lt (tos + 256 * 0x45)
    have h2 := swap16_lt totLen
    have h3 := swap16_lt id
    omega
  have hlt := fold16_fold16_lt hbound
  refine ⟨fold16 (fold16 s), hlt, ?_, (OcEq.fold _).trans (OcEq.fold _)⟩
  rw [ip4ChkSum, hs]
  rw [fold16, fold16] at hlt ⊢
  omega

/-- The sum of the header fields completes the header to 65535. -/
theorem ip4Header_sum (totLen id : Nat) (htos : tos < 256) (httl : ttl < 256) (hproto : proto < 256)
    (hsrc : src < 2 ^ 32) (hdest : dest < 2 ^ 32) :
    OcEq (leNat (ip4Header tos totLen id ttl proto (ip4ChkSum tos totLen id ttl proto src dest)
      src dest)) 65535 := by
  obtain ⟨sum, hlt, hcall, hsum⟩ := ip4ChkSum_spec tos totLen id ttl proto hsrc hdest
  rw [hcall]
  refine (leNat_ip4Header totLen id htos httl hproto (by omega) hsrc hdest).trans ?_
  exact hsum.complement hlt

/-- A field in network order. -/
theorem toNat_swap16 {v : Nat} (h : v < 65536) :
    256 * (UInt8.ofNat (swap16 v)).toNat + (UInt8.ofNat (swap16 v / 256)).toNat = v := by
  have hlow : swap16 v % 256 = v / 256 := by
    rw [swap16]
    omega
  have hhigh : swap16 v / 256 = v % 256 := by
    rw [swap16]
    omega
  rw [UInt8.toNat_ofNat', UInt8.toNat_ofNat', hhigh]
  omega

theorem toNat_le32 {v : Nat} (h : v < 2 ^ 32) :
    (UInt8.ofNat v).toNat + 256 * (UInt8.ofNat (v / 256)).toNat +
      65536 * (UInt8.ofNat (v / 65536)).toNat + 16777216 * (UInt8.ofNat (v / 16777216)).toNat = v := by
  rw [UInt8.toNat_ofNat', UInt8.toNat_ofNat', UInt8.toNat_ofNat', UInt8.toNat_ofNat']
  omega

theorem inetChksum_eq_zero {addr : Nat} {bs : List UInt8} (hlen : bs.length ≤ 65535)
    (hsum : OcEq (leNat bs) 65535) : inetChksum addr bs = 0 := by
  obtain ⟨hcall, hlt⟩ := chksum_spec addr hlen
  have hfull := (hcall.trans hsum).eq_of_lt hlt (by decide)
  rw [inetChksum, hfull]

/-- The bytes of a packet whose length fits into its field. -/
theorem chainBytes_ip4Packet {chain : List Seg} (hlen : 20 + (chainBytes chain).length < 65536) :
    chainBytes (ip4Packet chain tos id ttl proto src dest) =
      ip4Header tos (20 + (chainBytes chain).length) id ttl proto
        (ip4ChkSum tos (20 + (chainBytes chain).length) id ttl proto src dest) src dest ++
          chainBytes chain := by
  have htot : (20 + (chainBytes chain).length) % 2 ^ 16 = 20 + (chainBytes chain).length :=
    Nat.mod_eq_of_lt hlen
  rw [ip4Packet, htot, chainBytes_prepend]

/-- A packet no longer than the MTU goes out as it is. -/
theorem ip4Output_eq_single {mtu : Nat} {chain : List Seg}
    (hlen : 20 + (chainBytes chain).length < 65536) (hmtu : 20 + (chainBytes chain).length ≤ mtu) :
    ip4Output mtu chain tos id ttl proto src dest =
      some [chainBytes (ip4Packet chain tos id ttl proto src dest)] := by
  rw [ip4Output, if_neg]
  rw [chainBytes_ip4Packet hlen, List.length_append, length_ip4Header]
  omega

/-- A packet sent to an address the interface accepts is delivered as it was sent,
    whatever the link layer left behind it. -/
theorem ip4Input_ip4Packet {inp : Netif} {chain : List Seg} (addr : Nat) (beyond : Nat → UInt8)
    (pad : List UInt8) (htos : tos < 256) (httl : ttl < 256) (hproto : proto < 256)
    (hsrc : src < 2 ^ 32) (hdest : dest < 2 ^ 32) (hlen : 20 + (chainBytes chain).length < 65536)
    (hsender : (inp.isBroadcast src || isMulticast src) = false)
    (haccepts : inp.accepts dest = true) :
    ip4Input inp addr beyond
        (chainBytes (ip4Packet chain tos id ttl proto src dest) ++ pad) =
      .deliver proto src dest (chainBytes chain) := by
  rw [chainBytes_ip4Packet hlen]
  generalize hchk : ip4ChkSum tos (20 + (chainBytes chain).length) id ttl proto src dest = chksum
  have hsum := ip4Header_sum (20 + (chainBytes chain).length) id htos httl hproto hsrc hdest
  rw [hchk] at hsum
  generalize hdata : chainBytes chain = data at *
  generalize hpkt : ip4Header tos (20 + data.length) id ttl proto chksum src dest ++ data ++ pad = pkt
  have hfirst : byteAt pkt beyond 0 = 0x45 := by
    rw [← hpkt]
    rfl
  have htot : netWord pkt beyond 2 = 20 + data.length := by
    rw [← hpkt]
    exact toNat_swap16 hlen
  have hflags : netWord pkt beyond 6 = 0 := by
    rw [← hpkt]
    rfl
  have hprotocol : byteAt pkt beyond 9 = proto := by
    rw [← hpkt]
    exact Nat.mod_eq_of_lt hproto
  have hsource : addrAt pkt beyond 12 = src := by
    rw [← hpkt]
    exact toNat_le32 hsrc
  have htarget : addrAt pkt beyond 16 = dest := by
    rw [← hpkt]
    exact toNat_le32 hdest
  -- `pbuf_realloc` cuts off what follows the packet
  have hcut : (if 20 + data.length < pkt.length then pkt.take (20 + data.length) else pkt) =
      ip4Header tos (20 + data.length) id ttl proto chksum src dest ++ data := by
    have hsent : (ip4Header tos (20 + data.length) id ttl proto chksum src dest ++ data).length =
        20 + data.length := by rw [List.length_append, length_ip4Header]
    rw [← hpkt]
    split
    · exact List.take_left' hsent
    next hshort =>
      have hpad : pad = [] := by
        rw [List.length_append, hsent] at hshort
        exact List.length_eq_zero_iff.mp (by omega)
      rw [hpad, List.append_nil]
  have hzero : inetChksum addr
      ((ip4Header tos (20 + data.length) id ttl proto chksum src dest ++ data).take 20) = 0 := by
    rw [List.take_left' (length_ip4Header ..)]
    exact inetChksum_eq_zero (by rw [length_ip4Header]; decide) hsum
  rw [ip4Input]
  simp only [hfirst, htot, hflags, hprotocol, hsource, htarget, hcut]
  rw [if_neg (by decide), if_neg, hsender, haccepts, hzero]
  · rfl
  · rw [List.length_append, length_ip4Header]
    omega

end Ip

-- ============================================================================
-- From one stack to another
-- ============================================================================

section Transfer

variable {κ : Type _} {chain : List Seg} {room : Bool} {spare : Nat}
  {localPort dstPort src dest : Nat}

/-- What `udp_input` makes of a datagram as `udp_sendto` built it. -/
theorem udpReceive_udpSendto (inp : Netif) (pcbs : List (ActivePcb κ)) (addr : Nat)
    (hlocal : localPort < 65536) (hdst : dstPort < 65536)
    (hlen : 8 + (chainBytes chain).length ≤ 65535) (hsrc : src < 2 ^ 32) (hdest : dest < 2 ^ 32) :
    udpReceive inp pcbs addr src dest
        (chainBytes (udpSendto room spare chain localPort dstPort src dest)) =
      ((udpInput pcbs (UInt32.ofNat src) (UInt16.ofNat localPort) (UInt16.ofNat dstPort)).1.map
          fun pcb => (pcb, localPort, chainBytes chain),
        (udpInput pcbs (UInt32.ofNat src) (UInt16.ofNat localPort) (UInt16.ofNat dstPort)).2) := by
  have hchecks := udpChecks_udpSendto room spare localPort dstPort addr hlen hsrc hdest
  obtain ⟨chksum, -, -, hbytes, -⟩ := udpSendto_spec room spare localPort dstPort hlen hsrc hdest
  rw [hbytes] at hchecks ⊢
  generalize hp : udpHeader localPort dstPort (8 + (chainBytes chain).length) chksum ++
    chainBytes chain = p at hchecks ⊢
  have hlong : ¬ p.length < 8 := by
    rw [← hp, List.length_append, length_udpHeader]
    omega
  have hsender : netWord p (fun _ => 0) 0 = localPort := by
    rw [← hp]
    exact toNat_swap16 hlocal
  have htarget : netWord p (fun _ => 0) 2 = dstPort := by
    rw [← hp]
    exact toNat_swap16 hdst
  have hpayload : p.drop 8 = chainBytes chain := by
    rw [← hp]
    exact List.drop_left' (length_udpHeader ..)
  rw [udpReceive, if_neg hlong]
  simp only [hsender, htarget, hpayload, hchecks, Bool.and_true]
  split
  · rfl
  next hours =>
    -- a datagram for another address is dropped when no pcb takes it
    have hnone : (udpInput pcbs (UInt32.ofNat src) (UInt16.ofNat localPort)
        (UInt16.ofNat dstPort)).1 = none := by
      cases hfound : (udpInput pcbs (UInt32.ofNat src) (UInt16.ofNat localPort)
          (UInt16.ofNat dstPort)).1 with
      | none => rfl
      | some pcb => exact absurd (by rw [hfound]; rfl) hours
    rw [hnone]
    rfl

/-- Two bytes at any offset that change the sum modulo 65535. -/
theorem leNat_two_bytes_ne (xs ys : List UInt8) {a b a' b' : UInt8}
    (hne : (a.toNat + 256 * b.toNat) % 65535 ≠ (a'.toNat + 256 * b'.toNat) % 65535) :
    leNat (xs ++ [a, b] ++ ys) % 65535 ≠ leNat (xs ++ [a', b'] ++ ys) % 65535 := by
  rw [List.append_assoc, List.append_assoc]
  intro heq
  have hleft := (OcEq.leNat_append xs ([a, b] ++ ys)).1
  have hright := (OcEq.leNat_append xs ([a', b'] ++ ys)).1
  rw [heq, hright] at hleft
  simp only [List.cons_append, List.nil_append, leNat, shifted] at hleft
  split at hleft <;> omega

/-- **A damaged datagram is dropped.**  When two adjacent bytes of a datagram,
    anywhere in header or data, arrive with another value modulo 65535, and the
    checksum field does not read zero, `udp_input` calls no pcb. -/
theorem damaged_datagram_dropped (inp : Netif) (pcbs : List (ActivePcb κ)) (room : Bool)
    (spare : Nat) (chain : List Seg) (localPort dstPort src dest addr : Nat) (xs ys : List UInt8)
    (a b a' b' : UInt8) (hlen : 8 + (chainBytes chain).length ≤ 65535) (hsrc : src < 2 ^ 32)
    (hdest : dest < 2 ^ 32)
    (hsent : chainBytes (udpSendto room spare chain localPort dstPort src dest) =
      xs ++ [a, b] ++ ys)
    (hne : (a.toNat + 256 * b.toNat) % 65535 ≠ (a'.toNat + 256 * b'.toNat) % 65535)
    (hfield : (xs ++ [a', b'] ++ ys).getD 6 0 ≠ 0 ∨ (xs ++ [a', b'] ++ ys).getD 7 0 ≠ 0) :
    (udpReceive inp pcbs addr src dest (xs ++ [a', b'] ++ ys)).1 = none := by
  obtain ⟨chksum, -, -, hbytes, hsum⟩ :=
    udpSendto_spec room spare localPort dstPort hlen hsrc hdest
  rw [← hbytes, hsent] at hsum
  have hlength : (xs ++ [a', b'] ++ ys).length = 8 + (chainBytes chain).length := by
    have hcount := congrArg List.length hsent
    rw [hbytes, List.length_append, length_udpHeader] at hcount
    simp only [List.length_append, List.length_cons, List.length_nil] at hcount ⊢
    omega
  have hdiffers := leNat_two_bytes_ne xs ys hne
  generalize xs ++ [a', b'] ++ ys = p' at *
  have hbad : inetChksumPseudo [⟨addr, p'⟩] 17 p'.length src dest ≠ 0 := by
    intro hzero
    have hsum' := (inetChksumPseudo_eq_zero_iff addr (by omega) hsrc hdest).mp hzero
    rw [hlength] at hsum'
    have hmod := (hsum.trans hsum'.symm).1
    omega
  have hnonzero : byteAt p' (fun _ => 0) 6 + 256 * byteAt p' (fun _ => 0) 7 ≠ 0 := by
    simp only [byteAt]
    rcases hfield with h6 | h7
    · have hpos : (p'.getD 6 0).toNat ≠ 0 := fun h => h6 (UInt8.toNat_inj.mp h)
      omega
    · have hpos : (p'.getD 7 0).toNat ≠ 0 := fun h => h7 (UInt8.toNat_inj.mp h)
      omega
  have hchecks : udpChecks addr src dest p' = false := by
    rw [udpChecks, beq_false_of_ne hbad, beq_false_of_ne hnonzero]
    rfl
  rw [udpReceive]
  split
  · rfl
  · simp only [hchecks, Bool.and_false, Bool.false_eq_true, if_false]

/-- The second and third data byte of five, which are no 16-bit word. -/
theorem damaged_datagram_dropped_data :
    (udpReceive ⟨true, true, 0x0A00A8C0, 0x00FFFFFF⟩ [ActivePcb.mk () 69 0 0 false] 36 0x0200A8C0
      0x0A00A8C0 [0xC0, 1, 0, 69, 0, 13, 0xB5, 0x2A, 1, 3, 2, 4, 5]).1 = none :=
  damaged_datagram_dropped ⟨true, true, 0x0A00A8C0, 0x00FFFFFF⟩ [ActivePcb.mk () 69 0 0 false]
    false 4 [⟨33, [1, 2, 3]⟩, ⟨40, [4, 5]⟩] 0xC001 69 0x0200A8C0 0x0A00A8C0 36
    [0xC0, 1, 0, 69, 0, 13, 0xB5, 0x2A, 1] [4, 5] 2 3 3 2 (by decide) (by decide) (by decide)
    (by decide +kernel) (by decide) (by decide)

end Transfer

end McuFirmware.Lwip
