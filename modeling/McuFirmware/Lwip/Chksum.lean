/-
  McuFirmware.Lwip.Chksum

  The Internet checksum (`core/inet_chksum.c`): the three versions of
  `lwip_standard_chksum`, of which the second is compiled, and the checksums of
  pbuf chains built on it.

  A buffer is its address and its bytes; the address matters to the versions that
  read whole words.  Sums are 32-bit, `% 2 ^ 32` where the code adds, and every
  version comes down to `leNat` of the bytes as a ones' complement sum.
-/

import McuFirmware.Lib.OnesComplement

namespace McuFirmware.Lwip

open McuFirmware.Lib

-- ============================================================================
-- `lwip_standard_chksum`
-- ============================================================================

/-- The first byte, 0 if there is none. -/
def byteOr0 : List UInt8 → Nat
  | [] => 0
  | b :: _ => b.toNat

/-- The loop of version 1: words in network order. -/
def sumNetwork (acc : Nat) : List UInt8 → Nat
  | b0 :: b1 :: bs => sumNetwork ((acc + (b0.toNat * 256 + b1.toNat)) % 2 ^ 32) bs
  | [b] => (acc + b.toNat * 256) % 2 ^ 32
  | [] => acc

/-- `lwip_standard_chksum`, version 1. -/
def lwipStandardChksum1 (bs : List UInt8) : Nat :=
  let acc := fold16 (sumNetwork 0 bs)
  let acc := if acc / 65536 ≠ 0 then fold16 acc else acc
  swap16 (acc % 65536)

/-- `sum += *ps++` while two bytes are left. -/
def sumWords (sum : Nat) : List UInt8 → Nat × List UInt8
  | b0 :: b1 :: bs => sumWords ((sum + (b0.toNat + 256 * b1.toNat)) % 2 ^ 32) bs
  | [b] => (sum, [b])
  | [] => (sum, [])

/-- `lwip_standard_chksum`, version 2. -/
def lwipStandardChksum (addr : Nat) (bs : List UInt8) : Nat :=
  let odd := addr % 2 = 1
  let bulk := sumWords 0 (if odd then bs.tail else bs)
  let t := (if odd then 256 * byteOr0 bs else 0) + byteOr0 bulk.2
  let sum := fold16 (fold16 ((bulk.1 + t) % 2 ^ 32))
  (if odd then swap16 sum else sum) % 65536

/-- `sum + *pl++` with the carry added back. -/
def addCarry (sum word : Nat) : Nat :=
  let tmp := (sum + word) % 2 ^ 32
  if tmp < sum then tmp + 1 else tmp

/-- The unrolled loop of version 3. -/
def sumDwords (sum : Nat) : List UInt8 → Nat × List UInt8
  | b0 :: b1 :: b2 :: b3 :: b4 :: b5 :: b6 :: b7 :: bs =>
      sumDwords (addCarry (addCarry sum (leNat [b0, b1, b2, b3])) (leNat [b4, b5, b6, b7])) bs
  | bs => (sum, bs)

/-- `lwip_standard_chksum`, version 3. -/
def lwipStandardChksum3 (addr : Nat) (bs : List UInt8) : Nat :=
  let odd := addr % 2 = 1
  let bs₁ := if odd then bs.tail else bs
  let addr₁ := if odd ∧ bs ≠ [] then addr + 1 else addr
  let single := addr₁ % 4 ≠ 0 ∧ 1 < bs₁.length
  let sum₁ := if single then leNat (bs₁.take 2) else 0
  let dwords := sumDwords sum₁ (if single then bs₁.drop 2 else bs₁)
  let words := sumWords (fold16 dwords.1) dwords.2
  let t := (if odd then 256 * byteOr0 bs else 0) + byteOr0 words.2
  let sum := fold16 (fold16 ((words.1 + t) % 2 ^ 32))
  (if odd then swap16 sum else sum) % 65536

-- ============================================================================
-- The loops
-- ============================================================================

theorem byteOr0_eq_leNat {bs : List UInt8} (h : bs.length ≤ 1) : byteOr0 bs = leNat bs := by
  cases bs with
  | nil => rfl
  | cons b bs =>
      obtain rfl : bs = [] := by simpa using h
      rw [byteOr0, leNat, leNat, Nat.mul_zero, Nat.add_zero]

theorem leNat_pair (b0 b1 : UInt8) (bs : List UInt8) :
    OcEq (leNat (b0 :: b1 :: bs)) (b0.toNat + 256 * b1.toNat + leNat bs) := by
  have hexp : leNat (b0 :: b1 :: bs) = b0.toNat + 256 * b1.toNat + 256 * (256 * leNat bs) := by
    rw [leNat, leNat]
    omega
  rw [hexp]
  exact (OcEq.refl _).add (OcEq.shift _)

theorem sumNetwork_spec (acc : Nat) (bs : List UInt8) (h : acc + 65535 * bs.length < 2 ^ 32) :
    OcEq (sumNetwork acc bs) (acc + 256 * leNat bs) ∧
      sumNetwork acc bs ≤ acc + 65535 * bs.length := by
  fun_induction sumNetwork acc bs with
  | case1 acc b0 b1 bs ih =>
      have h0 := b0.toNat_lt
      have h1 := b1.toNat_lt
      simp only [List.length_cons] at h ⊢
      have hmod : (acc + (b0.toNat * 256 + b1.toNat)) % 2 ^ 32 =
          acc + (b0.toNat * 256 + b1.toNat) := Nat.mod_eq_of_lt (by omega)
      rw [hmod] at ih ⊢
      obtain ⟨heq, hle⟩ := ih (by omega)
      refine ⟨heq.trans ?_, by omega⟩
      -- a byte in the low half of a word in network order is a byte one place up
      have hword : OcEq (b0.toNat * 256 + b1.toNat) (256 * (b0.toNat + 256 * b1.toNat)) := by
        rw [Nat.mul_add, Nat.mul_comm b0.toNat]
        exact (OcEq.refl _).add (OcEq.shift _).symm
      have hpair := ((OcEq.refl acc).add hword).add (OcEq.refl (256 * leNat bs))
      refine hpair.trans ?_
      have hsum : acc + 256 * (b0.toNat + 256 * b1.toNat) + 256 * leNat bs =
          acc + 256 * (b0.toNat + 256 * b1.toNat + leNat bs) := by omega
      rw [hsum]
      exact (OcEq.refl acc).add (leNat_pair b0 b1 bs).symm.mul256
  | case2 acc b =>
      have hb := b.toNat_lt
      simp only [List.length_cons, List.length_nil] at h ⊢
      rw [Nat.mod_eq_of_lt (by omega)]
      refine ⟨?_, by omega⟩
      rw [leNat, leNat, Nat.mul_zero, Nat.add_zero, Nat.mul_comm]
      exact OcEq.refl _
  | case3 acc =>
      rw [leNat, Nat.mul_zero, Nat.add_zero]
      exact ⟨OcEq.refl _, Nat.le_add_right _ _⟩

theorem sumWords_spec (sum : Nat) (bs : List UInt8) (h : sum + 65535 * (bs.length / 2) < 2 ^ 32) :
    OcEq ((sumWords sum bs).1 + leNat (sumWords sum bs).2) (sum + leNat bs) ∧
      (sumWords sum bs).1 ≤ sum + 65535 * (bs.length / 2) ∧ (sumWords sum bs).2.length ≤ 1 := by
  fun_induction sumWords sum bs with
  | case1 sum b0 b1 bs ih =>
      have h0 := b0.toNat_lt
      have h1 := b1.toNat_lt
      simp only [List.length_cons] at h ⊢
      have hmod : (sum + (b0.toNat + 256 * b1.toNat)) % 2 ^ 32 =
          sum + (b0.toNat + 256 * b1.toNat) := Nat.mod_eq_of_lt (by omega)
      rw [hmod] at ih ⊢
      obtain ⟨heq, hle, hrest⟩ := ih (by omega)
      refine ⟨heq.trans ?_, by omega, hrest⟩
      rw [Nat.add_assoc]
      exact (OcEq.refl sum).add (leNat_pair b0 b1 bs).symm
  | case2 sum b => exact ⟨OcEq.refl _, Nat.le_add_right _ _, Nat.le_refl 1⟩
  | case3 sum => exact ⟨OcEq.refl _, Nat.le_add_right _ _, Nat.zero_le 1⟩

theorem addCarry_spec {sum word : Nat} (hs : sum < 2 ^ 32) (hw : word < 2 ^ 32) :
    OcEq (addCarry sum word) (sum + word) ∧ addCarry sum word < 2 ^ 32 := by
  rw [addCarry]
  by_cases hcarry : sum + word < 2 ^ 32
  · rw [Nat.mod_eq_of_lt hcarry, if_neg (by omega)]
    exact ⟨OcEq.refl _, hcarry⟩
  · have hmod : (sum + word) % 2 ^ 32 = sum + word - 2 ^ 32 := by omega
    rw [hmod, if_pos (by omega)]
    refine ⟨⟨?_, by omega⟩, by omega⟩
    -- the carry is worth 2 ^ 32 = 65537 * 65535 + 1
    have hsum : sum + word = sum + word - 2 ^ 32 + 1 + 65535 * 65537 := by omega
    conv_rhs => rw [hsum, Nat.add_mul_mod_self_left]

theorem leNat_lt (bs : List UInt8) : leNat bs < 256 ^ bs.length := by
  induction bs with
  | nil => simp [leNat]
  | cons b bs ih =>
      have hb := b.toNat_lt
      rw [leNat, List.length_cons, Nat.pow_succ]
      omega

theorem leNat_dword_lt (b0 b1 b2 b3 : UInt8) : leNat [b0, b1, b2, b3] < 2 ^ 32 := by
  simpa using leNat_lt [b0, b1, b2, b3]

/-- A whole number of words in front is added as it is. -/
theorem leNat_even (xs ys : List UInt8) (h : xs.length % 2 = 0) :
    OcEq (leNat (xs ++ ys)) (leNat xs + leNat ys) := by
  have happend := OcEq.leNat_append xs ys
  rwa [shifted, if_pos h] at happend

theorem sumDwords_spec (sum : Nat) (bs : List UInt8) (h : sum < 2 ^ 32) :
    OcEq ((sumDwords sum bs).1 + leNat (sumDwords sum bs).2) (sum + leNat bs) ∧
      (sumDwords sum bs).1 < 2 ^ 32 ∧ (sumDwords sum bs).2.length ≤ bs.length := by
  fun_induction sumDwords sum bs with
  | case1 sum b0 b1 b2 b3 b4 b5 b6 b7 bs ih =>
      obtain ⟨heq, hlt⟩ := addCarry_spec h (leNat_dword_lt b0 b1 b2 b3)
      obtain ⟨heq', hlt'⟩ := addCarry_spec hlt (leNat_dword_lt b4 b5 b6 b7)
      obtain ⟨hrest, hbound, hlen⟩ := ih hlt'
      refine ⟨hrest.trans ?_, hbound, by simp only [List.length_cons]; omega⟩
      have hcut : OcEq (leNat (b0 :: b1 :: b2 :: b3 :: b4 :: b5 :: b6 :: b7 :: bs))
          (leNat [b0, b1, b2, b3] + (leNat [b4, b5, b6, b7] + leNat bs)) :=
        (leNat_even [b0, b1, b2, b3] _ (by simp)).trans
          ((OcEq.refl _).add (leNat_even [b4, b5, b6, b7] bs (by simp)))
      refine (heq'.trans (heq.add (OcEq.refl _))).add (OcEq.refl (leNat bs)) |>.trans ?_
      rw [Nat.add_assoc, Nat.add_assoc]
      exact (OcEq.refl sum).add hcut.symm
  | case2 sum bs hshort => exact ⟨OcEq.refl _, h, Nat.le_refl _⟩

-- ============================================================================
-- The three versions
-- ============================================================================

theorem chksum1_spec {bs : List UInt8} (h : bs.length ≤ 65535) :
    OcEq (lwipStandardChksum1 bs) (leNat bs) ∧ lwipStandardChksum1 bs < 65536 := by
  obtain ⟨hsum, hle⟩ := sumNetwork_spec 0 bs (by omega)
  rw [Nat.zero_add] at hsum
  refine ⟨?_, swap16_lt _⟩
  -- the second fold is skipped where it would change nothing
  have hfold : (if fold16 (sumNetwork 0 bs) / 65536 ≠ 0 then fold16 (fold16 (sumNetwork 0 bs))
      else fold16 (sumNetwork 0 bs)) = fold16 (fold16 (sumNetwork 0 bs)) := by
    split
    · rfl
    next hsmall =>
      conv_rhs => rw [fold16]
      omega
  have hlt := fold16_fold16_lt (n := sumNetwork 0 bs) (by omega)
  rw [lwipStandardChksum1, hfold, Nat.mod_eq_of_lt hlt]
  have heq := ((OcEq.fold (fold16 (sumNetwork 0 bs))).trans (OcEq.fold _)).trans hsum
  exact (OcEq.swap hlt).trans (heq.mul256.trans (OcEq.shift _))

/-- The common end of versions 2 and 3: end bytes, folds and the swap back. -/
theorem finish_spec {odd : Prop} [Decidable odd] {bs : List UInt8} {acc : Nat}
    (hacc : acc < 2 ^ 32)
    (h : OcEq acc ((if odd then 256 * byteOr0 bs else 0) + leNat (if odd then bs.tail else bs))) :
    OcEq ((if odd then swap16 (fold16 (fold16 acc)) else fold16 (fold16 acc)) % 65536) (leNat bs) := by
  have hlt := fold16_fold16_lt hacc
  have heq := ((OcEq.fold (fold16 acc)).trans (OcEq.fold acc)).trans h
  split
  next hodd =>
    rw [if_pos hodd, if_pos hodd] at heq
    rw [Nat.mod_eq_of_lt (swap16_lt _)]
    refine (OcEq.swap hlt).trans (heq.mul256.trans ?_)
    cases bs with
    | nil => exact OcEq.refl _
    | cons b bs =>
        rw [byteOr0, List.tail_cons, leNat, Nat.mul_add]
        exact (OcEq.shift _).add (OcEq.refl _)
  next hodd =>
    rw [if_neg hodd, if_neg hodd, Nat.zero_add] at heq
    rwa [Nat.mod_eq_of_lt hlt]

theorem tail_length_le (odd : Prop) [Decidable odd] (bs : List UInt8) :
    (if odd then bs.tail else bs).length ≤ bs.length := by
  split
  · rw [List.length_tail]
    exact Nat.sub_le _ _
  · exact Nat.le_refl _

theorem byteOr0_lt (bs : List UInt8) : byteOr0 bs < 256 := by
  cases bs with
  | nil => decide
  | cons b bs => exact b.toNat_lt

/-- The end bytes complete the sum of the words. -/
theorem end_bytes_spec {odd : Prop} [Decidable odd] {bs rest : List UInt8} {sum : Nat}
    (hrest : rest.length ≤ 1) (hsum : sum + 65535 < 2 ^ 32)
    (h : OcEq (sum + leNat rest) (leNat (if odd then bs.tail else bs))) :
    OcEq ((if odd then swap16 (fold16 (fold16
          ((sum + ((if odd then 256 * byteOr0 bs else 0) + byteOr0 rest)) % 2 ^ 32)))
        else fold16 (fold16
          ((sum + ((if odd then 256 * byteOr0 bs else 0) + byteOr0 rest)) % 2 ^ 32))) % 65536)
      (leNat bs) := by
  have hb := byteOr0_lt bs
  have hr := byteOr0_lt rest
  have hmod : (sum + ((if odd then 256 * byteOr0 bs else 0) + byteOr0 rest)) % 2 ^ 32 =
      sum + ((if odd then 256 * byteOr0 bs else 0) + byteOr0 rest) := by
    apply Nat.mod_eq_of_lt
    split <;> omega
  rw [hmod]
  refine finish_spec (by split <;> omega) ?_
  rw [byteOr0_eq_leNat hrest, ← Nat.add_assoc, Nat.add_comm sum, Nat.add_assoc]
  exact (OcEq.refl _).add h

theorem chksum_spec (addr : Nat) {bs : List UInt8} (h : bs.length ≤ 65535) :
    OcEq (lwipStandardChksum addr bs) (leNat bs) ∧ lwipStandardChksum addr bs < 65536 := by
  refine ⟨?_, Nat.mod_lt _ (by decide)⟩
  have hlen := tail_length_le (addr % 2 = 1) bs
  obtain ⟨heq, hle, hrest⟩ := sumWords_spec 0 (if addr % 2 = 1 then bs.tail else bs) (by omega)
  rw [Nat.zero_add] at heq
  exact end_bytes_spec hrest (by omega) heq

theorem chksum3_spec (addr : Nat) {bs : List UInt8} (h : bs.length ≤ 65535) :
    OcEq (lwipStandardChksum3 addr bs) (leNat bs) ∧ lwipStandardChksum3 addr bs < 65536 := by
  refine ⟨?_, Nat.mod_lt _ (by decide)⟩
  have hlen := tail_length_le (addr % 2 = 1) bs
  rw [lwipStandardChksum3]
  generalize hbs₁ : (if addr % 2 = 1 then bs.tail else bs) = bs₁ at hlen ⊢
  generalize (if addr % 2 = 1 ∧ bs ≠ [] then addr + 1 else addr) = addr₁
  -- the word that aligns the pointer to four bytes
  have hsingle : ∃ sum₁ bs₂, (if addr₁ % 4 ≠ 0 ∧ 1 < bs₁.length then leNat (bs₁.take 2) else 0) = sum₁ ∧
      (if addr₁ % 4 ≠ 0 ∧ 1 < bs₁.length then bs₁.drop 2 else bs₁) = bs₂ ∧ sum₁ < 65536 ∧
      bs₂.length ≤ bs₁.length ∧ OcEq (sum₁ + leNat bs₂) (leNat bs₁) := by
    split
    next hcond =>
      have htake : (bs₁.take 2).length = 2 := by
        rw [List.length_take]
        omega
      refine ⟨_, _, rfl, rfl, ?_, by rw [List.length_drop]; omega, ?_⟩
      · have hlt := leNat_lt (bs₁.take 2)
        rwa [htake] at hlt
      · have heq := (leNat_even (bs₁.take 2) (bs₁.drop 2) (by rw [htake])).symm
        rwa [List.take_append_drop] at heq
    next => exact ⟨0, bs₁, rfl, rfl, by decide, Nat.le_refl _, by rw [Nat.zero_add]; exact OcEq.refl _⟩
  obtain ⟨sum₁, bs₂, hsum₁, hbs₂, hlt₁, hlen₂, heq₁⟩ := hsingle
  rw [hsum₁, hbs₂]
  obtain ⟨heq₂, hlt₂, hlen₃⟩ := sumDwords_spec sum₁ bs₂ (by omega)
  have hfold : fold16 (sumDwords sum₁ bs₂).1 ≤ 131070 := by
    rw [fold16]
    omega
  obtain ⟨heq₃, hle₃, hrest⟩ := sumWords_spec (fold16 (sumDwords sum₁ bs₂).1) (sumDwords sum₁ bs₂).2
    (by omega)
  rw [← hbs₁] at heq₁
  exact end_bytes_spec hrest (by omega)
    (heq₃.trans (((OcEq.fold _).add (OcEq.refl _)).trans (heq₂.trans heq₁)))

/-- **The versions agree.**  For every buffer of up to 65535 bytes at every
    address, the word-wise versions of `lwip_standard_chksum` compute what the
    bytewise version 1 does, whose result does not depend on the address. -/
theorem chksum_versions_agree (addr : Nat) (bs : List UInt8) (h : bs.length ≤ 65535) :
    lwipStandardChksum addr bs = lwipStandardChksum1 bs ∧
      lwipStandardChksum3 addr bs = lwipStandardChksum1 bs := by
  obtain ⟨heq₁, hlt₁⟩ := chksum1_spec h
  obtain ⟨heq₂, hlt₂⟩ := chksum_spec addr h
  obtain ⟨heq₃, hlt₃⟩ := chksum3_spec addr h
  exact ⟨(heq₂.trans heq₁.symm).eq_of_lt hlt₂ hlt₁, (heq₃.trans heq₁.symm).eq_of_lt hlt₃ hlt₁⟩

/-- An odd address, with a byte left over at the end. -/
theorem chksum_versions_agree_odd :
    lwipStandardChksum 3 [1, 2, 0xFF, 4, 5, 6, 7, 0x80, 9, 10, 11, 12] =
        lwipStandardChksum1 [1, 2, 0xFF, 4, 5, 6, 7, 0x80, 9, 10, 11, 12] ∧
      lwipStandardChksum3 3 [1, 2, 0xFF, 4, 5, 6, 7, 0x80, 9, 10, 11, 12] =
        lwipStandardChksum1 [1, 2, 0xFF, 4, 5, 6, 7, 0x80, 9, 10, 11, 12] :=
  chksum_versions_agree 3 _ (by decide)

-- ============================================================================
-- Checksums of chains
-- ============================================================================

/-- A pbuf as the checksum sees it: where its payload starts, and its bytes. -/
structure Seg where
  addr : Nat
  data : List UInt8

/-- The bytes of a chain. -/
def chainBytes (chain : List Seg) : List UInt8 := (chain.map Seg.data).flatten

/-- `inet_chksum`. -/
def inetChksum (addr : Nat) (bs : List UInt8) : Nat := 65535 - lwipStandardChksum addr bs

/-- The loop over the pbufs of a chain. -/
def chainSum (acc : Nat) (swapped : Bool) : List Seg → Nat × Bool
  | [] => (acc, swapped)
  | q :: qs =>
      let acc := fold16 ((acc + lwipStandardChksum q.addr q.data) % 2 ^ 32)
      if q.data.length % 2 ≠ 0 then chainSum (swap16 acc) (!swapped) qs
      else chainSum acc swapped qs

/-- The sum of a chain in the order of its first byte. -/
def chainTotal (acc : Nat) (chain : List Seg) : Nat :=
  let r := chainSum acc false chain
  if r.2 then swap16 r.1 else r.1

/-- `inet_cksum_pseudo_base`. -/
def inetCksumPseudoBase (chain : List Seg) (proto protoLen acc : Nat) : Nat :=
  let acc := (chainTotal acc chain + swap16 proto) % 2 ^ 32
  let acc := (acc + swap16 protoLen) % 2 ^ 32
  65535 - fold16 (fold16 acc) % 65536

/-- `inet_chksum_pseudo`; addresses are the `u32_t` of their bytes in memory. -/
def inetChksumPseudo (chain : List Seg) (proto protoLen src dest : Nat) : Nat :=
  let acc := (src % 65536 + src / 65536 + dest % 65536 + dest / 65536) % 2 ^ 32
  inetCksumPseudoBase chain proto protoLen (fold16 (fold16 acc))

/-- `inet_chksum_pbuf`. -/
def inetChksumPbuf (chain : List Seg) : Nat := 65535 - chainTotal 0 chain % 65536

/-- What an accumulator is worth once it is swapped back. -/
def worth (acc : Nat) (swapped : Bool) : Nat := if swapped then 256 * acc else acc

theorem worth_add (a b : Nat) (swapped : Bool) :
    worth (a + b) swapped = worth a swapped + worth b swapped := by
  cases swapped with
  | true => exact Nat.mul_add 256 a b
  | false => rfl

theorem worth_congr {a b : Nat} (h : OcEq a b) (swapped : Bool) :
    OcEq (worth a swapped) (worth b swapped) := by
  cases swapped with
  | true => exact h.mul256
  | false => exact h

/-- A swap of the bytes undoes a change of the order. -/
theorem worth_not (a : Nat) (swapped : Bool) : OcEq (worth (256 * a) (!swapped)) (worth a swapped) := by
  cases swapped with
  | true => exact OcEq.refl _
  | false => exact OcEq.shift a

theorem chainSum_spec (acc : Nat) (swapped : Bool) (chain : List Seg) (hacc : acc < 65536)
    (hlen : ∀ q ∈ chain, q.data.length ≤ 65535) :
    OcEq (worth (chainSum acc swapped chain).1 (chainSum acc swapped chain).2)
        (worth acc swapped + worth (leNat (chainBytes chain)) swapped) ∧
      (chainSum acc swapped chain).1 < 65536 := by
  induction chain generalizing acc swapped with
  | nil =>
      refine ⟨?_, hacc⟩
      cases swapped with
      | true => exact OcEq.refl _
      | false => exact OcEq.refl _
  | cons q qs ih =>
      obtain ⟨hseg, hlt⟩ := chksum_spec q.addr (hlen q List.mem_cons_self)
      have hqs : ∀ r ∈ qs, r.data.length ≤ 65535 := fun r hr => hlen r (List.mem_cons_of_mem q hr)
      have hmod : (acc + lwipStandardChksum q.addr q.data) % 2 ^ 32 =
          acc + lwipStandardChksum q.addr q.data := Nat.mod_eq_of_lt (by omega)
      have hfold : OcEq (fold16 (acc + lwipStandardChksum q.addr q.data)) (acc + leNat q.data) :=
        (OcEq.fold _).trans ((OcEq.refl acc).add hseg)
      have hsmall : fold16 (acc + lwipStandardChksum q.addr q.data) < 65536 :=
        fold16_lt (by omega)
      have hbytes : chainBytes (q :: qs) = q.data ++ chainBytes qs := by
        simp [chainBytes]
      have hcut := OcEq.leNat_append q.data (chainBytes qs)
      rw [chainSum, hmod, hbytes]
      split
      next hodd =>
        obtain ⟨hrest, hbound⟩ := ih (swap16 _) (!swapped) (swap16_lt _) hqs
        refine ⟨hrest.trans ?_, hbound⟩
        rw [shifted, if_neg (by omega)] at hcut
        have hfirst : OcEq (worth (swap16 (fold16 (acc + lwipStandardChksum q.addr q.data))) (!swapped))
            (worth (acc + leNat q.data) swapped) :=
          (worth_congr ((OcEq.swap hsmall).trans hfold.mul256) _).trans (worth_not _ _)
        have hlast : OcEq (worth (leNat (chainBytes qs)) (!swapped))
            (worth (256 * leNat (chainBytes qs)) swapped) := by
          have hnot := (worth_not (leNat (chainBytes qs)) (!swapped)).symm
          rwa [Bool.not_not] at hnot
        refine (hfirst.add hlast).trans ?_
        rw [worth_add, Nat.add_assoc, ← worth_add (leNat q.data)]
        exact (OcEq.refl _).add (worth_congr hcut.symm _)
      next heven =>
        obtain ⟨hrest, hbound⟩ := ih (fold16 _) swapped hsmall hqs
        refine ⟨hrest.trans ?_, hbound⟩
        rw [shifted, if_pos (by omega)] at hcut
        refine ((worth_congr hfold swapped).add (OcEq.refl _)).trans ?_
        rw [worth_add, Nat.add_assoc, ← worth_add (leNat q.data)]
        exact (OcEq.refl _).add (worth_congr hcut.symm _)

theorem chainTotal_spec {acc : Nat} {chain : List Seg} (hacc : acc < 65536)
    (hlen : ∀ q ∈ chain, q.data.length ≤ 65535) :
    OcEq (chainTotal acc chain) (acc + leNat (chainBytes chain)) ∧ chainTotal acc chain < 65536 := by
  obtain ⟨hsum, hlt⟩ := chainSum_spec acc false chain hacc hlen
  rw [chainTotal]
  cases hswap : (chainSum acc false chain).2 with
  | true =>
      rw [hswap] at hsum
      exact ⟨(OcEq.swap hlt).trans hsum, swap16_lt _⟩
  | false =>
      rw [hswap] at hsum
      exact ⟨hsum, hlt⟩

/-- The 16-bit words of the pseudo header of an IPv4 packet. -/
def pseudoSum (proto protoLen src dest : Nat) : Nat :=
  src % 65536 + src / 65536 + dest % 65536 + dest / 65536 + swap16 proto + swap16 protoLen

/-- The checksum of a packet is the complement of the sum of its pseudo header
    and its bytes. -/
theorem inetChksumPseudo_spec {chain : List Seg} (proto protoLen : Nat) {src dest : Nat}
    (hlen : ∀ q ∈ chain, q.data.length ≤ 65535) (hsrc : src < 2 ^ 32) (hdest : dest < 2 ^ 32) :
    ∃ sum < 65536, inetChksumPseudo chain proto protoLen src dest = 65535 - sum ∧
      OcEq sum (pseudoSum proto protoLen src dest + leNat (chainBytes chain)) := by
  have hproto := swap16_lt proto
  have hprotoLen := swap16_lt protoLen
  have hmod : (src % 65536 + src / 65536 + dest % 65536 + dest / 65536) % 2 ^ 32 =
      src % 65536 + src / 65536 + dest % 65536 + dest / 65536 := Nat.mod_eq_of_lt (by omega)
  have hfirst := fold16_fold16_lt
    (n := src % 65536 + src / 65536 + dest % 65536 + dest / 65536) (by omega)
  obtain ⟨htotal, hlt⟩ := chainTotal_spec hfirst hlen
  rw [inetChksumPseudo, hmod, inetCksumPseudoBase]
  rw [Nat.mod_eq_of_lt (a := chainTotal _ _ + swap16 proto) (by omega),
    Nat.mod_eq_of_lt (a := chainTotal _ _ + swap16 proto + swap16 protoLen) (by omega),
    Nat.mod_eq_of_lt (fold16_fold16_lt (by omega))]
  refine ⟨_, fold16_fold16_lt (by omega), rfl, ?_⟩
  have haddr := (OcEq.fold (fold16 (src % 65536 + src / 65536 + dest % 65536 + dest / 65536))).trans
    (OcEq.fold _)
  refine ((OcEq.fold _).trans (OcEq.fold _)).trans ?_
  refine ((htotal.trans (haddr.add (OcEq.refl _))).add (OcEq.refl _)).add (OcEq.refl _) |>.trans ?_
  have hsum : src % 65536 + src / 65536 + dest % 65536 + dest / 65536 + leNat (chainBytes chain) +
      swap16 proto + swap16 protoLen =
      pseudoSum proto protoLen src dest + leNat (chainBytes chain) := by
    rw [pseudoSum]
    omega
  rw [hsum]
  exact OcEq.refl _

/-- **Cutting does not matter.**  Two chains that hold the same bytes, cut into
    pbufs of any lengths at any addresses, have the same checksums. -/
theorem chain_checksum_of_bytes (chain chain' : List Seg) (proto protoLen src dest : Nat)
    (hlen : ∀ q ∈ chain, q.data.length ≤ 65535) (hlen' : ∀ q ∈ chain', q.data.length ≤ 65535)
    (hsrc : src < 2 ^ 32) (hdest : dest < 2 ^ 32) (hbytes : chainBytes chain = chainBytes chain') :
    inetChksumPseudo chain proto protoLen src dest =
        inetChksumPseudo chain' proto protoLen src dest ∧
      inetChksumPbuf chain = inetChksumPbuf chain' := by
  constructor
  · obtain ⟨sum, hlt, heq, hsum⟩ := inetChksumPseudo_spec proto protoLen hlen hsrc hdest
    obtain ⟨sum', hlt', heq', hsum'⟩ := inetChksumPseudo_spec proto protoLen hlen' hsrc hdest
    rw [← hbytes] at hsum'
    rw [heq, heq', (hsum.trans hsum'.symm).eq_of_lt hlt hlt']
  · obtain ⟨hsum, hlt⟩ := chainTotal_spec (show 0 < 65536 by decide) hlen
    obtain ⟨hsum', hlt'⟩ := chainTotal_spec (show 0 < 65536 by decide) hlen'
    rw [← hbytes] at hsum'
    rw [inetChksumPbuf, inetChksumPbuf, (hsum.trans hsum'.symm).eq_of_lt hlt hlt']

/-- Seven bytes cut after the third, against one buffer at an odd address. -/
theorem chain_checksum_of_bytes_cut :
    inetChksumPseudo [⟨0, [1, 2, 3]⟩, ⟨6, []⟩, ⟨9, [4, 5, 0xFF, 7]⟩] 17 7 0x0100A8C0 0x0200A8C0 =
        inetChksumPseudo [⟨1, [1, 2, 3, 4, 5, 0xFF, 7]⟩] 17 7 0x0100A8C0 0x0200A8C0 ∧
      inetChksumPbuf [⟨0, [1, 2, 3]⟩, ⟨6, []⟩, ⟨9, [4, 5, 0xFF, 7]⟩] =
        inetChksumPbuf [⟨1, [1, 2, 3, 4, 5, 0xFF, 7]⟩] := by
  refine chain_checksum_of_bytes _ _ _ _ _ _ ?_ ?_ (by decide) (by decide) rfl
  · intro q hq
    simp only [List.mem_cons, List.not_mem_nil, or_false] at hq
    obtain rfl | rfl | rfl := hq <;> decide
  · intro q hq
    rw [List.mem_singleton.mp hq]
    decide

end McuFirmware.Lwip
