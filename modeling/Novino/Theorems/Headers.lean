import Novino.Theorems.Buffers

/-! Headers: what a packet says when it is read in the order of the machine, and when its checksum is right. -/

namespace Novino.Net

open Block

theorem swap16_lt (x : Nat) : swap16 x < 65536 := by
  unfold swap16
  omega

theorem swap32_lt (x : Nat) : swap32 x < 4294967296 := by
  unfold swap32
  omega

/-! ### Reading a header -/

section
variable (h : Block) {b : Block} {o p v : Nat}

theorem rd16_wr16_ne (hne : p + 2 ≤ o ∨ o + 2 ≤ p) : (b.wr16 o v).rd16 p = b.rd16 p :=
  (agree_wr16 hne).rd16 (Nat.le_refl _) (Nat.le_refl _)

theorem rd16_wr32_ne (hne : p + 2 ≤ o ∨ o + 4 ≤ p) : (b.wr32 o v).rd16 p = b.rd16 p :=
  (agree_wr32 hne).rd16 (Nat.le_refl _) (Nat.le_refl _)

theorem rd32_wr16_ne (hne : p + 4 ≤ o ∨ o + 2 ≤ p) : (b.wr16 o v).rd32 p = b.rd32 p :=
  (agree_wr16 hne).rd32 (Nat.le_refl _) (Nat.le_refl _)

theorem rd32_wr32_ne (hne : p + 4 ≤ o ∨ o + 4 ≤ p) : (b.wr32 o v).rd32 p = b.rd32 p :=
  (agree_wr32 hne).rd32 (Nat.le_refl _) (Nat.le_refl _)

theorem rd8_wr16_ne (hne : p + 1 ≤ o ∨ o + 2 ≤ p) : (b.wr16 o v).rd8 p = b.rd8 p :=
  (agree_wr16 hne).rd8 (Nat.le_refl _) (Nat.lt_succ_self _)

theorem rd8_wr32_ne (hne : p + 1 ≤ o ∨ o + 4 ≤ p) : (b.wr32 o v).rd8 p = b.rd8 p :=
  (agree_wr32 hne).rd8 (Nat.le_refl _) (Nat.lt_succ_self _)

theorem toHost_fragment : (toHost h).rd16 6 = swap16 (h.rd16 6) := by
  unfold toHost daddr saddr
  rw [rd16_wr32_ne (by omega), rd16_wr32_ne (by omega), rd16_wr16, rd16_wr16_ne (by omega),
    Nat.mod_eq_of_lt (swap16_lt _)]

theorem toHost_saddr : saddr (toHost h) = swap32 (saddr h) := by
  unfold toHost saddr
  rw [rd32_wr32, Nat.mod_eq_of_lt (swap32_lt _), rd32_wr32_ne (by omega), rd32_wr16_ne (by omega),
    rd32_wr16_ne (by omega)]

theorem toHost_daddr : daddr (toHost h) = swap32 (daddr h) := by
  unfold toHost daddr saddr
  rw [rd32_wr32_ne (by omega), rd32_wr32, Nat.mod_eq_of_lt (swap32_lt _), rd32_wr16_ne (by omega),
    rd32_wr16_ne (by omega)]

theorem toHost_ident : ident (toHost h) = ident h := by
  unfold toHost ident daddr saddr
  rw [rd16_wr32_ne (by omega), rd16_wr32_ne (by omega), rd16_wr16_ne (by omega), rd16_wr16_ne (by omega)]

theorem toHost_protocol : protocol (toHost h) = protocol h := by
  unfold toHost protocol daddr saddr
  rw [rd8_wr32_ne (by omega), rd8_wr32_ne (by omega), rd8_wr16_ne (by omega), rd8_wr16_ne (by omega)]

end

section
variable {f : Frame}

theorem l3_setL3 (h : Block) : (f.setL3 h).l3 = h := by
  funext i
  show (if ETH_HLEN + i < ETH_HLEN then f.data (ETH_HLEN + i) else h (ETH_HLEN + i - ETH_HLEN)) = h i
  rw [if_neg (by omega), Nat.add_sub_cancel_left]

theorem toL4_l3 : f.toL4.l3 = toHost f.l3 := l3_setL3 (toHost f.l3)

end

variable {b b' : Block} {lo hi n : Nat}

theorem wordSum_congr (h : Agree b b' lo hi) {o : Nat} (hlo : lo ≤ o)
    (hhi : o + n ≤ hi) :
    wordSum b o n = wordSum b' o n := by
  induction o, n using wordSum.induct with
  | case1 => rfl
  | case2 o => exact h.rd8 hlo (by omega)
  | case3 o n ih => rw [wordSum, wordSum, h.rd16 hlo (by omega), ih (by omega) (by omega)]

section
variable {b : Block} {n : Nat} {k : Nat}

theorem checksum_eq (b : Block) (n : Nat) : ipv4Checksum b n = 65535 - foldSum 32 (wordSum b 0 n % 4294967296) := by
  unfold ipv4Checksum
  rw [if_neg (by omega), Int.toNat_natCast]

theorem checksum_congr {b' : Block} (h : Agree b b' 0 n) : ipv4Checksum b n = ipv4Checksum b' n := by
  rw [checksum_eq, checksum_eq, wordSum_congr h (Nat.le_refl 0) (Nat.le_of_eq (Nat.zero_add n))]

theorem wordSum_le (b : Block) (o n : Nat) : 2 * wordSum b o n ≤ 65535 * (n + 1) := by
  induction o, n using wordSum.induct with
  | case1 => exact Nat.zero_le _
  | case2 o =>
    have hbyte := (b o).isLt
    rw [wordSum, rd8]
    omega
  | case3 o n ih =>
    have hlow := (b o).isLt
    have hhigh := (b (o + 1)).isLt
    rw [wordSum, rd16, rd8, rd8]
    omega

/-- A number of 16 bits at an even distance is one of the words of the sum. -/
theorem wordSum_wr16 (b : Block) {o : Nat} (v : Nat) (hin : 2 * k + 2 ≤ n) :
    wordSum (b.wr16 (o + 2 * k) v) o n + b.rd16 (o + 2 * k) = wordSum b o n + v % 65536 := by
  induction k generalizing o n with
  | zero =>
    obtain ⟨m, rfl⟩ := Nat.exists_eq_add_of_le' hin
    rw [wordSum, wordSum, Nat.mul_zero, Nat.add_zero, rd16_wr16,
      wordSum_congr (agree_wr16 (.inr (Nat.le_refl _))) (Nat.le_refl _) (Nat.le_refl _)]
    omega
  | succ k ih =>
    obtain ⟨m, rfl⟩ := Nat.exists_eq_add_of_le' (Nat.le_of_add_left_le hin)
    have hrest := ih (o := o + 2) (n := m) (by omega)
    rw [Nat.add_assoc o 2, Nat.add_comm 2] at hrest
    rw [wordSum, wordSum, rd16_wr16_ne (by omega), Nat.mul_add_one]
    omega

/-- The carries keep the sum modulo 65535 and never make a sum 0. -/
theorem foldSum_spec (sum : Nat) (h : sum < 4294967296) :
    foldSum 32 sum % 65535 = sum % 65535 ∧ foldSum 32 sum ≤ 65535 ∧ (sum = 0 ↔ foldSum 32 sum = 0) := by
  rw [foldSum]
  split
  · rw [foldSum]
    split
    · rw [foldSum, if_neg (by omega)]
      omega
    · omega
  · omega

theorem checksum_spec (b : Block) (hn : n < 2 ^ 17) : ipv4Checksum b n ≤ 65535 ∧
    (ipv4Checksum b n + wordSum b 0 n) % 65535 = 0 ∧ (ipv4Checksum b n = 65535 ↔ wordSum b 0 n = 0) := by
  have hle := wordSum_le b 0 n
  have hfold := foldSum_spec (wordSum b 0 n) (by omega)
  rw [checksum_eq, Nat.mod_eq_of_lt (by omega)]
  omega

/-- A header with its checksum stored in it has the checksum 0. -/
theorem checksum_stored (b : Block) (hn : n < 2 ^ 17) (hin : 2 * k + 2 ≤ n) :
    ipv4Checksum ((b.wr16 (2 * k) 0).wr16 (2 * k) (ipv4Checksum (b.wr16 (2 * k) 0) n)) n = 0 := by
  have hzero := checksum_spec (b.wr16 (2 * k) 0) hn
  have hwhole := checksum_spec ((b.wr16 (2 * k) 0).wr16 (2 * k) (ipv4Checksum (b.wr16 (2 * k) 0) n)) hn
  have hfield := wordSum_wr16 (o := 0) (b.wr16 (2 * k) 0) (ipv4Checksum (b.wr16 (2 * k) 0) n) hin
  rw [Nat.zero_add, rd16_wr16] at hfield
  omega

theorem checksum_stored_nine : 2 * 1 + 2 ≤ 9 ∧
    ipv4Checksum ((wr16 (BitVec.ofNat 8) 2 0).wr16 2 (ipv4Checksum (wr16 (BitVec.ofNat 8) 2 0) 9)) 9 = 0 :=
  ⟨by decide, checksum_stored (BitVec.ofNat 8) (k := 1) (by decide) (by decide)⟩

/-- A changed word of a buffer with a right checksum is noticed, unless 0 and 65535 took the place of each other. -/
theorem checksum_detects {v : Nat} (hn : n < 2 ^ 17) (hin : 2 * k + 2 ≤ n) (hok : ipv4Checksum b n = 0)
    (hv : v < 65536) (hne : v % 65535 ≠ b.rd16 (2 * k) % 65535) : ipv4Checksum (b.wr16 (2 * k) v) n ≠ 0 := by
  have hold := checksum_spec b hn
  have hnew := checksum_spec (b.wr16 (2 * k) v) hn
  have hword := wordSum_wr16 (o := 0) b v hin
  rw [Nat.zero_add] at hword
  omega

theorem checksum_detects_one : ipv4Checksum (wr16 (fun _ => 0xFF) (2 * 1) 1) 4 ≠ 0 :=
  checksum_detects (by decide) (by decide) (by decide) (by decide) (by decide)

end

/-! ### What a packet says -/

/-- The bytes are those of an IPv4 packet with a header of 20 bytes and a right checksum. -/
structure Says (data : Block) (key : Key) (start : Nat) (more : Bool) : Prop where
  type : swap16 (data.rd16 12) = 0x0800
  ihl : ihl (data.drop ETH_HLEN) = 5
  checksum : ipv4Checksum (data.drop ETH_HLEN) IPV4_HEADER = 0
  key : key = ⟨ident (data.drop ETH_HLEN), swap32 (saddr (data.drop ETH_HLEN)), swap32 (daddr (data.drop ETH_HLEN)),
    protocol (data.drop ETH_HLEN)⟩
  start : 8 * (swap16 ((data.drop ETH_HLEN).rd16 6) % 8192) = start
  more : swap16 ((data.drop ETH_HLEN).rd16 6) / 8192 % 2 = more.toNat

theorem agree_drop (h : Agree b b' (n + lo) (n + hi)) :
    Agree (b.drop n) (b'.drop n) lo hi :=
  fun i hlo hhi => h (n + i) (by omega) (by omega)

section
variable {data data' : Block} {key : Key} {start : Nat} {more : Bool}

theorem Says.congr (h : Says data key start more) (ha : Agree data' data 0 34) : Says data' key start more := by
  have hl3 : Agree (data'.drop ETH_HLEN) (data.drop ETH_HLEN) 0 IPV4_HEADER :=
    agree_drop (ha.mono (by omega) (by decide))
  obtain ⟨htype, hihl, hsum, hkey, hstart, hmore⟩ := h
  unfold Net.ihl Net.ident Net.saddr Net.daddr Net.protocol at *
  refine ⟨?_, ?_, ?_, ?_, ?_, ?_⟩
  · rw [ha.rd16 (by omega) (by omega)]
    exact htype
  · unfold Net.ihl
    rw [hl3.rd8 (by omega) (by decide)]
    exact hihl
  · rw [checksum_congr hl3]
    exact hsum
  · unfold Net.ident Net.saddr Net.daddr Net.protocol
    rw [hl3.rd16 (by omega) (by decide), hl3.rd32 (by omega) (by decide), hl3.rd32 (by omega) (by decide),
      hl3.rd8 (by omega) (by decide)]
    exact hkey
  · rw [hl3.rd16 (by omega) (by decide)]
    exact hstart
  · rw [hl3.rd16 (by omega) (by decide)]
    exact hmore

variable {f : Frame} {dev : Netdev} {size : Nat}

theorem Says.fill (h : Says data key start more) (hsize : 34 ≤ size) :
    Says (f.fill dev data size).data key start more :=
  h.congr (fill_data.mono (Nat.le_refl 0) hsize)

variable (h : Says f.data key start more)
include h

theorem Says.headerSize : f.headerSize = IPV4_HEADER := by
  unfold Frame.headerSize
  rw [show Net.ihl f.l3 = 5 from h.ihl]
  rfl

theorem Says.checksum_l3 : ipv4Checksum f.l3 f.headerSize = 0 := by
  rw [h.headerSize]
  exact h.checksum

theorem Says.toL4_key : f.toL4.key = key := by
  unfold Frame.key
  rw [toL4_l3, toHost_ident, toHost_saddr, toHost_daddr, toHost_protocol, h.key]
  rfl

theorem Says.toL4_offset : 8 * offset f.toL4.l3 = start := by
  unfold offset
  rw [toL4_l3, toHost_fragment]
  exact h.start

theorem Says.toL4_flags : flags f.toL4.l3 % 2 = more.toNat := by
  unfold flags
  rw [toL4_l3, toHost_fragment]
  exact h.more

theorem Says.toL4_fragmented : f.toL4.Fragmented ↔ more = true ∨ start ≠ 0 := by
  have hoffset := h.toL4_offset
  unfold Frame.Fragmented
  rw [h.toL4_flags]
  cases more with
  | false =>
    simp only [Bool.toNat_false, Nat.zero_ne_one, Bool.false_eq_true, false_or]
    omega
  | true => simp

theorem Says.toL4_l4Size : f.toL4.l4Size = f.l3Size - 20 := by
  show f.l3Size - (f.headerSize : Int) = _
  rw [h.headerSize]
  rfl

end

end Novino.Net
