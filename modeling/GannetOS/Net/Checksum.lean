/-
The Internet checksum of `ipv4.c`: `checksum_accumulate` sums the big-endian 16-bit words of a region into a running
32-bit sum, `checksum_finish` folds the carries back and complements, and `ipv4_checksum_pseudo` sums the pseudo-header
of a transport segment before the segment itself.

On a region shorter than 2^16 bytes the 32-bit sum does not overflow, and the result is the complement of the folded sum
of the region's words (`ipv4Checksum_toNat`, `ipv4ChecksumPseudo_toNat`). So a region whose checksum field was filled in
verifies (`ipv4Checksum_insert`, `ipv4ChecksumPseudo_insert`), also where 0 is replaced by all-ones.
-/
import GannetOS.Core.OnesComplement

namespace GannetOS.Net

open GannetOS.Core

/-- the two bytes of a 16-bit word, most significant first, as `htons` leaves them in memory -/
def be16 (x : UInt16) : List UInt8 := [(x >>> 8).toUInt8, x.toUInt8]

/-- the four bytes of a 32-bit word, most significant first, as `htonl` leaves them in memory -/
def be32 (x : UInt32) : List UInt8 := [(x >>> 24).toUInt8, (x >>> 16).toUInt8, (x >>> 8).toUInt8, x.toUInt8]

/-- `ntohs` of the two bytes at an offset -/
def get16 (p : List UInt8) (k : ℕ) : UInt16 := (p.getD k 0).toUInt16 <<< 8 ||| (p.getD (k + 1) 0).toUInt16

/-- `ntohl` of the four bytes at an offset -/
def get32 (p : List UInt8) (k : ℕ) : UInt32 := (get16 p k).toUInt32 <<< 16 ||| (get16 p (k + 2)).toUInt32

def checksumAccumulate : List UInt8 → UInt32 → UInt32
  | a :: b :: rest, sum => checksumAccumulate rest (sum + (a.toUInt32 <<< 8 ||| b.toUInt32))
  | [a], sum => sum + a.toUInt32 <<< 8 -- an odd last byte is the high byte of one more word
  | [], sum => sum

theorem low16_toNat (sum : UInt32) : (sum &&& (0xFFFF : UInt32)).toNat = sum.toNat % 65536 := by
  rw [UInt32.toNat_and]
  exact Nat.and_two_pow_sub_one_eq_mod sum.toNat 16

theorem high16_toNat (sum : UInt32) : (sum >>> 16).toNat = sum.toNat / 65536 := by
  rw [UInt32.toNat_shiftRight]
  exact Nat.shiftRight_eq_div_pow sum.toNat 16

/-- one pass of the folding loop -/
theorem fold_carry_toNat (sum : UInt32) :
    ((sum &&& (0xFFFF : UInt32)) + (sum >>> 16)).toNat = sum.toNat % 65536 + sum.toNat / 65536 := by
  have hlt := sum.toNat_lt
  rw [UInt32.toNat_add, low16_toNat, high16_toNat, Nat.mod_eq_of_lt (by omega)]

theorem fold_carry_lt {sum : UInt32} (h : sum >>> 16 ≠ 0) :
    ((sum &&& (0xFFFF : UInt32)) + (sum >>> 16)).toNat < sum.toNat := by
  have hpos : 0 < (sum >>> 16).toNat := Nat.pos_of_ne_zero fun h0 => h (UInt32.toNat_inj.1 h0)
  rw [high16_toNat] at hpos
  rw [fold_carry_toNat]
  omega

/-- the folding loop of `checksum_finish` -/
def foldCarries (sum : UInt32) : UInt32 :=
  if sum >>> 16 ≠ 0 then foldCarries ((sum &&& (0xFFFF : UInt32)) + (sum >>> 16)) else sum
termination_by sum.toNat
decreasing_by exact fold_carry_lt ‹_›

def checksumFinish (sum : UInt32) : UInt16 := ~~~ (foldCarries sum).toUInt16

def ipv4Checksum (data : List UInt8) : UInt16 := checksumFinish (checksumAccumulate data 0)

/-- `ipv4_checksum_pseudo`: the pseudo-header (addresses, a zero byte, the protocol, the length), then the segment -/
def ipv4ChecksumPseudo (srcIp dstIp : UInt32) (protocol : UInt8) (segment : List UInt8) : UInt16 :=
  let pseudo := be32 srcIp ++ be32 dstIp ++ [0, protocol] ++ be16 (UInt16.ofNat segment.length)
  checksumFinish (checksumAccumulate segment (checksumAccumulate pseudo 0))

/-! ## Words in memory -/

theorem be16_length (x : UInt16) : (be16 x).length = 2 := rfl

theorem shr8_toNat (x : UInt16) : (x >>> 8).toNat = x.toNat / 256 := by
  rw [UInt16.toNat_shiftRight]
  exact Nat.shiftRight_eq_div_pow x.toNat 8

theorem join16_toNat (a b : UInt8) : (a.toUInt16 <<< 8 ||| b.toUInt16).toNat = 256 * a.toNat + b.toNat := by
  have ha := a.toNat_lt
  have hb := b.toNat_lt
  rw [UInt16.toNat_or, UInt16.toNat_shiftLeft, UInt8.toNat_toUInt16, UInt8.toNat_toUInt16]
  have hshift : a.toNat <<< ((8 : UInt16).toNat % 16) % 2 ^ 16 = a.toNat <<< 8 := by
    rw [show (8 : UInt16).toNat % 16 = 8 from rfl, Nat.shiftLeft_eq]
    omega
  rw [hshift, ← Nat.shiftLeft_add_eq_or_of_lt hb, Nat.shiftLeft_eq]
  omega

theorem be16_join (x : UInt16) : (x >>> 8).toUInt8.toUInt16 <<< 8 ||| x.toUInt8.toUInt16 = x := by
  apply UInt16.toNat_inj.1
  have hx := x.toNat_lt
  rw [join16_toNat, UInt16.toNat_toUInt8, UInt16.toNat_toUInt8, shr8_toNat]
  omega

theorem beSum_be16 (x : UInt16) : beSum (be16 x) = x.toNat := by
  have hx := x.toNat_lt
  simp only [be16, beSum, UInt16.toNat_toUInt8, shr8_toNat]
  omega

theorem get16_append {l₁ : List UInt8} (l₂ : List UInt8) {k : ℕ} (h : l₁.length ≤ k) :
    get16 (l₁ ++ l₂) k = get16 l₂ (k - l₁.length) := by
  unfold get16
  rw [List.getD_append_right _ _ _ _ h, List.getD_append_right _ _ _ _ (by omega), Nat.sub_add_comm h]

theorem get32_append {l₁ : List UInt8} (l₂ : List UInt8) {k : ℕ} (h : l₁.length ≤ k) :
    get32 (l₁ ++ l₂) k = get32 l₂ (k - l₁.length) := by
  unfold get32
  rw [get16_append l₂ h, get16_append l₂ (by omega), Nat.sub_add_comm h]

theorem shr_toNat (x : UInt32) {k : ℕ} (hk : k < 32) : (x >>> UInt32.ofNat k).toNat = x.toNat / 2 ^ k := by
  rw [UInt32.toNat_shiftRight, UInt32.toNat_ofNat', Nat.mod_eq_of_lt (by omega : k < 2 ^ 32), Nat.mod_eq_of_lt hk,
    Nat.shiftRight_eq_div_pow]

/-- the shifts that take a 32-bit word apart -/
theorem byte_shifts (x : UInt32) : (x >>> 24).toNat = x.toNat / 2 ^ 24 ∧ (x >>> 16).toNat = x.toNat / 2 ^ 16 ∧
    (x >>> 8).toNat = x.toNat / 2 ^ 8 :=
  ⟨shr_toNat x (by decide : 24 < 32), shr_toNat x (by decide : 16 < 32), shr_toNat x (by decide : 8 < 32)⟩

/-- `ntohl` undoes `htonl` -/
theorem get32_be32 (x : UInt32) (l : List UInt8) : get32 (be32 x ++ l) 0 = x := by
  have hx := x.toNat_lt
  obtain ⟨h24, h16, h8⟩ := byte_shifts x
  have htop : (get16 (be32 x ++ l) 0).toNat = x.toNat / 65536 := by
    show ((x >>> 24).toUInt8.toUInt16 <<< 8 ||| (x >>> 16).toUInt8.toUInt16).toNat = _
    rw [join16_toNat, UInt32.toNat_toUInt8, UInt32.toNat_toUInt8]
    rw [h24, h16]
    omega
  have hlow : (get16 (be32 x ++ l) 2).toNat = x.toNat % 65536 := by
    show ((x >>> 8).toUInt8.toUInt16 <<< 8 ||| x.toUInt8.toUInt16).toNat = _
    rw [join16_toNat, UInt32.toNat_toUInt8, UInt32.toNat_toUInt8]
    rw [h8]
    omega
  apply UInt32.toNat_inj.1
  unfold get32
  rw [UInt32.toNat_or, UInt32.toNat_shiftLeft, UInt16.toNat_toUInt32, UInt16.toNat_toUInt32, htop, hlow]
  have hshift : (x.toNat / 65536) <<< ((16 : UInt32).toNat % 32) % 2 ^ 32 = (x.toNat / 65536) <<< 16 := by
    rw [show (16 : UInt32).toNat % 32 = 16 from rfl, Nat.shiftLeft_eq]
    omega
  rw [hshift, ← Nat.shiftLeft_add_eq_or_of_lt (by omega : x.toNat % 65536 < 2 ^ 16), Nat.shiftLeft_eq]
  omega

/-! ## The checksum as a folded sum -/

theorem word_toNat (a b : UInt8) : (a.toUInt32 <<< 8 ||| b.toUInt32).toNat = 256 * a.toNat + b.toNat := by
  have ha := a.toNat_lt
  have hb := b.toNat_lt
  rw [UInt32.toNat_or, UInt32.toNat_shiftLeft, UInt8.toNat_toUInt32, UInt8.toNat_toUInt32]
  have hshift : a.toNat <<< ((8 : UInt32).toNat % 32) % 2 ^ 32 = a.toNat <<< 8 := by
    rw [show (8 : UInt32).toNat % 32 = 8 from rfl, Nat.shiftLeft_eq]
    omega
  rw [hshift, ← Nat.shiftLeft_add_eq_or_of_lt hb, Nat.shiftLeft_eq]
  omega

/-- while the sum fits 32 bits, it is the sum of the words -/
theorem checksumAccumulate_toNat (l : List UInt8) (sum : UInt32) (h : sum.toNat + beSum l < 2 ^ 32) :
    (checksumAccumulate l sum).toNat = sum.toNat + beSum l := by
  induction l, sum using checksumAccumulate.induct with
  | case1 a b rest sum ih =>
    rw [beSum] at h
    have hstep : (sum + (a.toUInt32 <<< 8 ||| b.toUInt32)).toNat = sum.toNat + (256 * a.toNat + b.toNat) := by
      rw [UInt32.toNat_add, word_toNat, Nat.mod_eq_of_lt (by omega)]
    rw [checksumAccumulate, ih (by rw [hstep]; omega), hstep, beSum]
    omega
  | case2 a sum =>
    have hword := word_toNat a 0
    have hzero : a.toUInt32 <<< 8 ||| (0 : UInt8).toUInt32 = a.toUInt32 <<< 8 := UInt32.or_zero
    rw [hzero] at hword
    rw [beSum] at h ⊢
    rw [checksumAccumulate, UInt32.toNat_add, hword, Nat.mod_eq_of_lt]
    · rfl
    · simpa using h
  | case3 sum => rfl

theorem foldCarries_toNat (sum : UInt32) : (foldCarries sum).toNat = ocFold 65535 sum.toNat := by
  induction sum using foldCarries.induct with
  | case1 sum h ih =>
    rw [foldCarries, if_pos h, ih, fold_carry_toNat]
    exact ocFold_carry 65535 sum.toNat
  | case2 sum h =>
    have hsmall : sum.toNat / 65536 = 0 := by
      rw [← high16_toNat, not_not.1 h]
      rfl
    rw [foldCarries, if_neg h, ocFold_of_le (by omega)]

theorem checksumFinish_toNat (sum : UInt32) : (checksumFinish sum).toNat = 65535 - ocFold 65535 sum.toNat := by
  have hle := ocFold_le (by decide : 0 < 65535) sum.toNat
  rw [checksumFinish, UInt16.toNat_not, UInt32.toNat_toUInt16, foldCarries_toNat, Nat.mod_eq_of_lt (by omega)]
  rfl

/-- on a region shorter than 2^16 bytes nothing overflows -/
theorem ipv4Checksum_toNat {l : List UInt8} (h : l.length < 2 ^ 16) :
    (ipv4Checksum l).toNat = 65535 - ocFold 65535 (beSum l) := by
  have hle := beSum_le l
  rw [ipv4Checksum, checksumFinish_toNat, checksumAccumulate_toNat l 0 (by simp; omega)]
  simp

/-- the pseudo-header of a segment -/
def pseudoHeader (srcIp dstIp : UInt32) (protocol : UInt8) (len : ℕ) : List UInt8 :=
  be32 srcIp ++ be32 dstIp ++ [0, protocol] ++ be16 (UInt16.ofNat len)

theorem ipv4ChecksumPseudo_toNat (srcIp dstIp : UInt32) (protocol : UInt8) {l : List UInt8} (h : l.length < 2 ^ 16) :
    (ipv4ChecksumPseudo srcIp dstIp protocol l).toNat =
      65535 - ocFold 65535 (beSum (pseudoHeader srcIp dstIp protocol l.length) + beSum l) := by
  have hle := beSum_le l
  have hpseudo := beSum_le (pseudoHeader srcIp dstIp protocol l.length)
  have hlen : (pseudoHeader srcIp dstIp protocol l.length).length = 12 := rfl
  rw [hlen] at hpseudo
  have hfirst := checksumAccumulate_toNat (pseudoHeader srcIp dstIp protocol l.length) 0 (by simp; omega)
  rw [ipv4ChecksumPseudo, checksumFinish_toNat, ← pseudoHeader, checksumAccumulate_toNat l _ (by rw [hfirst]; simp; omega),
    hfirst]
  simp

/-! ## Filling in the field -/

theorem beSum_field {a : List UInt8} (ha : a.length % 2 = 0) (x : UInt16) (b : List UInt8) :
    beSum (a ++ be16 x ++ b) = beSum a + beSum b + x.toNat := by
  rw [beSum_append (by rw [List.length_append, be16_length]; omega), beSum_append ha, beSum_be16]
  omega

/-- **A region whose checksum field was filled in verifies.** -/
theorem ipv4Checksum_insert {a b : List UInt8} (ha : a.length % 2 = 0) (hlen : (a ++ be16 0 ++ b).length < 2 ^ 16) :
    ipv4Checksum (a ++ be16 (ipv4Checksum (a ++ be16 0 ++ b)) ++ b) = 0 := by
  have hlen' : (a ++ be16 (ipv4Checksum (a ++ be16 0 ++ b)) ++ b).length < 2 ^ 16 := by
    simpa [be16_length] using hlen
  apply UInt16.toNat_inj.1
  rw [ipv4Checksum_toNat hlen', beSum_field ha, ipv4Checksum_toNat hlen, beSum_field ha, UInt16.toNat_zero, Nat.add_zero,
    ocFold_complete (by decide), Nat.sub_self]

/-- what is stored for a computed checksum `c`: `c` itself, or all-ones for 0 -/
def Stores (c x : UInt16) : Prop := x = c ∨ c = 0 ∧ x = 0xFFFF

/-- the same with the pseudo-header; all-ones in place of 0 verifies as well -/
theorem ipv4ChecksumPseudo_insert {srcIp dstIp : UInt32} {protocol : UInt8} {a b : List UInt8} (ha : a.length % 2 = 0)
    (hlen : (a ++ be16 0 ++ b).length < 2 ^ 16) {x : UInt16}
    (hx : Stores (ipv4ChecksumPseudo srcIp dstIp protocol (a ++ be16 0 ++ b)) x) :
    ipv4ChecksumPseudo srcIp dstIp protocol (a ++ be16 x ++ b) = 0 := by
  have hsame : (a ++ be16 x ++ b).length = (a ++ be16 0 ++ b).length := by simp [be16_length]
  have hcomputed := ipv4ChecksumPseudo_toNat srcIp dstIp protocol hlen
  rw [beSum_field ha, UInt16.toNat_zero, Nat.add_zero] at hcomputed
  apply UInt16.toNat_inj.1
  rw [ipv4ChecksumPseudo_toNat srcIp dstIp protocol (by rw [hsame]; exact hlen), hsame, beSum_field ha, ← Nat.add_assoc]
  generalize beSum (pseudoHeader srcIp dstIp protocol (a ++ be16 0 ++ b).length) + (beSum a + beSum b) = sum at hcomputed ⊢
  rcases hx with rfl | ⟨hzero, rfl⟩
  · rw [hcomputed, ocFold_complete (by decide), Nat.sub_self]
    rfl
  · -- the sum is all-ones already
    have htop : ocFold 65535 sum = 65535 := by
      have hle := ocFold_le (by decide : 0 < 65535) sum
      rw [hzero, UInt16.toNat_zero] at hcomputed
      omega
    have hones : (0xFFFF : UInt16).toNat = 65535 := rfl
    rw [hones, ocFold_top_add (by decide) htop, Nat.sub_self]
    rfl

end GannetOS.Net
