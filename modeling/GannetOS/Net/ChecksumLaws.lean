/-
The Internet checksum against its definition (RFC 1071), and what it detects.

- `checksum_is_rfc1071`: for up to 65535 bytes `checksum_accumulate` is the plain sum of the words at every point of its
  loop, also when it starts from the sum of a pseudo-header; the loop of `checksum_finish` ends after at most two passes;
  the result is the complement of the one's-complement sum, and the pseudo-header form is the checksum of the contiguous
  bytes.
- `checksum_verifies_and_detects`: filling in a field makes the region verify, and a verified region with one word changed
  does not verify, unless the change is between the two zeros of one's-complement arithmetic.

`ipv4Checksum` of more than 65535 bytes, as the pseudo-header and a long segment are, is the function without the 16-bit
length of its C parameter.
-/
import GannetOS.Core.Bytes
import GannetOS.Net.Checksum

namespace GannetOS.Net

open GannetOS.Core List

/-! ## The sum -/

/-- the body of the folding loop of `checksum_finish` -/
def foldOnce (sum : UInt32) : UInt32 := (sum &&& (0xFFFF : UInt32)) + (sum >>> 16)

/-- the one's-complement sum of the words of a region -/
def onesSum (l : List UInt8) : ℕ := (beWords l).foldl (ocAdd 65535) 0

theorem onesSum_eq (l : List UInt8) : onesSum l = ocFold 65535 (beSum l) := by
  rw [onesSum, foldl_ocAdd (by decide) (beWords_le l) (Nat.zero_le _), beWords_sum, Nat.zero_add]

theorem high16_eq_zero (sum : UInt32) : sum >>> 16 = 0 ↔ sum.toNat < 65536 := by
  rw [← UInt32.toNat_inj, high16_toNat, UInt32.toNat_zero]
  omega

/-- the loop ends after at most two passes -/
theorem foldCarries_passes (sum : UInt32) : ∃ n ≤ 2,
    (∀ k < n, foldOnce^[k] sum >>> 16 ≠ 0) ∧ foldOnce^[n] sum >>> 16 = 0 ∧ foldCarries sum = foldOnce^[n] sum := by
  have hlt := sum.toNat_lt
  have hone : (foldOnce sum).toNat = sum.toNat % 65536 + sum.toNat / 65536 := fold_carry_toNat sum
  have htwo := fold_carry_toNat (foldOnce sum)
  have hstop {s : UInt32} (h : s >>> 16 = 0) : foldCarries s = s := by
    rw [foldCarries, if_neg (not_not.2 h)]
  have hpass {s : UInt32} (h : s >>> 16 ≠ 0) : foldCarries s = foldCarries (foldOnce s) := by
    rw [foldCarries, if_pos h, foldOnce]
  by_cases h0 : sum >>> 16 = 0
  · exact ⟨0, by omega, fun k hk => absurd hk (Nat.not_lt_zero k), h0, hstop h0⟩
  · by_cases h1 : foldOnce sum >>> 16 = 0
    · refine ⟨1, by omega, fun k hk => ?_, h1, (hpass h0).trans (hstop h1)⟩
      obtain rfl : k = 0 := by omega
      exact h0
    · have h2 : foldOnce (foldOnce sum) >>> 16 = 0 := by
        rw [high16_eq_zero] at h0 h1 ⊢
        have hsecond : (foldOnce (foldOnce sum)).toNat =
            (foldOnce sum).toNat % 65536 + (foldOnce sum).toNat / 65536 := htwo
        omega
      refine ⟨2, le_rfl, fun k hk => ?_, h2, ((hpass h0).trans (hpass h1)).trans (hstop h2)⟩
      obtain rfl | rfl : k = 0 ∨ k = 1 := by omega
      · exact h0
      · exact h1

theorem beSum_take_le (l : List UInt8) (n : ℕ) : 2 * beSum (l.take n) ≤ 65535 * (l.length + 1) := by
  have hle := beSum_le (l.take n)
  have hlen : (l.take n).length ≤ l.length := length_take_le' n l
  omega

theorem pseudoHeader_sum (srcIp dstIp : UInt32) (protocol : UInt8) (len : ℕ) :
    (checksumAccumulate (pseudoHeader srcIp dstIp protocol len) 0).toNat =
      beSum (pseudoHeader srcIp dstIp protocol len) ∧ 2 * beSum (pseudoHeader srcIp dstIp protocol len) ≤ 65535 * 13 := by
  have hle : 2 * beSum (pseudoHeader srcIp dstIp protocol len) ≤ 65535 * 13 :=
    beSum_le (pseudoHeader srcIp dstIp protocol len)
  rw [checksumAccumulate_toNat _ 0 (by rw [UInt32.toNat_zero]; omega), UInt32.toNat_zero, Nat.zero_add]
  exact ⟨rfl, hle⟩

/-- summing two regions in turn is summing them as one, if the first has whole words -/
theorem checksumAccumulate_append {l₁ : List UInt8} (h : l₁.length % 2 = 0) (l₂ : List UInt8) (sum : UInt32) :
    checksumAccumulate (l₁ ++ l₂) sum = checksumAccumulate l₂ (checksumAccumulate l₁ sum) := by
  induction l₁, sum using checksumAccumulate.induct with
  | case1 a b rest sum ih =>
    have hrest : rest.length % 2 = 0 := by
      rw [length_cons, length_cons] at h
      omega
    rw [cons_append, cons_append, checksumAccumulate, checksumAccumulate, ih hrest]
  | case2 a sum => simp at h
  | case3 sum => rfl

/-- **The Internet checksum is that of RFC 1071.** For up to 65535 bytes: no sum of `checksum_accumulate` overflows, from 0
or from a pseudo-header; the folding loop ends; the result is the complement of the one's-complement sum of the big-endian
words; and the pseudo-header form is the checksum of header and segment as one region. -/
theorem checksum_is_rfc1071 (l : List UInt8) (hl : l.length ≤ 65535) (srcIp dstIp : UInt32) (protocol : UInt8) :
    (∀ n, (checksumAccumulate (l.take n) 0).toNat = beSum (l.take n)) ∧
      (∀ n, (checksumAccumulate (l.take n) (checksumAccumulate (pseudoHeader srcIp dstIp protocol l.length) 0)).toNat =
        beSum (pseudoHeader srcIp dstIp protocol l.length) + beSum (l.take n)) ∧
      (∀ sum, ∃ n ≤ 2, (∀ k < n, foldOnce^[k] sum >>> 16 ≠ 0) ∧ foldOnce^[n] sum >>> 16 = 0 ∧
        checksumFinish sum = ~~~ (foldOnce^[n] sum).toUInt16) ∧
      ipv4Checksum l = ~~~ UInt16.ofNat (onesSum l) ∧
      ipv4ChecksumPseudo srcIp dstIp protocol l = ipv4Checksum (pseudoHeader srcIp dstIp protocol l.length ++ l) := by
  refine ⟨fun n => ?_, fun n => ?_, fun sum => ?_, ?_, ?_⟩
  · have hle := beSum_take_le l n
    rw [checksumAccumulate_toNat _ 0 (by rw [UInt32.toNat_zero]; omega), UInt32.toNat_zero, Nat.zero_add]
  · have hle := beSum_take_le l n
    obtain ⟨hsum, hsmall⟩ := pseudoHeader_sum srcIp dstIp protocol l.length
    rw [checksumAccumulate_toNat _ _ (by rw [hsum]; omega), hsum]
  · obtain ⟨n, hn, hmore, hdone, heq⟩ := foldCarries_passes sum
    exact ⟨n, hn, hmore, hdone, by rw [checksumFinish, heq]⟩
  · have hle := ocFold_le (by decide : 0 < 65535) (beSum l)
    apply UInt16.toNat_inj.1
    rw [ipv4Checksum_toNat (by omega), UInt16.toNat_not, onesSum_eq, UInt16.toNat_ofNat', Nat.mod_eq_of_lt (by omega)]
    rfl
  · have hlen : (pseudoHeader srcIp dstIp protocol l.length).length = 12 := rfl
    rw [ipv4Checksum, checksumAccumulate_append (by rw [hlen])]
    rfl

theorem checksum_is_rfc1071_odd : [0xFF, 0xFF, 0x01].length ≤ 65535 ∧
    ipv4Checksum [0xFF, 0xFF, 0x01] = ~~~ UInt16.ofNat (onesSum [0xFF, 0xFF, 0x01]) :=
  ⟨by decide, (checksum_is_rfc1071 [0xFF, 0xFF, 0x01] (by decide) 0 0 6).2.2.2.1⟩

/-! ## One word changed -/

/-- the two zeros of one's-complement arithmetic, one for the other -/
def SwapsZeros (x y : UInt16) : Prop := x = 0 ∧ y = 0xFFFF ∨ x = 0xFFFF ∧ y = 0

instance (x y : UInt16) : Decidable (SwapsZeros x y) := inferInstanceAs (Decidable (_ ∨ _))

/-- a change of a word that is more than a swap of the zeros -/
def Alters (x y : UInt16) : Prop := x ≠ y ∧ ¬ SwapsZeros x y

/-- exactly one 16-bit half of an address is altered -/
def AltersHalf (ip ip' : UInt32) : Prop :=
  (ip' >>> 16 = ip >>> 16 ∧ Alters ip.toUInt16 ip'.toUInt16) ∨
    (ip'.toUInt16 = ip.toUInt16 ∧ Alters (ip >>> 16).toUInt16 (ip' >>> 16).toUInt16)

/-- two complete sums do not differ in one altered word -/
theorem not_both_complete {x y : UInt16} (h : Alters x y) {rest : ℕ} (hx : 65535 ∣ rest + x.toNat)
    (hy : 65535 ∣ rest + y.toNat) : False := by
  obtain ⟨hne, hswap⟩ := h
  have hltx := x.toNat_lt
  have hlty := y.toNat_lt
  have hmod : (rest + x.toNat) % 65535 = (rest + y.toNat) % 65535 := by omega
  have hne' : x.toNat ≠ y.toNat := fun he => hne (UInt16.toNat_inj.1 he)
  have hzeros : x.toNat = 0 ∧ y.toNat = 65535 ∨ x.toNat = 65535 ∧ y.toNat = 0 := by omega
  refine hswap (hzeros.imp ?_ ?_)
  · rintro ⟨h₁, h₂⟩
    exact ⟨UInt16.toNat_inj.1 h₁, UInt16.toNat_inj.1 h₂⟩
  · rintro ⟨h₁, h₂⟩
    exact ⟨UInt16.toNat_inj.1 h₁, UInt16.toNat_inj.1 h₂⟩

variable {l : List UInt8} {base : ℕ}

theorem ipv4Checksum_eq_zero (h : l.length ≤ 65535) :
    ipv4Checksum l = 0 ↔ 0 < beSum l ∧ 65535 ∣ beSum l := by
  have hle := ocFold_le (by decide : 0 < 65535) (beSum l)
  rw [← UInt16.toNat_inj, ipv4Checksum_toNat (by omega), UInt16.toNat_zero, ← ocFold_eq_top (by decide : 0 < 65535)]
  omega

theorem ipv4ChecksumPseudo_eq_zero {srcIp dstIp : UInt32} {protocol : UInt8} (h : l.length ≤ 65535) :
    ipv4ChecksumPseudo srcIp dstIp protocol l = 0 ↔
      0 < beSum (pseudoHeader srcIp dstIp protocol l.length) + beSum l ∧
        65535 ∣ beSum (pseudoHeader srcIp dstIp protocol l.length) + beSum l := by
  have hle := ocFold_le (by decide : 0 < 65535) (beSum (pseudoHeader srcIp dstIp protocol l.length) + beSum l)
  rw [← UInt16.toNat_inj, ipv4ChecksumPseudo_toNat srcIp dstIp protocol (by omega), UInt16.toNat_zero,
    ← ocFold_eq_top (by decide : 0 < 65535)]
  omega

/-- the sum of a region, without the word at an even offset -/
theorem exists_rest {k : ℕ} (hk : k % 2 = 0) (hin : k + 2 ≤ l.length) :
    (∃ rest, beSum l = rest + (get16 l k).toNat ∧ ∀ y, beSum (overwrite l k (be16 y)) = rest + y.toNat) ∧
      ∀ y, (overwrite l k (be16 y)).length = l.length := by
  have hdrop : l.drop k = l.getD k 0 :: l.getD (k + 1) 0 :: l.drop (k + 2) := by
    rw [drop_eq_getElem_cons (by omega), drop_eq_getElem_cons (by omega), getD_eq_getElem _ _ (by omega),
      getD_eq_getElem _ _ (by omega)]
  have htake : (l.take k).length % 2 = 0 := by
    rw [length_take_of_le (by omega)]
    exact hk
  refine ⟨⟨beSum (l.take k) + beSum (l.drop (k + 2)), ?_, fun y => ?_⟩, fun y => ?_⟩
  · conv_lhs => rw [← take_append_drop k l, hdrop]
    rw [beSum_append htake, beSum, get16, join16_toNat]
    omega
  · exact beSum_field htake y _
  · rw [overwrite, length_append, length_append, be16_length, length_take_of_le (by omega),
      length_drop]
    omega

/-- an altered word is seen in every region that contains it once -/
theorem alters_word {k : ℕ} (hk : k % 2 = 0) (hin : k + 2 ≤ l.length) {y : UInt16} (h : Alters (get16 l k) y)
    (hl : 65535 ∣ base + beSum l) :
    ¬ 65535 ∣ base + beSum (overwrite l k (be16 y)) := by
  obtain ⟨⟨rest, hold, hnew⟩, -⟩ := exists_rest hk hin
  intro hdvd
  rw [hold, ← Nat.add_assoc] at hl
  rw [hnew, ← Nat.add_assoc] at hdvd
  exact not_both_complete h hl hdvd

/-- and so is a changed last byte of an odd number of bytes -/
theorem alters_last (hodd : l.length % 2 = 1) {c : UInt8} (hc : c ≠ l.getD (l.length - 1) 0)
    (hl : 65535 ∣ base + beSum l) : ¬ 65535 ∣ base + beSum (overwrite l (l.length - 1) [c]) := by
  have htake : (l.take (l.length - 1)).length % 2 = 0 := by
    rw [length_take_of_le (by omega)]
    omega
  have hlast : l = l.take (l.length - 1) ++ [l.getD (l.length - 1) 0] := by
    conv_lhs => rw [← take_append_drop (l.length - 1) l]
    rw [drop_eq_getElem_cons (by omega), getD_eq_getElem _ _ (by omega), drop_of_length_le (by omega)]
  have hold : beSum l = beSum (l.take (l.length - 1)) + 256 * (l.getD (l.length - 1) 0).toNat := by
    conv_lhs => rw [hlast]
    rw [beSum_append htake, beSum]
  have hnew : beSum (overwrite l (l.length - 1) [c]) = beSum (l.take (l.length - 1)) + 256 * c.toNat := by
    rw [overwrite, length_singleton, drop_of_length_le (by omega), append_nil, beSum_append htake, beSum]
  have hne : c.toNat ≠ (l.getD (l.length - 1) 0).toNat := fun he => hc (UInt8.toNat_inj.1 he)
  have hlt := c.toNat_lt
  have hlt' := (l.getD (l.length - 1) 0).toNat_lt
  intro hdvd
  rw [hold] at hl
  rw [hnew] at hdvd
  omega

theorem beSum_be32 (x : UInt32) : beSum (be32 x) = (x >>> 16).toUInt16.toNat + x.toUInt16.toNat := by
  have hx := x.toNat_lt
  obtain ⟨h24, h16, h8⟩ := byte_shifts x
  simp only [be32, beSum, UInt32.toNat_toUInt8, UInt32.toNat_toUInt16, h24, h16, h8]
  omega

/-- the sum of a pseudo-header, the addresses apart -/
theorem beSum_pseudoHeader (srcIp dstIp : UInt32) (protocol : UInt8) (len : ℕ) :
    beSum (pseudoHeader srcIp dstIp protocol len) =
      beSum (be32 srcIp) + beSum (be32 dstIp) + beSum ([0, protocol] ++ be16 (UInt16.ofNat len)) := by
  have hlen (ip : UInt32) : (be32 ip).length = 4 := rfl
  rw [pseudoHeader, append_assoc, append_assoc, beSum_append (by rw [hlen]), beSum_append (by rw [hlen]),
    ← Nat.add_assoc]

theorem alters_half {ip ip' : UInt32} (h : AltersHalf ip ip') (hip : 65535 ∣ base + beSum (be32 ip)) :
    ¬ 65535 ∣ base + beSum (be32 ip') := by
  intro hdvd
  rw [beSum_be32] at hip hdvd
  rcases h with ⟨hsame, halt⟩ | ⟨hsame, halt⟩
  · rw [hsame, ← Nat.add_assoc] at hdvd
    rw [← Nat.add_assoc] at hip
    exact not_both_complete halt hip hdvd
  · rw [hsame, Nat.add_comm (ip' >>> 16).toUInt16.toNat, ← Nat.add_assoc] at hdvd
    rw [Nat.add_comm (ip >>> 16).toUInt16.toNat, ← Nat.add_assoc] at hip
    exact not_both_complete halt hip hdvd

/-- **Inserting, verifying, detecting.** For up to 65535 bytes and an aligned field: with the field zeroed, the checksum
computed and stored big-endian, the same function returns 0. In a region that verifies, altering one aligned word, or the
last byte of an odd number of bytes, or for the pseudo-header form one half of an address, makes it return another value. -/
theorem checksum_verifies_and_detects (l : List UInt8) (hl : l.length ≤ 65535) (srcIp dstIp : UInt32) (protocol : UInt8) :
    (∀ k, k % 2 = 0 → k + 2 ≤ l.length →
      ipv4Checksum (overwrite l k (be16 (ipv4Checksum (overwrite l k (be16 0))))) = 0 ∧
      ipv4ChecksumPseudo srcIp dstIp protocol
        (overwrite l k (be16 (ipv4ChecksumPseudo srcIp dstIp protocol (overwrite l k (be16 0))))) = 0) ∧
    (ipv4Checksum l = 0 →
      (∀ k y, k % 2 = 0 → k + 2 ≤ l.length → Alters (get16 l k) y → ipv4Checksum (overwrite l k (be16 y)) ≠ 0) ∧
      (l.length % 2 = 1 → ∀ c ≠ l.getD (l.length - 1) 0, ipv4Checksum (overwrite l (l.length - 1) [c]) ≠ 0)) ∧
    (ipv4ChecksumPseudo srcIp dstIp protocol l = 0 →
      (∀ k y, k % 2 = 0 → k + 2 ≤ l.length → Alters (get16 l k) y →
        ipv4ChecksumPseudo srcIp dstIp protocol (overwrite l k (be16 y)) ≠ 0) ∧
      (l.length % 2 = 1 → ∀ c ≠ l.getD (l.length - 1) 0,
        ipv4ChecksumPseudo srcIp dstIp protocol (overwrite l (l.length - 1) [c]) ≠ 0) ∧
      (∀ srcIp', AltersHalf srcIp srcIp' → ipv4ChecksumPseudo srcIp' dstIp protocol l ≠ 0) ∧
      ∀ dstIp', AltersHalf dstIp dstIp' → ipv4ChecksumPseudo srcIp dstIp' protocol l ≠ 0) := by
  have hlast {c : UInt8} (hodd : l.length % 2 = 1) : (overwrite l (l.length - 1) [c]).length = l.length := by
    rw [overwrite, length_append, length_append, length_take_of_le (by omega), length_singleton,
      length_drop]
    omega
  refine ⟨fun k hk hin => ?_, fun hzero => ⟨fun k y hk hin h => ?_, fun hodd c hc => ?_⟩,
    fun hzero => ⟨fun k y hk hin h => ?_, fun hodd c hc => ?_, fun srcIp' h => ?_, fun dstIp' h => ?_⟩⟩
  · have htake : (l.take k).length % 2 = 0 := by
      rw [length_take_of_le (by omega)]
      exact hk
    have hlen : (l.take k ++ be16 0 ++ l.drop (k + 2)).length < 2 ^ 16 := by
      have hsame : (l.take k ++ be16 0 ++ l.drop (k + 2)).length = l.length := (exists_rest hk hin).2 0
      omega
    exact ⟨ipv4Checksum_insert htake hlen, ipv4ChecksumPseudo_insert htake hlen (.inl rfl)⟩
  · rw [Ne, ipv4Checksum_eq_zero (by rw [(exists_rest hk hin).2]; exact hl)]
    rw [ipv4Checksum_eq_zero hl, ← Nat.zero_add (beSum l)] at hzero
    rintro ⟨-, hdvd⟩
    rw [← Nat.zero_add (beSum (overwrite l k (be16 y)))] at hdvd
    exact alters_word hk hin h hzero.2 hdvd
  · rw [Ne, ipv4Checksum_eq_zero (by rw [hlast hodd]; exact hl)]
    rw [ipv4Checksum_eq_zero hl, ← Nat.zero_add (beSum l)] at hzero
    rintro ⟨-, hdvd⟩
    rw [← Nat.zero_add (beSum (overwrite l (l.length - 1) [c]))] at hdvd
    exact alters_last hodd hc hzero.2 hdvd
  · rw [Ne, ipv4ChecksumPseudo_eq_zero (by rw [(exists_rest hk hin).2]; exact hl), (exists_rest hk hin).2]
    rw [ipv4ChecksumPseudo_eq_zero hl] at hzero
    exact fun hdvd => alters_word hk hin h hzero.2 hdvd.2
  · rw [Ne, ipv4ChecksumPseudo_eq_zero (by rw [hlast hodd]; exact hl), hlast hodd]
    rw [ipv4ChecksumPseudo_eq_zero hl] at hzero
    exact fun hdvd => alters_last hodd hc hzero.2 hdvd.2
  · have hsplit (ip : UInt32) : beSum (pseudoHeader ip dstIp protocol l.length) + beSum l =
        beSum (be32 dstIp) + beSum ([0, protocol] ++ be16 (UInt16.ofNat l.length)) + beSum l + beSum (be32 ip) := by
      rw [beSum_pseudoHeader]
      omega
    rw [Ne, ipv4ChecksumPseudo_eq_zero hl, hsplit]
    rw [ipv4ChecksumPseudo_eq_zero hl, hsplit] at hzero
    exact fun hdvd => alters_half h hzero.2 hdvd.2
  · have hsplit (ip : UInt32) : beSum (pseudoHeader srcIp ip protocol l.length) + beSum l =
        beSum (be32 srcIp) + beSum ([0, protocol] ++ be16 (UInt16.ofNat l.length)) + beSum l + beSum (be32 ip) := by
      rw [beSum_pseudoHeader]
      omega
    rw [Ne, ipv4ChecksumPseudo_eq_zero hl, hsplit]
    rw [ipv4ChecksumPseudo_eq_zero hl, hsplit] at hzero
    exact fun hdvd => alters_half h hzero.2 hdvd.2

/-- a region with its field filled in, and then another word changed -/
theorem checksum_verifies_and_detects_four : [0x12, 0x34, 0, 0].length ≤ 65535 ∧
    ipv4Checksum [0x12, 0x34, 0xED, 0xCB] = 0 ∧ ipv4Checksum [0x12, 0x35, 0xED, 0xCB] ≠ 0 := by
  have hzero : ipv4Checksum [0x12, 0x34, 0xED, 0xCB] = 0 := by
    rw [ipv4Checksum_eq_zero (by decide)]
    decide
  have halters : Alters (get16 [0x12, 0x34, 0xED, 0xCB] 0) 0x1235 := ⟨by decide, by decide⟩
  have hdetects := ((checksum_verifies_and_detects [0x12, 0x34, 0xED, 0xCB] (by decide) 0 0 6).2.1 hzero).1
  exact ⟨by decide, hzero, hdetects 0 0x1235 rfl (by decide) halters⟩

end GannetOS.Net
