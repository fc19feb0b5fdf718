/-
IPv4 literals: `parse_ipv4_literal` of `dns.c`, and the printer of `apps/ping.c`.

A string is the list of its bytes; its end is the NUL the source sees. `Group` is one group of a literal, `decVal` its
value.

- `ipv4_literal`: the parser accepts exactly four groups with single dots between them, and yields their address; what
  `print_ip` prints for an address is read back as that address.
-/
import GannetOS.Core.CString
import GannetOS.Net.Checksum

namespace GannetOS.Net.Dns

open GannetOS.Core List

def isDigit (c : UInt8) : Bool := 48 ≤ c ∧ c ≤ 57

/-- the digits of one group, from a value and a number of digits on: the value and what follows -/
def digitLoop : List UInt8 → ℕ → ℕ → Option (ℕ × List UInt8)
  | [], val, _ => some (val, [])
  | c :: s, val, digits =>
    if isDigit c then
      let val := val * 10 + (c.toNat - 48)
      if digits + 1 > 3 ∨ val > 255 then none else digitLoop s val (digits + 1)
    else some (val, c :: s)

/-- one octet: it starts with a digit -/
def octet (s : List UInt8) : Option (ℕ × List UInt8) := if s.head?.any isDigit then digitLoop s 0 0 else none

/-- the loop over the octets, with `left` of them behind this one -/
def octetLoop : ℕ → List UInt8 → Option (List ℕ × List UInt8)
  | 0, s => (octet s).map fun r => ([r.1], r.2)
  | left + 1, s => do
    let (val, s) ← octet s
    if s.head? = some 46 then (octetLoop left s.tail).map fun r => (val :: r.1, r.2) else none

def parseIpv4Literal (s : List UInt8) : Option UInt32 :=
  match octetLoop 3 s with
  | some ([a, b, c, d], []) =>
    some (UInt32.ofNat a <<< 24 ||| UInt32.ofNat b <<< 16 ||| UInt32.ofNat c <<< 8 ||| UInt32.ofNat d)
  | _ => none

/-! ## The printer -/

/-- the loop of `print_uint`, least significant digit first; digits[] has 10 slots -/
def printDigits : ℕ → ℕ → List UInt8
  | 0, _ => []
  | n + 1, value => if value > 0 then UInt8.ofNat (48 + value % 10) :: printDigits n (value / 10) else []

def printUint (value : UInt32) : List UInt8 := if value = 0 then [48] else (printDigits 10 value.toNat).reverse

def printIp (ip : UInt32) : List UInt8 :=
  printUint ((ip >>> 24) &&& 0xFF) ++ (46 : UInt8) :: (printUint ((ip >>> 16) &&& 0xFF) ++ (46 : UInt8) ::
    (printUint ((ip >>> 8) &&& 0xFF) ++ (46 : UInt8) :: printUint (ip &&& 0xFF)))

/-! ## Groups -/

/-- the value of decimal digits read behind a value -/
def decFrom (val : ℕ) (g : List UInt8) : ℕ := g.foldl (fun v c => v * 10 + (c.toNat - 48)) val

/-- the value of a group -/
def decVal (g : List UInt8) : ℕ := decFrom 0 g

/-- one group of a literal -/
structure Group (g : List UInt8) : Prop where
  digits : ∀ c ∈ g, isDigit c = true
  nonempty : g ≠ []
  short : g.length ≤ 3
  byte : decVal g ≤ 255

theorem le_decFrom (val : ℕ) (g : List UInt8) : val ≤ decFrom val g := by
  induction g generalizing val with
  | nil => exact le_rfl
  | cons c g ih =>
    have hrest := ih (val * 10 + (c.toNat - 48))
    rw [decFrom, foldl_cons, ← decFrom]
    omega

/-- the digit loop reads all digits there are, and gives up if they are too many or their value is too large -/
theorem digitLoop_eq (s : List UInt8) {val digits : ℕ} (hval : val ≤ 255) (hdigits : digits ≤ 3) :
    digitLoop s val digits =
      if digits + (s.takeWhile isDigit).length ≤ 3 ∧ decFrom val (s.takeWhile isDigit) ≤ 255 then
        some (decFrom val (s.takeWhile isDigit), s.dropWhile isDigit)
      else none := by
  induction s generalizing val digits with
  | nil => simp [digitLoop, decFrom, hval, hdigits]
  | cons c s ih =>
    cases hc : isDigit c with
    | false => simp [digitLoop, hc, decFrom, hval, hdigits]
    | true =>
      have hcons : decFrom val (c :: s.takeWhile isDigit) =
          decFrom (val * 10 + (c.toNat - 48)) (s.takeWhile isDigit) := rfl
      have hmono := le_decFrom (val * 10 + (c.toNat - 48)) (s.takeWhile isDigit)
      rw [digitLoop, if_pos hc, takeWhile_cons_of_pos hc, dropWhile_cons_of_pos hc, hcons, length_cons]
      dsimp only
      by_cases hstop : digits + 1 > 3 ∨ val * 10 + (c.toNat - 48) > 255
      · rw [if_pos hstop, if_neg (by omega)]
      · rw [if_neg hstop, ih (by omega) (by omega)]
        exact if_congr (by omega) rfl rfl

/-- digits, and then something else -/
theorem takeWhile_digits {g x : List UInt8} (hg : ∀ c ∈ g, isDigit c = true) (hx : x.head?.any isDigit = false) :
    (g ++ x).takeWhile isDigit = g ∧ (g ++ x).dropWhile isDigit = x := by
  induction g with
  | nil =>
    cases x with
    | nil => exact ⟨rfl, rfl⟩
    | cons c x =>
      have hc : ¬ isDigit c = true := by simpa using hx
      exact ⟨takeWhile_cons_of_neg hc, dropWhile_cons_of_neg hc⟩
  | cons c g ih =>
    have hc : isDigit c = true := hg c mem_cons_self
    obtain ⟨htake, hdrop⟩ := ih fun c hc => hg c (mem_cons_of_mem _ hc)
    rw [cons_append, takeWhile_cons_of_pos hc, dropWhile_cons_of_pos hc, htake, hdrop]
    exact ⟨rfl, rfl⟩

theorem dropWhile_head (s : List UInt8) : (s.dropWhile isDigit).head?.any isDigit = false := by
  cases h : s.dropWhile isDigit with
  | nil => rfl
  | cons c x =>
    have hne : s.dropWhile isDigit ≠ [] := by rw [h]; exact cons_ne_nil c x
    have hc := head_dropWhile_not isDigit hne
    simpa [h] using hc

variable {s rest : List UInt8} {vals : List ℕ}

/-- one octet is one group -/
theorem octet_iff {v : ℕ} : octet s = some (v, rest) ↔
    ∃ g, Group g ∧ s = g ++ rest ∧ rest.head?.any isDigit = false ∧ v = decVal g := by
  rw [octet, digitLoop_eq s (Nat.zero_le _) (Nat.zero_le _), Nat.zero_add]
  constructor
  · intro h
    split_ifs at h with hhead hok
    obtain ⟨rfl, rfl⟩ := Prod.mk.injEq .. ▸ Option.some.inj h
    refine ⟨s.takeWhile isDigit, ⟨fun c hc => mem_takeWhile_imp hc, ?_, hok.1, hok.2⟩,
      (takeWhile_append_dropWhile).symm, dropWhile_head s, rfl⟩
    cases s with
    | nil => cases hhead
    | cons c s =>
      have hc : isDigit c = true := by simpa using hhead
      rw [takeWhile_cons_of_pos hc]
      exact cons_ne_nil _ _
  · rintro ⟨g, hg, rfl, hrest, rfl⟩
    obtain ⟨htake, hdrop⟩ := takeWhile_digits hg.digits hrest
    have hhead : (g ++ rest).head?.any isDigit = true := by
      cases g with
      | nil => exact absurd rfl hg.nonempty
      | cons c g => simpa using hg.digits c mem_cons_self
    rw [if_pos hhead, htake, hdrop, if_pos ⟨hg.short, hg.byte⟩, decVal]

theorem intercalate_cons (g : List UInt8) {gs : List (List UInt8)} (h : gs ≠ []) :
    [46].intercalate (g :: gs) = g ++ 46 :: [46].intercalate gs := by
  cases gs with
  | nil => exact absurd rfl h
  | cons g' gs => simp [List.intercalate]

theorem octetLoop_zero :
    octetLoop 0 s = some (vals, rest) ↔ ∃ v, octet s = some (v, rest) ∧ vals = [v] := by
  rw [octetLoop, Option.map_eq_some_iff]
  constructor
  · rintro ⟨⟨v, s'⟩, hs, heq⟩
    obtain ⟨rfl, rfl⟩ := Prod.mk.injEq .. ▸ heq
    exact ⟨v, hs, rfl⟩
  · rintro ⟨v, hs, rfl⟩
    exact ⟨(v, rest), hs, rfl⟩

theorem octetLoop_succ {left : ℕ} : octetLoop (left + 1) s = some (vals, rest) ↔
    ∃ v s' vs, octet s = some (v, 46 :: s') ∧ octetLoop left s' = some (vs, rest) ∧ vals = v :: vs := by
  rw [octetLoop, Option.bind_eq_bind, Option.bind_eq_some_iff]
  constructor
  · rintro ⟨⟨v, s'⟩, hs, h⟩
    dsimp only at h
    split_ifs at h with hdot
    obtain ⟨⟨vs, r⟩, hr, heq⟩ := Option.map_eq_some_iff.1 h
    obtain ⟨rfl, rfl⟩ := Prod.mk.injEq .. ▸ heq
    obtain ⟨s'', rfl⟩ := List.head?_eq_some_iff.1 hdot
    exact ⟨v, s'', vs, hs, hr, rfl⟩
  · rintro ⟨v, s', vs, hs, hr, rfl⟩
    refine ⟨(v, 46 :: s'), hs, ?_⟩
    dsimp only
    rw [head?_cons, if_pos rfl, tail_cons, hr]
    rfl

/-- the loop over the octets reads groups with single dots between them -/
theorem octetLoop_iff {left : ℕ} :
    octetLoop left s = some (vals, rest) ↔ ∃ groups : List (List UInt8), groups.length = left + 1 ∧
      (∀ g ∈ groups, Group g) ∧ s = [46].intercalate groups ++ rest ∧ rest.head?.any isDigit = false ∧
      vals = groups.map decVal := by
  induction left generalizing s vals with
  | zero =>
    simp only [octetLoop_zero, octet_iff]
    constructor
    · rintro ⟨v, ⟨g, hg, rfl, hrest, rfl⟩, rfl⟩
      exact ⟨[g], rfl, by simpa using hg, by simp [List.intercalate], hrest, rfl⟩
    · rintro ⟨groups, hlen, hg, rfl, hrest, rfl⟩
      obtain ⟨g, rfl⟩ := List.length_eq_one_iff.1 hlen
      exact ⟨decVal g, ⟨g, hg g mem_cons_self, by simp [List.intercalate], hrest, rfl⟩, rfl⟩
  | succ left ih =>
    simp only [octetLoop_succ, octet_iff, ih]
    constructor
    · rintro ⟨v, s', vs, ⟨g, hg, rfl, -, rfl⟩, ⟨groups, hlen, hgs, rfl, hrest, rfl⟩, rfl⟩
      have hne : groups ≠ [] := ne_nil_of_length_pos (by omega)
      refine ⟨g :: groups, by rw [length_cons, hlen], ?_, ?_, hrest, rfl⟩
      · intro g' hg'
        rcases List.mem_cons.1 hg' with rfl | hg'
        · exact hg
        · exact hgs g' hg'
      · rw [intercalate_cons g hne, append_assoc, cons_append]
    · rintro ⟨groups, hlen, hgs, rfl, hrest, rfl⟩
      cases groups with
      | nil => cases hlen
      | cons g groups =>
        have hlen' : groups.length = left + 1 := by simpa using hlen
        have hne : groups ≠ [] := ne_nil_of_length_pos (by omega)
        refine ⟨decVal g, [46].intercalate groups ++ rest, groups.map decVal, ⟨g, hgs g mem_cons_self, ?_, ?_, rfl⟩,
          ⟨groups, hlen', fun g' hg' => hgs g' (mem_cons_of_mem g hg'), rfl, hrest, rfl⟩, rfl⟩
        · rw [intercalate_cons g hne, append_assoc, cons_append]
        · exact (by decide : isDigit 46 = false)

/-! ## Addresses -/

/-- four octets put together, as a number -/
theorem octets_toNat {a b c d : ℕ} (ha : a ≤ 255) (hb : b ≤ 255) (hc : c ≤ 255) (hd : d ≤ 255) :
    (UInt32.ofNat a <<< 24 ||| UInt32.ofNat b <<< 16 ||| UInt32.ofNat c <<< 8 ||| UInt32.ofNat d).toNat =
      a * 2 ^ 24 + b * 2 ^ 16 + c * 2 ^ 8 + d := by
  have hshift {x k : ℕ} (hx : x ≤ 255) (hk : k < 32) (hfit : x * 2 ^ k < 2 ^ 32) :
      (UInt32.ofNat x <<< UInt32.ofNat k).toNat = x * 2 ^ k := by
    rw [UInt32.toNat_shiftLeft, UInt32.toNat_ofNat', UInt32.toNat_ofNat', Nat.mod_eq_of_lt (by omega : x < 2 ^ 32),
      Nat.mod_eq_of_lt (by omega : k < 2 ^ 32), Nat.mod_eq_of_lt hk, Nat.shiftLeft_eq, Nat.mod_eq_of_lt hfit]
  have h24 : (UInt32.ofNat a <<< 24).toNat = a * 2 ^ 24 := hshift ha (by decide) (show a * 2 ^ 24 < 2 ^ 32 by omega)
  have h16 : (UInt32.ofNat b <<< 16).toNat = b * 2 ^ 16 := hshift hb (by decide) (show b * 2 ^ 16 < 2 ^ 32 by omega)
  have h8 : (UInt32.ofNat c <<< 8).toNat = c * 2 ^ 8 := hshift hc (by decide) (show c * 2 ^ 8 < 2 ^ 32 by omega)
  rw [UInt32.toNat_or, UInt32.toNat_or, UInt32.toNat_or, h24, h16, h8, UInt32.toNat_ofNat',
    Nat.mod_eq_of_lt (by omega : d < 2 ^ 32)]
  -- each part lies below the lowest bit of the parts to its left
  have hor {x y k : ℕ} (hy : y < 2 ^ k) : x * 2 ^ k ||| y = x * 2 ^ k + y := by
    rw [← Nat.shiftLeft_eq, Nat.shiftLeft_add_eq_or_of_lt hy]
  rw [hor (by omega : b * 2 ^ 16 < 2 ^ 24),
    show a * 2 ^ 24 + b * 2 ^ 16 = (a * 2 ^ 8 + b) * 2 ^ 16 by ring, hor (by omega : c * 2 ^ 8 < 2 ^ 16),
    show (a * 2 ^ 8 + b) * 2 ^ 16 + c * 2 ^ 8 = (a * 2 ^ 16 + b * 2 ^ 8 + c) * 2 ^ 8 by ring, hor (by omega : d < 2 ^ 8)]

/-- the bytes of an address, as numbers -/
theorem be32_map (ip : UInt32) : (be32 ip).map UInt8.toNat =
    [ip.toNat / 2 ^ 24, ip.toNat / 2 ^ 16 % 256, ip.toNat / 2 ^ 8 % 256, ip.toNat % 256] := by
  have hip := ip.toNat_lt
  obtain ⟨h24, h16, h8⟩ := byte_shifts ip
  simp only [be32, map_cons, map_nil, UInt32.toNat_toUInt8, h24, h16, h8]
  rw [Nat.mod_eq_of_lt (by omega : ip.toNat / 2 ^ 24 < 2 ^ 8)]

/-- an address is put together from its bytes -/
theorem octets_eq_iff {a b c d : ℕ} (ha : a ≤ 255) (hb : b ≤ 255) (hc : c ≤ 255) (hd : d ≤ 255) (ip : UInt32) :
    UInt32.ofNat a <<< 24 ||| UInt32.ofNat b <<< 16 ||| UInt32.ofNat c <<< 8 ||| UInt32.ofNat d = ip ↔
      (be32 ip).map UInt8.toNat = [a, b, c, d] := by
  have hip := ip.toNat_lt
  rw [← UInt32.toNat_inj, octets_toNat ha hb hc hd, be32_map]
  simp only [List.cons.injEq, and_true]
  omega

/-! ## Printing -/

theorem printDigits_spec {n value : ℕ} (h : value < 10 ^ n) :
    (∀ c ∈ printDigits n value, isDigit c = true) ∧ decVal (printDigits n value).reverse = value ∧
      ∀ k, value < 10 ^ k → (printDigits n value).length ≤ k := by
  induction n generalizing value with
  | zero =>
    obtain rfl : value = 0 := by simpa using h
    exact ⟨by simp [printDigits], rfl, fun k _ => Nat.zero_le k⟩
  | succ n ih =>
    unfold printDigits
    by_cases hpos : value > 0
    · rw [if_pos hpos]
      have hdiv : value / 10 < 10 ^ n := by
        rw [pow_succ] at h
        omega
      obtain ⟨hdigits, hval, hlen⟩ := ih hdiv
      have hmod : value % 10 < 10 := Nat.mod_lt _ (by decide)
      have hc : (UInt8.ofNat (48 + value % 10)).toNat = 48 + value % 10 := by
        rw [UInt8.toNat_ofNat', Nat.mod_eq_of_lt (by omega)]
      refine ⟨fun c hmem => ?_, ?_, fun k hk => ?_⟩
      · rcases List.mem_cons.1 hmem with rfl | hmem
        · rw [isDigit, decide_eq_true_iff, UInt8.le_iff_toNat_le, UInt8.le_iff_toNat_le, hc]
          exact ⟨by simp, by simp; omega⟩
        · exact hdigits c hmem
      · rw [decVal, decFrom] at hval ⊢
        rw [reverse_cons, foldl_append, hval, foldl_cons, foldl_nil, hc]
        omega
      · cases k with
        | zero =>
          rw [pow_zero] at hk
          omega
        | succ k =>
          rw [pow_succ] at hk
          have := hlen k (by omega)
          rw [length_cons]
          omega
    · rw [if_neg hpos]
      obtain rfl : value = 0 := by omega
      exact ⟨by simp, rfl, fun k _ => Nat.zero_le k⟩

/-- a byte is printed as one group -/
theorem printUint_group {value : UInt32} (h : value.toNat ≤ 255) :
    Group (printUint value) ∧ decVal (printUint value) = value.toNat := by
  unfold printUint
  split_ifs with h0
  · rw [h0]
    exact ⟨⟨by simp [isDigit], by simp, by simp, by simp [decVal, decFrom]⟩, rfl⟩
  · have hfits : value.toNat < 10 ^ 10 := by
      have := value.toNat_lt
      omega
    obtain ⟨hdigits, hval, hlen⟩ := printDigits_spec hfits
    refine ⟨⟨fun c hc => hdigits c (List.mem_reverse.1 hc), fun hnil => h0 ?_, ?_, by rw [hval]; exact h⟩, hval⟩
    · rw [hnil] at hval
      exact UInt32.toNat_inj.1 hval.symm
    · rw [length_reverse]
      exact hlen 3 (by omega)

theorem parseIpv4Literal_iff {ip : UInt32} : parseIpv4Literal s = some ip ↔
    ∃ groups : List (List UInt8), groups.length = 4 ∧ (∀ g ∈ groups, Group g) ∧ s = [46].intercalate groups ∧
      (be32 ip).map UInt8.toNat = groups.map decVal := by
  constructor
  · intro h
    unfold parseIpv4Literal at h
    split at h
    · rename_i a b c d heq
      obtain ⟨groups, hlen, hg, hs, -, hvals⟩ := octetLoop_iff.1 heq
      have hbyte : ∀ v ∈ [a, b, c, d], v ≤ 255 := by
        rw [hvals]
        intro v hv
        obtain ⟨g, hmem, rfl⟩ := List.mem_map.1 hv
        exact (hg g hmem).byte
      refine ⟨groups, hlen, hg, by simpa using hs, ?_⟩
      rw [← hvals]
      exact (octets_eq_iff (hbyte a (by simp)) (hbyte b (by simp)) (hbyte c (by simp)) (hbyte d (by simp)) ip).1
        (Option.some.inj h)
    · cases h
  · rintro ⟨groups, hlen, hg, rfl, hip⟩
    have hloop : octetLoop 3 ([46].intercalate groups) = some (groups.map decVal, []) :=
      octetLoop_iff.2 ⟨groups, hlen, hg, (append_nil _).symm, rfl, rfl⟩
    match groups, hlen with
    | [g₀, g₁, g₂, g₃], _ =>
      have hbyte (g : List UInt8) (h : g ∈ [g₀, g₁, g₂, g₃]) : decVal g ≤ 255 := (hg g h).byte
      rw [parseIpv4Literal, hloop]
      exact congrArg some ((octets_eq_iff (hbyte g₀ (by simp)) (hbyte g₁ (by simp)) (hbyte g₂ (by simp))
        (hbyte g₃ (by simp)) ip).2 hip)

/-- **IPv4 literals.** `parse_ipv4_literal` succeeds exactly on four groups of one to three digits, each of value at most
255, with single dots between them, and yields the address with these octets. What `print_ip` prints for an address is
parsed as that address. -/
theorem ipv4_literal :
    (∀ (s : CStr) (ip : UInt32), parseIpv4Literal s.bytes = some ip ↔ ∃ groups : List (List UInt8),
      groups.length = 4 ∧ (∀ g ∈ groups, Group g) ∧ s.bytes = [46].intercalate groups ∧
      (be32 ip).map UInt8.toNat = groups.map decVal) ∧
    ∀ ip, parseIpv4Literal (printIp ip) = some ip := by
  refine ⟨fun s ip => parseIpv4Literal_iff, fun ip => ?_⟩
  have hlow (x : UInt32) : (x &&& (0xFF : UInt32)).toNat = x.toNat % 256 := by
    rw [UInt32.toNat_and]
    exact Nat.and_two_pow_sub_one_eq_mod x.toNat 8
  have hgroup (x : UInt32) : Group (printUint (x &&& 0xFF)) ∧ decVal (printUint (x &&& 0xFF)) = (x &&& 0xFF).toNat :=
    printUint_group (by rw [hlow]; omega)
  refine parseIpv4Literal_iff.2 ⟨[printUint ((ip >>> 24) &&& 0xFF), printUint ((ip >>> 16) &&& 0xFF),
    printUint ((ip >>> 8) &&& 0xFF), printUint (ip &&& 0xFF)], rfl, fun g hg => ?_, ?_, ?_⟩
  · simp only [mem_cons, not_mem_nil, or_false] at hg
    rcases hg with rfl | rfl | rfl | rfl
    · exact (hgroup _).1
    · exact (hgroup _).1
    · exact (hgroup _).1
    · exact (hgroup _).1
  · simp only [printIp, List.intercalate, List.intersperse, flatten_cons, flatten_nil, append_nil,
      singleton_append]
  · have hip := ip.toNat_lt
    obtain ⟨h24, h16, h8⟩ := byte_shifts ip
    simp only [map_cons, map_nil, (hgroup _).2, hlow, h24, h16, h8, be32_map]
    rw [Nat.mod_eq_of_lt (by omega : ip.toNat / 2 ^ 24 < 256)]

end GannetOS.Net.Dns
