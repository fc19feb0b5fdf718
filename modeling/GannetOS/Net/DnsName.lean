/-
Names on the wire (`dns.c`): `encode_qname` writes a hostname as length-prefixed labels and a root label, `skip_name` steps
over a name in a packet.

A name is a list of labels with its end, which is the root label or a compression pointer (`WireName`). Reads of a packet
go through `packet[k]?`, so that `none` is a read at or behind packet_len. `skip_name` visits an offset at most once if it
returns at all, so packet_len passes and one more test are enough; `none` also stands for a loop that does not end. pos
stays below out_max and a string is shorter than the address space, so pos and label_len are natural numbers.

- `qname_round_trip`: `encode_qname` fails exactly on an empty or overlong label and when the wire form does not fit;
  otherwise it writes the wire form of the hostname's labels and nothing else, and `skip_name` steps over it.
-/
import GannetOS.Core.CString
import GannetOS.Core.Writes

namespace GannetOS.Net.Dns

open GannetOS.Core List

/-! ## The functions -/

/-- the loop of `encode_qname` at the label that `rest` starts with: the value returned and the bytes written to out -/
def encodeLoop (outMax : UInt16) (rest : List UInt8) (pos : ℕ) : ℕ × List (ℕ × UInt8) :=
  let label := rest.takeWhile (· ≠ 46)
  if label.length = 0 ∨ label.length > 63 then (0, [])
  else if pos + label.length + 1 ≥ outMax.toNat then (0, [])
  else
    let written := putAt pos (UInt8.ofNat label.length :: label)
    let pos := pos + label.length + 1
    match h : rest.dropWhile (· ≠ 46) with
    | [] =>
      if pos + 1 > outMax.toNat then (0, written)
      else (pos + 1, written ++ [(pos, 0)]) -- the root label
    | _ :: rest' =>
      let r := encodeLoop outMax rest' pos
      (r.1, written ++ r.2)
termination_by rest.length
decreasing_by
  have hle := (List.dropWhile_suffix (fun c : UInt8 => decide (c ≠ 46)) (l := rest)).length_le
  rw [h] at hle
  exact hle

def encodeQname (hostname : CStr) (outMax : UInt16) : ℕ × List (ℕ × UInt8) := encodeLoop outMax hostname.bytes 0

/-- the loop of `skip_name` -/
def skipLoop (packet : List UInt8) : ℕ → UInt16 → Option UInt16
  | 0, _ => none
  | n + 1, offset =>
    if offset.toNat < packet.length then do
      let lenByte ← packet[offset.toNat]?
      if lenByte &&& 0xC0 = 0xC0 then some (offset + 2) -- a compression pointer
      else if lenByte = 0 then some (offset + 1) -- the root label
      else skipLoop packet n (offset + 1 + lenByte.toUInt16)
    else some (UInt16.ofNat packet.length)

def skipName (packet : List UInt8) (offset : UInt16) : Option UInt16 := skipLoop packet (packet.length + 1) offset

/-! ## Names -/

/-- a label of a name -/
def ValidLabel (l : List UInt8) : Prop := 0 < l.length ∧ l.length ≤ 63

instance (l : List UInt8) : Decidable (ValidLabel l) := inferInstanceAs (Decidable (_ ∧ _))

/-- what `encode_qname` rejects -/
theorem not_validLabel {l : List UInt8} : ¬ ValidLabel l ↔ l.length = 0 ∨ l.length > 63 := by
  unfold ValidLabel
  omega

/-- how a name ends -/
inductive NameEnd where
  | root
  | pointer (hi lo : UInt8) (mark : hi &&& 0xC0 = 0xC0)

def NameEnd.bytes : NameEnd → List UInt8
  | root => [0]
  | pointer hi lo _ => [hi, lo]

/-- a name in a message -/
structure WireName where
  labels : List (List UInt8)
  valid : ∀ l ∈ labels, ValidLabel l
  ending : NameEnd

def wireLabel (l : List UInt8) : List UInt8 := UInt8.ofNat l.length :: l

def WireName.bytes (n : WireName) : List UInt8 := n.labels.flatMap wireLabel ++ n.ending.bytes

/-- what stands between the dots of a hostname -/
def labels (hostname : List UInt8) : List (List UInt8) := hostname.splitOn 46

/-- the wire form of a list of labels -/
def wireForm (ls : List (List UInt8)) : List UInt8 := ls.flatMap wireLabel ++ [0]

theorem wireForm_length (ls : List (List UInt8)) : (wireForm ls).length = (ls.map fun l => l.length + 1).sum + 1 := by
  rw [wireForm, length_append, length_singleton, length_flatMap]
  rfl

theorem wireForm_cons (l : List UInt8) (ls : List (List UInt8)) : wireForm (l :: ls) = wireLabel l ++ wireForm ls := by
  rw [wireForm, wireForm, flatMap_cons, append_assoc]

/-! ## Encoding -/

theorem notMem_takeWhile (rest : List UInt8) : (46 : UInt8) ∉ rest.takeWhile (· ≠ 46) := by
  intro h
  simpa using mem_takeWhile_imp h

/-- without a dot there is one label -/
theorem labels_last {rest : List UInt8} (h : rest.dropWhile (· ≠ 46) = []) : labels rest = [rest.takeWhile (· ≠ 46)] := by
  have hall : rest.takeWhile (· ≠ 46) = rest := by
    conv_rhs => rw [← takeWhile_append_dropWhile (p := fun c : UInt8 => decide (c ≠ 46)) (l := rest), h]
    rw [append_nil]
  rw [hall, labels, splitOn_eq_singleton]
  rw [← hall]
  exact notMem_takeWhile rest

/-- the first label, and the labels behind the first dot -/
theorem labels_more {c : UInt8} {rest rest' : List UInt8} (h : rest.dropWhile (· ≠ 46) = c :: rest') :
    labels rest = rest.takeWhile (· ≠ 46) :: labels rest' := by
  have hc : c = 46 := by
    have hne : rest.dropWhile (· ≠ 46) ≠ [] := by rw [h]; exact cons_ne_nil c rest'
    have hhead := head_dropWhile_not (fun c : UInt8 => decide (c ≠ 46)) hne
    simp only [h, head_cons] at hhead
    simpa using hhead
  subst hc
  conv_lhs => rw [← takeWhile_append_dropWhile (p := fun c : UInt8 => decide (c ≠ 46)) (l := rest), h]
  refine splitOnP_append_cons_of_forall_mem (fun x hx => ?_) 46 (by decide) rest'
  simpa using mem_takeWhile_imp hx

section
variable {outMax : UInt16} {rest rest' : List UInt8} {c : UInt8} {pos : ℕ}

/-- the last label: the root label is written behind it -/
theorem encodeLoop_last (h : rest.dropWhile (· ≠ 46) = []) : encodeLoop outMax rest pos =
    if ValidLabel (rest.takeWhile (· ≠ 46)) ∧ pos + (wireForm [rest.takeWhile (· ≠ 46)]).length ≤ outMax.toNat then
      (pos + (wireForm [rest.takeWhile (· ≠ 46)]).length, putAt pos (wireForm [rest.takeWhile (· ≠ 46)]))
    else (0, []) := by
  have hlen : (wireForm [rest.takeWhile (· ≠ 46)]).length = (rest.takeWhile (· ≠ 46)).length + 2 := by
    rw [wireForm_length]
    simp
  have hput : putAt pos (wireForm [rest.takeWhile (· ≠ 46)]) =
      putAt pos (wireLabel (rest.takeWhile (· ≠ 46))) ++ [(pos + (rest.takeWhile (· ≠ 46)).length + 1, 0)] := by
    rw [wireForm_cons, putAt_append]
    rfl
  rw [encodeLoop, hlen, hput]
  dsimp only
  by_cases hvalid : ValidLabel (rest.takeWhile (· ≠ 46))
  · rw [if_neg fun hbad => not_validLabel.2 hbad hvalid]
    by_cases hfit : pos + (rest.takeWhile (· ≠ 46)).length + 1 ≥ outMax.toNat
    · rw [if_pos hfit, if_neg (by omega)]
    · have hok : ValidLabel (rest.takeWhile (· ≠ 46)) ∧
          pos + ((rest.takeWhile (· ≠ 46)).length + 2) ≤ outMax.toNat := ⟨hvalid, by omega⟩
      rw [if_neg hfit, if_pos hok]
      split
      · rw [if_neg (by omega)]
        rfl
      · rename_i heq
        rw [h] at heq
        cases heq
  · rw [if_pos (not_validLabel.1 hvalid), if_neg fun hok => hvalid hok.1]

/-- a label with more behind it -/
theorem encodeLoop_more (h : rest.dropWhile (· ≠ 46) = c :: rest') : encodeLoop outMax rest pos =
    if ValidLabel (rest.takeWhile (· ≠ 46)) ∧ pos + (wireLabel (rest.takeWhile (· ≠ 46))).length < outMax.toNat then
      ((encodeLoop outMax rest' (pos + (wireLabel (rest.takeWhile (· ≠ 46))).length)).1,
        putAt pos (wireLabel (rest.takeWhile (· ≠ 46))) ++
          (encodeLoop outMax rest' (pos + (wireLabel (rest.takeWhile (· ≠ 46))).length)).2)
    else (0, []) := by
  have hlen : (wireLabel (rest.takeWhile (· ≠ 46))).length = (rest.takeWhile (· ≠ 46)).length + 1 := rfl
  rw [encodeLoop, hlen]
  dsimp only
  by_cases hvalid : ValidLabel (rest.takeWhile (· ≠ 46))
  · rw [if_neg fun hbad => not_validLabel.2 hbad hvalid]
    by_cases hfit : pos + (rest.takeWhile (· ≠ 46)).length + 1 ≥ outMax.toNat
    · rw [if_pos hfit, if_neg (by omega)]
    · have hok : ValidLabel (rest.takeWhile (· ≠ 46)) ∧
          pos + ((rest.takeWhile (· ≠ 46)).length + 1) < outMax.toNat := ⟨hvalid, by omega⟩
      rw [if_neg hfit, if_pos hok]
      split
      · rename_i heq
        rw [h] at heq
        cases heq
      · rename_i heq
        rw [h] at heq
        obtain ⟨-, rfl⟩ := List.cons.inj heq
        rfl
  · rw [if_pos (not_validLabel.1 hvalid), if_neg fun hok => hvalid hok.1]

end

/-- a hostname is written in its wire form, or the value returned is 0 -/
theorem encodeLoop_spec (outMax : UInt16) (rest : List UInt8) (pos : ℕ) :
    (((∀ l ∈ labels rest, ValidLabel l) ∧ pos + (wireForm (labels rest)).length ≤ outMax.toNat) ∧
      encodeLoop outMax rest pos = (pos + (wireForm (labels rest)).length, putAt pos (wireForm (labels rest)))) ∨
    (¬ ((∀ l ∈ labels rest, ValidLabel l) ∧ pos + (wireForm (labels rest)).length ≤ outMax.toNat) ∧
      (encodeLoop outMax rest pos).1 = 0) := by
  induction hn : rest.length using Nat.strong_induction_on generalizing rest pos with
  | _ n ih =>
    cases h : rest.dropWhile (· ≠ 46) with
    | nil =>
      rw [labels_last h, encodeLoop_last h]
      split_ifs with hok
      · exact .inl ⟨⟨by simpa using hok.1, hok.2⟩, rfl⟩
      · exact .inr ⟨fun hno => hok ⟨hno.1 _ mem_cons_self, hno.2⟩, rfl⟩
    | cons c rest' =>
      have hlt : rest'.length < n := by
        have hle := (dropWhile_suffix (fun c : UInt8 => decide (c ≠ 46)) (l := rest)).length_le
        rw [h, length_cons, hn] at hle
        omega
      have hwire : (wireForm (labels rest)).length =
          (wireLabel (rest.takeWhile (· ≠ 46))).length + (wireForm (labels rest')).length := by
        rw [labels_more h, wireForm_cons, length_append]
      have hpos : 0 < (wireForm (labels rest')).length := by
        rw [wireForm_length]
        omega
      rw [encodeLoop_more h, hwire]
      rcases ih rest'.length hlt rest' (pos + (wireLabel (rest.takeWhile (· ≠ 46))).length) rfl with
        ⟨⟨hvalid, hfit⟩, hrest⟩ | ⟨hno, hrest⟩
      · rw [hrest]
        split_ifs with hok
        · refine .inl ⟨⟨fun l hl => ?_, by omega⟩, ?_⟩
          · rw [labels_more h] at hl
            rcases List.mem_cons.1 hl with rfl | hl
            · exact hok.1
            · exact hvalid l hl
          · rw [labels_more h, wireForm_cons, putAt_append, Nat.add_assoc]
        · refine .inr ⟨fun hall => hok ⟨hall.1 _ ?_, by omega⟩, rfl⟩
          rw [labels_more h]
          exact mem_cons_self
      · refine .inr ⟨fun hall => hno ⟨fun l hl => hall.1 l ?_, by omega⟩, ?_⟩
        · rw [labels_more h]
          exact mem_cons_of_mem _ hl
        · split_ifs
          · exact hrest
          · rfl

/-! ## Skipping -/

/-- the length byte of a label is neither a pointer nor the root label -/
theorem label_byte {n : ℕ} (h : 0 < n) (h' : n ≤ 63) :
    UInt8.ofNat n &&& 0xC0 ≠ 0xC0 ∧ UInt8.ofNat n ≠ 0 ∧ (UInt8.ofNat n).toUInt16 = UInt16.ofNat n := by
  interval_cases n <;> decide

variable {packet before after : List UInt8}

/-- `skip_name` at an offset where a byte `c` is -/
theorem skipLoop_at {c : UInt8} (hlen : packet.length < 65536) (hpacket : packet = before ++ c :: after) (n : ℕ) :
    skipLoop packet (n + 1) (UInt16.ofNat before.length) =
      if c &&& 0xC0 = 0xC0 then some (UInt16.ofNat (before.length + 2))
      else if c = 0 then some (UInt16.ofNat (before.length + 1))
      else skipLoop packet n (UInt16.ofNat (before.length + 1) + c.toUInt16) := by
  have hin : before.length < packet.length := by
    rw [hpacket, length_append, length_cons]
    omega
  have hoff : (UInt16.ofNat before.length).toNat = before.length := by
    rw [UInt16.toNat_ofNat', Nat.mod_eq_of_lt (by omega)]
  have hget : packet[before.length]? = some c := by
    rw [hpacket, getElem?_append_right le_rfl, Nat.sub_self, getElem?_cons_zero]
  rw [skipLoop, hoff, if_pos hin, hget, UInt16.ofNat_add, UInt16.ofNat_add]
  rfl

/-- `skip_name` steps over the labels and the end of a name -/
theorem skipLoop_name (hlen : packet.length < 65536) (ending : NameEnd) {ls : List (List UInt8)}
    (hvalid : ∀ l ∈ ls, ValidLabel l) (hpacket : packet = before ++ (ls.flatMap wireLabel ++ ending.bytes ++ after))
    {n : ℕ} (hn : ls.length < n) :
    skipLoop packet n (UInt16.ofNat before.length) =
      some (UInt16.ofNat (before.length + (ls.flatMap wireLabel ++ ending.bytes).length)) := by
  obtain ⟨n, rfl⟩ : ∃ k, n = k + 1 := ⟨n - 1, by omega⟩
  induction ls generalizing before n with
  | nil =>
    cases ending with
    | root =>
      rw [skipLoop_at hlen hpacket, if_neg (by decide), if_pos rfl]
      rfl
    | pointer hi lo mark =>
      rw [skipLoop_at hlen hpacket, if_pos mark]
      rfl
  | cons l ls ih =>
    obtain ⟨hpos, hshort⟩ := hvalid l mem_cons_self
    obtain ⟨hmark, hroot, hbyte⟩ := label_byte hpos hshort
    have hsplit : packet = before ++ wireLabel l ++ (ls.flatMap wireLabel ++ ending.bytes ++ after) := by
      rw [hpacket, flatMap_cons]
      simp only [append_assoc]
    have hcons : packet = before ++ UInt8.ofNat l.length :: (l ++ (ls.flatMap wireLabel ++ ending.bytes ++ after)) := by
      rw [hsplit, wireLabel, append_assoc, cons_append]
    obtain ⟨m, rfl⟩ : ∃ m, n = m + 1 := ⟨n - 1, by rw [length_cons] at hn; omega⟩
    have hnext : UInt16.ofNat (before.length + 1) + (UInt8.ofNat l.length).toUInt16 =
        UInt16.ofNat (before ++ wireLabel l).length := by
      rw [hbyte, ← UInt16.ofNat_add, length_append, wireLabel, length_cons]
      congr 1
      omega
    rw [skipLoop_at hlen hcons, if_neg hmark, if_neg hroot, hnext,
      ih (fun l' hl' => hvalid l' (mem_cons_of_mem l hl')) hsplit m (by rw [length_cons] at hn; omega)]
    simp only [flatMap_cons, length_append]
    congr 2
    omega

theorem labels_le_bytes (ls : List (List UInt8)) : ls.length ≤ (ls.flatMap wireLabel).length := by
  induction ls with
  | nil => exact le_rfl
  | cons l ls ih =>
    rw [flatMap_cons, length_append, wireLabel, length_cons, length_cons]
    omega

theorem skipName_name (hlen : packet.length < 65536) (name : WireName)
    (hpacket : packet = before ++ (name.bytes ++ after)) :
    skipName packet (UInt16.ofNat before.length) = some (UInt16.ofNat (before.length + name.bytes.length)) := by
  refine skipLoop_name hlen name.ending name.valid hpacket ?_
  have hle := labels_le_bytes name.labels
  rw [hpacket, WireName.bytes]
  simp only [length_append]
  omega

/-- **Encoding and skipping agree.** For every hostname and every out_max: `encode_qname` returns 0 exactly if a label is
empty or longer than 63 bytes or the wire form is longer than out_max. Otherwise it returns the length of the wire form and
writes exactly that, the labels joined with dots are the hostname, and `skip_name` over any packet that holds the wire form
steps behind it. -/
theorem qname_round_trip (hostname : CStr) (outMax : UInt16) :
    ((encodeQname hostname outMax).1 = 0 ↔
      (∃ l ∈ labels hostname.bytes, l.length = 0 ∨ 63 < l.length) ∨
        outMax.toNat < ((labels hostname.bytes).map fun l => l.length + 1).sum + 1) ∧
    ((encodeQname hostname outMax).1 ≠ 0 →
      (encodeQname hostname outMax).1 = ((labels hostname.bytes).map fun l => l.length + 1).sum + 1 ∧
      (∀ w ∈ (encodeQname hostname outMax).2, w.1 < (encodeQname hostname outMax).1) ∧
      (∀ out, (List.range (encodeQname hostname outMax).1).map (stored (encodeQname hostname outMax).2 out) =
        wireForm (labels hostname.bytes)) ∧
      [46].intercalate (labels hostname.bytes) = hostname.bytes ∧
      ∀ before after : List UInt8, (before ++ (wireForm (labels hostname.bytes) ++ after)).length < 65536 →
        skipName (before ++ (wireForm (labels hostname.bytes) ++ after)) (UInt16.ofNat before.length) =
          some (UInt16.ofNat (before.length + (encodeQname hostname outMax).1))) := by
  have hlength := wireForm_length (labels hostname.bytes)
  unfold encodeQname
  rcases encodeLoop_spec outMax hostname.bytes 0 with ⟨⟨hvalid, hfit⟩, heq⟩ | ⟨hno, hzero⟩
  · rw [Nat.zero_add] at hfit heq
    rw [heq, ← hlength]
    refine ⟨⟨fun h0 => ?_, fun h => ?_⟩, fun _ => ⟨rfl, fun w hw => ?_, fun out => ?_, intercalate_splitOn 46,
      fun before after hlen => ?_⟩⟩
    · dsimp only at h0
      omega
    · rcases h with ⟨l, hl, hbad⟩ | hlong
      · have := hvalid l hl
        unfold ValidLabel at this
        omega
      · omega
    · have := putAt_range hw
      dsimp only
      omega
    · exact map_stored_putAt _ out
    · exact skipName_name hlen ⟨labels hostname.bytes, hvalid, .root⟩ rfl
  · refine ⟨⟨fun _ => ?_, fun _ => hzero⟩, fun h => absurd hzero h⟩
    by_contra hgood
    rw [not_or, not_exists, ← hlength] at hgood
    refine hno ⟨fun l hl => ?_, by omega⟩
    have hl' : ¬ (l.length = 0 ∨ 63 < l.length) := fun hbad => hgood.1 l ⟨hl, hbad⟩
    unfold ValidLabel
    omega

end GannetOS.Net.Dns
