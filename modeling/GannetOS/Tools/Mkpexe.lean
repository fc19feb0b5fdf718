/-
From an ELF file to a running program: the packer of the host (tools/mkpexe.c), the loader (`Proc.Loader`) and the page
copy of `try_exec` (`Proc.Image`).

`mkpexe` reads the ELF header and the program headers as the source does: at the offsets of the two structs, in 32-bit
arithmetic, and with a program header skipped that the file is too short for. Each of its three loops goes through the
PT_LOAD headers in the order of the table (`loads`). `image` is what the linker meant to be in memory: the file content of
the segment that backs an address, and zero anywhere else.

- `body_image`: the body is the image from load_base on;
- `loads_image`: after `load_pexe_blob` exec_buf holds the image up to mem_size, whatever it held before;
- `elf_to_process`: the program that a launch puts in memory is the image, and its entry is e_entry; and which files with
  an inconsistent header are rejected;
- `overlong_accepted`: a body of more than 64 KB is accepted with a mem_size of 64 KB.

Premises: the host is little-endian with a 64-bit `long`, and its reads, writes and allocations succeed. The messages are
left out.
-/
import GannetOS.Core.Writes
import GannetOS.Proc.Descriptors
import GannetOS.Proc.Image

namespace GannetOS.Tools.Mkpexe

open GannetOS.Core GannetOS.Filesys GannetOS.Proc List

/-! ## The ELF file -/

/-- the little-endian halfword at an offset -/
def halfAt (l : List UInt8) (k : ℕ) : UInt16 := (l.getD k 0).toUInt16 ||| (l.getD (k + 1) 0).toUInt16 <<< 8

/-- Elf32_Ehdr, what `main` reads of it -/
structure Ehdr where
  ident : List UInt8
  entry : UInt32
  phoff : UInt32
  phentsize : UInt16
  phnum : UInt16
deriving DecidableEq, Repr

/-- Elf32_Phdr, what `main` reads of it -/
structure Phdr where
  type : UInt32
  offset : UInt32
  vaddr : UInt32
  filesz : UInt32
  memsz : UInt32
deriving DecidableEq, Repr

def ptLoad : UInt32 := 1

/-- the read of the 52 bytes of the ELF header -/
def readEhdr (elf : List UInt8) : Option Ehdr :=
  if 52 ≤ elf.length then some ⟨elf.take 16, wordAt elf 24, wordAt elf 28, halfAt elf 42, halfAt elf 44⟩ else none

/-- a 32-bit little-endian ELF -/
def Ehdr.Valid (eh : Ehdr) : Prop :=
  eh.ident.take 4 = [0x7F, 69, 76, 70] ∧ eh.ident.getD 4 0 = 1 ∧ eh.ident.getD 5 0 = 1

instance (eh : Ehdr) : Decidable eh.Valid := inferInstanceAs (Decidable (_ ∧ _ ∧ _))

def readPhdr (elf : List UInt8) (eh : Ehdr) (i : ℕ) : Option Phdr :=
  let off := (eh.phoff + UInt32.ofNat i * eh.phentsize.toUInt32).toNat
  if off + 32 ≤ elf.length then
    some ⟨wordAt elf off, wordAt elf (off + 4), wordAt elf (off + 8), wordAt elf (off + 16), wordAt elf (off + 20)⟩
  else none

/-- the PT_LOAD headers, in the order of the table -/
def loads (elf : List UInt8) (eh : Ehdr) : List Phdr :=
  ((List.range eh.phnum.toNat).filterMap (readPhdr elf eh)).filter fun ph => ph.type = ptLoad

/-! ## `main` -/

/-- the first loop: p_vaddr of the first segment that contains the entry point -/
def loadBase (elf : List UInt8) (eh : Ehdr) : Option UInt32 :=
  ((loads elf eh).find? fun ph => ph.vaddr ≤ eh.entry ∧ eh.entry < ph.vaddr + ph.memsz).map Phdr.vaddr

/-- the second loop, for one segment: bin_end and mem_end -/
def stretch (base : UInt32) (e : UInt32 × UInt32) (ph : Phdr) : UInt32 × UInt32 :=
  if ph.vaddr < base then e
  else (if ph.vaddr + ph.filesz > e.1 then ph.vaddr + ph.filesz else e.1,
    if ph.vaddr + ph.memsz > e.2 then ph.vaddr + ph.memsz else e.2)

def extents (elf : List UInt8) (eh : Ehdr) (base : UInt32) : UInt32 × UInt32 :=
  (loads elf eh).foldl (stretch base) (base, base)

/-- the third loop, for one segment: what the read stores in the body -/
def segmentWrites (elf : List UInt8) (base : UInt32) (ph : Phdr) : List (ℕ × UInt8) :=
  if ph.filesz = 0 ∨ ph.vaddr < base then []
  else putAt (ph.vaddr - base).toNat ((elf.drop ph.offset.toNat).take ph.filesz.toNat)

/-- the body, from a zeroed allocation -/
def body (elf : List UInt8) (eh : Ehdr) (base : UInt32) : List UInt8 :=
  (List.range ((extents elf eh base).1 - base).toNat).map
    (stored ((loads elf eh).flatMap (segmentWrites elf base)) fun _ => 0)

def memSize (elf : List UInt8) (eh : Ehdr) (base : UInt32) : UInt32 := (extents elf eh base).2 - base

/-- the bytes of a word in the output file -/
def wordBytes (x : UInt32) : List UInt8 := [byteOf x 0, byteOf x 1, byteOf x 2, byteOf x 3]

/-- the output file; none if there is none -/
def mkpexe (elf : List UInt8) : Option (List UInt8) := do
  let eh ← readEhdr elf
  if eh.Valid then
    let base ← loadBase elf eh
    return wordBytes pexeMagic ++ wordBytes (eh.entry - base) ++ wordBytes (memSize elf eh base) ++ wordBytes 0 ++
      body elf eh base
  else none

/-! ## What the linker meant -/

/-- the segment has a byte of the file for address `a` -/
def Phdr.Backs (ph : Phdr) (a : ℕ) : Prop := ph.vaddr.toNat ≤ a ∧ a < ph.vaddr.toNat + ph.filesz.toNat

/-- the segment has address `a` in memory -/
def Phdr.Occupies (ph : Phdr) (a : ℕ) : Prop := ph.vaddr.toNat ≤ a ∧ a < ph.vaddr.toNat + ph.memsz.toNat

instance (ph : Phdr) (a : ℕ) : Decidable (ph.Backs a) := inferInstanceAs (Decidable (_ ∧ _))

/-- the segments at or above load_base -/
def above (base : UInt32) (segs : List Phdr) : List Phdr := segs.filter fun ph => base ≤ ph.vaddr

/-- the byte at address `a`: file content, or zero -/
def image (elf : List UInt8) (segs : List Phdr) (a : ℕ) : UInt8 :=
  (segs.find? fun ph => ph.Backs a).elim 0 fun ph => elf.getD (ph.offset.toNat + (a - ph.vaddr.toNat)) 0

/-- an ELF file that can be a program: the segment of its entry point is at APP_LOAD_ADDR, and what it has from there on
is apart, within 64 KB, and not all .bss -/
structure Loadable (elf : List UInt8) (eh : Ehdr) : Prop where
  header : readEhdr elf = some eh
  valid : eh.Valid
  base : loadBase elf eh = some appLoadAddr
  apart : (above appLoadAddr (loads elf eh)).Pairwise fun ph ph' => ∀ a, ph.Occupies a → ¬ ph'.Occupies a
  fits : ∀ ph ∈ above appLoadAddr (loads elf eh), ph.vaddr.toNat + ph.memsz.toNat ≤ appLoadAddr.toNat + 65536
  sized : ∀ ph ∈ above appLoadAddr (loads elf eh), ph.filesz.toNat ≤ ph.memsz.toNat
  content : ∃ ph ∈ above appLoadAddr (loads elf eh), ph.filesz ≠ 0

variable {base : UInt32} {segs : List Phdr} {c : List UInt8}

theorem mem_above {ph : Phdr} :
    ph ∈ above base segs ↔ ph ∈ segs ∧ base.toNat ≤ ph.vaddr.toNat := by
  rw [above, mem_filter, decide_eq_true_iff, UInt32.le_iff_toNat_le]

theorem image_cons (elf : List UInt8) (ph : Phdr) (segs : List Phdr) (a : ℕ) : image elf (ph :: segs) a =
    if ph.Backs a then elf.getD (ph.offset.toNat + (a - ph.vaddr.toNat)) 0 else image elf segs a := by
  unfold image
  split_ifs with hb
  · rw [find?_cons_of_pos (p := fun ph : Phdr => decide (ph.Backs a)) (decide_eq_true hb), Option.elim_some]
  · rw [find?_cons_of_neg (p := fun ph : Phdr => decide (ph.Backs a)) (by simpa using hb)]

theorem image_of_not {elf : List UInt8} {a : ℕ} (h : ∀ ph ∈ segs, ¬ ph.Backs a) :
    image elf segs a = 0 := by
  induction segs with
  | nil => rfl
  | cons ph segs ih =>
    rw [image_cons, if_neg (h ph mem_cons_self)]
    exact ih fun ph' hmem => h ph' (mem_cons_of_mem ph hmem)

/-! ## The body -/

section
variable {elf : List UInt8} {base : UInt32} {segs : List Phdr} {j : ℕ}

/-- one segment's file content, over zeros -/
theorem stored_segment {ph : Phdr} (hbase : base.toNat ≤ ph.vaddr.toNat) {mem : ℕ → UInt8} (hmem : mem j = 0) :
    stored (segmentWrites elf base ph) mem j =
      if ph.Backs (base.toNat + j) then elf.getD (ph.offset.toNat + (base.toNat + j - ph.vaddr.toNat)) 0 else 0 := by
  have hle : base ≤ ph.vaddr := UInt32.le_iff_toNat_le.2 hbase
  have hsub : (ph.vaddr - base).toNat = ph.vaddr.toNat - base.toNat := UInt32.toNat_sub_of_le _ _ hle
  have hlen : ((elf.drop ph.offset.toNat).take ph.filesz.toNat).length =
      min ph.filesz.toNat (elf.length - ph.offset.toNat) := by rw [length_take, length_drop]
  by_cases hb : ph.Backs (base.toNat + j)
  · rw [if_pos hb]
    obtain ⟨hlow, hhigh⟩ : ph.vaddr.toNat ≤ base.toNat + j ∧ base.toNat + j < ph.vaddr.toNat + ph.filesz.toNat := hb
    have h0 : ph.filesz ≠ 0 := by
      rintro h0
      rw [h0, UInt32.toNat_zero] at hhigh
      omega
    rw [segmentWrites, if_neg (not_or.2 ⟨h0, UInt32.not_lt.2 hle⟩), stored_putAt, hsub, hlen]
    by_cases hfile : ph.offset.toNat + (base.toNat + j - ph.vaddr.toNat) < elf.length
    · rw [if_pos (by omega), show j - (ph.vaddr.toNat - base.toNat) = base.toNat + j - ph.vaddr.toNat by omega,
        getD_eq_getElem?_getD, getElem?_take_of_lt (by omega), getElem?_drop,
        ← getD_eq_getElem?_getD]
    · -- the file ends before the segment does: the read is short
      rw [if_neg (by omega), getD_eq_default _ _ (by omega)]
      exact hmem
  · have hout : ¬ (ph.vaddr.toNat ≤ base.toNat + j ∧ base.toNat + j < ph.vaddr.toNat + ph.filesz.toNat) := hb
    rw [if_neg hb, segmentWrites]
    split_ifs
    · exact hmem
    · rw [stored_putAt, hsub, hlen, if_neg (by omega)]
      exact hmem

/-- segments that do not back an address leave it alone -/
theorem stored_elsewhere (h : ∀ ph ∈ above base segs, ¬ ph.Backs (base.toNat + j)) (mem : ℕ → UInt8) :
    stored (segs.flatMap (segmentWrites elf base)) mem j = mem j := by
  refine stored_frame (fun w hw he => ?_) mem
  obtain ⟨ph, hmem, hw⟩ := List.mem_flatMap.1 hw
  unfold segmentWrites at hw
  split_ifs at hw with hskip
  · exact absurd hw not_mem_nil
  rw [not_or, UInt32.not_lt] at hskip
  have hle := UInt32.le_iff_toNat_le.1 hskip.2
  obtain ⟨hlow, hhigh⟩ := putAt_range hw
  rw [UInt32.toNat_sub_of_le _ _ hskip.2] at hlow hhigh
  rw [length_take] at hhigh
  exact h ph (mem_above.2 ⟨hmem, hle⟩) ⟨by omega, by omega⟩

/-- **The third loop stores the image**, if no two segments back one address. -/
theorem stored_segments
    (hapart : (above base segs).Pairwise fun ph ph' => ∀ a, ph.Backs a → ¬ ph'.Backs a) {mem : ℕ → UInt8}
    (hmem : mem j = 0) :
    stored (segs.flatMap (segmentWrites elf base)) mem j = image elf (above base segs) (base.toNat + j) := by
  induction segs generalizing mem with
  | nil => exact hmem
  | cons ph segs ih =>
    rw [flatMap_cons, stored_append]
    by_cases hbase : base ≤ ph.vaddr
    · have hcons : above base (ph :: segs) = ph :: above base segs := filter_cons_of_pos (decide_eq_true hbase)
      have hfirst : stored (segmentWrites elf base ph) mem j = _ := stored_segment (UInt32.le_iff_toNat_le.1 hbase) hmem
      rw [hcons] at hapart ⊢
      obtain ⟨hhead, htail⟩ := List.pairwise_cons.1 hapart
      rw [image_cons]
      by_cases hb : ph.Backs (base.toNat + j)
      · rw [if_pos hb] at hfirst
        rw [if_pos hb, stored_elsewhere fun ph' hmem' => hhead ph' hmem' _ hb]
        exact hfirst
      · rw [if_neg hb] at hfirst
        rw [if_neg hb]
        exact ih htail hfirst
    · have hcons : above base (ph :: segs) = above base segs := filter_cons_of_neg (by simpa using hbase)
      have hskip : segmentWrites elf base ph = [] := if_pos (.inr (UInt32.not_le.1 hbase))
      rw [hcons] at hapart ⊢
      rw [hskip]
      exact ih hapart hmem

end

/-! ## The two sizes -/

theorem larger_toNat (x y : UInt32) : (if x > y then x else y).toNat = max y.toNat x.toNat := by
  split_ifs with h
  · rw [gt_iff_lt, UInt32.lt_iff_toNat_lt] at h
    omega
  · rw [gt_iff_lt, UInt32.lt_iff_toNat_lt] at h
    omega

/-- bin_end and mem_end while the second loop runs -/
structure Within (base : ℕ) (e : UInt32 × UInt32) : Prop where
  start : base ≤ e.1.toNat
  le : e.1.toNat ≤ e.2.toNat
  small : e.2.toNat ≤ base + 65536

/-- one segment: the ends move behind it -/
theorem Within.segment {e : UInt32 × UInt32} (h : Within base.toNat e) {ph : Phdr}
    (hbase : base.toNat ≤ ph.vaddr.toNat) (hsmall : base.toNat + 65536 < 4294967296)
    (hfits : ph.vaddr.toNat + ph.memsz.toNat ≤ base.toNat + 65536) (hsized : ph.filesz.toNat ≤ ph.memsz.toNat) :
    Within base.toNat (stretch base e ph) ∧ e.1.toNat ≤ (stretch base e ph).1.toNat ∧
      e.2.toNat ≤ (stretch base e ph).2.toNat ∧
      ph.vaddr.toNat + ph.filesz.toNat ≤ (stretch base e ph).1.toNat ∧
      ph.vaddr.toNat + ph.memsz.toNat ≤ (stretch base e ph).2.toNat := by
  obtain ⟨hstart, hle, hend⟩ := h
  have hnot : ¬ ph.vaddr < base := UInt32.not_lt.2 (UInt32.le_iff_toNat_le.2 hbase)
  have hfile : (ph.vaddr + ph.filesz).toNat = ph.vaddr.toNat + ph.filesz.toNat := by
    rw [UInt32.toNat_add, Nat.mod_eq_of_lt (by omega)]
  have hmem : (ph.vaddr + ph.memsz).toNat = ph.vaddr.toNat + ph.memsz.toNat := by
    rw [UInt32.toNat_add, Nat.mod_eq_of_lt (by omega)]
  have hone : (stretch base e ph).1.toNat = max e.1.toNat (ph.vaddr.toNat + ph.filesz.toNat) := by
    rw [stretch, if_neg hnot]
    dsimp only
    rw [larger_toNat, hfile]
  have htwo : (stretch base e ph).2.toNat = max e.2.toNat (ph.vaddr.toNat + ph.memsz.toNat) := by
    rw [stretch, if_neg hnot]
    dsimp only
    rw [larger_toNat, hmem]
  refine ⟨⟨?_, ?_, ?_⟩, ?_, ?_, ?_, ?_⟩ <;> omega

/-- the whole loop -/
theorem Within.loop (hsmall : base.toNat + 65536 < 4294967296)
    (hfits : ∀ ph ∈ above base segs, ph.vaddr.toNat + ph.memsz.toNat ≤ base.toNat + 65536)
    (hsized : ∀ ph ∈ above base segs, ph.filesz.toNat ≤ ph.memsz.toNat) {e : UInt32 × UInt32}
    (h : Within base.toNat e) :
    Within base.toNat (segs.foldl (stretch base) e) ∧ e.1.toNat ≤ (segs.foldl (stretch base) e).1.toNat ∧
      e.2.toNat ≤ (segs.foldl (stretch base) e).2.toNat ∧
      ∀ ph ∈ above base segs, ph.vaddr.toNat + ph.filesz.toNat ≤ (segs.foldl (stretch base) e).1.toNat ∧
        ph.vaddr.toNat + ph.memsz.toNat ≤ (segs.foldl (stretch base) e).2.toNat := by
  induction segs generalizing e with
  | nil => exact ⟨h, le_rfl, le_rfl, fun ph hmem => absurd hmem not_mem_nil⟩
  | cons ph segs ih =>
    rw [foldl_cons]
    by_cases hbase : base ≤ ph.vaddr
    · have hcons : above base (ph :: segs) = ph :: above base segs := filter_cons_of_pos (decide_eq_true hbase)
      rw [hcons] at hfits hsized ⊢
      obtain ⟨hnext, hone, htwo, hfile, hmem⟩ := h.segment (UInt32.le_iff_toNat_le.1 hbase) hsmall
        (hfits ph mem_cons_self) (hsized ph mem_cons_self)
      obtain ⟨hend, hone', htwo', hall⟩ := ih (fun ph' h' => hfits ph' (mem_cons_of_mem ph h'))
        (fun ph' h' => hsized ph' (mem_cons_of_mem ph h')) hnext
      refine ⟨hend, hone.trans hone', htwo.trans htwo', fun ph' h' => ?_⟩
      rcases List.mem_cons.1 h' with rfl | h'
      · exact ⟨hfile.trans hone', hmem.trans htwo'⟩
      · exact hall ph' h'
    · have hcons : above base (ph :: segs) = above base segs := filter_cons_of_neg (by simpa using hbase)
      have hskip : stretch base e ph = e := if_pos (UInt32.not_le.1 hbase)
      rw [hcons] at hfits hsized ⊢
      rw [hskip]
      exact ih hfits hsized h

/-! ## The program file -/

theorem wordAt_wordBytes (x : UInt32) (l : List UInt8) : wordAt (wordBytes x ++ l) 0 = x := le32_byteOf x

theorem wordAt_append {l₁ : List UInt8} (l₂ : List UInt8) {k : ℕ} (h : l₁.length ≤ k) :
    wordAt (l₁ ++ l₂) k = wordAt l₂ (k - l₁.length) := by
  unfold wordAt
  rw [getD_append_right _ _ _ _ h, getD_append_right _ _ _ _ (by omega),
    getD_append_right _ _ _ _ (by omega), getD_append_right _ _ _ _ (by omega),
    Nat.sub_add_comm h, Nat.sub_add_comm h, Nat.sub_add_comm h]

/-- a program file with the given header fields and body -/
def pexe (entryOffset memSize : UInt32) (body : List UInt8) : List UInt8 :=
  wordBytes pexeMagic ++ wordBytes entryOffset ++ wordBytes memSize ++ wordBytes 0 ++ body

section
variable (entryOffset size : UInt32) (code : List UInt8)

theorem pexe_take : (pexe entryOffset size code).take 16 =
    wordBytes pexeMagic ++ (wordBytes entryOffset ++ (wordBytes size ++ wordBytes 0)) := by
  have hlen : (wordBytes pexeMagic ++ wordBytes entryOffset ++ wordBytes size ++ wordBytes 0).length = 16 := rfl
  rw [pexe, take_left' hlen]
  simp only [append_assoc]

theorem pexe_drop : (pexe entryOffset size code).drop 16 = code := drop_left' rfl

theorem pexe_header : PexeHeader.ofBytes ((pexe entryOffset size code).take 16) = ⟨pexeMagic, entryOffset, size⟩ := by
  have hlen (x : UInt32) : (wordBytes x).length = 4 := rfl
  rw [pexe_take, PexeHeader.ofBytes, wordAt_wordBytes, wordAt_append _ (by rw [hlen]), hlen, Nat.sub_self,
    wordAt_wordBytes, wordAt_append _ (by rw [hlen]; decide), hlen, wordAt_append _ (by rw [hlen]), hlen,
    wordAt_wordBytes]

end

/-- the header of a program file is inconsistent with itself or with the file -/
def Inconsistent (c : List UInt8) : Prop :=
  (PexeHeader.ofBytes (c.take 16)).magic ≠ pexeMagic ∨ (PexeHeader.ofBytes (c.take 16)).memSize = 0 ∨
    65536 < (PexeHeader.ofBytes (c.take 16)).memSize.toNat ∨
    (PexeHeader.ofBytes (c.take 16)).memSize.toNat < (c.drop 16).length ∨
    (PexeHeader.ofBytes (c.take 16)).memSize ≤ (PexeHeader.ofBytes (c.take 16)).entryOffset

/-- the only thing wrong is that a body of more than 64 KB comes with a mem_size of 64 KB -/
structure Overlong (c : List UInt8) : Prop where
  magic : (PexeHeader.ofBytes (c.take 16)).magic = pexeMagic
  size : (PexeHeader.ofBytes (c.take 16)).memSize.toNat = 65536
  body : 65536 < (c.drop 16).length
  entry : (PexeHeader.ofBytes (c.take 16)).entryOffset < (PexeHeader.ofBytes (c.take 16)).memSize

theorem pexeBody_length (c : List UInt8) : (pexeBody c).length = min 65536 (c.drop 16).length := by
  rw [pexeBody, length_take]
  rfl

/-- **Which files with an inconsistent header are taken**: only 64 KB of the body are compared with mem_size. -/
theorem accepts_iff_overlong (h : Inconsistent c) : Proc.Accepts c ↔ Overlong c := by
  have hlen := pexeBody_length c
  constructor
  · rintro ⟨-, hmagic, -, hgood⟩
    simp only [PexeHeader.Bad, not_or, not_lt, UInt32.not_le, hlen] at hgood
    obtain ⟨hzero, hsize, hbody, hentry⟩ := hgood
    have hsize : (PexeHeader.ofBytes (c.take 16)).memSize.toNat ≤ 65536 := hsize
    rcases h with hbad | hbad | hbad | hbad | hbad
    · exact absurd hmagic hbad
    · exact absurd hbad hzero
    · omega
    · exact ⟨hmagic, by omega, by omega, hentry⟩
    · exact absurd hentry (UInt32.not_lt.2 hbad)
  · rintro ⟨hmagic, hsize, hbody, hentry⟩
    refine ⟨?_, hmagic, ?_, ?_⟩
    · rw [length_drop] at hbody
      omega
    · rw [← length_pos_iff, hlen]
      omega
    · simp only [PexeHeader.Bad, not_or, not_lt, UInt32.not_le, hlen]
      refine ⟨fun h0 => ?_, hsize.le, by omega, hentry⟩
      rw [h0, UInt32.toNat_zero] at hsize
      omega

/-! ## A loadable file -/

namespace Loadable

variable {elf : List UInt8} {eh : Ehdr} (h : Loadable elf eh)
include h

theorem mkpexe_eq : mkpexe elf =
    some (pexe (eh.entry - appLoadAddr) (memSize elf eh appLoadAddr) (Mkpexe.body elf eh appLoadAddr)) := by
  simp only [mkpexe, h.header, h.base, Option.bind_eq_bind, Option.bind_some, if_pos h.valid]
  rfl

/-- bin_end and mem_end -/
theorem ends : Within 0x200000 (extents elf eh appLoadAddr) ∧
    ∀ ph ∈ above appLoadAddr (loads elf eh), ph.vaddr.toNat + ph.filesz.toNat ≤ (extents elf eh appLoadAddr).1.toNat ∧
      ph.vaddr.toNat + ph.memsz.toNat ≤ (extents elf eh appLoadAddr).2.toNat := by
  have hstart : Within appLoadAddr.toNat (appLoadAddr, appLoadAddr) := ⟨le_rfl, le_rfl, Nat.le_add_right _ _⟩
  obtain ⟨hend, -, -, hall⟩ := hstart.loop (by decide) h.fits h.sized
  exact ⟨hend, hall⟩

theorem memSize_toNat :
    (memSize elf eh appLoadAddr).toNat = (extents elf eh appLoadAddr).2.toNat - 0x200000 := by
  obtain ⟨⟨hstart, hle, -⟩, -⟩ := h.ends
  exact UInt32.toNat_sub_of_le _ _ (UInt32.le_iff_toNat_le.2 (hstart.trans hle))

theorem body_length : (Mkpexe.body elf eh appLoadAddr).length = (extents elf eh appLoadAddr).1.toNat - 0x200000 := by
  obtain ⟨⟨hstart, -, -⟩, -⟩ := h.ends
  rw [Mkpexe.body, length_map, length_range]
  exact UInt32.toNat_sub_of_le _ _ (UInt32.le_iff_toNat_le.2 hstart)

variable {j : ℕ}

/-- **The body is the image**, up to its end. -/
theorem body_image (hj : j < (Mkpexe.body elf eh appLoadAddr).length) :
    (Mkpexe.body elf eh appLoadAddr).getD j 0 = image elf (above appLoadAddr (loads elf eh)) (0x200000 + j) := by
  have hapart : (above appLoadAddr (loads elf eh)).Pairwise fun ph ph' => ∀ a, ph.Backs a → ¬ ph'.Backs a := by
    refine h.apart.imp_of_mem fun {ph ph'} hph hph' hapart a hb hb' => hapart a ?_ ?_
    · exact ⟨hb.1, hb.2.trans_le (Nat.add_le_add_left (h.sized ph hph) _)⟩
    · exact ⟨hb'.1, hb'.2.trans_le (Nat.add_le_add_left (h.sized ph' hph') _)⟩
  rw [getD_eq_getElem _ _ hj]
  simp only [Mkpexe.body, getElem_map, getElem_range]
  exact stored_segments hapart rfl

/-- behind the body the image is zero -/
theorem image_behind (hj : (Mkpexe.body elf eh appLoadAddr).length ≤ j) :
    image elf (above appLoadAddr (loads elf eh)) (0x200000 + j) = 0 := by
  obtain ⟨⟨hstart, -, -⟩, hall⟩ := h.ends
  rw [h.body_length] at hj
  refine image_of_not fun ph hmem hb => ?_
  have hend := (hall ph hmem).1
  obtain ⟨-, hlt⟩ := hb
  omega

/-- the entry point is in the program -/
theorem entry_lt : eh.entry - appLoadAddr < memSize elf eh appLoadAddr := by
  obtain ⟨⟨hstart, hle, -⟩, hall⟩ := h.ends
  obtain ⟨ph, hfind, hbase⟩ := Option.map_eq_some_iff.1 h.base
  have hfound := find?_some hfind
  have hin : ph.vaddr ≤ eh.entry ∧ eh.entry < ph.vaddr + ph.memsz := of_decide_eq_true hfound
  have habove : ph ∈ above appLoadAddr (loads elf eh) :=
    mem_above.2 ⟨mem_of_find?_eq_some hfind, by rw [hbase]⟩
  have hfits := h.fits ph habove
  have hmem := (hall ph habove).2
  rw [hbase] at hin hfits hmem
  have hlow : 0x200000 ≤ eh.entry.toNat := UInt32.le_iff_toNat_le.1 hin.1
  have hhigh : eh.entry.toNat < 0x200000 + ph.memsz.toNat := by
    have hlt := UInt32.lt_iff_toNat_lt.1 hin.2
    rw [UInt32.toNat_add, Nat.mod_eq_of_lt (Nat.lt_of_le_of_lt hfits (by decide))] at hlt
    exact hlt
  have hmem : 0x200000 + ph.memsz.toNat ≤ (extents elf eh appLoadAddr).2.toNat := hmem
  rw [UInt32.lt_iff_toNat_lt, h.memSize_toNat, UInt32.toNat_sub_of_le _ _ hin.1]
  show eh.entry.toNat - 0x200000 < _
  omega

/-- **What `mkpexe` writes is accepted.** -/
theorem accepts {c : List UInt8} (hc : mkpexe elf = some c) : Proc.Accepts c ∧
    PexeHeader.ofBytes (c.take 16) = ⟨pexeMagic, eh.entry - appLoadAddr, memSize elf eh appLoadAddr⟩ ∧
    pexeBody c = Mkpexe.body elf eh appLoadAddr := by
  obtain rfl := Option.some.inj (h.mkpexe_eq.symm.trans hc)
  obtain ⟨⟨hstart, hle, hsmall⟩, hall⟩ := h.ends
  obtain ⟨ph, habove, hfile⟩ := h.content
  have hpos : 0 < (Mkpexe.body elf eh appLoadAddr).length := by
    have hend := (hall ph habove).1
    have hbase : 0x200000 ≤ ph.vaddr.toNat := (mem_above.1 habove).2
    have hsz : 0 < ph.filesz.toNat := Nat.pos_of_ne_zero fun h0 => hfile (UInt32.toNat_inj.1 h0)
    rw [h.body_length]
    omega
  have hbound : (Mkpexe.body elf eh appLoadAddr).length ≤ (memSize elf eh appLoadAddr).toNat ∧
      (memSize elf eh appLoadAddr).toNat ≤ 65536 := by
    rw [h.body_length, h.memSize_toNat]
    omega
  have hbody : pexeBody (pexe (eh.entry - appLoadAddr) (memSize elf eh appLoadAddr) (Mkpexe.body elf eh appLoadAddr)) =
      Mkpexe.body elf eh appLoadAddr := by
    rw [pexeBody, pexe_drop]
    exact take_of_length_le (hbound.1.trans hbound.2)
  refine ⟨⟨?_, ?_, ?_, ?_⟩, pexe_header _ _ _, hbody⟩
  · rw [pexe, length_append]
    exact Nat.le_add_right 16 _
  · rw [pexe_header]
  · rw [hbody]
    exact List.length_pos_iff.1 hpos
  · rw [pexe_header, hbody]
    simp only [PexeHeader.Bad, not_or, not_lt, UInt32.not_le]
    refine ⟨fun h0 => ?_, hbound.2, hbound.1, h.entry_lt⟩
    rw [h0, UInt32.toNat_zero] at hbound
    omega

/-- **exec_buf holds the image** after the load, whatever it held before. -/
theorem loads_image {c : List UInt8} (hc : mkpexe elf = some c) (buf : ℕ → UInt8)
    (hj : j < (memSize elf eh appLoadAddr).toNat) :
    loaded c buf j = image elf (above appLoadAddr (loads elf eh)) (0x200000 + j) := by
  obtain ⟨-, hheader, hbody⟩ := h.accepts hc
  rw [loaded, hheader, hbody]
  split_ifs with hin
  · exact h.body_image hin
  · exact (h.image_behind (not_lt.1 hin)).symm

end Loadable

/-! ## From the file to the process -/

/-- the file at `path` holds `c`, and a descriptor is free to open it -/
structure Stored (s : System) (path : CStr) (c : List UInt8) : Prop where
  sound : Sound s.loader.fs
  free : ∃ fd, s.loader.fs.freeFd = some fd
  file : ∃ i, s.loader.fs.find path.bytes = some i ∧ (s.loader.fs.inode i).type ≠ fsTypeDir ∧ s.loader.fs.content i = c

/-- an accepted file is launched -/
theorem Stored.launches {s : System} {path : CStr} (h : Stored s path c) (hacc : Proc.Accepts c) :
    ∃ b l, s.launch path = (.loaded (some (appLoadAddr + (PexeHeader.ofBytes (c.take 16)).entryOffset)),
        { s with loader := l, kernel := (s.kernel.step (.exec b)).2 }) ∧
      b.memSize = (PexeHeader.ofBytes (c.take 16)).memSize.toNat ∧ b.bytes = loaded c s.loader.execBuf := by
  obtain ⟨fd, hfd⟩ := h.free
  obtain ⟨i, hfind, htype, rfl⟩ := h.file
  obtain ⟨b, off, hload, hsize, hbytes⟩ := loadPexeBlob_accepts h.sound hfd hfind htype hacc
  refine ⟨b, ⟨s.loader.fs.setFd fd ⟨none, off⟩, loaded (s.loader.fs.content i) s.loader.execBuf⟩, ?_, hsize, hbytes⟩
  rw [System.launch, hload]

/-- any other file is not, and nothing happens to the task table or to a page -/
theorem Stored.refuses {s : System} {path : CStr} (h : Stored s path c) (hacc : ¬ Proc.Accepts c) :
    (s.launch path).1 = .loaded none ∧ (s.launch path).2.kernel = s.kernel := by
  obtain ⟨fd, hfd⟩ := h.free
  obtain ⟨i, hfind, htype, rfl⟩ := h.file
  have hload := loadPexeBlob_rejects h.sound hfd hfind htype hacc
  unfold System.launch
  cases hl : loadPexeBlob path.arg s.loader with
  | mk r l =>
    rw [hl] at hload
    cases hload
    exact ⟨rfl, rfl⟩

/-- a launch of `b` runs `img`: in every run from boot in which task 0 does not exit, once its code pages are mapped, user
code reads `img` there from private frames; and a launch by an idle task 0 gets to that point -/
def Runs (b : Blob) (img : ℕ → UInt8) : Prop :=
  ∀ (l : Kernel.Layout) (s₀ s : Kernel) (tr : List (Kernel.Op × Option ℤ)), Kernel.boot l = some s₀ →
    Run Kernel.step Kernel.MainStays s₀ tr s →
    (∀ d p, s.exec = some (.build d b p) → b.codePages ≤ p → ∀ i < b.memSize, ∃ f, (∀ d', s.mem.Holds d' f ↔ d' = d) ∧
      s.mem.userFrame d (appLoadAddr + UInt32.ofNat i) = some f ∧ s.mem.ram f (i % 4096) = img (0x200000 + i)) ∧
    (s.current = 0 → ¬ s.Busy → ∃ d,
      (runOps Kernel.step s (.exec b :: List.replicate b.pages .go)).exec = some (.build d b b.pages))

theorem runs_of_bytes {b : Blob} {img : ℕ → UInt8} (h : ∀ i < b.memSize, b.bytes i = img (0x200000 + i)) : Runs b img := by
  intro l s₀ s tr hboot hrun
  refine ⟨fun d p he hp i hi => ?_, fun h0 hfree => ?_⟩
  · rw [← h i hi]
    exact Kernel.built_shows_program hboot hrun he hp hi
  · obtain ⟨d, hin, -⟩ := (Kernel.poolInv_run hboot hrun).launch_builds h0 hfree b le_rfl
    exact ⟨d, hin.exec⟩

/-- **From an ELF file to a process.** A loadable ELF file is packed; its program file, wherever it is stored, is launched
with e_entry as its entry, whatever exec_buf held before, and what the launch puts in memory from APP_LOAD_ADDR on is the
ELF image, all of mem_size. A program file with an inconsistent header is rejected and nothing is mapped, exactly if it is
not a body of more than 64 KB with a mem_size of 64 KB. -/
theorem elf_to_process (s : System) (path : CStr) :
    (∀ elf eh, Loadable elf eh → ∃ c, mkpexe elf = some c ∧ (Stored s path c →
      ∃ b l, s.launch path = (.loaded (some eh.entry), { s with loader := l, kernel := (s.kernel.step (.exec b)).2 }) ∧
        b.memSize = (memSize elf eh appLoadAddr).toNat ∧ Runs b (image elf (above appLoadAddr (loads elf eh))))) ∧
    ∀ c, Stored s path c → Inconsistent c →
      ((s.launch path).1 = .loaded none ∧ (s.launch path).2.kernel = s.kernel ↔ ¬ Overlong c) := by
  refine ⟨fun elf eh h => ⟨_, h.mkpexe_eq, fun hstored => ?_⟩, fun c hstored hbad => ?_⟩
  · obtain ⟨hacc, hheader, -⟩ := h.accepts h.mkpexe_eq
    obtain ⟨b, l, hlaunch, hsize, hbytes⟩ := hstored.launches hacc
    rw [hheader] at hlaunch hsize
    refine ⟨b, l, ?_, hsize, runs_of_bytes fun i hi => ?_⟩
    · rw [hlaunch]
      dsimp only
      rw [add_sub_cancel]
    · rw [hbytes]
      exact h.loads_image h.mkpexe_eq _ (hsize ▸ hi)
  · rw [← accepts_iff_overlong hbad]
    refine ⟨fun hrejected hacc => ?_, hstored.refuses⟩
    obtain ⟨b, l, hlaunch, -⟩ := hstored.launches hacc
    rw [hlaunch] at hrejected
    cases hrejected.1

/-! ## Two files on a disk -/

section
open GannetOS.Proc.System (pexePath freeFd_of_open withProgram_free)

/-- the first boot of a disk with the file `"/a"`, and exec_buf as an earlier load left it -/
def withFile (c : List UInt8) (buf : ℕ → UInt8) : System :=
  ⟨Kernel.vgaBoot, ⟨runOps Filesys.step FsState.boot [.fsOpen pexePath true, .fsWrite 0 c, .fsClose 0], buf⟩, fun _ => 0⟩

theorem stored_withFile {c : List UInt8} (hne : c ≠ []) (hroom : c.length ≤ 3975168) (buf : ℕ → UInt8) :
    Stored (withFile c buf) pexePath c := by
  obtain ⟨hsound, hfind, htype, hcontent, hfds⟩ := boot_store (p := pexePath) (s := (withFile c buf).loader.fs)
    (by decide) (by decide) (by decide) hne hroom rfl
  have hfree : (withFile c buf).loader.fs.freeFd = some 0 :=
    freeFd_of_open fun k => iff_of_false (fun hopen => hopen (hfds k)) (Nat.not_lt_zero _)
  exact ⟨hsound, ⟨0, hfree⟩, 1, hfind, by rw [htype]; decide, hcontent⟩

theorem pexe_ne_nil (entryOffset size : UInt32) (code : List UInt8) : pexe entryOffset size code ≠ [] :=
  cons_ne_nil _ _

theorem pexe_length (entryOffset size : UInt32) (code : List UInt8) :
    (pexe entryOffset size code).length = 16 + code.length := by
  rw [pexe, length_append]
  rfl

/-- the header of an ELF file with one program header, behind it -/
def retEhdr : Ehdr :=
  ⟨[0x7F, 69, 76, 70, 1, 1, 1, 0, 0, 0, 0, 0, 0, 0, 0, 0], appLoadAddr, 52, 32, 1⟩

/-- one byte of code and seven of .bss, at APP_LOAD_ADDR -/
def retPhdr : Phdr := ⟨ptLoad, 84, appLoadAddr, 1, 8⟩

/-- an ELF file with one segment, a return -/
def retElf : List UInt8 :=
  retEhdr.ident ++ [2, 0, 3, 0, 1, 0, 0, 0] ++ wordBytes retEhdr.entry ++ wordBytes retEhdr.phoff ++ wordBytes 0 ++
    wordBytes 0 ++ [52, 0, 32, 0, 1, 0, 0, 0, 0, 0, 0, 0] ++ wordBytes retPhdr.type ++ wordBytes retPhdr.offset ++
    wordBytes retPhdr.vaddr ++ wordBytes retPhdr.vaddr ++ wordBytes retPhdr.filesz ++ wordBytes retPhdr.memsz ++
    wordBytes 7 ++ wordBytes 4096 ++ [0xC3]

theorem loads_retElf : loads retElf retEhdr = [retPhdr] := by decide +kernel

theorem above_retElf : above appLoadAddr (loads retElf retEhdr) = [retPhdr] := by
  rw [loads_retElf]
  decide

theorem loadable_retElf : Loadable retElf retEhdr where
  header := by decide +kernel
  valid := by decide
  base := by
    rw [loadBase, loads_retElf]
    decide
  apart := by
    rw [above_retElf]
    exact pairwise_singleton _ _
  fits := by
    rw [above_retElf]
    decide
  sized := by
    rw [above_retElf]
    decide
  content := by
    rw [above_retElf]
    decide

theorem memSize_retElf : memSize retElf retEhdr appLoadAddr = 8 := by
  rw [memSize, extents, loads_retElf]
  decide

/-- the file with one segment is packed, stored and launched; a file whose entry is behind its end is not -/
theorem elf_to_process_ret : (∃ c b l, mkpexe retElf = some c ∧
      (withFile c fun _ => 0xAA).launch pexePath = (.loaded (some appLoadAddr),
        { withFile c fun _ => 0xAA with loader := l, kernel := (Kernel.vgaBoot.step (.exec b)).2 }) ∧
      b.memSize = 8 ∧ Runs b (image retElf [retPhdr])) ∧
    ((withFile (pexe 1 1 [0xC3]) fun _ => 0xAA).launch pexePath).1 = .loaded none := by
  constructor
  · have hc := loadable_retElf.mkpexe_eq
    set c := pexe (retEhdr.entry - appLoadAddr) (memSize retElf retEhdr appLoadAddr) (body retElf retEhdr appLoadAddr)
    have hstored : Stored (withFile c fun _ => 0xAA) pexePath c := by
      refine stored_withFile (pexe_ne_nil _ _ _) ?_ _
      rw [pexe_length, loadable_retElf.body_length, extents, loads_retElf]
      decide
    obtain ⟨c', hc', hlaunch⟩ := (elf_to_process (withFile c fun _ => 0xAA) pexePath).1 retElf retEhdr loadable_retElf
    obtain rfl : c' = c := Option.some.inj (hc'.symm.trans hc)
    obtain ⟨b, l, hl, hsize, hruns⟩ := hlaunch hstored
    rw [memSize_retElf] at hsize
    rw [above_retElf] at hruns
    exact ⟨c, b, l, hc, hl, hsize, hruns⟩
  · have hstored := stored_withFile (pexe_ne_nil 1 1 [0xC3]) (by decide) fun _ => 0xAA
    have hbad : Inconsistent (pexe 1 1 [0xC3]) := by
      rw [Inconsistent, pexe_header]
      decide
    have hshort : ¬ Overlong (pexe 1 1 [0xC3]) := by
      rintro ⟨-, -, hlong, -⟩
      exact absurd hlong (by decide)
    exact (((elf_to_process _ pexePath).2 _ hstored hbad).2 hshort).1

/-- **A body longer than mem_size is accepted.** The file has mem_size 64 KB and a body of one byte more. It is launched,
its pages are mapped, and the last byte of its body is nowhere. -/
theorem overlong_accepted : ∃ s path c b, Stored s path c ∧ PexeHeader.ofBytes (c.take 16) = ⟨pexeMagic, 0, 65536⟩ ∧
    (c.drop 16).length = 65537 ∧ (s.launch path).1 = .loaded (some appLoadAddr) ∧
    (s.launch path).2.kernel = (s.kernel.step (.exec b)).2 ∧ b.memSize = 65536 ∧
    ∃ d, (runOps Kernel.step s.kernel (.exec b :: List.replicate b.pages .go)).exec = some (.build d b b.pages) := by
  have hheader := pexe_header 0 65536 (List.replicate 65537 0xC3)
  have hbody : ((pexe 0 65536 (List.replicate 65537 0xC3)).drop 16).length = 65537 := by
    rw [pexe_drop, length_replicate]
  set c := pexe 0 65536 (List.replicate 65537 0xC3) with hc
  have hstored : Stored (withFile c fun _ => 0) pexePath c := by
    refine stored_withFile (pexe_ne_nil _ _ _) ?_ _
    rw [pexe_length, length_replicate]
    decide
  have hover : Overlong c := by
    refine ⟨?_, ?_, ?_, ?_⟩
    · rw [hheader]
    · rw [hheader]
      rfl
    · rw [hbody]
      decide
    · rw [hheader]
      decide
  have hbad : Inconsistent c := by
    refine .inr (.inr (.inr (.inl ?_)))
    rw [hbody, hover.size]
    decide
  obtain ⟨b, l, hlaunch, hsize, -⟩ := hstored.launches ((accepts_iff_overlong hbad).2 hover)
  have hruns : Runs b fun a => b.bytes (a - 0x200000) :=
    runs_of_bytes fun i _ => by rw [Nat.add_sub_cancel_left]
  obtain ⟨-, hmapped⟩ := hruns _ _ _ _ Kernel.boot_vgaLayout (Run.nil Kernel.vgaBoot)
  refine ⟨_, _, c, b, hstored, hheader, hbody, ?_, ?_, hsize.trans hover.size, hmapped ?_ ?_⟩
  · rw [hlaunch, hheader]
    rfl
  · rw [hlaunch]
  · exact withProgram_free.1
  · exact withProgram_free.2

end

end GannetOS.Tools.Mkpexe
