/-
The host tool that puts a file into the disk image (tools/fswrite.c), and what it does to the namespace.

The image file is its sectors. The tool has its own copy of the disk format and of lookup, bitmap reconstruction and first
fit; the definitions follow it and not filesys/fs.c. `onImage` is the kernel's view of an image, so that the two can be
compared: `readInode_eq` and `writeInode_eq` say that they agree on where an inode is.

- `fswrite_success`: what a run that reports success has done;
- `fswrite_tree`: names stay unique, parents stay existing directories and directories stay directories, exactly if the
  destination is not a directory and, when it is new, has an existing directory as its parent;
- `fswrite_orphan`: the Makefile's /wm/tiled.pexe on an image without a filesystem.

Premises: the image file is there with all its sectors, and the host's reads, writes and allocations succeed. The messages
are left out.
-/
import GannetOS.Filesys.Content

namespace GannetOS.Tools

open GannetOS.Core GannetOS.Filesys

/-- the image file, sector by sector -/
abbrev Image := ℕ → Sector

/-- the sector at byte `(long)(lba * SECTOR_SIZE)`: the product is 32 bits wide -/
def seek (lba : ℕ) : ℕ := u32 (lba * 512) / 512

def readSector (img : Image) (lba : ℕ) : Sector := img (seek lba)

def writeSector (img : Image) (lba : ℕ) (buf : Sector) : Image := Function.update img (seek lba) buf

def readInode (img : Image) (idx : ℕ) : Inode :=
  Inode.decode (readSector img (fsInodeStart + idx / inodesPerSector)) (idx % inodesPerSector * inodeSize)

def writeInode (img : Image) (idx : ℕ) (x : Inode) : Image :=
  let lba := fsInodeStart + idx / inodesPerSector
  writeSector img lba ((readSector img lba).patch (idx % inodesPerSector * inodeSize) inodeSize x.byte)

/-! ## Formatting -/

/-- struct fs_super as `format_image` fills it in -/
def hostSuper : Sector :=
  let words : List UInt32 := [fsMagic, 1, 512, 428, UInt32.ofNat (8192 - 428)]
  fun i => if i.val < 20 then byteOf (words.getD (i.val / 4) 0) (i.val % 4) else 0

/-- the first `n` sectors of the inode table zeroed -/
def zeroTable (img : Image) : ℕ → Image
  | 0 => img
  | n + 1 => writeSector (zeroTable img n) (fsInodeStart + n) fun _ => 0

/-- "/", "/bin", "/usr", "/usr/bin", "/home" -/
def standardDirs : List (List UInt8) :=
  [[47], [47, 98, 105, 110], [47, 117, 115, 114], [47, 117, 115, 114, 47, 98, 105, 110], [47, 104, 111, 109, 101]]

/-- the directory inodes, from slot `idx` on -/
def writeDirs (img : Image) (idx : ℕ) : List (List UInt8) → Image
  | [] => img
  | p :: dirs => writeDirs (writeInode img idx (Inode.fresh p fsTypeDir)) (idx + 1) dirs

def formatImage (img : Image) : Image :=
  writeDirs (writeSector (zeroTable img fsInodeSectors) fsSuperSector hostSuper) 0 standardDirs

/-! ## Writing a file -/

/-- the slot that is written: the first in use with that name, or else the first free one -/
def targetIdx (img : Image) (dest : List UInt8) : Option ℕ :=
  ((List.range fsMaxInodes).find? fun i => (readInode img i).type ≠ fsTypeFree ∧
      cstr (readInode img i).name.toList = dest).or <|
    (List.range fsMaxInodes).find? fun i => (readInode img i).type = fsTypeFree

/-- the bits of one inode: those beyond `sectors` are skipped -/
def setUsed (bitmap : ℕ → Bool) (sectors rel : ℕ) : ℕ → ℕ → Bool
  | 0 => bitmap
  | j + 1 =>
    let bitmap := setUsed bitmap sectors rel j
    if u32 (rel + j) < sectors then Function.update bitmap (u32 (rel + j)) true else bitmap

/-- the bitmap of all inodes but the target -/
def usedBitmap (img : Image) (target sectors : ℕ) : List ℕ → ℕ → Bool
  | [] => fun _ => false
  | i :: is =>
    let bitmap := usedBitmap img target sectors is
    let x := readInode img i
    if i = target then bitmap
    else if x.type = fsTypeFree ∨ x.blockCount = 0 then bitmap
    else setUsed bitmap sectors (sub32 x.startBlock.toNat fsDataStart) x.blockCount.toNat

/-- the sectors allocated for `(uint32_t)src_size` bytes -/
def needFor (size : ℕ) : ℕ :=
  let need := u32 (size + 511) / 512
  if need = 0 then 1 else need

/-- wbuf for sector `s` of the file -/
def sectorOf (src : List UInt8) (size s : ℕ) : Sector :=
  let off := u32 (s * 512)
  let tocopy := min (sub32 size off) 512
  fun i => if i.val < tocopy then src.getD (off + i) 0 else 0

def writeData (img : Image) (src : List UInt8) (size start : ℕ) : ℕ → Image
  | 0 => img
  | s + 1 => writeSector (writeData img src size start s) (u32 (start + s)) (sectorOf src size s)

/-- the inode that is stored for the file -/
def fileInode (dest : List UInt8) (size start need : ℕ) : Inode :=
  { Inode.fresh dest fsTypeFile with
    size := UInt32.ofNat size, startBlock := UInt32.ofNat start, blockCount := UInt32.ofNat need }

/-- the image the tool works on: one without a filesystem is formatted first -/
def opened (img : Image) : Image :=
  if (readSector img fsSuperSector).word 0 ≠ fsMagic then formatImage img else img

/-- data_sectors of the superblock -/
def dataSectors (img : Image) : ℕ := ((readSector img fsSuperSector).word 16).toNat

/-- `main`: whether it reports success, and the image it leaves. The search for a run is the library's first fit, whose
sums do not wrap as long as data_sectors + 1 does not. -/
def fswrite (img : Image) (dest : CStr) (src : List UInt8) : Bool × Image :=
  if dest.bytes.length ≥ fsNameMax then (false, img)
  else
    let img := opened img
    match targetIdx img dest.bytes with
    | none => (false, img)
    | some idx =>
      let size := u32 src.length
      let need := needFor size
      match firstFit (usedBitmap img idx (dataSectors img) (List.range fsMaxInodes)) (dataSectors img) need with
      | none => (false, img)
      | some rel =>
        let start := u32 (fsDataStart + rel)
        (true, writeInode (writeData img src size start need) idx (fileInode dest.bytes size start need))

/-! ## The kernel's view -/

/-- the disk of a kernel that starts with the image -/
def onImage (img : Image) : FsState := ⟨img, fun _ => false, 0, fun _ => ⟨none, 0⟩, []⟩

variable {lba i n : ℕ} {img : Image} {dest : CStr} {src : List UInt8}

theorem seek_of_lt (h : lba < 8388608) : seek lba = lba := by
  unfold seek u32
  omega

theorem readInode_eq (img : Image) (hi : i < 512) : readInode img i = (onImage img).inode i := by
  rw [readInode, readSector, seek_of_lt (show 257 + i / 3 < 8388608 by omega)]
  rfl

theorem writeInode_eq (img : Image) (hi : i < 512) (x : Inode) :
    onImage (writeInode img i x) = (onImage img).setInode i x := by
  unfold writeInode writeSector readSector
  dsimp only
  rw [seek_of_lt (show 257 + i / 3 < 8388608 by omega)]
  rfl

theorem writeInode_disk (img : Image) (hi : i < 512) (x : Inode) (h : lba ≤ 256 ∨ 428 ≤ lba) :
    writeInode img i x lba = img lba := by
  have hdisk := congrArg FsState.disk (writeInode_eq img hi x)
  exact (congrFun hdisk lba).trans (FsState.setInode_disk _ i _ lba hi h)

theorem find?_range_congr {p q : ℕ → Bool} (h : ∀ i < n, p i = q i) :
    (List.range n).find? p = (List.range n).find? q :=
  List.find?_congr fun i hi => h i (List.mem_range.1 hi)

theorem targetIdx_eq (img : Image) (dest : List UInt8) :
    targetIdx img dest = ((onImage img).find dest).or (onImage img).freeSlot := by
  have hused (i : ℕ) (hi : i < 512) : decide ((readInode img i).type ≠ 0 ∧ cstr (readInode img i).name.toList = dest) =
      decide (((onImage img).inode i).type ≠ 0 ∧ (onImage img).nameAt i = dest) := by
    rw [readInode_eq img hi, FsState.nameAt]
  have hfree (i : ℕ) (hi : i < 512) : decide ((readInode img i).type = 0) = decide (((onImage img).inode i).type = 0) := by
    rw [readInode_eq img hi]
  have hfind := find?_range_congr hused
  have hslot := find?_range_congr hfree
  rw [targetIdx, hfind, hslot, FsState.find, FsState.freeSlot]

theorem writeData_apply (img : Image) (src : List UInt8) (size : ℕ) {start : ℕ} (h : start + n ≤ 8388608) (lba : ℕ) :
    writeData img src size start n lba =
      if start ≤ lba ∧ lba < start + n then sectorOf src size (lba - start) else img lba := by
  induction n with
  | zero => rw [if_neg (by omega)]; rfl
  | succ n ih =>
    rw [writeData, writeSector, u32_of_lt (by omega), seek_of_lt (by omega), Function.update_apply, ih (by omega)]
    by_cases hlast : lba = start + n
    · rw [if_pos hlast, if_pos (by omega), hlast, Nat.add_sub_cancel_left]
    · rw [if_neg hlast]
      exact if_congr (by omega) rfl rfl

theorem setUsed_iff (bitmap : ℕ → Bool) (sectors rel n b : ℕ) :
    setUsed bitmap sectors rel n b = true ↔ bitmap b = true ∨ b < sectors ∧ ∃ j < n, u32 (rel + j) = b := by
  induction n with
  | zero => simp [setUsed]
  | succ n ih =>
    rw [setUsed]
    split_ifs with hlt
    · rw [Function.update_apply]
      split_ifs with hb
      · exact iff_of_true rfl (.inr ⟨hb ▸ hlt, n, n.lt_succ_self, hb.symm⟩)
      · rw [ih, Nat.exists_lt_succ_right]
        exact or_congr_right (and_congr_right fun _ => (or_iff_left fun he => hb he.symm).symm)
    · rw [ih, Nat.exists_lt_succ_right]
      exact or_congr_right (and_congr_right fun hb => (or_iff_left fun he => hlt (lt_of_eq_of_lt he hb)).symm)

/-- the bits of the reconstructed bitmap -/
theorem usedBitmap_iff (img : Image) (target sectors : ℕ) (is : List ℕ) (b : ℕ) :
    usedBitmap img target sectors is b = true ↔ ∃ i ∈ is, i ≠ target ∧ (readInode img i).type ≠ 0 ∧ b < sectors ∧
      ∃ j < (readInode img i).blockCount.toNat, u32 (sub32 (readInode img i).startBlock.toNat 428 + j) = b := by
  induction is with
  | nil => simp [usedBitmap]
  | cons i is ih =>
    rw [usedBitmap, List.exists_mem_cons_iff]
    split_ifs with htarget hnone
    · rw [ih]
      exact (or_iff_right fun h => h.1 htarget).symm
    · rw [ih]
      refine (or_iff_right fun ⟨_, htype, _, j, hj, _⟩ => ?_).symm
      rcases hnone with hfree | hcount
      · exact htype hfree
      · rw [hcount, UInt32.toNat_zero] at hj
        exact absurd hj j.not_lt_zero
    · rw [setUsed_iff, ih, or_comm]
      refine or_congr_left (Iff.symm ?_)
      exact ⟨fun h => h.2.2, fun h => ⟨htarget, fun ht => hnone (.inl ht), h⟩⟩

/-- a run that reports success -/
theorem fswrite_success (h : (fswrite img dest src).1 = true) :
    dest.bytes.length < 128 ∧ ∃ idx rel, targetIdx (opened img) dest.bytes = some idx ∧
      firstFit (usedBitmap (opened img) idx (dataSectors (opened img)) (List.range 512)) (dataSectors (opened img))
        (needFor (u32 src.length)) = some rel ∧
      (fswrite img dest src).2 = writeInode (writeData (opened img) src (u32 src.length) (u32 (428 + rel))
        (needFor (u32 src.length))) idx (fileInode dest.bytes (u32 src.length) (u32 (428 + rel))
          (needFor (u32 src.length))) := by
  unfold fswrite at h ⊢
  split_ifs at h ⊢ with hlen
  dsimp only at h ⊢
  cases htarget : targetIdx (opened img) dest.bytes with
  | none =>
    rw [htarget] at h
    exact absurd h Bool.false_ne_true
  | some idx =>
    rw [htarget] at h
    cases hfit : firstFit (usedBitmap (opened img) idx (dataSectors (opened img)) (List.range 512))
        (dataSectors (opened img)) (needFor (u32 src.length)) with
    | none =>
      simp only [hfit] at h
      exact absurd h Bool.false_ne_true
    | some rel =>
      refine ⟨not_le.1 hlen, idx, rel, rfl, hfit, ?_⟩
      simp only [hfit]

/-! ## The formatted image -/

theorem zeroTable_apply (img : Image) (h : n ≤ 171) (lba : ℕ) :
    zeroTable img n lba = if 257 ≤ lba ∧ lba < 257 + n then fun _ => 0 else img lba := by
  induction n with
  | zero => rw [if_neg (by omega)]; rfl
  | succ n ih =>
    rw [zeroTable, writeSector, seek_of_lt (show 257 + n < 8388608 by omega), Function.update_apply, ih (by omega)]
    by_cases hlast : lba = 257 + n
    · rw [if_pos hlast, if_pos (by omega)]
    · rw [if_neg hlast]
      exact if_congr (by omega) rfl rfl

theorem writeDirs_inode (dirs : List (List UInt8)) (img : Image) {idx : ℕ} (h : idx + dirs.length ≤ 512) (j : ℕ) :
    (onImage (writeDirs img idx dirs)).inode j =
      if idx ≤ j ∧ j < idx + dirs.length then Inode.fresh (dirs.getD (j - idx) []) fsTypeDir
      else (onImage img).inode j := by
  induction dirs generalizing img idx with
  | nil => rw [if_neg (by simp)]; rfl
  | cons p dirs ih =>
    rw [List.length_cons] at h ⊢
    rw [writeDirs, ih _ (by omega), writeInode_eq _ (by omega), FsState.inode_setInode]
    by_cases hj : j = idx
    · rw [if_neg (by omega), if_pos hj, if_pos (by omega), hj, Nat.sub_self]
      rfl
    · rw [if_neg hj]
      by_cases hin : idx + 1 ≤ j ∧ j < idx + 1 + dirs.length
      · rw [if_pos hin, if_pos (by omega), show j - idx = j - (idx + 1) + 1 by omega]
        rfl
      · rw [if_neg hin, if_neg (by omega)]

theorem writeDirs_disk (dirs : List (List UInt8)) (img : Image) {idx : ℕ} (h : idx + dirs.length ≤ 512)
    (hlba : lba ≤ 256 ∨ 428 ≤ lba) : writeDirs img idx dirs lba = img lba := by
  induction dirs generalizing img idx with
  | nil => rfl
  | cons p dirs ih =>
    rw [List.length_cons] at h
    rw [writeDirs, ih _ (by omega), writeInode_disk _ (by omega) _ hlba]

/-- the five directories are in slots 0 to 4, and the other slots are free -/
theorem formatImage_inode (img : Image) {j : ℕ} (hj : j < 512) : (onImage (formatImage img)).inode j =
    if j < 5 then Inode.fresh (standardDirs.getD j []) fsTypeDir else Inode.zero := by
  rw [formatImage, writeDirs_inode _ _ (by decide)]
  refine if_congr (by simp [standardDirs]) rfl ?_
  show Inode.decode (writeSector _ _ _ _) _ = _
  rw [writeSector, seek_of_lt (by decide), Function.update_of_ne (show 257 + j / 3 ≠ 256 by omega),
    zeroTable_apply _ le_rfl, if_pos (by omega), Inode.decode_zero]

theorem formatImage_super (img : Image) : formatImage img 256 = hostSuper := by
  rw [formatImage, writeDirs_disk _ _ (by decide) (.inl le_rfl), writeSector, seek_of_lt (by decide)]
  exact Function.update_self _ _ _

/-- the image the tool works on has a superblock -/
theorem opened_magic (img : Image) : (opened img 256).word 0 = fsMagic := by
  unfold opened
  split_ifs with h
  · rw [formatImage_super]
    exact freshSuper_magic
  · rw [readSector, seek_of_lt (by decide), not_not] at h
    exact h

/-! ## What a successful run has done -/

/-- slot `idx` of the image `T` now holds the file `dest`, its contents are in `need` sectors at `rel`, and nothing else has
changed -/
structure Written (T : Image) (dest : CStr) (src : List UInt8) (img : Image) (idx rel : ℕ) : Prop where
  short : dest.bytes.length < 128
  slot : idx < 512
  target : ((onImage T).find dest.bytes).or (onImage T).freeSlot = some idx
  fit : firstFit (usedBitmap T idx (dataSectors T) (List.range 512)) (dataSectors T) (needFor (u32 src.length)) = some rel
  table : ∀ j < 512, (onImage img).inode j =
    if j = idx then fileInode dest.bytes (u32 src.length) (428 + rel) (needFor (u32 src.length)) else (onImage T).inode j
  data : ∀ lba, lba ≤ 256 ∨ 428 ≤ lba → img lba =
    if 428 + rel ≤ lba ∧ lba < 428 + rel + needFor (u32 src.length) then sectorOf src (u32 src.length) (lba - (428 + rel))
    else T lba

/-- the data region of the superblock can be addressed -/
def Addressable (img : Image) : Prop := 428 + dataSectors img ≤ 8388608

theorem fswrite_written (haddr : Addressable (opened img)) (h : (fswrite img dest src).1 = true) :
    ∃ idx rel, Written (opened img) dest src (fswrite img dest src).2 idx rel := by
  obtain ⟨hshort, idx, rel, htarget, hfit, hresult⟩ := fswrite_success h
  have hend := (firstFit_sound hfit).1
  unfold Addressable at haddr
  rw [u32_of_lt (n := 428 + rel) (by omega)] at hresult
  rw [targetIdx_eq] at htarget
  have hslot : idx < 512 := by
    rcases Option.or_eq_some_iff.1 htarget with hfind | ⟨-, hfree⟩
    · exact (FsState.find_some hfind).1.1
    · exact (FsState.freeSlot_some hfree).1
  have hdata := writeData_apply (opened img) src (u32 src.length)
    (show 428 + rel + needFor (u32 src.length) ≤ 8388608 by omega)
  refine ⟨idx, rel, hshort, hslot, htarget, hfit, fun j hj => ?_, fun lba hlba => ?_⟩
  · have hsector := hdata (257 + j / 3)
    rw [if_neg (by omega)] at hsector
    rw [hresult, writeInode_eq _ hslot, FsState.inode_setInode]
    exact if_congr Iff.rfl rfl (congrArg (Inode.decode · (j % 3 * 144)) hsector)
  · rw [hresult, writeInode_disk _ hslot _ hlba, hdata lba]

/-! ## The namespace -/

/-- an existing directory -/
def HasDir (s : FsState) (p : List UInt8) : Prop := ∃ j, s.live j ∧ (s.inode j).type = fsTypeDir ∧ s.nameAt j = p

/-- names are unique, and the parent of every inode but the root is an existing directory -/
structure Nested (s : FsState) : Prop where
  unique : ∀ i j, s.live i → s.live j → s.nameAt i = s.nameAt j → i = j
  parent : ∀ i, s.live i → s.nameAt i ≠ [slash] → HasDir s (parentOf (s.nameAt i))

/-- no directory has become something else -/
def DirsKept (s t : FsState) : Prop :=
  ∀ i, s.live i → (s.inode i).type = fsTypeDir → (t.inode i).type = fsTypeDir ∧ t.nameAt i = s.nameAt i

/-- what the kernel would check of a destination: an existing one is no directory, and a new one is in a directory -/
structure Accepts (s : FsState) (p : List UInt8) : Prop where
  existing : ∀ i, s.find p = some i → (s.inode i).type ≠ fsTypeDir
  new : s.find p = none → p = [slash] ∨ HasDir s (parentOf p)

theorem fileInode_name (h : dest.bytes.length < 128) (size start need : ℕ) :
    cstr (fileInode dest.bytes size start need).name.toList = dest.bytes := by
  refine (Inode.fresh_name dest.nulFree fsTypeFile).trans ?_
  rw [List.take_of_length_le (by omega)]

section

variable {T img : Image} {dest : CStr} {src : List UInt8} {idx rel : ℕ} (h : Written T dest src img idx rel)
include h

variable {j : ℕ}

theorem Written.nameAt (hj : j < 512) :
    (onImage img).nameAt j = if j = idx then dest.bytes else (onImage T).nameAt j := by
  rw [FsState.nameAt, FsState.nameAt, h.table j hj]
  split_ifs
  · exact fileInode_name h.short _ _ _
  · rfl

theorem Written.live_iff : (onImage img).live j ↔ j = idx ∨ (onImage T).live j := by
  constructor
  · intro hl
    have htype := hl.2
    rw [h.table j hl.1] at htype
    split_ifs at htype with hj
    · exact .inl hj
    · exact .inr ⟨hl.1, htype⟩
  · intro hl
    have hj : j < 512 := hl.elim (fun he => he ▸ h.slot) fun hl => hl.1
    refine ⟨hj, ?_⟩
    rw [h.table j hj]
    split_ifs with hne
    · exact (by decide : fsTypeFile ≠ 0)
    · exact (hl.resolve_left hne).2

theorem Written.inode_ne (hj : j < 512) (hne : j ≠ idx) : (onImage img).inode j = (onImage T).inode j := by
  rw [h.table j hj, if_neg hne]

theorem Written.isFile : ((onImage img).inode idx).type = fsTypeFile := by
  rw [h.table idx h.slot, if_pos rfl]
  rfl

/-- the file takes the place of one of that name, or there was none -/
theorem Written.target_cases :
    (onImage T).find dest.bytes = some idx ∨ (onImage T).find dest.bytes = none ∧ ((onImage T).inode idx).type = 0 := by
  rcases Option.or_eq_some_iff.1 h.target with hfind | ⟨hnone, hfree⟩
  · exact .inl hfind
  · exact .inr ⟨hnone, (FsState.freeSlot_some hfree).2⟩

/-- a directory of the new image is one of the old image: the file is none -/
theorem Written.hasDir_of {p : List UInt8} (hp : HasDir (onImage img) p) : HasDir (onImage T) p := by
  obtain ⟨j, hj, htype, hname⟩ := hp
  have hne : j ≠ idx := fun he => absurd ((he ▸ htype).symm.trans h.isFile) (by decide)
  rw [h.nameAt hj.1, if_neg hne] at hname
  rw [h.inode_ne hj.1 hne] at htype
  exact ⟨j, (h.live_iff.1 hj).resolve_left hne, htype, hname⟩

theorem Written.hasDir {p : List UInt8} (hidx : ((onImage T).inode idx).type ≠ fsTypeDir) (hp : HasDir (onImage T) p) :
    HasDir (onImage img) p := by
  obtain ⟨j, hj, htype, hname⟩ := hp
  have hne : j ≠ idx := fun he => hidx (he ▸ htype)
  rw [← h.inode_ne hj.1 hne] at htype
  refine ⟨j, h.live_iff.2 (.inr hj), htype, ?_⟩
  rw [h.nameAt hj.1, if_neg hne, hname]

/-- a name that another slot has is not the file's -/
theorem Written.name_ne (hT : Nested (onImage T)) (hj : (onImage T).live j) (hne : j ≠ idx) :
    (onImage T).nameAt j ≠ dest.bytes := by
  intro hname
  rcases h.target_cases with hfind | ⟨hnone, -⟩
  · obtain ⟨hl, hn⟩ := FsState.find_some hfind
    exact hne (hT.unique j idx hj hl (hname.trans hn.symm))
  · exact FsState.find_none.1 hnone j hj hname

theorem Written.accepts_of (hnew : Nested (onImage img)) (hdirs : DirsKept (onImage T) (onImage img)) :
    Accepts (onImage T) dest.bytes := by
  constructor
  · intro i hfind hdir
    obtain rfl : idx = i := by
      rcases h.target_cases with hfind' | ⟨hnone, -⟩
      · exact Option.some.inj (hfind'.symm.trans hfind)
      · exact absurd (hnone.symm.trans hfind) (by simp)
    exact absurd ((hdirs idx (FsState.find_some hfind).1 hdir).1.symm.trans h.isFile) (by decide)
  · intro hnone
    by_cases hroot : dest.bytes = [slash]
    · exact .inl hroot
    · have hname : (onImage img).nameAt idx = dest.bytes := by rw [h.nameAt h.slot, if_pos rfl]
      have hparent := hnew.parent idx (h.live_iff.2 (.inl rfl)) (by rwa [hname])
      rw [hname] at hparent
      exact .inr (h.hasDir_of hparent)

theorem Written.tree_of (hT : Nested (onImage T)) (hacc : Accepts (onImage T) dest.bytes) :
    Nested (onImage img) ∧ DirsKept (onImage T) (onImage img) := by
  have hidx : ((onImage T).inode idx).type ≠ fsTypeDir := by
    rcases h.target_cases with hfind | ⟨-, hfree⟩
    · exact hacc.existing idx hfind
    · rw [hfree]
      decide
  -- the parent of the file
  have hparent (hroot : dest.bytes ≠ [slash]) : HasDir (onImage T) (parentOf dest.bytes) := by
    rcases h.target_cases with hfind | ⟨hnone, -⟩
    · obtain ⟨hl, hn⟩ := FsState.find_some hfind
      exact hn ▸ hT.parent idx hl (hn.symm ▸ hroot)
    · exact (hacc.new hnone).resolve_left hroot
  refine ⟨⟨fun i j hi hj hname => ?_, fun i hi hroot => h.hasDir hidx ?_⟩, fun i hi hdir => ?_⟩
  · rw [h.nameAt hi.1, h.nameAt hj.1] at hname
    split_ifs at hname with hii hji hji
    · exact hii.trans hji.symm
    · exact absurd hname.symm (h.name_ne hT ((h.live_iff.1 hj).resolve_left hji) hji)
    · exact absurd hname (h.name_ne hT ((h.live_iff.1 hi).resolve_left hii) hii)
    · exact hT.unique i j ((h.live_iff.1 hi).resolve_left hii) ((h.live_iff.1 hj).resolve_left hji) hname
  · rw [h.nameAt hi.1] at hroot ⊢
    split_ifs at hroot ⊢ with hii
    · exact hparent hroot
    · exact hT.parent i ((h.live_iff.1 hi).resolve_left hii) hroot
  · have hne : i ≠ idx := fun he => hidx (he ▸ hdir)
    rw [h.inode_ne hi.1 hne, h.nameAt hi.1, if_neg hne]
    exact ⟨hdir, rfl⟩

end

theorem formatImage_live (hi : (onImage (formatImage img)).live i) : i < 5 := by
  by_contra hge
  have htype := hi.2
  rw [formatImage_inode img hi.1, if_neg hge] at htype
  exact htype rfl

theorem formatImage_nameAt (img : Image) (hi : i < 5) :
    (onImage (formatImage img)).nameAt i = standardDirs.getD i [] := by
  rw [FsState.nameAt, formatImage_inode img (by omega), if_pos hi]
  interval_cases i <;> exact (Inode.fresh_name (by decide) _).trans (by decide)

theorem formatImage_nameAt_mem (hi : (onImage (formatImage img)).live i) :
    (onImage (formatImage img)).nameAt i ∈ standardDirs := by
  have hmem : ∀ i < 5, standardDirs.getD i [] ∈ standardDirs := by decide
  rw [formatImage_nameAt img (formatImage_live hi)]
  exact hmem i (formatImage_live hi)

/-- a formatted image has the standard directories and nothing else -/
theorem hasDir_formatImage {p : List UInt8} : HasDir (onImage (formatImage img)) p ↔ p ∈ standardDirs := by
  constructor
  · rintro ⟨j, hj, -, rfl⟩
    exact formatImage_nameAt_mem hj
  · intro hp
    have hindex : ∀ p ∈ standardDirs, ∃ j < 5, standardDirs.getD j [] = p := by decide
    obtain ⟨j, hj, rfl⟩ := hindex p hp
    have htype : ((onImage (formatImage img)).inode j).type = fsTypeDir := by
      rw [formatImage_inode img (by omega), if_pos hj]
      rfl
    exact ⟨j, ⟨by omega, by rw [htype]; decide⟩, htype, formatImage_nameAt img hj⟩

theorem find_formatImage {p : List UInt8} (hp : p ∉ standardDirs) :
    (onImage (formatImage img)).find p = none := by
  refine FsState.find_none.2 fun i hi hname => hp ?_
  rw [← hname]
  exact formatImage_nameAt_mem hi

/-- the directories of a formatted image are nested -/
theorem nested_formatImage (img : Image) : Nested (onImage (formatImage img)) := by
  constructor
  · intro i j hi hj heq
    rw [formatImage_nameAt img (formatImage_live hi), formatImage_nameAt img (formatImage_live hj)] at heq
    have hdistinct : ∀ i < 5, ∀ j < 5, standardDirs.getD i [] = standardDirs.getD j [] → i = j := by decide
    exact hdistinct i (formatImage_live hi) j (formatImage_live hj) heq
  · intro i hi _
    have hparent : ∀ i < 5, parentOf (standardDirs.getD i []) ∈ standardDirs := by decide
    rw [formatImage_nameAt img (formatImage_live hi)]
    exact hasDir_formatImage.2 (hparent i (formatImage_live hi))

theorem opened_of_magic (h : (img 256).word 0 = fsMagic) : opened img = img := by
  rw [opened, readSector, seek_of_lt (by decide), if_neg (not_not.2 h)]

theorem opened_of_not (h : (img 256).word 0 ≠ fsMagic) : opened img = formatImage img := by
  rw [opened, readSector, seek_of_lt (by decide), if_pos h]

theorem dataSectors_formatImage (img : Image) : dataSectors (formatImage img) = 7764 := by
  rw [dataSectors, readSector, seek_of_lt (by decide), formatImage_super]
  rfl

theorem addressable_formatImage (img : Image) : Addressable (formatImage img) := by
  rw [Addressable, dataSectors_formatImage]
  decide

/-- **`fswrite` and the namespace.** For every image whose filesystem, if it has one, has unique names, existing parents and
an addressable data region, every destination and every source: after a run that reports success, names are unique, parents
exist and all directories are directories, exactly if the kernel would have accepted the destination. -/
theorem fswrite_tree {img : Image} (hnested : (img 256).word 0 = fsMagic → Nested (onImage img))
    (haddr : (img 256).word 0 = fsMagic → Addressable img) {dest : CStr} {src : List UInt8}
    (hok : (fswrite img dest src).1 = true) :
    Nested (onImage (fswrite img dest src).2) ∧ DirsKept (onImage (opened img)) (onImage (fswrite img dest src).2) ↔
      Accepts (onImage (opened img)) dest.bytes := by
  have hopened : Nested (onImage (opened img)) ∧ Addressable (opened img) := by
    by_cases hmagic : (img 256).word 0 = fsMagic
    · rw [opened_of_magic hmagic]
      exact ⟨hnested hmagic, haddr hmagic⟩
    · rw [opened_of_not hmagic]
      exact ⟨nested_formatImage img, addressable_formatImage img⟩
  obtain ⟨idx, rel, hwritten⟩ := fswrite_written hopened.2 hok
  exact ⟨fun h => hwritten.accepts_of h.1 h.2, hwritten.tree_of hopened.1⟩

/-- a run on a newly formatted image -/
theorem fswrite_formatted {img₀ : Image} (h : opened img = formatImage img₀) (hlen : dest.bytes.length < 128)
    (hnew : dest.bytes ∉ standardDirs) (hneed : needFor (u32 src.length) ≤ 7764) :
    (fswrite img dest src).1 = true := by
  have hfree : ∃ i, (onImage (formatImage img₀)).freeSlot = some i := by
    cases hslot : (onImage (formatImage img₀)).freeSlot with
    | some i => exact ⟨i, rfl⟩
    | none => exact absurd (formatImage_live (FsState.freeSlot_none hslot (show 5 < 512 by decide))) (by decide)
  obtain ⟨idx, hidx⟩ := hfree
  have hused (b : ℕ) : usedBitmap (formatImage img₀) idx 7764 (List.range 512) b = false := by
    rw [← Bool.not_eq_true, usedBitmap_iff]
    rintro ⟨i, hi, -, -, -, j, hj, -⟩
    have hi := List.mem_range.1 hi
    rw [readInode_eq _ hi, formatImage_inode img₀ hi] at hj
    split_ifs at hj <;> exact j.not_lt_zero hj
  rw [fswrite, if_neg (not_le.2 hlen)]
  dsimp only
  rw [h, targetIdx_eq, find_formatImage hnew, hidx, dataSectors_formatImage]
  simp only [Option.none_or]
  rw [firstFit_clear hused hneed]

/-- all zeros -/
def blank : Image := fun _ _ => 0

theorem blank_magic : (blank 256).word 0 ≠ fsMagic := by decide

/-- one byte goes to /bin/a on a formatted image -/
theorem fswrite_tree_formatted :
    let img := formatImage blank
    let dest : CStr := ⟨[47, 98, 105, 110, 47, 97], by decide⟩
    (img 256).word 0 = fsMagic ∧ (fswrite img dest [7]).1 = true ∧ Nested (onImage (fswrite img dest [7]).2) ∧
      DirsKept (onImage (opened img)) (onImage (fswrite img dest [7]).2) := by
  intro img dest
  have hmagic : (img 256).word 0 = fsMagic := by
    rw [← opened_magic blank, opened_of_not blank_magic]
  have hopened : opened img = img := opened_of_magic hmagic
  have hok : (fswrite img dest [7]).1 = true := fswrite_formatted hopened (by decide) (by decide) (by decide)
  refine ⟨hmagic, hok, (fswrite_tree (fun _ => nested_formatImage _) (fun _ => addressable_formatImage _) hok).2 ?_⟩
  have hnew : (onImage img).find dest.bytes = none := find_formatImage (by decide)
  rw [hopened]
  exact ⟨fun i hfind => absurd (hnew.symm.trans hfind) (by simp), fun _ => .inr (hasDir_formatImage.2 (by decide))⟩

/-- **/wm/tiled.pexe on a blank image.** The Makefile's last injection succeeds on a newly formatted image, which has no
directory /wm: the parent of the new inode does not exist. -/
theorem fswrite_orphan :
    let dest : CStr := ⟨[47, 119, 109, 47, 116, 105, 108, 101, 100, 46, 112, 101, 120, 101], by decide⟩
    (fswrite blank dest [7]).1 = true ∧ ¬ Nested (onImage (fswrite blank dest [7]).2) := by
  intro dest
  have hok : (fswrite blank dest [7]).1 = true := fswrite_formatted (opened_of_not blank_magic) (by decide) (by decide) (by decide)
  have haddr : Addressable (opened blank) := by
    rw [opened_of_not blank_magic]
    exact addressable_formatImage blank
  obtain ⟨idx, rel, hwritten⟩ := fswrite_written haddr hok
  refine ⟨hok, fun hnested => ?_⟩
  have hname : (onImage (fswrite blank dest [7]).2).nameAt idx = dest.bytes := by
    rw [hwritten.nameAt hwritten.slot, if_pos rfl]
  have hparent := hnested.parent idx (hwritten.live_iff.2 (.inl rfl)) (by rw [hname]; decide)
  rw [hname] at hparent
  have hdir := hwritten.hasDir_of hparent
  rw [opened_of_not blank_magic] at hdir
  exact absurd (hasDir_formatImage.1 hdir) (by decide)

end GannetOS.Tools
