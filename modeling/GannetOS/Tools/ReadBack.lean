/-
The host tool and the kernel on one disk: what `fswrite` has put into an image is what `fs_open` and `fs_read` find there
after `fs_init`.

- `fswrite_agrees`: for a given source, a run that reports success on an image with disjoint extents in the data region can
  be read back, leaves every other inode and its sectors alone and leaves the extents disjoint and in the data region,
  whatever the image and the destination are, exactly if the source is shorter than 2^32 - 511 bytes or too long to be
  stored;
- `fswrite_truncates`: a source of 2^32 + 1 bytes is stored as its first byte.

The size of the source is cast to 32 bits before the sectors are counted.
-/
import GannetOS.Tools.Fswrite

namespace GannetOS.Tools

open GannetOS.Core GannetOS.Filesys

/-- the sectors of the inodes in use lie in the data region, and no two of them share one -/
structure Apart (s : FsState) : Prop where
  placed : ∀ i, s.live i → (s.inode i).InData
  disjoint : ∀ i j, s.live i → s.live j → i ≠ j → ∀ b ∈ (s.inode i).extent, b ∉ (s.inode j).extent

/-- a filesystem as either side formats it, with the inodes' sectors apart -/
structure Healthy (img : Image) : Prop where
  sectors : dataSectors img = 7764
  apart : Apart (onImage img)

/-- the kernel mounts the disk, opens a file and reads it -/
def readBack (dest : CStr) (len : ℕ) : StateM FsState (Option (List UInt8)) := do
  let _ ← fsInit
  match ← fsOpen dest.arg false with
  | none => return none
  | some fd => fsRead (fun _ _ => pure ()) fd len

/-- the file is in the image `img` that was `T`, and nothing else has changed -/
structure Agrees (T img : Image) (dest : CStr) (src : List UInt8) : Prop where
  apart : Apart (onImage img)
  read : ∀ s : FsState, s.disk = img → s.faults = [] → ∀ len, src.length ≤ len → (readBack dest len s).1 = some src
  others : ∃ idx, (onImage img).find dest.bytes = some idx ∧ ∀ i < 512, i ≠ idx →
    (onImage img).inode i = (onImage T).inode i ∧
      ((onImage T).live i → ∀ b ∈ ((onImage T).inode i).extent, img (428 + b) = T (428 + b))

/-! ## Reading back -/

/-- on a disk with a superblock and inodes in the data region, the file found under the path is read from its start -/
theorem readBack_run {s : FsState} (h : s.faults = []) (hmagic : (s.disk 256).word 0 = fsMagic)
    (hplaced : ∀ i, s.live i → (s.inode i).InData) {dest : CStr} {idx : ℕ} (hfind : s.find dest.bytes = some idx)
    (hfile : (s.inode idx).type ≠ fsTypeDir)
    (hstart : (s.inode idx).size.toNat ≠ 0 → (s.inode idx).startBlock.toNat < 8192) (len : ℕ) :
    (readBack dest len s).1 =
      some (dataBytes s.disk (s.inode idx).startBlock.toNat 0 (min len (s.inode idx).size.toNat)) := by
  have hfree : s.remount.freeFd = some 0 := rfl
  have hsame (i : ℕ) : s.remount.inode i = s.inode i := rfl
  have hfound : s.remount.find dest.bytes = some idx := (FsState.find_congr hsame _).trans hfind
  have hopen : (fsOpen dest.arg false : StateM FsState _) s.remount = (some 0, s.remount.setFd 0 ⟨some idx, 0⟩) := by
    rw [fsOpen_run (s := s.remount) h, hfree]
    simp only [hfound]
    exact if_neg hfile
  have hslot : fdSlot (0 : Fin 8) = some 0 := rfl
  have hread := fsRead_run (s := s.remount.setFd 0 ⟨some idx, 0⟩) h hslot rfl (FsState.find_some hfind).1.1 hstart len
  have hoff : ((s.remount.setFd 0 ⟨some idx, 0⟩).fds 0).offset.toNat = 0 := rfl
  dsimp only at hread
  rw [hoff, Nat.sub_zero] at hread
  rw [readBack, run_bind (fsInit_remount h hmagic hplaced), run_bind hopen]
  dsimp only
  rw [hread]
  rfl

/-! ## What was written -/

theorem needFor_pos (size : ℕ) : 0 < needFor size := by
  rw [needFor]
  split_ifs <;> omega

/-- the sectors that are taken for a source hold it, unless the count wraps -/
theorem needFor_spec {size : ℕ} (h : size + 511 < 4294967296) : size ≤ 512 * needFor size := by
  rw [needFor, u32_of_lt h]
  split_ifs <;> omega

section

variable {T img : Image} {dest : CStr} {src : List UInt8} {idx rel : ℕ} (h : Written T dest src img idx rel)
include h

/-- the kernel finds the slot that was written -/
theorem Written.find : (onImage img).find dest.bytes = some idx := by
  have hname : (onImage img).nameAt idx = dest.bytes := by rw [h.nameAt h.slot, if_pos rfl]
  refine FsState.find_eq_some (h.live_iff.2 (.inl rfl)) hname fun j hj hlive heq => ?_
  have hne : j ≠ idx := hj.ne
  have hold := (h.live_iff.1 hlive).resolve_left hne
  rw [h.nameAt hlive.1, if_neg hne] at heq
  rcases h.target_cases with hfind | ⟨hnone, -⟩
  · exact FsState.find_first hfind hj hold heq
  · exact FsState.find_none.1 hnone j hold heq

theorem Written.super : img 256 = T 256 := by
  rw [h.data 256 (.inl le_rfl), if_neg (by omega)]

variable (hT : Healthy T)
include hT

theorem Written.end_le : rel + needFor (u32 src.length) ≤ 7764 := by
  have hend := (firstFit_sound h.fit).1
  rwa [hT.sectors] at hend

/-- the run that was taken has no sector of another inode -/
theorem Written.fresh {i b : ℕ} (hi : (onImage T).live i) (hne : i ≠ idx) (hb : b ∈ ((onImage T).inode i).extent) :
    b ∉ (⟨rel, needFor (u32 src.length)⟩ : Extent) := by
  intro hmem
  have hclear := (firstFit_sound h.fit).2 b hmem
  rw [hT.sectors, ← Bool.not_eq_true, usedBitmap_iff] at hclear
  refine hclear ⟨i, List.mem_range.2 hi.1, hne, ?_⟩
  rw [readInode_eq T hi.1]
  obtain ⟨hge, hlt⟩ := Inode.mem_extent.1 hb
  obtain ⟨hstart, hend⟩ := hT.apart.placed i hi (by omega)
  refine ⟨hi.2, by omega, b - (((onImage T).inode i).startBlock.toNat - 428), by omega, ?_⟩
  rw [sub32_of_le hstart (by omega), u32_of_lt (by omega)]
  omega

/-- sectors of the other inodes keep their contents -/
theorem Written.kept {i b : ℕ} (hi : (onImage T).live i) (hne : i ≠ idx) (hb : b ∈ ((onImage T).inode i).extent) :
    img (428 + b) = T (428 + b) := by
  have hfresh := h.fresh hT hi hne hb
  rw [Extent.mem_def] at hfresh
  rw [h.data _ (.inr (by omega)), if_neg (by simp only at hfresh; omega)]

/-- the file's inode, as the kernel reads it -/
theorem Written.inode : ((onImage img).inode idx).startBlock.toNat = 428 + rel ∧
    ((onImage img).inode idx).blockCount.toNat = needFor (u32 src.length) ∧
    ((onImage img).inode idx).size.toNat = u32 src.length := by
  have hend := h.end_le hT
  rw [h.table idx h.slot, if_pos rfl]
  refine ⟨?_, ?_, ?_⟩
  · exact toNat_ofNat32 (by omega)
  · exact toNat_ofNat32 (by omega)
  · exact toNat_ofNat32 (Nat.mod_lt _ (by decide))

theorem Written.apart : Apart (onImage img) := by
  obtain ⟨hstart, hcount, -⟩ := h.inode hT
  have hend := h.end_le hT
  have hextent : ((onImage img).inode idx).extent = ⟨rel, needFor (u32 src.length)⟩ := by
    rw [Inode.extent_eq, hstart, hcount, Nat.add_sub_cancel_left]
  constructor
  · intro i hi
    by_cases hidx : i = idx
    · intro _
      rw [hidx, hstart, hcount]
      omega
    · rw [h.inode_ne hi.1 hidx]
      exact hT.apart.placed i ((h.live_iff.1 hi).resolve_left hidx)
  · intro i j hi hj hij b hb hb'
    by_cases hidx : i = idx
    · have hjdx : j ≠ idx := fun he => hij (hidx.trans he.symm)
      rw [h.inode_ne hj.1 hjdx] at hb'
      rw [hidx, hextent] at hb
      exact h.fresh hT ((h.live_iff.1 hj).resolve_left hjdx) hjdx hb' hb
    · rw [h.inode_ne hi.1 hidx] at hb
      have hold := (h.live_iff.1 hi).resolve_left hidx
      by_cases hjdx : j = idx
      · rw [hjdx, hextent] at hb'
        exact h.fresh hT hold hidx hb hb'
      · rw [h.inode_ne hj.1 hjdx] at hb'
        exact hT.apart.disjoint i j hold ((h.live_iff.1 hj).resolve_left hjdx) hij b hb hb'

/-- what the kernel reads of the file: as many bytes as its inode says, from the run that was taken -/
theorem Written.readBack (hmagic : (T 256).word 0 = fsMagic) {s : FsState} (hs : s.disk = img) (hf : s.faults = [])
    (len : ℕ) : (readBack dest len s).1 = some (dataBytes img (428 + rel) 0 (min len (u32 src.length))) := by
  obtain ⟨hstart, -, hsize⟩ := h.inode hT
  have hend := h.end_le hT
  have hpos := needFor_pos (u32 src.length)
  obtain rfl := hs
  have hsame (i : ℕ) : s.inode i = (onImage s.disk).inode i := rfl
  have hfind : s.find dest.bytes = some idx := (FsState.find_congr hsame _).trans h.find
  have hfile : (s.inode idx).type ≠ fsTypeDir := fun hdir => absurd (hdir.symm.trans h.isFile) (by decide)
  rw [← hsame] at hstart hsize
  rw [readBack_run hf (by rw [h.super, hmagic]) (h.apart hT).placed hfind hfile (fun _ => by omega), hstart, hsize]

end

/-- byte `k` of the file is byte `k` of the source -/
theorem sectorOf_byte {src : List UInt8} {size k : ℕ} (hk : k < size) (hsize : size < 4294967296) :
    (sectorOf src size (k / 512)).byte (k % 512) = src.getD k 0 := by
  have hmod : k % 512 < 512 := Nat.mod_lt _ (by decide)
  have hoff : u32 (k / 512 * 512) = k / 512 * 512 := u32_of_lt (by omega)
  rw [Sector.byte, dif_pos hmod, sectorOf]
  dsimp only
  rw [hoff, sub32_of_le (by omega) hsize, if_pos (by omega), Nat.div_add_mod']

/-- a source that is not too long is where it is looked for -/
theorem Written.dataBytes {T img : Image} {dest : CStr} {src : List UInt8} {idx rel : ℕ}
    (h : Written T dest src img idx rel) (hlen : src.length + 511 < 4294967296) :
    dataBytes img (428 + rel) 0 src.length = src := by
  have hsize : u32 src.length = src.length := u32_of_lt (by omega)
  have hneed := needFor_spec hlen
  refine List.ext_getElem (dataBytes_length _ _ _ _) fun k hk hk' => ?_
  have hsector := h.data (428 + rel + k / 512) (.inr (by omega))
  rw [hsize, if_pos (by omega), Nat.add_sub_cancel_left] at hsector
  simp only [Filesys.dataBytes, List.getElem_map, List.getElem_range, Nat.zero_add, dataByte]
  rw [hsector, sectorOf_byte hk' (by omega), List.getD_eq_getElem _ _ hk']

theorem Written.agrees {T img : Image} {dest : CStr} {src : List UInt8} {idx rel : ℕ}
    (h : Written T dest src img idx rel) (hT : Healthy T) (hmagic : (T 256).word 0 = fsMagic)
    (hlen : src.length + 511 < 4294967296) : Agrees T img dest src where
  apart := h.apart hT
  read s hs hf len hle := by
    rw [h.readBack hT hmagic hs hf, u32_of_lt (by omega), min_eq_right hle, h.dataBytes hlen]
  others := ⟨idx, h.find, fun i hi hne => ⟨h.inode_ne hi hne, fun hl b hb => h.kept hT hl hne hb⟩⟩

/-! ## Long sources -/

theorem formatImage_data (img : Image) {lba : ℕ} (h : 428 ≤ lba) : formatImage img lba = img lba := by
  rw [formatImage, writeDirs_disk _ _ (by decide) (.inr h), writeSector, seek_of_lt (by decide),
    Function.update_of_ne (show lba ≠ 256 by omega), zeroTable_apply _ le_rfl, if_neg (by omega)]

theorem healthy_formatImage (img : Image) : Healthy (formatImage img) := by
  have hcount {i : ℕ} (hi : i < 512) : ((onImage (formatImage img)).inode i).blockCount = 0 := by
    rw [formatImage_inode img hi]
    split_ifs <;> rfl
  refine ⟨dataSectors_formatImage img, fun i hi hne => ?_, fun i j hi _ _ b hb => ?_⟩
  · exact absurd (congrArg UInt32.toNat (hcount hi.1)) hne
  · rw [Inode.extent_of_zero (hcount hi.1)] at hb
    exact absurd hb (Extent.not_mem_zero _ _)

/-- every source that is too long but can be stored is read back wrong from some image -/
theorem long_not_agrees {src : List UInt8} (hneed : needFor (u32 src.length) ≤ 7764)
    (hlong : 4294967296 ≤ src.length + 511) : ∃ img dest, (img 256).word 0 ≠ fsMagic ∧ (fswrite img dest src).1 = true ∧
      ¬ Agrees (opened img) (fswrite img dest src).2 dest src := by
  -- the sectors behind the file hold another byte than the source does
  obtain ⟨img, himg⟩ : ∃ img : Image, img = fun lba _ => if 428 ≤ lba then src.getD 512 0 + 1 else 0 := ⟨_, rfl⟩
  obtain ⟨dest, hdest⟩ : ∃ dest : CStr, dest = ⟨[47, 97], by decide⟩ := ⟨_, rfl⟩
  have hmagic : (img 256).word 0 ≠ fsMagic := by
    have hzero : img 256 = fun _ => 0 := by rw [himg]; rfl
    rw [hzero]
    decide
  have hok : (fswrite img dest src).1 = true :=
    fswrite_formatted (opened_of_not hmagic) (by rw [hdest]; decide) (by rw [hdest]; decide) hneed
  refine ⟨img, dest, hmagic, hok, fun hagrees => ?_⟩
  have hT := healthy_formatImage img
  have haddr : Addressable (opened img) := by
    rw [opened_of_not hmagic, Addressable, hT.sectors]
    decide
  obtain ⟨idx, rel, hwritten⟩ := fswrite_written haddr hok
  have hsuper := opened_magic img
  rw [opened_of_not hmagic] at hwritten hsuper
  generalize (fswrite img dest src).2 = out at hagrees hwritten
  have hread := hagrees.read (onImage out) rfl rfl src.length le_rfl
  rw [hwritten.readBack hT hsuper (s := onImage out) rfl rfl] at hread
  have hbytes := Option.some.inj hread
  -- the length shows that nothing was cut off, so it is the sector count that wrapped
  have hlength := congrArg List.length hbytes
  rw [dataBytes_length] at hlength
  have hlt : u32 src.length < 4294967296 := Nat.mod_lt _ (by decide)
  have hsize : u32 src.length = src.length := u32_of_lt (by omega)
  have hone : needFor src.length = 1 := by
    unfold needFor u32
    rw [if_pos (by omega)]
  rw [hsize, min_self] at hbytes
  have hsector := hwritten.data (428 + rel + 1) (.inr (by omega))
  rw [hsize, hone, if_neg (by omega), formatImage_data img (by omega)] at hsector
  have hbyte : (out (428 + rel + 1)).byte 0 = src.getD 512 0 := by
    rw [← hbytes, Filesys.dataBytes, List.getD_eq_getElem _ _ (by simp; omega)]
    simp [dataByte]
  rw [hsector] at hbyte
  have hother : (img (428 + rel + 1)).byte 0 = src.getD 512 0 + 1 := by
    rw [himg]
    exact if_pos (by omega)
  have hsame := congrArg UInt8.toNat (hother.symm.trans hbyte)
  rw [UInt8.toNat_add, UInt8.toNat_one] at hsame
  have hbound := (src.getD 512 0).toNat_lt
  omega

/-- **Host tool and kernel on one disk.** For every source: whatever the image and the destination are, as long as the
extents of a filesystem that is there are disjoint and in the data region, a run that reports success can be read back,
leaves every other inode and its sectors alone and leaves the extents disjoint and in the data region; exactly if the source
is shorter than 2^32 - 511 bytes or its size modulo 2^32 does not fit on the disk. -/
theorem fswrite_agrees (src : List UInt8) :
    (∀ img dest, ((img 256).word 0 = fsMagic → Healthy img) → (fswrite img dest src).1 = true →
      Agrees (opened img) (fswrite img dest src).2 dest src) ↔
      (needFor (u32 src.length) ≤ 7764 → src.length + 511 < 4294967296) := by
  constructor
  · intro hall hneed
    by_contra hlong
    obtain ⟨img, dest, hmagic, hok, hnot⟩ := long_not_agrees hneed (not_lt.1 hlong)
    exact hnot (hall img dest (fun h => absurd h hmagic) hok)
  · intro hlen img dest hhealthy hok
    have hT : Healthy (opened img) := by
      by_cases hmagic : (img 256).word 0 = fsMagic
      · rw [opened_of_magic hmagic]
        exact hhealthy hmagic
      · rw [opened_of_not hmagic]
        exact healthy_formatImage img
    have haddr : Addressable (opened img) := by
      rw [Addressable, hT.sectors]
      decide
    obtain ⟨idx, rel, hwritten⟩ := fswrite_written haddr hok
    have hend := hwritten.end_le hT
    exact hwritten.agrees hT (opened_magic img) (hlen (by omega))

/-- 2^32 + 1 bytes are reported as written, and one byte of them is -/
theorem fswrite_truncates : ∃ img dest, (img 256).word 0 ≠ fsMagic ∧
    (fswrite img dest (List.replicate 4294967297 7)).1 = true ∧
    ¬ Agrees (opened img) (fswrite img dest (List.replicate 4294967297 7)).2 dest (List.replicate 4294967297 7) := by
  apply long_not_agrees
  · rw [List.length_replicate]
    decide
  · rw [List.length_replicate]
    decide

end GannetOS.Tools
