/-
The disk of the filesystem and the packed on-disk inode (`filesys/fs.h`, `filesys/ata.c`, the inode I/O of
`filesys/fs.c`).

A sector is its 512 bytes; the disk gives the sector at every LBA. Three 144-byte inodes share a sector: name[128], size,
start_block, block_count (little-endian words), type and three bytes of padding. `Inode.decode` and `Inode.byte` are the
two directions of the format.

`FsState` is the module state of `fs.c` (`alloc_bitmap`, `data_sector_count`, `fds`) together with the disk and with the
pattern of sector I/O failures still to come: each `ata_read_sector` or `ata_write_sector` takes the next entry of
`faults`, `true` meaning that it fails and leaves the sector as it is. With `faults = []` no I/O fails.

The functions of `fs.c` are written for any monad with access to an `FsState`, because the same code runs on kernel
strings and on buffers elsewhere in memory (`Proc/Loader`). The results of `Filesys` are about `StateM FsState`.
-/
import GannetOS.Core.Bytes
import GannetOS.Core.Pool
import GannetOS.Core.State

namespace GannetOS.Filesys

open GannetOS.Core

/-! ## Geometry (fs.h) -/

@[simp] abbrev fsSuperSector : ℕ := 256
@[simp] abbrev fsInodeStart : ℕ := 257
@[simp] abbrev fsInodeSectors : ℕ := 171
@[simp] abbrev fsDataStart : ℕ := 428
@[simp] abbrev fsMaxInodes : ℕ := 512
@[simp] abbrev fsNameMax : ℕ := 128
@[simp] abbrev fsTotalSectors : ℕ := 8192
@[simp] abbrev fsMagic : UInt32 := 0x504E4753

/-- `sizeof(struct fs_inode)`, and how many of them share a sector -/
@[simp] abbrev inodeSize : ℕ := 144
@[simp] abbrev inodesPerSector : ℕ := 3

@[simp] abbrev fsTypeFree : UInt8 := 0
@[simp] abbrev fsTypeFile : UInt8 := 1
@[simp] abbrev fsTypeDir : UInt8 := 2

/-! ## Sectors and inodes -/

abbrev Sector := Fin 512 → UInt8

/-- the byte at offset `n` -/
def Sector.byte (sb : Sector) (n : ℕ) : UInt8 := if h : n < 512 then sb ⟨n, h⟩ else 0

/-- `mem_copy(sb + off, src, n)` -/
def Sector.patch (sb : Sector) (off n : ℕ) (src : ℕ → UInt8) : Sector :=
  fun i => if off ≤ i.val ∧ i.val < off + n then src (i.val - off) else sb i

/-- the little-endian word at offset `o` -/
def Sector.word (sb : Sector) (o : ℕ) : UInt32 := le32 (sb.byte o) (sb.byte (o + 1)) (sb.byte (o + 2)) (sb.byte (o + 3))

/-- `struct fs_inode` -/
structure Inode where
  name : Vector UInt8 128
  size : UInt32
  startBlock : UInt32
  blockCount : UInt32
  type : UInt8
  pad : Vector UInt8 3
deriving DecidableEq

namespace Inode

/-- `mem_zero(&inode, sizeof(inode))` -/
def zero : Inode := ⟨Vector.replicate 128 0, 0, 0, 0, 0, Vector.replicate 3 0⟩

/-- byte `k` of the packed structure -/
def byte (x : Inode) (k : ℕ) : UInt8 :=
  if h : k < 128 then x.name[k]
  else if k < 132 then byteOf x.size (k - 128)
  else if k < 136 then byteOf x.startBlock (k - 132)
  else if k < 140 then byteOf x.blockCount (k - 136)
  else if k = 140 then x.type
  else if h : k - 141 < 3 then x.pad[k - 141]
  else 0

/-- the structure stored at offset `off` of a sector -/
def decode (sb : Sector) (off : ℕ) : Inode where
  name := Vector.ofFn fun i : Fin 128 => sb.byte (off + i)
  size := sb.word (off + 128)
  startBlock := sb.word (off + 132)
  blockCount := sb.word (off + 136)
  type := sb.byte (off + 140)
  pad := Vector.ofFn fun i : Fin 3 => sb.byte (off + 141 + i)

end Inode

theorem Sector.byte_patch_in {sb : Sector} {off n k : ℕ} {src : ℕ → UInt8} (hk : k < n) (hb : off + n ≤ 512) :
    (sb.patch off n src).byte (off + k) = src k := by
  have h : off + k < 512 := by omega
  have hin : off + k < off + n := by omega
  simp [Sector.byte, Sector.patch, h, hin]

theorem Sector.byte_patch_out {sb : Sector} {off n k : ℕ} {src : ℕ → UInt8} (hk : k < off ∨ off + n ≤ k) :
    (sb.patch off n src).byte k = sb.byte k := by
  unfold Sector.byte Sector.patch
  split_ifs with h1 h2
  · simp only at h2; omega
  · rfl
  · rfl

/-- **The inode format round-trips**: a stored inode is read back unchanged. -/
theorem Inode.decode_patch (x : Inode) (sb : Sector) (off : ℕ) (h : off + 144 ≤ 512) :
    Inode.decode (sb.patch off 144 x.byte) off = x := by
  have hb : ∀ k < 144, (sb.patch off 144 x.byte).byte (off + k) = x.byte k :=
    fun k hk => Sector.byte_patch_in hk h
  obtain ⟨name, size, startBlock, blockCount, type, pad⟩ := x
  simp only [Inode.decode, Sector.word, Inode.mk.injEq]
  refine ⟨?_, ?_, ?_, ?_, ?_, ?_⟩
  · ext i hi
    rw [Vector.getElem_ofFn, hb i (by omega)]
    simp [Inode.byte, hi]
  · rw [Nat.add_assoc, Nat.add_assoc, Nat.add_assoc, hb 128 (by decide), hb 129 (by decide), hb 130 (by decide),
      hb 131 (by decide)]
    exact le32_byteOf size
  · rw [Nat.add_assoc, Nat.add_assoc, Nat.add_assoc, hb 132 (by decide), hb 133 (by decide), hb 134 (by decide),
      hb 135 (by decide)]
    exact le32_byteOf startBlock
  · rw [Nat.add_assoc, Nat.add_assoc, Nat.add_assoc, hb 136 (by decide), hb 137 (by decide), hb 138 (by decide),
      hb 139 (by decide)]
    exact le32_byteOf blockCount
  · rw [hb 140 (by decide)]
    rfl
  · ext i hi
    have hne : ¬ 141 + i < 140 := by omega
    rw [Vector.getElem_ofFn, Nat.add_assoc, hb (141 + i) (by omega)]
    simp only [Inode.byte]
    rw [dif_neg (by omega), if_neg (by omega), if_neg (by omega), if_neg hne, if_neg (by omega),
      dif_pos (by omega)]
    simp only [Nat.add_sub_cancel_left]

/-- an inode is untouched by a write outside its 144 bytes -/
theorem Inode.decode_patch_out (sb : Sector) (off off' n : ℕ) (src : ℕ → UInt8)
    (h : off' + 144 ≤ off ∨ off + n ≤ off') : Inode.decode (sb.patch off n src) off' = Inode.decode sb off' := by
  have hb : ∀ k < 144, (sb.patch off n src).byte (off' + k) = sb.byte (off' + k) :=
    fun k hk => Sector.byte_patch_out (by omega)
  simp only [Inode.decode, Sector.word, Nat.add_assoc, Inode.mk.injEq]
  refine ⟨?_, ?_, ?_, ?_, ?_, ?_⟩
  · congr 1; funext i; exact hb i (by omega)
  · rw [hb _ (by decide), hb _ (by decide), hb _ (by decide), hb _ (by decide)]
  · rw [hb _ (by decide), hb _ (by decide), hb _ (by decide), hb _ (by decide)]
  · rw [hb _ (by decide), hb _ (by decide), hb _ (by decide), hb _ (by decide)]
  · exact hb 140 (by decide)
  · congr 1; funext i; exact hb (141 + i) (by omega)

/-! ## Module state and sector I/O -/

/-- `struct fs_fd`; `none` is the index -1 of a closed descriptor -/
structure Fd where
  inodeIdx : Option ℕ
  offset : UInt32
deriving DecidableEq

/-- the statics of `fs.c`, the disk, and the I/O failures to come -/
structure FsState where
  disk : ℕ → Sector
  /-- bit `b` of `alloc_bitmap` -/
  bitmap : ℕ → Bool
  dataSectorCount : ℕ
  fds : Fin 8 → Fd
  faults : List Bool

section
variable {m : Type → Type} [MonadStateOf FsState m]

def getFs : m FsState := MonadStateOf.get

def modifyFs (f : FsState → FsState) : m Unit := MonadStateOf.modifyGet fun s => ((), f s)

def ataReadSector (lba : ℕ) : m (Option Sector) :=
  MonadStateOf.modifyGet fun s : FsState =>
    match s.faults with
    | [] => (some (s.disk lba), s)
    | f :: fs => (if f then none else some (s.disk lba), { s with faults := fs })

def ataWriteSector (lba : ℕ) (buf : Sector) : m Bool :=
  MonadStateOf.modifyGet fun s : FsState =>
    match s.faults with
    | [] => (true, { s with disk := Function.update s.disk lba buf })
    | f :: fs =>
      if f then (false, { s with faults := fs })
      else (true, { s with disk := Function.update s.disk lba buf, faults := fs })

variable [Monad m]

def inodeRead (idx : ℕ) : m (Option Inode) := do
  if idx ≥ fsMaxInodes then return none
  match ← ataReadSector (fsInodeStart + idx / inodesPerSector) with
  | none => return none
  | some sb => return some (Inode.decode sb (idx % inodesPerSector * inodeSize))

def inodeWrite (idx : ℕ) (x : Inode) : m Bool := do
  if idx ≥ fsMaxInodes then return false
  match ← ataReadSector (fsInodeStart + idx / inodesPerSector) with
  | none => return false
  | some sb =>
    ataWriteSector (fsInodeStart + idx / inodesPerSector)
      (sb.patch (idx % inodesPerSector * inodeSize) inodeSize x.byte)

end

/-! ## The inode table as stored -/

namespace FsState

/-- the inode stored in slot `idx` -/
def inode (s : FsState) (idx : ℕ) : Inode := Inode.decode (s.disk (257 + idx / 3)) (idx % 3 * 144)

/-- the state with slot `idx` overwritten -/
def setInode (s : FsState) (idx : ℕ) (x : Inode) : FsState :=
  { s with disk := Function.update s.disk (257 + idx / 3) ((s.disk (257 + idx / 3)).patch (idx % 3 * 144) 144 x.byte) }

@[simp] theorem setInode_faults (s : FsState) (i : ℕ) (x : Inode) : (s.setInode i x).faults = s.faults := rfl

/-- a slot holds what was last stored there, and storing one slot leaves every other slot alone -/
@[simp] theorem inode_setInode (s : FsState) (i j : ℕ) (x : Inode) :
    (s.setInode i x).inode j = if j = i then x else s.inode j := by
  unfold inode setInode
  by_cases hsec : 257 + j / 3 = 257 + i / 3
  · simp only [hsec, Function.update_self]
    split_ifs with hij
    · subst hij
      exact Inode.decode_patch x _ _ (by omega)
    · exact Inode.decode_patch_out _ _ _ _ _ (by omega)
  · simp only [Function.update_of_ne hsec]
    rw [if_neg (by rintro rfl; exact hsec rfl)]

/-- storing an inode touches neither the superblock nor the data sectors -/
theorem setInode_disk (s : FsState) (i : ℕ) (x : Inode) (lba : ℕ) (hi : i < 512) (h : lba ≤ 256 ∨ 428 ≤ lba) :
    (s.setInode i x).disk lba = s.disk lba := by
  exact Function.update_of_ne (by omega) _ _

end FsState

section
variable {s : FsState}

theorem ataReadSector_run (h : s.faults = []) (lba : ℕ) :
    (ataReadSector lba : StateM FsState _) s = (some (s.disk lba), s) := by
  simp only [ataReadSector, modifyGet_apply, h]

theorem ataWriteSector_run (h : s.faults = []) (lba : ℕ) (buf : Sector) :
    (ataWriteSector lba buf : StateM FsState _) s = (true, { s with disk := Function.update s.disk lba buf }) := by
  simp only [ataWriteSector, modifyGet_apply, h]

theorem inodeRead_run (h : s.faults = []) (idx : ℕ) :
    (inodeRead idx : StateM FsState _) s = (if idx < 512 then some (s.inode idx) else none, s) := by
  unfold inodeRead
  by_cases hi : idx < 512
  · rw [if_neg (by simpa using hi), if_pos hi, bind_apply, ataReadSector_run h]
    rfl
  · rw [if_pos (by simpa using hi), if_neg hi]
    rfl

theorem inodeRead_some (h : s.faults = []) {idx : ℕ} (hi : idx < 512) :
    (inodeRead idx : StateM FsState _) s = (some (s.inode idx), s) := by
  rw [inodeRead_run h, if_pos hi]

theorem inodeWrite_run (h : s.faults = []) {idx : ℕ} (hi : idx < 512) (x : Inode) :
    (inodeWrite idx x : StateM FsState _) s = (true, s.setInode idx x) := by
  unfold inodeWrite
  rw [if_neg (by simpa using hi), bind_apply, ataReadSector_run h]
  exact ataWriteSector_run h _ _

end

end GannetOS.Filesys
