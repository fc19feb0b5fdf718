/-
The filesystem operations of `filesys/fs.c`, function by function.

Every function runs in any monad with an `FsState`. A path is a `StrArg`: the code reads it byte by byte, so the same
definition serves a kernel string and a string in an app's memory. `fs_write` reads its buffer through `inp` and
`fs_read` writes its buffer through `out`; `fs_get_parent` writes through `wr`.

Return codes: -1 is `none` (or `false`), 0 is `true`; `fs_read` returns the bytes it delivered. 32-bit arithmetic that
can wrap is written with `u32` and `sub32`.
-/
import GannetOS.Core.CString
import GannetOS.Core.Extent
import GannetOS.Filesys.Disk

namespace GannetOS.Filesys

open GannetOS.Core

/-- reduction to `uint32_t` -/
def u32 (n : ℕ) : ℕ := n % 4294967296

/-- `uint32_t` subtraction -/
def sub32 (a b : ℕ) : ℕ := u32 (a + 4294967296 - b)

section
variable {m : Type → Type} [Monad m]

/-! ## String helpers -/

/-- `str_eq` from offset `i` on -/
def strEqLoop (a b : StrArg m) : ℕ → ℕ → m Bool
  | 0, _ => return false
  | n + 1, i => do
    let x ← a.rd i
    if x = 0 then return x == (← b.rd i)
    let y ← b.rd i
    if y = 0 then return x == y
    if x ≠ y then return false
    strEqLoop a b n (i + 1)

def strEq (a b : StrArg m) : m Bool := strEqLoop a b (min a.fuel b.fuel) 0

/-- `str_len` from offset `i` on -/
def strLenLoop (s : StrArg m) : ℕ → ℕ → m ℕ
  | 0, i => return i
  | n + 1, i => do
    if (← s.rd i) = 0 then return i
    strLenLoop s n (i + 1)

def strLen (s : StrArg m) : m ℕ := strLenLoop s s.fuel 0

/-- `str_copy` from offset `i` on, with `n` bytes before `max - 1`: the bytes copied, the NUL written after them -/
def strCopyLoop (wr : ℕ → UInt8 → m Unit) (s : StrArg m) : ℕ → ℕ → m (List UInt8)
  | 0, i => do
    wr i 0
    return []
  | n + 1, i => do
    if (← s.rd i) = 0 then
      wr i 0
      return []
    let c ← s.rd i
    wr i c
    return c :: (← strCopyLoop wr s n (i + 1))

def strCopy (wr : ℕ → UInt8 → m Unit) (s : StrArg m) (max : ℕ) : m (List UInt8) := strCopyLoop wr s (max - 1) 0

/-- `'/'` -/
@[simp] abbrev slash : UInt8 := 47

/-- the scan of `fs_get_parent` over `n` more bytes: the index of the last `'/'` seen so far -/
def lastSlashLoop (path : StrArg m) : ℕ → ℕ → ℕ → m ℕ
  | 0, _, last => return last
  | n + 1, i, last => do
    if (← path.rd i) = slash then lastSlashLoop path n (i + 1) i
    else lastSlashLoop path n (i + 1) last

/-- `fs_get_parent`; also hands back the string it wrote -/
def fsGetParent (path : StrArg m) (wr : ℕ → UInt8 → m Unit) : m (List UInt8) := do
  let len ← strLen path
  let last ← lastSlashLoop path len 0 0
  if last = 0 then
    wr 0 slash
    wr 1 0
    return [slash]
  let parent ← strCopy wr path (last + 1)
  wr last 0
  return parent

/-- a zeroed inode whose name field received `str_copy(inode.name, path, FS_NAME_MAX)` -/
def newInode (path : StrArg m) (type : UInt8) : m Inode := do
  let name ← strCopy (fun _ _ => pure ()) path fsNameMax
  return { Inode.zero with name := Vector.ofFn fun i : Fin 128 => name.getD i 0, type := type }

variable [MonadStateOf FsState m]

/-! ## Allocation bitmap -/

def bmSet (b : ℕ) : m Unit := modifyFs fun s => { s with bitmap := Function.update s.bitmap b true }

def bmClr (b : ℕ) : m Unit := modifyFs fun s => { s with bitmap := Function.update s.bitmap b false }

/-- the loops that set or clear `count` bits from `rel` on -/
def bmSetRun (rel : ℕ) : ℕ → m Unit
  | 0 => return ()
  | n + 1 => do
    bmSetRun rel n
    bmSet (u32 (rel + n))

def bmClrRun (rel : ℕ) : ℕ → m Unit
  | 0 => return ()
  | n + 1 => do
    bmClrRun rel n
    bmClr (u32 (rel + n))

/-- `bm_alloc`: its search is the library's first fit -/
def bmAlloc (count : ℕ) : m (Option ℕ) := do
  let s ← getFs
  match firstFit s.bitmap s.dataSectorCount count with
  | none => return none
  | some i =>
    bmSetRun i count
    return some i

/-! ## Lookup -/

def fsFindLoop (path : StrArg m) : List ℕ → m (Option ℕ)
  | [] => return none
  | i :: is => do
    match ← inodeRead i with
    | none => fsFindLoop path is
    | some inode =>
      if inode.type = fsTypeFree then fsFindLoop path is
      else if ← strEq (StrArg.ofBytes inode.name.toList) path then return some i
      else fsFindLoop path is

def fsFind (path : StrArg m) : m (Option ℕ) := fsFindLoop path (List.range fsMaxInodes)

/-- the search for a free inode slot, shared by `fs_mkdir` and `fs_open` -/
def freeInodeLoop : List ℕ → m (Option ℕ)
  | [] => return none
  | i :: is => do
    match ← inodeRead i with
    | none => freeInodeLoop is
    | some tmp => if tmp.type = fsTypeFree then return some i else freeInodeLoop is

def freeInode : m (Option ℕ) := freeInodeLoop (List.range fsMaxInodes)

def fsIsdir (path : StrArg m) : m Bool := do
  if ← strEq path (StrArg.ofBytes [slash]) then return true
  match ← fsFind path with
  | none => return false
  | some idx =>
    match ← inodeRead idx with
    | none => return false
    | some inode => return inode.type == fsTypeDir

def parentExists (path : StrArg m) : m Bool := do
  let parent ← fsGetParent path fun _ _ => pure ()
  fsIsdir (StrArg.ofBytes parent)

/-! ## Directories -/

def fsMkdir (path : StrArg m) : m Bool := do
  if (← fsFind path).isSome then return false
  if !(← parentExists path) then return false
  match ← freeInode with
  | none => return false
  | some idx =>
    let inode ← newInode path fsTypeDir
    inodeWrite idx inode

/-- the scan of `fs_rmdir`: is no other live inode a child of `path`? -/
def noChildLoop (path : StrArg m) (idx : ℕ) : List ℕ → m Bool
  | [] => return true
  | i :: is => do
    if i = idx then noChildLoop path idx is
    else
      match ← inodeRead i with
      | none => noChildLoop path idx is
      | some child =>
        if child.type = fsTypeFree then noChildLoop path idx is
        else
          let parent ← fsGetParent (StrArg.ofBytes child.name.toList) fun _ _ => pure ()
          if ← strEq (StrArg.ofBytes parent) path then return false
          else noChildLoop path idx is

def fsRmdir (path : StrArg m) : m Bool := do
  if ← strEq path (StrArg.ofBytes [slash]) then return false
  match ← fsFind path with
  | none => return false
  | some idx =>
    match ← inodeRead idx with
    | none => return false
    | some inode =>
      if inode.type ≠ fsTypeDir then return false
      if !(← noChildLoop path idx (List.range fsMaxInodes)) then return false
      inodeWrite idx Inode.zero

def fsDelete (path : StrArg m) : m Bool := do
  match ← fsFind path with
  | none => return false
  | some idx =>
    match ← inodeRead idx with
    | none => return false
    | some inode =>
      if inode.type = fsTypeDir then return false
      if inode.blockCount ≠ 0 then
        bmClrRun (sub32 inode.startBlock.toNat fsDataStart) inode.blockCount.toNat
      inodeWrite idx Inode.zero

/-- how `fs_rrmdr` removes one child -/
def removeChild (rrmdr : StrArg m → m Bool) (child : Inode) : m Bool :=
  if child.type = fsTypeDir then rrmdr (StrArg.ofBytes child.name.toList)
  else fsDelete (StrArg.ofBytes child.name.toList)

/-- the loop of `fs_rrmdr` over the children of `path`; `rrmdr` is the recursive call -/
def rrmdrLoop (rrmdr : StrArg m → m Bool) (path : StrArg m) (idx : ℕ) : List ℕ → m Bool
  | [] => return true
  | i :: is => do
    if i = idx then rrmdrLoop rrmdr path idx is
    else
      match ← inodeRead i with
      | none => rrmdrLoop rrmdr path idx is
      | some child =>
        if child.type = fsTypeFree then rrmdrLoop rrmdr path idx is
        else
          let parent ← fsGetParent (StrArg.ofBytes child.name.toList) fun _ _ => pure ()
          if !(← strEq (StrArg.ofBytes parent) path) then rrmdrLoop rrmdr path idx is
          else
            if !(← removeChild rrmdr child) then return false
            rrmdrLoop rrmdr path idx is

/-- `fs_rrmdr` with at most `depth` levels of recursion -/
def fsRrmdrDepth : ℕ → StrArg m → m Bool
  | 0, _ => return false
  | depth + 1, path => do
    if ← strEq path (StrArg.ofBytes [slash]) then return false
    match ← fsFind path with
    | none => return false
    | some idx =>
      match ← inodeRead idx with
      | none => return false
      | some inode =>
        if inode.type ≠ fsTypeDir then return false
        if !(← rrmdrLoop (fsRrmdrDepth depth) path idx (List.range fsMaxInodes)) then return false
        inodeWrite idx Inode.zero

/-- `fs_rrmdr`. A child's stored name is longer than its parent's and has at most 128 bytes, so 130 levels are never
used up: `Filesys/Remove` proves that a larger depth changes nothing. -/
def fsRrmdr (path : StrArg m) : m Bool := fsRrmdrDepth 130 path

/-! ## Descriptors -/

/-- the entry a descriptor number names -/
def fdSlot (fd : ℤ) : Option (Fin 8) := if h : 0 ≤ fd ∧ fd < 8 then some ⟨fd.toNat, by omega⟩ else none

def setFd (fd : Fin 8) (e : Fd) : m Unit := modifyFs fun s => { s with fds := Function.update s.fds fd e }

def fsOpen (path : StrArg m) (create : Bool) : m (Option (Fin 8)) := do
  let s ← getFs
  match (List.finRange 8).find? fun i => (s.fds i).inodeIdx.isNone with
  | none => return none
  | some fd =>
    match ← fsFind path with
    | none =>
      if !create then return none
      if !(← parentExists path) then return none
      match ← freeInode with
      | none => return none
      | some idx =>
        let inode ← newInode path fsTypeFile
        if !(← inodeWrite idx inode) then return none
        setFd fd ⟨some idx, 0⟩
        return some fd
    | some idx =>
      match ← inodeRead idx with
      | none => return none
      | some tmp =>
        if tmp.type = fsTypeDir then return none
        setFd fd ⟨some idx, 0⟩
        return some fd

def fsClose (fd : ℤ) : m Unit := do
  match fdSlot fd with
  | none => return ()
  | some fd => modifyFs fun s => { s with fds := Function.update s.fds fd ⟨none, (s.fds fd).offset⟩ }

/-- the transfer loop of `fs_read`, `done` bytes delivered so far -/
def readLoop (out : ℕ → List UInt8 → m Unit) (start off len done : ℕ) : m (Option (List UInt8)) := do
  if done < len then
    let pos := u32 (off + done)
    let so := pos % 512
    let tc := min (512 - so) (len - done)
    match ← ataReadSector (u32 (start + pos / 512)) with
    | none => return none
    | some sb =>
      let bytes := (List.range tc).map fun k => sb.byte (so + k)
      out done bytes
      match ← readLoop out start off len (done + tc) with
      | none => return none
      | some rest => return some (bytes ++ rest)
  else
    return some []
termination_by len - done

def fsRead (out : ℕ → List UInt8 → m Unit) (fd : ℤ) (len : ℕ) : m (Option (List UInt8)) := do
  match fdSlot fd with
  | none => return none
  | some fd =>
    let s ← getFs
    match (s.fds fd).inodeIdx with
    | none => return none
    | some idx =>
      match ← inodeRead idx with
      | none => return none
      | some inode =>
        let offset := (s.fds fd).offset.toNat
        if offset ≥ inode.size.toNat then return some []
        let len := min len (inode.size.toNat - offset)
        if len = 0 then return some []
        match ← readLoop out inode.startBlock.toNat offset len 0 with
        | none => return none
        | some bytes =>
          setFd fd ⟨some idx, UInt32.ofNat (offset + len)⟩
          return some bytes

/-- the copy loop of a growing file, `n` sectors to go -/
def copySectors (src dst : ℕ) : ℕ → ℕ → m Bool
  | 0, _ => return true
  | n + 1, k => do
    match ← ataReadSector (u32 (src + k)) with
    | none => return false
    | some sb =>
      if !(← ataWriteSector (u32 (dst + k)) sb) then return false
      copySectors src dst n (k + 1)

/-- the sector buffer that a chunk is copied into; a whole-sector chunk overwrites `sb` without reading the sector -/
def sectorBase (lba so tc : ℕ) (sb : Sector) : m (Option Sector) :=
  if so ≠ 0 ∨ tc ≠ 512 then ataReadSector lba else pure (some sb)

/-- the transfer loop of `fs_write` -/
def writeLoop (inp : ℕ → ℕ → m (List UInt8)) (start off len done : ℕ) (sb : Sector) : m Bool := do
  if done < len then
    let pos := u32 (off + done)
    let so := pos % 512
    let tc := min (512 - so) (len - done)
    let lba := u32 (start + pos / 512)
    match ← sectorBase lba so tc sb with
    | none => return false
    | some base =>
      let bytes ← inp done tc
      let sb := base.patch so tc fun k => bytes.getD k 0
      if !(← ataWriteSector lba sb) then return false
      writeLoop inp start off len (done + tc) sb
  else
    return true
termination_by len - done

/-- the allocation part of `fs_write`: the inode with room for `need` sectors, or `none` if there is none -/
def growInode (inode : Inode) (need : ℕ) : m (Option Inode) := do
  if inode.blockCount = 0 then
    match ← bmAlloc need with
    | none => return none
    | some rel => return some { inode with startBlock := UInt32.ofNat (fsDataStart + rel), blockCount := UInt32.ofNat need }
  else
    match ← bmAlloc need with
    | none => return none
    | some rel =>
      if !(← copySectors inode.startBlock.toNat (fsDataStart + rel) inode.blockCount.toNat 0) then
        bmClrRun rel need
        return none
      bmClrRun (sub32 inode.startBlock.toNat fsDataStart) inode.blockCount.toNat
      return some { inode with startBlock := UInt32.ofNat (fsDataStart + rel), blockCount := UInt32.ofNat need }

/-- the data part of `fs_write`: the transfer, then the descriptor's offset and the file's size -/
def putData (inp : ℕ → ℕ → m (List UInt8)) (fd : Fin 8) (idx : ℕ) (offset len : ℕ) (inode : Inode) :
    m (Option ℕ) := do
  if !(← writeLoop inp inode.startBlock.toNat offset len 0 fun _ => 0) then return none
  let offset := UInt32.ofNat (offset + len)
  setFd fd ⟨some idx, offset⟩
  let inode := if offset > inode.size then { inode with size := offset } else inode
  let _ ← inodeWrite idx inode
  return some len

def fsWrite (inp : ℕ → ℕ → m (List UInt8)) (fd : ℤ) (len : ℕ) : m (Option ℕ) := do
  match fdSlot fd with
  | none => return none
  | some fd =>
    let s ← getFs
    match (s.fds fd).inodeIdx with
    | none => return none
    | some idx =>
      if len = 0 then return some 0
      match ← inodeRead idx with
      | none => return none
      | some inode =>
        let offset := (s.fds fd).offset
        let need := u32 (u32 (offset.toNat + len) + 511) / 512
        if need > inode.blockCount.toNat then
          match ← growInode inode need with
          | none => return none
          | some inode =>
            if !(← inodeWrite idx inode) then
              setFd fd ⟨none, offset⟩
              return none
            putData inp fd idx offset.toNat len inode
        else
          putData inp fd idx offset.toNat len inode

/-! ## Mounting -/

/-- the bitmap rebuild of `fs_init` -/
def rebuildLoop : List ℕ → m Unit
  | [] => return ()
  | i :: is => do
    match ← inodeRead i with
    | none => rebuildLoop is
    | some inode =>
      if inode.type = fsTypeFree ∨ inode.blockCount = 0 then rebuildLoop is
      else
        bmSetRun (sub32 inode.startBlock.toNat fsDataStart) inode.blockCount.toNat
        rebuildLoop is

/-- zeroing of the inode sectors when formatting -/
def zeroSectors : List ℕ → m Bool
  | [] => return true
  | i :: is => do
    if !(← ataWriteSector (fsInodeStart + i) fun _ => 0) then return false
    zeroSectors is

/-- the superblock a format writes: magic, version, inode count, data start, data sectors -/
def freshSuper : Sector :=
  let words : List UInt32 := [fsMagic, 1, 512, 428, 7764]
  fun i => if i.val < 20 then byteOf (words.getD (i.val / 4) 0) (i.val % 4) else 0

def rootInode : Inode :=
  { Inode.zero with name := Vector.ofFn fun i : Fin 128 => if i.val = 0 then slash else 0, type := fsTypeDir }

def fsInit : m Bool := do
  modifyFs fun s => { s with fds := fun i => ⟨none, (s.fds i).offset⟩ }
  match ← ataReadSector fsSuperSector with
  | none => return false
  | some sb =>
    if sb.word 0 ≠ fsMagic then
      if !(← ataWriteSector fsSuperSector freshSuper) then return false
      if !(← zeroSectors (List.range fsInodeSectors)) then return false
      modifyFs fun s => { s with dataSectorCount := fsTotalSectors - fsDataStart, bitmap := fun _ => false }
      let _ ← inodeWrite 0 rootInode
      return true
    else
      modifyFs fun s => { s with dataSectorCount := (sb.word 16).toNat, bitmap := fun _ => false }
      rebuildLoop (List.range fsMaxInodes)
      return true

end

end GannetOS.Filesys
