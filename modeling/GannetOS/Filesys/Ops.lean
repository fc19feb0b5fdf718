/-
One equation for every operation of `filesys/fs.c`, on a state in which no I/O fails and every inode it uses is well
placed, and the machine whose steps are these operations.

The state changes have names: `create`, `dropDir`, `dropFile` (one inode write each, the last with the bits of the file
released), `setFd`, `grow` (a fresh run allocated, the old sectors copied and released), `store` (the transfer, the
descriptor's offset and the size) and `remount`.
-/
import GannetOS.Filesys.Transfer

namespace GannetOS.Filesys

open GannetOS.Core

/-- the inode's sectors lie in the data area -/
def Inode.InData (x : Inode) : Prop :=
  x.blockCount.toNat ≠ 0 → 428 ≤ x.startBlock.toNat ∧ x.startBlock.toNat + x.blockCount.toNat ≤ 8192

/-- the inode's sectors lie in the data area, and its size within its sectors -/
structure Inode.Placed (x : Inode) : Prop where
  range : x.InData
  size : x.size.toNat ≤ 512 * x.blockCount.toNat

theorem Inode.Placed.start_lt {x : Inode} (h : x.Placed) (hsize : x.size.toNat ≠ 0) : x.startBlock.toNat < 8192 := by
  have hle := h.size
  have hend := (h.range (by omega)).2
  omega

/-- the inode after the file got `need` sectors at bit `rel` -/
def Inode.moved (x : Inode) (rel need : ℕ) : Inode :=
  { x with startBlock := UInt32.ofNat (428 + rel), blockCount := UInt32.ofNat need }

/-- the inode after a write that ended at offset `n` -/
def Inode.sized (x : Inode) (n : UInt32) : Inode := if n > x.size then { x with size := n } else x

namespace FsState

/-- a new inode for the path `p` in slot `i` -/
def create (s : FsState) (i : ℕ) (p : List UInt8) (type : UInt8) : FsState := s.setInode i (Inode.fresh p type)

def dropDir (s : FsState) (i : ℕ) : FsState := s.setInode i Inode.zero

def dropFile (s : FsState) (i : ℕ) : FsState :=
  { s with bitmap := mark s.bitmap (s.inode i).extent false }.setInode i Inode.zero

def setFd (s : FsState) (fd : Fin 8) (e : Fd) : FsState := { s with fds := Function.update s.fds fd e }

/-- the first closed descriptor -/
def freeFd (s : FsState) : Option (Fin 8) := (List.finRange 8).find? fun i => (s.fds i).inodeIdx.isNone

/-- `need` sectors at bit `rel` taken for the file `x`, its data copied there, its old sectors released -/
def grow (s : FsState) (x : Inode) (rel need : ℕ) : FsState :=
  { s with
    disk := copyRun s.disk x.startBlock.toNat (428 + rel) x.blockCount.toNat
    bitmap := mark (mark s.bitmap ⟨rel, need⟩ true) x.extent false }

/-- `data` written through descriptor `fd` to the file `x` in slot `idx` -/
def store (s : FsState) (fd : Fin 8) (idx : ℕ) (x : Inode) (off : ℕ) (data : List UInt8) : FsState :=
  { s with
    disk := putBytes s.disk x.startBlock.toNat off data.length fun k => data.getD k 0
    fds := Function.update s.fds fd ⟨some idx, UInt32.ofNat (off + data.length)⟩ }.setInode idx
      (x.sized (UInt32.ofNat (off + data.length)))

/-- bit `b` of the bitmap that `fs_init` builds from the disk -/
def rebuilt (s : FsState) (b : ℕ) : Bool :=
  (List.range 512).any fun i => (s.inode i).type ≠ 0 ∧ b ∈ (s.inode i).extent

theorem rebuilt_iff {s : FsState} {b : ℕ} : s.rebuilt b = true ↔ ∃ i, s.live i ∧ b ∈ (s.inode i).extent := by
  simp only [rebuilt, List.any_eq_true, List.mem_range, decide_eq_true_eq, live]
  constructor
  · rintro ⟨i, hi, ht, hb⟩
    exact ⟨i, ⟨hi, ht⟩, hb⟩
  · rintro ⟨i, ⟨hi, ht⟩, hb⟩
    exact ⟨i, hi, ht, hb⟩

attribute [irreducible] rebuilt

/-- the state after mounting a formatted disk -/
def remount (s : FsState) : FsState :=
  { s with
    bitmap := s.rebuilt
    dataSectorCount := ((s.disk 256).word 16).toNat
    fds := fun i => ⟨none, (s.fds i).offset⟩ }

end FsState

/-! ## The fields of the changed states -/

namespace FsState

section
variable (s : FsState) (i j idx : ℕ) (p : List UInt8) (type : UInt8) (fd : Fin 8) (e : Fd) (x : Inode)
  (rel need off : ℕ) (data : List UInt8)

@[simp] theorem create_inode : (s.create i p type).inode j = if j = i then Inode.fresh p type else s.inode j :=
  inode_setInode s i j _
@[simp] theorem create_bitmap : (s.create i p type).bitmap = s.bitmap := rfl
@[simp] theorem create_fds : (s.create i p type).fds = s.fds := rfl
@[simp] theorem create_faults : (s.create i p type).faults = s.faults := rfl

@[simp] theorem dropDir_inode : (s.dropDir i).inode j = if j = i then Inode.zero else s.inode j :=
  inode_setInode s i j _

@[simp] theorem dropFile_inode : (s.dropFile i).inode j = if j = i then Inode.zero else s.inode j :=
  inode_setInode _ i j _
@[simp] theorem dropFile_bitmap : (s.dropFile i).bitmap = mark s.bitmap (s.inode i).extent false := rfl
@[simp] theorem dropFile_fds : (s.dropFile i).fds = s.fds := rfl

@[simp] theorem setFd_inode : (s.setFd fd e).inode j = s.inode j := rfl
@[simp] theorem setFd_bitmap : (s.setFd fd e).bitmap = s.bitmap := rfl
@[simp] theorem setFd_fds : (s.setFd fd e).fds = Function.update s.fds fd e := rfl

@[simp] theorem setFd_find (p : List UInt8) : (s.setFd fd e).find p = s.find p :=
  find_congr (s := s) (t := s.setFd fd e) (fun _ => rfl) p

@[simp] theorem grow_bitmap : (s.grow x rel need).bitmap = mark (mark s.bitmap ⟨rel, need⟩ true) x.extent false := rfl

@[simp] theorem store_bitmap : (s.store fd idx x off data).bitmap = s.bitmap := rfl
@[simp] theorem store_fds : (s.store fd idx x off data).fds =
    Function.update s.fds fd ⟨some idx, UInt32.ofNat (off + data.length)⟩ := rfl

@[simp] theorem remount_bitmap : s.remount.bitmap = s.rebuilt := rfl

/-- a path shorter than 128 bytes is stored as it is -/
theorem create_nameAt (p : CStr) (hp : p.bytes.length < 128) : (s.create i p.bytes type).nameAt i = p.bytes := by
  rw [nameAt, create_inode, if_pos rfl, Inode.fresh_name p.nulFree, List.take_of_length_le (by omega)]

/-- moving a file's data leaves the inode table alone -/
theorem grow_inode (hj : j < 512) : (s.grow x rel need).inode j = s.inode j := by
  unfold inode grow
  simp only
  rw [copyRun_out _ (by omega)]

/-- a write changes one inode: the one written through -/
theorem store_inode (hj : j < 512) (hs : 428 ≤ x.startBlock.toNat) :
    (s.store fd idx x off data).inode j =
      if j = idx then x.sized (UInt32.ofNat (off + data.length)) else s.inode j := by
  unfold store
  rw [inode_setInode]
  unfold inode
  simp only
  rw [putBytes_out _ _ (by omega)]

variable {lba : ℕ}

/-- outside the inode table a write is the transfer alone -/
theorem store_disk (hi : idx < 512) (hl : lba ≤ 256 ∨ 428 ≤ lba) :
    (s.store fd idx x off data).disk lba =
      putBytes s.disk x.startBlock.toNat off data.length (fun k => data.getD k 0) lba :=
  setInode_disk _ idx _ lba hi hl

theorem create_disk (hi : i < 512) (hl : lba ≤ 256 ∨ 428 ≤ lba) :
    (s.create i p type).disk lba = s.disk lba := setInode_disk _ i _ lba hi hl

theorem dropDir_disk (hi : i < 512) (hl : lba ≤ 256 ∨ 428 ≤ lba) :
    (s.dropDir i).disk lba = s.disk lba := setInode_disk _ i _ lba hi hl

theorem dropFile_disk (hi : i < 512) (hl : lba ≤ 256 ∨ 428 ≤ lba) :
    (s.dropFile i).disk lba = s.disk lba := setInode_disk _ i _ lba hi hl

end

end FsState

/-! ## Namespace operations -/

theorem newInode_run (s : FsState) (p : CStr) (type : UInt8) :
    (newInode p.arg type : StateM FsState _) s = (Inode.fresh p.bytes type, s) := by
  unfold newInode CStr.arg
  rw [strCopy_eq, pure_bind, cstr_of_nulFree p.nulFree]
  rfl

section
variable {s : FsState} (h : s.faults = [])
include h

theorem fsMkdir_run (p : CStr) :
    (fsMkdir p.arg : StateM FsState _) s =
      if (s.find p.bytes).isSome ∨ s.isdir (parentOf p.bytes) = false then (false, s)
      else match s.freeSlot with
        | none => (false, s)
        | some i => (true, s.create i p.bytes fsTypeDir) := by
  have hfind := fsFind_run h p.bytes
  have hpar := parentExists_run h p.bytes
  rw [cstr_of_nulFree p.nulFree] at hfind hpar
  have hnew := newInode_run s p fsTypeDir
  unfold fsMkdir CStr.arg at *
  rw [run_bind hfind]
  by_cases h1 : (s.find p.bytes).isSome
  · simp [h1]
  · rw [ite_run, if_neg h1, run_bind hpar]
    by_cases h2 : s.isdir (parentOf p.bytes) = true
    · rw [ite_run, if_neg (by simp [h2]), run_bind (freeInode_run h), if_neg (by simp [h1, h2])]
      cases hfree : s.freeSlot with
      | none => rfl
      | some i =>
        simp only
        rw [run_bind hnew]
        exact inodeWrite_run h (FsState.freeSlot_some hfree).1 _
    · simp [h2]

theorem fsRmdir_run (p : CStr) :
    (fsRmdir p.arg : StateM FsState _) s =
      if p.bytes = [slash] then (false, s)
      else match s.find p.bytes with
        | none => (false, s)
        | some i =>
          if (s.inode i).type = fsTypeDir ∧ s.noChild p.bytes i = true then (true, s.dropDir i) else (false, s) := by
  have hroot : cstr [slash] = [slash] := by decide
  have hfind := fsFind_run h p.bytes
  rw [cstr_of_nulFree p.nulFree] at hfind
  unfold fsRmdir CStr.arg
  rw [strEq_eq, pure_bind, cstr_of_nulFree p.nulFree, hroot, ite_run, run_bind hfind]
  by_cases h1 : p.bytes = [slash]
  · simp [h1]
  · rw [if_neg (by simpa using h1), if_neg h1]
    cases hf : s.find p.bytes with
    | none => rfl
    | some i =>
      have hi := (FsState.find_some hf).1.1
      have hchild := noChildLoop_run h p.bytes i (List.range 512) fun _ => List.mem_range.1
      rw [cstr_of_nulFree p.nulFree, ← FsState.noChild] at hchild
      simp only
      rw [run_bind (inodeRead_some h hi)]
      by_cases h2 : (s.inode i).type = fsTypeDir
      · simp only [ite_run]
        rw [if_neg (not_not.2 h2), run_bind hchild]
        by_cases h3 : s.noChild p.bytes i = true
        · rw [ite_run, if_neg (by simp [h3]), if_pos ⟨h2, h3⟩]
          exact inodeWrite_run h hi _
        · simp [h3]
      · simp [h2]

/-- `fs_delete` of a file whose sectors are well placed -/
theorem fsDelete_run (p : List UInt8) (hp : ∀ i, s.live i → (s.inode i).InData) :
    (fsDelete (StrArg.ofBytes p) : StateM FsState _) s =
      match s.find (cstr p) with
      | none => (false, s)
      | some i => if (s.inode i).type = fsTypeDir then (false, s) else (true, s.dropFile i) := by
  unfold fsDelete
  rw [run_bind (fsFind_run h p)]
  cases hf : s.find (cstr p) with
  | none => rfl
  | some i =>
    have hl := (FsState.find_some hf).1
    simp only
    rw [run_bind (inodeRead_some h hl.1)]
    by_cases h1 : (s.inode i).type = fsTypeDir
    · simp [h1]
    · simp only [ite_run, if_neg h1]
      by_cases h2 : (s.inode i).blockCount = 0
      · have hempty : mark s.bitmap (s.inode i).extent false = s.bitmap := by
          rw [Inode.extent_of_zero h2]
          exact mark_zero _ _ _
        rw [if_neg (not_not.2 h2), inodeWrite_run h hl.1, FsState.dropFile, hempty]
      · have hb := hp i hl fun h0 => h2 (UInt32.toNat_inj.1 h0)
        rw [if_pos h2, run_bind (bmClrRun_extent s _ hb.1 (hb.2.trans (by decide)))]
        exact inodeWrite_run (by simpa using h) hl.1 _

theorem fsOpen_run (p : CStr) (create : Bool) :
    (fsOpen p.arg create : StateM FsState _) s =
      match s.freeFd with
      | none => (none, s)
      | some fd =>
        match s.find p.bytes with
        | some i => if (s.inode i).type = fsTypeDir then (none, s) else (some fd, s.setFd fd ⟨some i, 0⟩)
        | none =>
          if create = false ∨ s.isdir (parentOf p.bytes) = false then (none, s)
          else match s.freeSlot with
            | none => (none, s)
            | some i => (some fd, (s.create i p.bytes fsTypeFile).setFd fd ⟨some i, 0⟩) := by
  have hget : (getFs : StateM FsState _) s = (s, s) := rfl
  have hfind := fsFind_run h p.bytes
  have hpar := parentExists_run h p.bytes
  rw [cstr_of_nulFree p.nulFree] at hfind hpar
  have hnew := newInode_run s p fsTypeFile
  unfold fsOpen CStr.arg at *
  rw [run_bind hget, ← FsState.freeFd]
  cases hfd : s.freeFd with
  | none => rfl
  | some fd =>
    simp only
    rw [run_bind hfind]
    cases hf : s.find p.bytes with
    | some i =>
      simp only
      rw [run_bind (inodeRead_some h (FsState.find_some hf).1.1)]
      simp only [ite_run]
      by_cases h1 : (s.inode i).type = fsTypeDir
      · rfl
      · rfl
    | none =>
      simp only
      cases create with
      | false => simp
      | true =>
        rw [ite_run, if_neg (by simp), run_bind hpar]
        by_cases h2 : s.isdir (parentOf p.bytes) = true
        · rw [ite_run, if_neg (by simp [h2]), run_bind (freeInode_run h), if_neg (by simp [h2])]
          cases hfree : s.freeSlot with
          | none => rfl
          | some i =>
            simp only
            rw [run_bind hnew, run_bind (inodeWrite_run h (FsState.freeSlot_some hfree).1 _)]
            rfl
        · simp [h2]

end

theorem fsClose_run (s : FsState) (fd : ℤ) :
    (fsClose fd : StateM FsState _) s = ((), match fdSlot fd with
      | none => s
      | some fd => s.setFd fd ⟨none, (s.fds fd).offset⟩) := by
  unfold fsClose
  cases fdSlot fd <;> rfl

/-! ## Reading and writing -/

namespace FsState

/-- the descriptor's state is already `e` -/
theorem setFd_self (s : FsState) (fd : Fin 8) : s.setFd fd (s.fds fd) = s := by
  simp [setFd]

/-- the inode written between allocation and transfer is overwritten at the end of `fs_write` -/
theorem setInode_setInode (s : FsState) (i : ℕ) (x y : Inode) : (s.setInode i x).setInode i y = s.setInode i y := by
  simp only [setInode, Function.update_self, Function.update_idem]
  congr 2
  funext k
  simp only [Sector.patch]
  split_ifs <;> rfl

/-- data at or above sector 428 and the inode table do not overlap -/
theorem putBytes_setInode (s : FsState) (i : ℕ) (x : Inode) (hi : i < 512) {start : ℕ} (hs : 428 ≤ start) (off n : ℕ)
    (src : ℕ → UInt8) :
    putBytes (s.setInode i x).disk start off n src =
      ({ s with disk := putBytes s.disk start off n src }.setInode i x).disk := by
  have hsame : putBytes s.disk start off n src (257 + i / 3) = s.disk (257 + i / 3) := putBytes_out _ _ (by omega)
  funext lba
  simp only [setInode, hsame]
  by_cases hl : lba = 257 + i / 3
  · subst hl
    rw [Function.update_self, putBytes_out _ _ (by omega), Function.update_self]
  · funext k
    simp only [putBytes, Function.update_of_ne hl]

theorem store_setInode (s : FsState) (fd : Fin 8) (idx : ℕ) (x y : Inode) (off : ℕ) (data : List UInt8) (hi : idx < 512)
    (hs : 428 ≤ x.startBlock.toNat) : (s.setInode idx y).store fd idx x off data = s.store fd idx x off data := by
  unfold store
  rw [putBytes_setInode s idx y hi hs]
  exact setInode_setInode { s with disk := putBytes _ _ _ _ _, fds := Function.update _ _ _ } idx y _

end FsState

/-- the sectors a write that ends at offset `n` needs -/
def sectorsFor (n : ℕ) : ℕ := (n + 511) / 512

theorem toNat_ofNat32 {n : ℕ} (h : n < 4294967296) : (UInt32.ofNat n).toNat = n := UInt32.toNat_ofNat_of_lt' h

theorem moved_start (x : Inode) {rel need : ℕ} (h : rel + need ≤ 7764) :
    (x.moved rel need).startBlock.toNat = 428 + rel := toNat_ofNat32 (by omega)

theorem moved_count (x : Inode) {rel need : ℕ} (h : rel + need ≤ 7764) :
    (x.moved rel need).blockCount.toNat = need := toNat_ofNat32 (by omega)

section
variable {s : FsState} (h : s.faults = [])
include h

variable {idx : ℕ} {x : Inode}

/-- `fs_read` through an open descriptor on an inode that is empty or starts on the disk -/
theorem fsRead_run {fd : ℤ} {k : Fin 8} (hfd : fdSlot fd = some k) (hk : (s.fds k).inodeIdx = some idx)
    (hi : idx < 512) (hx : (s.inode idx).size.toNat ≠ 0 → (s.inode idx).startBlock.toNat < 8192) (len : ℕ) :
    (fsRead (fun _ _ => pure ()) fd len : StateM FsState _) s =
      (let x := s.inode idx
       let off := (s.fds k).offset.toNat
       let n := min len (x.size.toNat - off)
       (some (dataBytes s.disk x.startBlock.toNat off n), s.setFd k ⟨some idx, UInt32.ofNat (off + n)⟩)) := by
  have hget : (getFs : StateM FsState _) s = (s, s) := rfl
  have hsame : s.setFd k ⟨some idx, UInt32.ofNat ((s.fds k).offset.toNat + 0)⟩ = s := by
    have he : (⟨some idx, UInt32.ofNat ((s.fds k).offset.toNat + 0)⟩ : Fd) = s.fds k := by
      rw [Nat.add_zero, UInt32.ofNat_toNat, ← hk]
    rw [he, FsState.setFd_self]
  unfold fsRead
  rw [hfd]
  simp only
  rw [run_bind hget, hk]
  simp only
  rw [run_bind (inodeRead_some h hi)]
  simp only [ite_run]
  by_cases h1 : (s.fds k).offset.toNat ≥ (s.inode idx).size.toNat
  · rw [if_pos h1, Nat.sub_eq_zero_of_le h1, Nat.min_zero, hsame]
    rfl
  · rw [if_neg h1]
    set n := min len ((s.inode idx).size.toNat - (s.fds k).offset.toNat) with hn
    by_cases h2 : n = 0
    · rw [if_pos h2, h2, hsame]
      rfl
    · have hsize := (s.inode idx).size.toNat_lt
      have hread := readLoop_run h (s.inode idx).startBlock.toNat (s.fds k).offset.toNat n (by omega) (hx (by omega)) 0
        (by omega)
      rw [if_neg h2, run_bind hread]
      rfl

theorem copySectors_fresh (hx : x.Placed) {rel need : ℕ} (hneed : x.blockCount.toNat < need)
    (hrel : rel + need ≤ 7764) (hfree : ∀ b ∈ (⟨rel, need⟩ : Extent), b ∉ x.extent) :
    (copySectors x.startBlock.toNat (428 + rel) x.blockCount.toNat 0 : StateM FsState _) s =
      (true, { s with disk := copyRun s.disk x.startBlock.toNat (428 + rel) x.blockCount.toNat }) := by
  rcases Nat.eq_zero_or_pos x.blockCount.toNat with h0 | hpos
  · rw [h0, copyRun_zero]
    rfl
  · have hr := hx.range (by omega)
    have hdis : ∀ i < x.blockCount.toNat, ∀ j < x.blockCount.toNat, x.startBlock.toNat + i ≠ 428 + rel + j := by
      intro i hi j hj heq
      -- a sector in both runs would be a free bit that belongs to the file
      have hnew : rel + j ∈ (⟨rel, need⟩ : Extent) := Extent.mem_def.2 ⟨by simp, by simp; omega⟩
      exact hfree _ hnew (Inode.mem_extent.2 (by omega))
    have hcopy := copySectors_run h hr.2 (by omega) hdis x.blockCount.toNat 0 (by omega)
    rwa [Nat.add_zero, Nat.add_zero] at hcopy

/-- the allocation part of `fs_write`: first fit, with the file's data moved to the new run -/
theorem growInode_run (hx : x.Placed) {need : ℕ} (hneed : x.blockCount.toNat < need) (hd : s.dataSectorCount = 7764)
    (hmark : ∀ b ∈ x.extent, s.bitmap b = true) :
    (growInode x need : StateM FsState _) s =
      match firstFit s.bitmap s.dataSectorCount need with
      | none => (none, s)
      | some rel => (some (x.moved rel need), s.grow x rel need) := by
  have halloc := bmAlloc_run s need (by omega)
  unfold growInode
  cases hf : firstFit s.bitmap s.dataSectorCount need with
  | none =>
    simp only [hf] at halloc
    rw [ite_run, run_bind halloc, run_bind halloc]
    simp
  | some rel =>
    simp only [hf] at halloc
    rw [ite_run, run_bind halloc, run_bind halloc]
    obtain ⟨hrel, hclear⟩ := firstFit_sound hf
    have hfresh : ∀ b ∈ (⟨rel, need⟩ : Extent), b ∉ x.extent := by
      intro b hb hbx
      have := hmark b hbx
      rw [hclear b hb] at this
      exact Bool.false_ne_true this
    by_cases h0 : x.blockCount = 0
    · have hc : x.blockCount.toNat = 0 := by rw [h0]; rfl
      have hgrow : s.grow x rel need = { s with bitmap := mark s.bitmap ⟨rel, need⟩ true } := by
        unfold FsState.grow
        rw [Inode.extent_of_zero h0, hc, mark_zero, copyRun_zero]
      simp only
      rw [if_pos h0, hgrow]
      rfl
    · have hr := hx.range fun hc => h0 (UInt32.toNat_inj.1 hc)
      have hcopy := copySectors_fresh (s := { s with bitmap := mark s.bitmap ⟨rel, need⟩ true }) h hx hneed
        (by omega) hfresh
      simp only
      rw [if_neg h0, show fsDataStart = 428 from rfl, run_bind hcopy]
      simp only [Bool.not_true, Bool.false_eq_true, if_false]
      rw [run_bind (bmClrRun_extent _ x hr.1 (hr.2.trans (by decide)))]
      rfl

theorem putData_run (hs : x.startBlock.toNat < 8192) (hi : idx < 512) (fd : Fin 8) (off : ℕ) (data : List UInt8)
    (hlen : off + data.length < 4294967296) :
    (putData (fun o n => pure ((data.drop o).take n)) fd idx off data.length x : StateM FsState _) s =
      (some data.length, s.store fd idx x off data) := by
  have hw := writeLoop_run h data hlen hs 0 (by omega) fun _ => 0
  unfold putData
  rw [run_bind hw]
  simp only [Bool.not_true, Bool.false_eq_true, if_false]
  have hset : ∀ t : FsState, (setFd fd ⟨some idx, UInt32.ofNat (off + data.length)⟩ : StateM FsState _) t =
      ((), t.setFd fd ⟨some idx, UInt32.ofNat (off + data.length)⟩) := fun t => rfl
  rw [run_bind (hset _), run_bind (inodeWrite_run (by simpa [FsState.setFd] using h) hi _)]
  simp only [FsState.store, FsState.setFd, Inode.sized, Nat.add_zero, Nat.zero_add, Nat.sub_zero]
  rfl

/-- `fs_write` of a non-empty buffer through an open descriptor on a well-placed inode with marked sectors -/
theorem fsWrite_run {fd : ℤ} {k : Fin 8} (hfd : fdSlot fd = some k) (hk : (s.fds k).inodeIdx = some idx)
    (hi : idx < 512) (hx : (s.inode idx).Placed) (hd : s.dataSectorCount = 7764)
    (hmark : ∀ b ∈ (s.inode idx).extent, s.bitmap b = true) {data : List UInt8} (hne : data ≠ [])
    (hlen : (s.fds k).offset.toNat + data.length + 511 < 4294967296) :
    (fsWrite (fun o n => pure ((data.drop o).take n)) fd data.length : StateM FsState _) s =
      (let x := s.inode idx
       let off := (s.fds k).offset.toNat
       let need := sectorsFor (off + data.length)
       if need ≤ x.blockCount.toNat then (some data.length, s.store k idx x off data)
       else match firstFit s.bitmap s.dataSectorCount need with
         | none => (none, s)
         | some rel => (some data.length, (s.grow x rel need).store k idx (x.moved rel need) off data)) := by
  have hget : (getFs : StateM FsState _) s = (s, s) := rfl
  have hlen0 : 0 < data.length := List.length_pos_iff.2 hne
  have hneed : u32 (u32 ((s.fds k).offset.toNat + data.length) + 511) / 512 =
      sectorsFor ((s.fds k).offset.toNat + data.length) := by
    rw [u32_of_lt (n := (s.fds k).offset.toNat + data.length) (by omega), u32_of_lt (by omega), sectorsFor]
  have hpos : 0 < sectorsFor ((s.fds k).offset.toNat + data.length) := by
    unfold sectorsFor
    omega
  unfold fsWrite
  rw [hfd]
  simp only
  rw [run_bind hget, hk]
  simp only
  rw [ite_run, if_neg (by omega), run_bind (inodeRead_some h hi)]
  simp only [hneed, ite_run]
  by_cases hfit : sectorsFor ((s.fds k).offset.toNat + data.length) ≤ (s.inode idx).blockCount.toNat
  · have hr := hx.range (by omega)
    rw [if_neg (by omega), if_pos hfit]
    exact putData_run h (by omega) hi k _ data (by omega)
  · have hgrow := growInode_run h hx (by omega : _ < sectorsFor ((s.fds k).offset.toNat + data.length)) hd hmark
    rw [if_pos (by omega), if_neg hfit, run_bind hgrow]
    cases hf : firstFit s.bitmap s.dataSectorCount (sectorsFor ((s.fds k).offset.toNat + data.length)) with
    | none => rfl
    | some rel =>
      have hrel := (firstFit_sound hf).1
      have hstart : ((s.inode idx).moved rel _).startBlock.toNat = 428 + rel := moved_start _ (by rw [← hd]; exact hrel)
      have hgf : ∀ x n, (s.grow x rel n).faults = [] := fun _ _ => h
      simp only
      rw [run_bind (inodeWrite_run (hgf _ _) hi _)]
      simp only [Bool.not_true, Bool.false_eq_true, if_false]
      rw [putData_run (by rw [FsState.setInode_faults]; exact hgf _ _) (by omega) hi k _ data (by omega),
        FsState.store_setInode _ _ _ _ _ _ _ hi (by omega)]

end

end GannetOS.Filesys
