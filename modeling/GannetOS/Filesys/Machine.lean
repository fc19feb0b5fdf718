/-
Mounting (`fs_init`), and the filesystem as a machine whose steps are the calls of `filesys/fs.h`.

`Fresh s` says that `s` is the state after `fs_init` formatted a disk without a superblock, with no I/O failure before or
after. Runs start there.
-/
import GannetOS.Core.Run
import GannetOS.Filesys.Remove

namespace GannetOS.Filesys

open GannetOS.Core

/-! ## Mounting a formatted disk -/

variable {s : FsState}

/-- one round of the rebuild adds the bits of one inode -/
theorem rebuildLoop_run (is : List ℕ) (h : s.faults = []) (his : ∀ i ∈ is, i < 512)
    (hp : ∀ i, s.live i → (s.inode i).InData) :
    (rebuildLoop is : StateM FsState _) s = ((), { s with
      bitmap := fun b => s.bitmap b || is.any fun i => (s.inode i).type ≠ 0 ∧ b ∈ (s.inode i).extent }) := by
  induction is generalizing s with
  | nil => simp [rebuildLoop]
  | cons i is ih =>
    have hi : i < 512 := his i (by simp)
    have his' : ∀ j ∈ is, j < 512 := fun j hj => his j (by simp [hj])
    rw [rebuildLoop, run_bind (inodeRead_some h hi)]
    simp only [ite_run]
    by_cases h1 : (s.inode i).type = 0 ∨ (s.inode i).blockCount = 0
    · have hnone : ∀ b, ¬ ((s.inode i).type ≠ 0 ∧ b ∈ (s.inode i).extent) := by
        rintro b ⟨ht, hb⟩
        rcases h1 with h1 | h1
        · exact ht h1
        · rw [Inode.extent_of_zero h1] at hb
          exact Extent.not_mem_zero _ _ hb
      rw [if_pos h1, ih h his' hp]
      simp only [List.any_cons, decide_eq_false (hnone _), Bool.false_or]
    · obtain ⟨ht, hc⟩ := not_or.1 h1
      have hr := hp i ⟨hi, ht⟩ fun h0 => hc (UInt32.toNat_inj.1 h0)
      have hset := bmSetRun_run s ((s.inode i).startBlock.toNat - 428) (s.inode i).blockCount.toNat (by omega)
      rw [← Inode.extent_eq] at hset
      have hrest := ih (s := { s with bitmap := mark s.bitmap (s.inode i).extent true }) h his' hp
      rw [if_neg h1, show fsDataStart = 428 from rfl, sub32_of_le hr.1 (by omega), run_bind hset, hrest]
      congr 2
      funext b
      have hino : ∀ j, ({ s with bitmap := mark s.bitmap (s.inode i).extent true } : FsState).inode j = s.inode j :=
        fun _ => rfl
      simp only [hino, List.any_cons, mark]
      by_cases hb : b ∈ (s.inode i).extent <;> simp [hb, ht]

theorem fsInit_remount (h : s.faults = []) (hm : (s.disk 256).word 0 = fsMagic)
    (hp : ∀ i, s.live i → (s.inode i).InData) :
    (fsInit : StateM FsState _) s = (true, s.remount) := by
  have hmod : ∀ (f : FsState → FsState) (t : FsState), (modifyFs f : StateM FsState _) t = ((), f t) := fun _ _ => rfl
  -- the state in which the rebuild starts
  let s₁ : FsState :=
    { s with
      bitmap := fun _ => false
      dataSectorCount := ((s.disk 256).word 16).toNat
      fds := fun i => ⟨none, (s.fds i).offset⟩ }
  have hloop := rebuildLoop_run (List.range 512) (s := s₁) h (fun _ => List.mem_range.1) hp
  have hbits : (fun b => s₁.bitmap b || (List.range 512).any fun i => (s₁.inode i).type ≠ 0 ∧ b ∈ (s₁.inode i).extent) =
      s.rebuilt := by
    funext b
    rw [FsState.rebuilt]
    exact Bool.false_or _
  rw [hbits] at hloop
  unfold fsInit
  rw [run_bind (hmod _ _), run_bind (ataReadSector_run (by exact h) _)]
  simp only [ite_run]
  rw [if_neg (not_not.2 hm), run_bind (hmod _ _), run_bind hloop]
  rfl

/-! ## Formatting -/

theorem zeroSectors_run (is : List ℕ) (h : s.faults = []) :
    (zeroSectors is : StateM FsState _) s = (true, { s with
      disk := fun lba => if ∃ i ∈ is, lba = 257 + i then fun _ => 0 else s.disk lba }) := by
  induction is generalizing s with
  | nil => simp [zeroSectors]
  | cons i is ih =>
    rw [zeroSectors, run_bind (ataWriteSector_run h _ _)]
    simp only [Bool.not_true, Bool.false_eq_true, if_false]
    have hrest := ih (s := { s with disk := Function.update s.disk (257 + i) fun _ => 0 }) h
    rw [show fsInodeStart = 257 from rfl, hrest]
    congr 2
    funext lba
    simp only
    by_cases h1 : ∃ j ∈ is, lba = 257 + j
    · rw [if_pos h1, if_pos (by obtain ⟨j, hj, he⟩ := h1; exact ⟨j, by simp [hj], he⟩)]
    · rw [if_neg h1]
      by_cases h2 : lba = 257 + i
      · rw [if_pos ⟨i, by simp, h2⟩, h2, Function.update_self]
      · rw [Function.update_of_ne h2, if_neg]
        rintro ⟨j, hj, he⟩
        rcases List.mem_cons.1 hj with rfl | hj
        · exact h2 he
        · exact h1 ⟨j, hj, he⟩

/-- the state after formatting -/
def FsState.formatted (s : FsState) : FsState :=
  { disk := fun lba => if 257 ≤ lba ∧ lba < 428 then fun _ => 0 else if lba = 256 then freshSuper else s.disk lba
    bitmap := fun _ => false
    dataSectorCount := 7764
    fds := fun i => ⟨none, (s.fds i).offset⟩
    faults := s.faults : FsState }.setInode 0 rootInode

theorem fsInit_format (h : s.faults = []) (hm : (s.disk 256).word 0 ≠ fsMagic) :
    (fsInit : StateM FsState _) s = (true, s.formatted) := by
  have hmod : ∀ (f : FsState → FsState) (t : FsState), (modifyFs f : StateM FsState _) t = ((), f t) := fun _ _ => rfl
  unfold fsInit
  rw [run_bind (hmod _ _), run_bind (ataReadSector_run (by exact h) _)]
  simp only [ite_run]
  rw [if_pos hm, run_bind (ataWriteSector_run (by exact h) _ _)]
  simp only [Bool.not_true, Bool.false_eq_true, if_false]
  rw [run_bind (zeroSectors_run _ (by exact h))]
  simp only [Bool.not_true, Bool.false_eq_true, if_false]
  rw [run_bind (hmod _ _), run_bind (inodeWrite_run (by exact h) (by decide) _)]
  simp only [pure_apply, FsState.formatted]
  congr 3
  funext lba
  have hiff : (∃ i ∈ List.range 171, lba = 257 + i) ↔ 257 ≤ lba ∧ lba < 428 := by
    simp only [List.mem_range]
    exact ⟨fun ⟨i, hi, he⟩ => by omega, fun hl => ⟨lba - 257, by omega, by omega⟩⟩
  simp only [fsInodeSectors, hiff, fsSuperSector]
  by_cases h1 : 257 ≤ lba ∧ lba < 428
  · rw [if_pos h1, if_pos h1]
  · rw [if_neg h1, if_neg h1, Function.update_apply]

theorem Inode.decode_zero (off : ℕ) : Inode.decode (fun _ => 0) off = Inode.zero := by
  have hb : ∀ k, Sector.byte (fun _ => 0) k = 0 := fun k => by unfold Sector.byte; split_ifs <;> rfl
  have hw : ∀ k, Sector.word (fun _ => 0) k = 0 := fun k => by simp only [Sector.word, hb]; rfl
  simp only [decode, zero, hb, hw, Inode.mk.injEq, true_and]
  exact ⟨by ext k hk; simp, by ext k hk; simp⟩

/-- after formatting, slot 0 holds the root directory and every other slot is free -/
theorem formatted_inode (s : FsState) {j : ℕ} (hj : j < 512) :
    s.formatted.inode j = if j = 0 then rootInode else Inode.zero := by
  unfold FsState.formatted
  rw [FsState.inode_setInode]
  unfold FsState.inode
  simp only
  rw [if_pos (by omega : 257 ≤ 257 + j / 3 ∧ 257 + j / 3 < 428), Inode.decode_zero]

/-- only the root directory is in use -/
theorem formatted_live {j : ℕ} (h : s.formatted.live j) : j = 0 := by
  by_contra h0
  have ht := h.2
  rw [formatted_inode s h.1, if_neg h0] at ht
  exact ht rfl

theorem formatted_super (s : FsState) : s.formatted.disk 256 = freshSuper := by
  unfold FsState.formatted
  rw [FsState.setInode_disk _ _ _ _ (by decide) (Or.inl le_rfl)]
  rfl

theorem freshSuper_magic : freshSuper.word 0 = fsMagic := by decide

theorem freshSuper_count : freshSuper.word 16 = 7764 := by decide

/-- a state right after `fs_init` formatted a disk -/
def Fresh (s : FsState) : Prop :=
  ∃ s₀ : FsState, s₀.faults = [] ∧ (s₀.disk 256).word 0 ≠ fsMagic ∧ s = ((fsInit : StateM FsState _) s₀).2

theorem Fresh.eq_formatted (h : Fresh s) : ∃ s₀ : FsState, s₀.faults = [] ∧ s = s₀.formatted := by
  obtain ⟨s₀, hf, hm, rfl⟩ := h
  exact ⟨s₀, hf, by rw [fsInit_format hf hm]⟩

/-- power-on state with an empty disk -/
def FsState.blank : FsState := ⟨fun _ _ => 0, fun _ => false, 0, fun _ => ⟨none, 0⟩, []⟩

/-- the state after the first boot -/
def FsState.boot : FsState := ((fsInit : StateM FsState _) FsState.blank).2

theorem fresh_boot : Fresh FsState.boot := ⟨FsState.blank, rfl, by decide, rfl⟩

/-! ## Calls -/

/-- the calls of `fs.h`; `fs_write` comes with the bytes of its buffer -/
inductive Op where
  | fsInit
  | fsOpen (path : CStr) (create : Bool)
  | fsRead (fd : ℤ) (len : UInt32)
  | fsWrite (fd : ℤ) (data : List UInt8)
  | fsClose (fd : ℤ)
  | fsMkdir (path : CStr)
  | fsRmdir (path : CStr)
  | fsRrmdr (path : CStr)
  | fsDelete (path : CStr)

/-- what a call returns; `false` and `none` are -1 -/
inductive Res where
  | rc (ok : Bool)
  | fd (slot : Option (Fin 8))
  | data (bytes : Option (List UInt8))
  | count (n : Option ℕ)
  | void
deriving DecidableEq

/-- the call returned -1 -/
def Res.failed : Res → Bool
  | .rc ok => !ok
  | .fd slot => slot.isNone
  | .data bytes => bytes.isNone
  | .count n => n.isNone
  | .void => false

/-- one call -/
def step (s : FsState) : Op → Res × FsState
  | .fsInit => Prod.map Res.rc id ((fsInit : StateM FsState _) s)
  | .fsOpen path create => Prod.map Res.fd id ((fsOpen path.arg create : StateM FsState _) s)
  | .fsRead fd len => Prod.map Res.data id ((fsRead (fun _ _ => pure ()) fd len.toNat : StateM FsState _) s)
  | .fsWrite fd data =>
    Prod.map Res.count id ((fsWrite (fun o n => pure ((data.drop o).take n)) fd data.length : StateM FsState _) s)
  | .fsClose fd => Prod.map (fun _ => Res.void) id ((fsClose fd : StateM FsState _) s)
  | .fsMkdir path => Prod.map Res.rc id ((fsMkdir path.arg : StateM FsState _) s)
  | .fsRmdir path => Prod.map Res.rc id ((fsRmdir path.arg : StateM FsState _) s)
  | .fsRrmdr path => Prod.map Res.rc id ((fsRrmdr path.arg : StateM FsState _) s)
  | .fsDelete path => Prod.map Res.rc id ((fsDelete path.arg : StateM FsState _) s)

/-! ## The first file -/

section
open FsState

theorem boot_eq : boot = blank.formatted := by
  rw [boot, fsInit_format rfl (by decide)]

theorem rootInode_name : cstr rootInode.name.toList = [slash] := by decide

theorem boot_inode {j : ℕ} (hj : j < 512) : boot.inode j = if j = 0 then rootInode else Inode.zero := by
  rw [boot_eq]
  exact formatted_inode _ hj

theorem boot_live {j : ℕ} (h : boot.live j) : j = 0 := formatted_live (boot_eq ▸ h)

theorem boot_fds (k : Fin 8) : boot.fds k = ⟨none, 0⟩ := by
  rw [boot_eq]
  rfl

theorem boot_faults : boot.faults = [] := by
  rw [boot_eq]
  rfl

theorem boot_bitmap : boot.bitmap = fun _ => false := by
  rw [boot_eq]
  rfl

theorem fdSlot_zero : fdSlot 0 = some 0 := rfl

theorem boot_freeFd : boot.freeFd = some 0 := by
  unfold freeFd
  simp only [boot_fds]
  decide

theorem boot_freeSlot : boot.freeSlot = some 1 := by
  refine freeSlot_eq_some (by decide) (by rw [boot_inode (by decide)]; rfl) fun j hj => ?_
  rw [boot_inode (by omega), if_pos (by omega)]
  decide

theorem boot_find {p : List UInt8} (hp : p ≠ [slash]) : boot.find p = none := by
  refine find_none.2 fun j hj hn => hp ?_
  rw [nameAt, boot_inode hj.1, if_pos (boot_live hj), rootInode_name] at hn
  exact hn.symm

/-- creating a file in the root directory of a fresh disk -/
theorem boot_open {p : CStr} (hp : p.bytes ≠ [slash]) (hpar : parentOf p.bytes = [slash]) :
    step boot (.fsOpen p true) = (.fd (some 0), (boot.create 1 p.bytes fsTypeFile).setFd 0 ⟨some 1, 0⟩) := by
  have hdir : boot.isdir (parentOf p.bytes) = true := by rw [hpar]; rfl
  simp only [step, fsOpen_run boot_faults, boot_freeFd, boot_find hp, hdir, boot_freeSlot]
  rfl

end

end GannetOS.Filesys
