/-
Which memory the filesystem indexes with numbers it has not checked.

Mounting. `fs_init` marks every sector of every inode it reads and takes `data_sector_count` from the superblock;
`alloc_bitmap` has `bitmapBits` bits. `fsInitLog` is `fs_init` that also returns the indices it passes to `bm_set`, and
`allocLoop` is the search of `bm_alloc` in the source's 32-bit arithmetic, with the indices it inspects; without the log
they are the functions of `Fs.lean` (`fsInitLog_erase`, `allocLoop_firstFit`).

- `mount_in_bounds`: for every disk with the magic number and every pattern of read failures, the indices of the mount and
  of every later allocation are in range exactly if the sectors of each inode that was read lie below the bitmap's end, and
  the superblock's data_sectors is at most `bitmapBits`;
- `mount_out_of_bounds`: an inode whose start block is 0 is marked at bit 4294966868.

The parent check of `fs_mkdir` and `fs_open`. `parentWrites p` is what `fs_get_parent` writes to its caller's buffer.

- `parent_in_buffer`: the writes stay in the 128 bytes of `parent_exists`, which then looks up the true parent, exactly if
  no `'/'` of the path stands at index 128 or later;
- `parent_past_buffer`: a path with a slash at index 128 writes a NUL behind the buffer.
-/
import GannetOS.Core.Writes
import GannetOS.Filesys.Faults
import GannetOS.Filesys.Machine

namespace GannetOS.Filesys

open GannetOS.Core List

/-! ## Mounting, with the bits it marks -/

/-- BITMAP_WORDS * 32 -/
def bitmapBits : ℕ := (fsTotalSectors - fsDataStart + 31) / 32 * 32

section
variable {m : Type → Type} [Monad m] [MonadStateOf FsState m]

/-- the indices of a run of `bm_set` -/
def runBits (rel count : ℕ) : List ℕ := (List.range count).map fun j => u32 (rel + j)

/-- the bitmap rebuild of `fs_init`, with the indices passed to `bm_set` -/
def rebuildLog : List ℕ → m (List ℕ)
  | [] => return []
  | i :: is => do
    match ← inodeRead i with
    | none => rebuildLog is
    | some inode =>
      if inode.type = fsTypeFree ∨ inode.blockCount = 0 then rebuildLog is
      else
        bmSetRun (sub32 inode.startBlock.toNat fsDataStart) inode.blockCount.toNat
        let log ← rebuildLog is
        return runBits (sub32 inode.startBlock.toNat fsDataStart) inode.blockCount.toNat ++ log

/-- `fs_init`, with the indices passed to `bm_set` -/
def fsInitLog : m (Bool × List ℕ) := do
  modifyFs fun s => { s with fds := fun i => ⟨none, (s.fds i).offset⟩ }
  match ← ataReadSector fsSuperSector with
  | none => return (false, [])
  | some sb =>
    if sb.word 0 ≠ fsMagic then
      if !(← ataWriteSector fsSuperSector freshSuper) then return (false, [])
      if !(← zeroSectors (List.range fsInodeSectors)) then return (false, [])
      modifyFs fun s => { s with dataSectorCount := fsTotalSectors - fsDataStart, bitmap := fun _ => false }
      let _ ← inodeWrite 0 rootInode
      return (true, [])
    else
      modifyFs fun s => { s with dataSectorCount := (sb.word 16).toNat, bitmap := fun _ => false }
      let log ← rebuildLog (List.range fsMaxInodes)
      return (true, log)

variable [LawfulMonad m]

theorem rebuildLog_erase (is : List ℕ) : (do let _ ← rebuildLog is; return () : m Unit) = rebuildLoop is := by
  induction is with
  | nil => simp [rebuildLog, rebuildLoop]
  | cons i is ih =>
    rw [rebuildLog, rebuildLoop, bind_assoc]
    congr 1
    funext r
    rcases r with _ | inode
    · exact ih
    · dsimp only
      split_ifs
      · exact ih
      · simp only [bind_assoc, pure_bind]
        rw [ih]

/-- without the log it is `fs_init` -/
theorem fsInitLog_erase : (do let r ← fsInitLog; return r.1 : m Bool) = fsInit := by
  simp only [fsInitLog, fsInit, bind_assoc]
  congr 1
  funext _
  congr 1
  funext r
  rcases r with _ | sb
  · simp
  · dsimp only
    split_ifs
    · simp only [bind_assoc]
      congr 1
      funext b
      cases b
      · simp
      · simp only [Bool.not_true, Bool.false_eq_true, if_false, bind_assoc]
        congr 1
        funext b
        cases b <;> simp
    · rw [← rebuildLog_erase]
      simp only [bind_assoc, pure_bind]

end

namespace Inode

/-- the bits `fs_init` marks for an inode -/
def bits (x : Inode) : List ℕ :=
  if x.type = fsTypeFree ∨ x.blockCount = 0 then []
  else runBits (sub32 x.startBlock.toNat fsDataStart) x.blockCount.toNat

/-- a free inode, an empty file, or sectors that the bitmap has bits for -/
def Mapped (x : Inode) : Prop :=
  x.type = 0 ∨ x.blockCount = 0 ∨
    fsDataStart ≤ x.startBlock.toNat ∧ x.startBlock.toNat + x.blockCount.toNat ≤ fsDataStart + bitmapBits

/-- the bits of an inode are in range exactly if its sectors are: a start below the data region wraps around -/
theorem bits_in_range (x : Inode) : (∀ b ∈ x.bits, b < bitmapBits) ↔ x.Mapped := by
  have hstart := x.startBlock.toNat_lt
  have hcount := x.blockCount.toNat_lt
  unfold bits Mapped
  split_ifs with hnone
  · refine ⟨fun _ => ?_, fun _ b hb => absurd hb not_mem_nil⟩
    rcases hnone with h | h
    · exact .inl h
    · exact .inr (.inl h)
  · obtain ⟨htype, hblocks⟩ := not_or.1 hnone
    have hpos : 0 < x.blockCount.toNat := Nat.pos_of_ne_zero fun h0 => hblocks (UInt32.toNat_inj.1 h0)
    simp only [htype, hblocks, false_or, runBits, mem_map, mem_range, forall_exists_index, and_imp,
      forall_apply_eq_imp_iff₂, bitmapBits, sub32, u32, fsDataStart, fsTotalSectors] at *
    constructor
    · intro h
      have hfirst := h 0 hpos
      -- the first bit is in range, so the first one out of range comes before any wrap-around
      by_contra hout
      have hlast := h (min (x.blockCount.toNat - 1) 7776) (by omega)
      omega
    · intro h j hj
      omega

end Inode

theorem bmSetRun_keeps (rel n : ℕ) (s : FsState) : ((bmSetRun rel n : StateM FsState _) s).2.disk = s.disk ∧
    ((bmSetRun rel n : StateM FsState _) s).2.faults = s.faults ∧
    ((bmSetRun rel n : StateM FsState _) s).2.dataSectorCount = s.dataSectorCount := by
  induction n with
  | zero => exact ⟨rfl, rfl, rfl⟩
  | succ n ih => exact ih

/-- the bits of every inode whose read does not fail -/
theorem rebuildLog_run {k n : ℕ} (hk : k + n ≤ 512) (s : FsState) :
    ((rebuildLog (List.range' k n) : StateM FsState _) s).1 =
        (List.range' k n).flatMap (fun i => if s.faultAt (i - k) then [] else (s.inode i).bits) ∧
      ((rebuildLog (List.range' k n) : StateM FsState _) s).2.dataSectorCount = s.dataSectorCount := by
  induction n generalizing k s with
  | zero => exact ⟨rfl, rfl⟩
  | succ n ih =>
    -- the rest of the loop, from a state that has read inode `k`
    have hrest {t : FsState} (hdisk : t.disk = s.disk) (hfaults : t.faults = s.faults.drop 1) :
        ((rebuildLog (List.range' (k + 1) n) : StateM FsState _) t).1 =
            (List.range' (k + 1) n).flatMap (fun i => if s.faultAt (i - k) then [] else (s.inode i).bits) ∧
          ((rebuildLog (List.range' (k + 1) n) : StateM FsState _) t).2.dataSectorCount = t.dataSectorCount := by
      obtain ⟨hlog, hcount⟩ := ih (k := k + 1) (by omega) t
      refine ⟨hlog.trans (flatMap_congr fun i hi => ?_), hcount⟩
      have hle := (List.mem_range'_1.1 hi).1
      have hfault : t.faultAt (i - (k + 1)) = s.faultAt (i - k) := by
        rw [show i - k = 1 + (i - (k + 1)) by omega, ← FsState.after_faultAt, FsState.faultAt, hfaults]
        rfl
      have hinode : t.inode i = s.inode i := by rw [FsState.inode, hdisk, FsState.inode]
      rw [hfault, hinode]
    rw [range'_succ, flatMap_cons, Nat.sub_self, rebuildLog, bind_apply, inodeRead_at s (by omega)]
    cases hf : s.faultAt 0 with
    | true => exact hrest rfl rfl
    | false =>
      simp only [Bool.false_eq_true, if_false, ite_run]
      by_cases hnone : (s.inode k).type = fsTypeFree ∨ (s.inode k).blockCount = 0
      · rw [if_pos hnone, Inode.bits, if_pos hnone]
        exact hrest rfl rfl
      · rw [if_neg hnone, Inode.bits, if_neg hnone]
        obtain ⟨hdisk, hfaults, hcount⟩ := bmSetRun_keeps (sub32 (s.inode k).startBlock.toNat fsDataStart)
          (s.inode k).blockCount.toNat (s.after 1)
        obtain ⟨hlog, hcount'⟩ := hrest hdisk hfaults
        rw [bind_apply, bind_apply, pure_apply, hlog]
        exact ⟨rfl, hcount'.trans hcount⟩

/-- what a mount marks, and the sector count it takes over -/
theorem fsInitLog_run {s : FsState} (hread : s.faultAt 0 = false) (hmagic : (s.disk 256).word 0 = fsMagic) :
    ((fsInitLog : StateM FsState _) s).1.2 =
        (List.range 512).flatMap (fun i => if s.faultAt (i + 1) then [] else (s.inode i).bits) ∧
      ((fsInitLog : StateM FsState _) s).2.dataSectorCount = ((s.disk 256).word 16).toNat := by
  have hmod : ∀ (f : FsState → FsState) (t : FsState), (modifyFs f : StateM FsState _) t = ((), f t) := fun _ _ => rfl
  unfold fsInitLog
  rw [run_bind (hmod _ _), bind_apply, ataReadSector_at]
  have hfirst : ({ s with fds := fun i => ⟨none, (s.fds i).offset⟩ } : FsState).faultAt 0 = false := hread
  rw [hfirst]
  simp only [Bool.false_eq_true, if_false, ite_run]
  rw [if_neg (not_not.2 hmagic), run_bind (hmod _ _), bind_apply, range_eq_range']
  obtain ⟨hlog, hcount⟩ := rebuildLog_run (k := 0) (n := 512) le_rfl
    { ({ s with fds := fun i => ⟨none, (s.fds i).offset⟩ } : FsState).after 1 with
      dataSectorCount := ((s.disk 256).word 16).toNat, bitmap := fun _ => false }
  refine ⟨hlog.trans (flatMap_congr fun i _ => ?_), hcount⟩
  have hfault : ({ ({ s with fds := fun i => ⟨none, (s.fds i).offset⟩ } : FsState).after 1 with
      dataSectorCount := ((s.disk 256).word 16).toNat, bitmap := fun _ => false } : FsState).faultAt (i - 0) =
      s.faultAt (i + 1) := by
    rw [Nat.sub_zero, Nat.add_comm]
    exact FsState.after_faultAt s 1 i
  rw [hfault]
  rfl

/-! ## Allocating, with the bits it inspects -/

/-- the inner loop of `bm_alloc` from bit `j` of a run on, `n` bits to go: whether all are clear, and the bits inspected -/
def checkRun (bm : ℕ → Bool) (i : UInt32) : ℕ → ℕ → Bool × List ℕ
  | 0, _ => (true, [])
  | n + 1, j =>
    if bm (u32 (i.toNat + j)) then (false, [u32 (i.toNat + j)])
    else ((checkRun bm i n (j + 1)).1, u32 (i.toNat + j) :: (checkRun bm i n (j + 1)).2)

/-- the search of `bm_alloc` for at most `n` rounds: the start of the run it marks, which it has inspected whole, and all
the bits inspected. Beyond `bitmapBits`, `bm` is whatever lies behind the array. -/
def allocLoop (bm : ℕ → Bool) (sectors count : UInt32) : ℕ → UInt32 → Option UInt32 × List ℕ
  | 0, _ => (none, [])
  | n + 1, i =>
    if i + count ≤ sectors then
      let r := checkRun bm i count.toNat 0
      if r.1 then (some i, r.2)
      else ((allocLoop bm sectors count n (i + 1)).1, r.2 ++ (allocLoop bm sectors count n (i + 1)).2)
    else (none, [])

variable {bm : ℕ → Bool} {i sectors count : UInt32}

theorem checkRun_bits {n j : ℕ} (h : i.toNat + (j + n) < 4294967296) :
    ((checkRun bm i n j).1 = true ↔ ∀ k < n, bm (i.toNat + (j + k)) = false) ∧
      ∀ b ∈ (checkRun bm i n j).2, b < i.toNat + (j + n) := by
  induction n generalizing j with
  | zero => exact ⟨⟨fun _ k hk => absurd hk k.not_lt_zero, fun _ => rfl⟩, fun b hb => absurd hb not_mem_nil⟩
  | succ n ih =>
    have hbit : u32 (i.toNat + j) = i.toNat + j := u32_of_lt (by omega)
    rw [checkRun, hbit]
    split_ifs with hset
    · refine ⟨⟨False.elim, fun hall => ?_⟩, fun b hb => ?_⟩
      · exact absurd ((hall 0 n.succ_pos).symm.trans hset) Bool.false_ne_true
      · obtain rfl := List.mem_singleton.1 hb
        omega
    · obtain ⟨hok, hbits⟩ := ih (j := j + 1) (by omega)
      refine ⟨?_, fun b hb => ?_⟩
      · rw [hok]
        constructor
        · intro hall k hk
          cases k with
          | zero => exact Bool.eq_false_of_not_eq_true hset
          | succ k => exact (congrArg bm (by omega)).trans (hall k (by omega))
        · intro hall k hk
          exact (congrArg bm (by omega)).trans (hall (k + 1) (by omega))
      · rcases List.mem_cons.1 hb with rfl | hb
        · omega
        · have := hbits b hb
          omega

/-- while `i + count` does not wrap, only bits below `sectors` are inspected -/
theorem allocLoop_bits {n : ℕ} (hsec : sectors.toNat < 4294967295) (h : i.toNat + count.toNat < 4294967296) :
    ∀ b ∈ (allocLoop bm sectors count n i).2, b < sectors.toNat := by
  induction n generalizing i with
  | zero => exact fun b hb => absurd hb not_mem_nil
  | succ n ih =>
    rw [allocLoop]
    dsimp only
    split_ifs with hfits hok
    all_goals
      rw [UInt32.le_iff_toNat_le, UInt32.toNat_add, Nat.mod_eq_of_lt h] at hfits
    · intro b hb
      exact ((checkRun_bits (by omega)).2 b hb).trans_le (by omega)
    · have hnext : (i + 1).toNat = i.toNat + 1 := by
        rw [UInt32.toNat_add, UInt32.toNat_one]
        omega
      intro b hb
      rcases List.mem_append.1 hb with hb | hb
      · exact ((checkRun_bits (by omega)).2 b hb).trans_le (by omega)
      · exact ih (by omega) b hb
    · exact fun b hb => absurd hb not_mem_nil

/-- the search is the first fit of `bmAlloc` -/
theorem allocLoop_firstFit (hsec : sectors.toNat + count.toNat < 4294967295) {n : ℕ}
    (hn : sectors.toNat + 1 - count.toNat - i.toNat ≤ n) (hi : i.toNat ≤ sectors.toNat + 1) :
    (allocLoop bm sectors count (n + 1) i).1.map UInt32.toNat =
      (List.range' i.toNat (sectors.toNat + 1 - count.toNat - i.toNat)).find? fun i =>
        (List.range count.toNat).all fun j => !bm (i + j) := by
  induction n generalizing i with
  | zero =>
    have hstop : ¬ i + count ≤ sectors := by
      rw [UInt32.le_iff_toNat_le, UInt32.toNat_add, Nat.mod_eq_of_lt (by omega)]
      omega
    rw [allocLoop, if_neg hstop, show sectors.toNat + 1 - count.toNat - i.toNat = 0 by omega]
    rfl
  | succ n ih =>
    have hle : i + count ≤ sectors ↔ i.toNat + count.toNat ≤ sectors.toNat := by
      rw [UInt32.le_iff_toNat_le, UInt32.toNat_add, Nat.mod_eq_of_lt (by omega)]
    rw [allocLoop]
    dsimp only
    split_ifs with hfits hok
    · rw [hle] at hfits
      have hall := (checkRun_bits (by omega)).1.1 hok
      rw [show sectors.toNat + 1 - count.toNat - i.toNat = (sectors.toNat - count.toNat - i.toNat) + 1 by omega,
        range'_succ, find?_cons_of_pos]
      · rfl
      · simpa [all_eq_true] using hall
    · rw [hle] at hfits
      have hnext : (i + 1).toNat = i.toNat + 1 := by
        rw [UInt32.toNat_add, UInt32.toNat_one]
        omega
      have hclear : (checkRun bm i count.toNat 0).1 = true ↔ ∀ k < count.toNat, bm (i.toNat + (0 + k)) = false :=
        (checkRun_bits (by omega)).1
      have hnot := fun hall => hok (hclear.2 hall)
      rw [show sectors.toNat + 1 - count.toNat - i.toNat = (sectors.toNat - count.toNat - i.toNat) + 1 by omega,
        range'_succ, find?_cons_of_neg]
      · rw [ih (by omega) (by omega), hnext,
          show sectors.toNat + 1 - count.toNat - (i.toNat + 1) = sectors.toNat - count.toNat - i.toNat by omega]
      · simpa [all_eq_true] using hnot
    · rw [hle] at hfits
      rw [show sectors.toNat + 1 - count.toNat - i.toNat = 0 by omega]
      rfl

/-- bit 1 of five is set: two free ones start at bit 2 -/
theorem allocLoop_firstFit_gap : (allocLoop (· == 1) 5 2 5 0).1.map UInt32.toNat =
    (List.range' 0 4).find? fun i => (List.range 2).all fun j => !(i + j == 1) :=
  allocLoop_firstFit (by decide) (by decide) (by decide)

/-- the bitmaps after a mount: allocations mark what they find, and anything may be given back -/
inductive Later (t : FsState) : (ℕ → Bool) → Prop
  | mounted : Later t t.bitmap
  | allocated {bm bm' : ℕ → Bool} {count i : UInt32} {n : ℕ} (h : Later t bm)
    (hfit : (allocLoop bm (UInt32.ofNat t.dataSectorCount) count n 0).1 = some i)
    (hset : ∀ b, bm' b = true ↔ bm b = true ∨ b ∈ runBits i.toNat count.toNat) : Later t bm'
  | freed {bm bm' : ℕ → Bool} (h : Later t bm) (hsub : ∀ b, bm' b = true → bm b = true) : Later t bm'

/-- a search for one sector comes to the first bit that is not known to be set -/
theorem allocLoop_one {k d : ℕ} (hk : k < sectors.toNat) (hset : ∀ b < k, bm b = true) (hi : i.toNat + d = k) :
    k ∈ (allocLoop bm sectors 1 (d + 1) i).2 ∧
      (bm k = false → (allocLoop bm sectors 1 (d + 1) i).1 = some (UInt32.ofNat k)) := by
  have hlt := sectors.toNat_lt
  induction d generalizing i with
  | zero =>
    obtain rfl : i.toNat = k := hi
    have hfits : i + 1 ≤ sectors := by
      rw [UInt32.le_iff_toNat_le, UInt32.toNat_add, UInt32.toNat_one]
      omega
    have hbit : u32 (i.toNat + 0) = i.toNat := u32_of_lt (by omega)
    rw [allocLoop, if_pos hfits, UInt32.toNat_one]
    simp only [checkRun, hbit]
    cases hbm : bm i.toNat <;> simp
  | succ d ih =>
    have hfits : i + 1 ≤ sectors := by
      rw [UInt32.le_iff_toNat_le, UInt32.toNat_add, UInt32.toNat_one]
      omega
    have hnext : (i + 1).toNat = i.toNat + 1 := by
      rw [UInt32.toNat_add, UInt32.toNat_one]
      omega
    have hbit : u32 (i.toNat + 0) = i.toNat := u32_of_lt (by omega)
    obtain ⟨hmem, hfound⟩ := ih (i := i + 1) (by omega)
    rw [allocLoop, if_pos hfits, UInt32.toNat_one]
    simp only [checkRun, hbit, hset i.toNat (by omega), if_true, Bool.false_eq_true, if_false]
    exact ⟨mem_append_right _ hmem, hfound⟩

/-- one sector at a time, the first `k` bits can all be taken -/
theorem Later.fill {t : FsState} (hcount : t.dataSectorCount < 4294967296) {k : ℕ} (hk : k ≤ t.dataSectorCount) :
    ∃ bm, Later t bm ∧ ∀ b < k, bm b = true := by
  have hsec : (UInt32.ofNat t.dataSectorCount).toNat = t.dataSectorCount := UInt32.toNat_ofNat_of_lt' hcount
  induction k with
  | zero => exact ⟨_, .mounted, fun b hb => absurd hb b.not_lt_zero⟩
  | succ k ih =>
    obtain ⟨bm, hlater, hset⟩ := ih (by omega)
    cases hbit : bm k with
    | true =>
      refine ⟨bm, hlater, fun b hb => ?_⟩
      rcases Nat.lt_succ_iff_lt_or_eq.1 hb with hb | rfl
      · exact hset b hb
      · exact hbit
    | false =>
      have hfit : (allocLoop bm (UInt32.ofNat t.dataSectorCount) 1 (k + 1) 0).1 = some (UInt32.ofNat k) :=
        (allocLoop_one (by omega) hset (Nat.zero_add k)).2 hbit
      have hk32 : (UInt32.ofNat k).toNat = k := UInt32.toNat_ofNat_of_lt' (show k < 4294967296 by omega)
      refine ⟨Function.update bm k true, hlater.allocated hfit fun b => ?_, fun b hb => ?_⟩
      · rw [Function.update_apply, hk32, UInt32.toNat_one]
        split_ifs with hbk
        · simp [hbk, runBits, u32_of_lt (show k < 4294967296 by omega)]
        · simp [hbk, runBits, u32_of_lt (show k < 4294967296 by omega)]
      · rw [Function.update_apply]
        split_ifs with hbk
        · rfl
        · exact hset b (by omega)

/-- later allocations stay in the bitmap exactly if the sector count does -/
theorem later_in_bounds (t : FsState) (hcount : t.dataSectorCount < 4294967296) :
    (∀ bm, Later t bm → ∀ count n, ∀ b ∈ (allocLoop bm (UInt32.ofNat t.dataSectorCount) count n 0).2, b < bitmapBits) ↔
      t.dataSectorCount ≤ bitmapBits := by
  have hsec : (UInt32.ofNat t.dataSectorCount).toNat = t.dataSectorCount := UInt32.toNat_ofNat_of_lt' hcount
  have hbits : bitmapBits = 7776 := rfl
  constructor
  · intro hall
    by_contra hout
    obtain ⟨bm, hlater, hset⟩ := Later.fill hcount (k := bitmapBits) (by omega)
    have hmem : bitmapBits ∈ (allocLoop bm (UInt32.ofNat t.dataSectorCount) 1 (bitmapBits + 1) 0).2 :=
      (allocLoop_one (by omega) hset (Nat.zero_add _)).1
    exact absurd (hall bm hlater 1 _ _ hmem) (lt_irrefl _)
  · intro hle bm _ count n b hb
    have hlt := count.toNat_lt
    exact (allocLoop_bits (by omega) (by rw [UInt32.toNat_zero]; omega) b hb).trans_le (by omega)

/-- **Mounting an image in bounds.** For every disk whose superblock is read and has the magic number: every bit that
`fs_init` marks and every bit that a later `bm_alloc` inspects is in `alloc_bitmap`, exactly if each inode that is read is
free, empty, or has its sectors where the bitmap has bits, and the superblock's data_sectors is at most the number of bits. -/
theorem mount_in_bounds {s : FsState} (hread : s.faultAt 0 = false) (hmagic : (s.disk 256).word 0 = fsMagic) :
    ((∀ b ∈ ((fsInitLog : StateM FsState _) s).1.2, b < bitmapBits) ∧
      ∀ bm, Later ((fsInitLog : StateM FsState _) s).2 bm → ∀ count n,
        ∀ b ∈ (allocLoop bm (UInt32.ofNat ((fsInitLog : StateM FsState _) s).2.dataSectorCount) count n 0).2,
          b < bitmapBits) ↔
      (∀ i < 512, s.faultAt (i + 1) = false → (s.inode i).Mapped) ∧ ((s.disk 256).word 16).toNat ≤ bitmapBits := by
  obtain ⟨hlog, hcount⟩ := fsInitLog_run hread hmagic
  have hlt := ((s.disk 256).word 16).toNat_lt
  rw [hlog, later_in_bounds _ (by omega), hcount]
  refine and_congr_left fun _ => ?_
  simp only [mem_flatMap, mem_range]
  constructor
  · intro h i hi hok
    refine (Inode.bits_in_range _).1 fun b hb => h b ⟨i, hi, ?_⟩
    rwa [hok]
  · rintro h b ⟨i, hi, hb⟩
    cases hok : s.faultAt (i + 1) with
    | true =>
      rw [hok] at hb
      exact absurd hb not_mem_nil
    | false =>
      rw [hok] at hb
      exact (Inode.bits_in_range _).2 (h i hi hok) b hb

theorem boot_faultAt (n : ℕ) : FsState.boot.faultAt n = false := by
  rw [FsState.faultAt, boot_faults]
  rfl

/-- the superblock of a formatted disk with an inode in slot 1 -/
theorem withInode_super (x : Inode) : (FsState.boot.setInode 1 x).disk 256 = freshSuper := by
  rw [FsState.setInode_disk _ _ _ _ (by decide) (.inl le_rfl), boot_eq, formatted_super]

theorem withInode_magic (x : Inode) : ((FsState.boot.setInode 1 x).disk 256).word 0 = fsMagic := by
  rw [withInode_super, freshSuper_magic]

theorem withInode_faultAt (x : Inode) (n : ℕ) : (FsState.boot.setInode 1 x).faultAt n = false := by
  rw [FsState.setInode_faultAt, boot_faultAt]

/-- the bits of the inode in slot 1 are marked -/
theorem mem_fsInitLog_withInode {x : Inode} {b : ℕ} (hb : b ∈ x.bits) :
    b ∈ ((fsInitLog : StateM FsState _) (FsState.boot.setInode 1 x)).1.2 := by
  rw [(fsInitLog_run (withInode_faultAt x 0) (withInode_magic x)).1, mem_flatMap]
  refine ⟨1, List.mem_range.2 (by decide), ?_⟩
  rwa [withInode_faultAt, FsState.inode_setInode, if_pos rfl]

/-- the file /a, on the last two sectors that have bits -/
def lastSectors : Inode := { Inode.fresh [slash, 97] fsTypeFile with startBlock := 8202, blockCount := 2 }

/-- a formatted disk with that file -/
theorem mount_in_bounds_file :
    let s := FsState.boot.setInode 1 lastSectors
    7775 ∈ ((fsInitLog : StateM FsState _) s).1.2 ∧ (∀ b ∈ ((fsInitLog : StateM FsState _) s).1.2, b < bitmapBits) ∧
      ∀ bm, Later ((fsInitLog : StateM FsState _) s).2 bm → ∀ count n,
        ∀ b ∈ (allocLoop bm (UInt32.ofNat ((fsInitLog : StateM FsState _) s).2.dataSectorCount) count n 0).2,
          b < bitmapBits := by
  refine ⟨mem_fsInitLog_withInode (by decide), ?_⟩
  refine (mount_in_bounds (withInode_faultAt _ 0) (withInode_magic _)).2 ⟨fun i hi _ => ?_, ?_⟩
  · rw [FsState.inode_setInode, boot_inode hi]
    split_ifs
    · exact .inr (.inr (by decide))
    · exact .inr (.inl rfl)
    · exact .inl rfl
  · rw [withInode_super, freshSuper_count]
    decide

/-- a file of one sector whose start block is 0 -/
def strayInode : Inode := { Inode.zero with blockCount := 1, type := fsTypeFile }

/-- **A mount out of bounds.** With that inode in slot 1 of a formatted disk, `fs_init` calls `bm_set(4294966868)`. -/
theorem mount_out_of_bounds :
    ((FsState.boot.setInode 1 strayInode).disk 256).word 0 = fsMagic ∧
      4294966868 ∈ ((fsInitLog : StateM FsState _) (FsState.boot.setInode 1 strayInode)).1.2 :=
  ⟨withInode_magic _, mem_fsInitLog_withInode (by decide)⟩

/-! ## The parent buffer -/

/-- what `fs_get_parent` writes to its caller's buffer, in order -/
def parentWrites (p : CStr) : List (ℕ × UInt8) :=
  ((fsGetParent (p.arg : StrArg (StateM (List (ℕ × UInt8)))) fun i c => modify (· ++ [(i, c)])) []).2

/-- everything before the last `'/'`, or `"/"` -/
def TrueParent (p q : List UInt8) : Prop :=
  slash ∉ p ∧ q = [slash] ∨
    ∃ dir base, p = dir ++ slash :: base ∧ slash ∉ base ∧ q = if dir = [] then [slash] else dir

theorem strCopyLoop_writes (l : List UInt8) (n i : ℕ) (log : List (ℕ × UInt8)) :
    (strCopyLoop (fun i c => modify (· ++ [(i, c)])) (StrArg.ofBytes l : StrArg (StateM (List (ℕ × UInt8)))) n i) log =
      ((cstr (l.drop i)).take n, log ++ writesAt i ((cstr (l.drop i)).take n)) := by
  induction n generalizing i log with
  | zero => rfl
  | succ n ih =>
    rw [strCopyLoop, cstr_drop l i]
    simp only [ofBytes_rd, pure_bind, ite_run]
    split_ifs with hend
    · rfl
    · have hwrite : (modify (· ++ [(i, l.getD i 0)]) : StateM (List (ℕ × UInt8)) PUnit) log =
          (⟨⟩, log ++ [(i, l.getD i 0)]) := rfl
      rw [run_bind hwrite, run_bind (ih (i + 1) _), take_succ_cons, writesAt, ← append_cons]
      rfl

/-- `fs_get_parent` stores the parent, and a NUL behind it once more unless the last slash is the first byte -/
theorem parentWrites_eq (p : CStr) : parentWrites p =
    writesAt 0 (parentOf p.bytes) ++ if lastSlash p.bytes = 0 then [] else [(lastSlash p.bytes, 0)] := by
  have hcstr := cstr_of_nulFree p.nulFree
  have hscan := lastSlashLoop_eq (m := StateM (List (ℕ × UInt8))) p.bytes p.bytes.length 0 0 (by omega)
  rw [drop_zero, take_length, ← lastSlash] at hscan
  have hlen := strLen_eq (m := StateM (List (ℕ × UInt8))) p.bytes
  rw [hcstr] at hlen
  simp only [parentWrites, fsGetParent, CStr.arg, hlen, pure_bind, hscan, ite_run, parentOf]
  split_ifs with h0
  · rfl
  · have hcopy := strCopyLoop_writes p.bytes (lastSlash p.bytes) 0 []
    rw [drop_zero, hcstr, nil_append] at hcopy
    rw [strCopy, Nat.add_sub_cancel, run_bind hcopy]
    rfl

/-! ### The last slash -/

theorem lastSlashFrom_spec (l : List UInt8) (i last : ℕ) :
    slash ∉ l ∧ lastSlashFrom l i last = last ∨
      ∃ dir base, l = dir ++ slash :: base ∧ slash ∉ base ∧ lastSlashFrom l i last = i + dir.length := by
  induction l generalizing i last with
  | nil => exact .inl ⟨not_mem_nil, rfl⟩
  | cons c l ih =>
    rw [lastSlashFrom]
    rcases ih (i + 1) (if c = slash then i else last) with ⟨hno, heq⟩ | ⟨dir, base, rfl, hno, heq⟩
    · by_cases hc : c = slash
      · refine .inr ⟨[], l, by rw [hc]; rfl, hno, ?_⟩
        rw [heq, if_pos hc]
        rfl
      · refine .inl ⟨fun hmem => ?_, by rw [heq, if_neg hc]⟩
        rcases List.mem_cons.1 hmem with h | h
        · exact hc h.symm
        · exact hno h
    · exact .inr ⟨c :: dir, base, rfl, hno, by rw [heq, length_cons]; omega⟩

theorem lastSlash_spec (p : List UInt8) : slash ∉ p ∧ lastSlash p = 0 ∨
    ∃ dir base, p = dir ++ slash :: base ∧ slash ∉ base ∧ lastSlash p = dir.length := by
  rcases lastSlashFrom_spec p 0 0 with h | ⟨dir, base, hp, hno, heq⟩
  · exact .inl h
  · exact .inr ⟨dir, base, hp, hno, by rw [lastSlash, heq, Nat.zero_add]⟩

theorem trueParent_parentOf (p : List UInt8) : TrueParent p (parentOf p) := by
  rcases lastSlash_spec p with ⟨hno, h0⟩ | ⟨dir, base, hp, hno, heq⟩
  · exact .inl ⟨hno, by rw [parentOf, if_pos h0]⟩
  · refine .inr ⟨dir, base, hp, hno, ?_⟩
    rw [parentOf, heq]
    by_cases hdir : dir = []
    · rw [if_pos hdir, hdir, length_nil, if_pos rfl]
    · rw [if_neg hdir, if_neg (List.length_pos_iff.2 hdir).ne', hp, take_left]

/-- the last slash stands below `n` exactly if all do -/
theorem lastSlash_lt_iff (p : List UInt8) {n : ℕ} (hn : 0 < n) :
    lastSlash p < n ↔ ∀ i, p[i]? = some slash → i < n := by
  rcases lastSlash_spec p with ⟨hno, h0⟩ | ⟨dir, base, hp, hno, heq⟩
  · rw [h0]
    exact ⟨fun _ i hi => absurd (mem_of_getElem? hi) hno, fun _ => hn⟩
  · rw [heq]
    refine ⟨fun hlt i hi => ?_, fun h => h _ (by rw [hp]; simp)⟩
    by_contra hge
    rw [hp, getElem?_append_right (by omega), show i - dir.length = (i - dir.length - 1) + 1 by omega,
      getElem?_cons_succ] at hi
    exact hno (mem_of_getElem? hi)

/-- **The parent check stays in its buffer.** For every path: `fs_get_parent` writes only inside the 128 bytes of
`parent_exists`, leaves the true parent there with its NUL, and the check is `fs_isdir` of that parent, exactly if every
`'/'` of the path stands below index 128. -/
theorem parent_in_buffer (p : CStr) :
    ((∀ w ∈ parentWrites p, w.1 < fsNameMax) ∧
      ∃ q, TrueParent p.bytes q ∧ (∀ mem, ∀ k ≤ q.length, stored (parentWrites p) mem k = q.getD k 0) ∧
        (parentExists p.arg : StateM FsState Bool) = fsIsdir (StrArg.ofBytes q)) ↔
      ∀ i, p.bytes[i]? = some slash → i < fsNameMax := by
  have hlen : lastSlash p.bytes ≠ 0 → (parentOf p.bytes).length = lastSlash p.bytes := by
    intro h0
    rw [parentOf, if_neg h0, length_take_of_le (lastSlash_lt h0).le]
  have hone : lastSlash p.bytes = 0 → (parentOf p.bytes).length = 1 := by
    intro h0
    rw [parentOf, if_pos h0]
    rfl
  obtain ⟨hlast, hle⟩ := writesAt_range (parentOf p.bytes) 0
  rw [Nat.zero_add] at hlast hle
  have hin : (∀ w ∈ parentWrites p, w.1 < fsNameMax) ↔ lastSlash p.bytes < fsNameMax := by
    rw [parentWrites_eq]
    constructor
    · intro h
      have hw := h _ (mem_append_left _ hlast)
      by_cases h0 : lastSlash p.bytes = 0
      · rw [h0]
        decide
      · rwa [hlen h0] at hw
    · intro h w hw
      by_cases h0 : lastSlash p.bytes = 0
      · rw [if_pos h0, append_nil] at hw
        have := (hle w hw).2
        rw [hone h0] at this
        exact this.trans_lt (by decide)
      · rw [if_neg h0] at hw
        rcases List.mem_append.1 hw with hw | hw
        · have := (hle w hw).2
          rw [hlen h0] at this
          exact this.trans_lt h
        · rwa [List.mem_singleton.1 hw]
  rw [hin, lastSlash_lt_iff p.bytes (by decide)]
  refine and_iff_left ⟨parentOf p.bytes, trueParent_parentOf _, fun mem k hk => ?_, ?_⟩
  · have hstring := stored_writesAt (parentOf p.bytes) 0 mem k
    rw [if_pos ⟨k.zero_le, by omega⟩, Nat.sub_zero] at hstring
    rw [parentWrites_eq]
    by_cases h0 : lastSlash p.bytes = 0
    · rw [if_pos h0, append_nil, hstring]
    · rw [if_neg h0, stored, foldl_append, foldl_cons, foldl_nil, Function.update_apply]
      split_ifs with hk'
      · rw [hk', ← hlen h0, getD_eq_default _ _ le_rfl]
      · exact hstring
  · rw [parentExists, CStr.arg, fsGetParent_eq, pure_bind, cstr_of_nulFree p.nulFree]

/-- a slash, 127 letters, and a file name -/
def deepPath : CStr := ⟨slash :: List.replicate 127 97 ++ [slash, 98], by decide +kernel⟩

/-- **The parent check writes past its buffer.** The parent of that path has 128 bytes; its NUL is written behind the
buffer. -/
theorem parent_past_buffer : (128, 0) ∈ parentWrites deepPath ∧ deepPath.bytes.length = 130 := by
  rw [parentWrites_eq]
  decide +kernel

end GannetOS.Filesys
