/-
Sector I/O for any pattern of failures: each access takes the next entry of `faults`, and a failed one leaves the disk as
it is.

The `_at` lemmas say what a function does on any state, where the fault-free `_run` lemmas of the other modules assume
`faults = []`. `DataOnly` collects what the transfer loops cannot do, whichever access fails.
-/
import GannetOS.Core.Rel
import GannetOS.Filesys.Transfer

namespace GannetOS.Filesys

open GannetOS.Core List

namespace FsState

/-- the access after `n` more fails -/
def faultAt (s : FsState) (n : ℕ) : Bool := s.faults.getD n false

/-- the state after `n` accesses that changed nothing -/
def after (s : FsState) (n : ℕ) : FsState := { s with faults := s.faults.drop n }

@[simp] theorem after_bitmap (s : FsState) (n : ℕ) : (s.after n).bitmap = s.bitmap := rfl
@[simp] theorem after_inode (s : FsState) (n i : ℕ) : (s.after n).inode i = s.inode i := rfl

@[simp] theorem after_after (s : FsState) (n k : ℕ) : (s.after n).after k = s.after (n + k) := by
  simp only [after, drop_drop]

@[simp] theorem after_faultAt (s : FsState) (n k : ℕ) : (s.after n).faultAt k = s.faultAt (n + k) := by
  simp only [after, faultAt, getD_eq_getElem?_getD, getElem?_drop]

@[simp] theorem setInode_faultAt (s : FsState) (i : ℕ) (x : Inode) (n : ℕ) :
    (s.setInode i x).faultAt n = s.faultAt n := rfl

end FsState

theorem ataReadSector_at (s : FsState) (lba : ℕ) : (ataReadSector lba : StateM FsState _) s =
    (if s.faultAt 0 then none else some (s.disk lba), s.after 1) := by
  obtain ⟨disk, bitmap, count, fds, faults⟩ := s
  cases faults <;> simp [ataReadSector, FsState.faultAt, FsState.after]

theorem ataWriteSector_at (s : FsState) (lba : ℕ) (buf : Sector) : (ataWriteSector lba buf : StateM FsState _) s =
    if s.faultAt 0 then (false, s.after 1) else (true, { s.after 1 with disk := Function.update s.disk lba buf }) := by
  obtain ⟨disk, bitmap, count, fds, faults⟩ := s
  cases faults <;> simp [ataWriteSector, FsState.faultAt, FsState.after]

theorem inodeRead_at (s : FsState) {idx : ℕ} (hi : idx < 512) : (inodeRead idx : StateM FsState _) s =
    (if s.faultAt 0 then none else some (s.inode idx), s.after 1) := by
  unfold inodeRead
  rw [if_neg (by simpa using hi), bind_apply, ataReadSector_at]
  split_ifs <;> rfl

theorem inodeWrite_at (s : FsState) {idx : ℕ} (hi : idx < 512) (x : Inode) : (inodeWrite idx x : StateM FsState _) s =
    if s.faultAt 0 then (false, s.after 1)
    else if s.faultAt 1 then (false, s.after 2) else (true, (s.after 2).setInode idx x) := by
  unfold inodeWrite
  rw [if_neg (by simpa using hi), bind_apply, ataReadSector_at]
  split_ifs with h0 h1
  · rfl
  · dsimp only
    rw [ataWriteSector_at, FsState.after_faultAt, if_pos h1, FsState.after_after]
  · dsimp only
    rw [ataWriteSector_at, FsState.after_faultAt, if_neg h1, FsState.after_after]
    rfl

/-! ## Lookup -/

/-- the first slot in use that stores `p` and that can be read, in a scan that starts with the next access -/
def FsState.findAt (s : FsState) (p : List UInt8) : Option ℕ :=
  (List.range 512).find? fun i => s.faultAt i = false ∧ (s.inode i).type ≠ 0 ∧ s.nameAt i = p

theorem FsState.findAt_some {s : FsState} {p : List UInt8} {i : ℕ} (h : s.findAt p = some i) : s.live i := by
  have hmem := mem_of_find?_eq_some h
  have hp := find?_some h
  simp only [mem_range, decide_eq_true_eq] at hmem hp
  exact ⟨hmem, hp.2.1⟩

theorem fsFindLoop_at (s : FsState) (p : List UInt8) (n : ℕ) {i : ℕ} (hn : i + n ≤ 512) :
    (fsFindLoop (StrArg.ofBytes p) (List.range' i n) : StateM FsState _) (s.after i) =
      match (List.range' i n).find? fun k => s.faultAt k = false ∧ (s.inode k).type ≠ 0 ∧ s.nameAt k = cstr p with
      | none => (none, s.after (i + n))
      | some k => (some k, s.after (k + 1)) := by
  induction n generalizing i with
  | zero => rfl
  | succ n ih =>
    have hrest := ih (i := i + 1) (by omega)
    rw [show i + 1 + n = i + (n + 1) by omega] at hrest
    rw [range'_succ, fsFindLoop, run_bind (inodeRead_at (s.after i) (by omega : i < 512))]
    simp only [FsState.after_after, FsState.after_faultAt, FsState.after_inode, Nat.add_zero]
    by_cases hf : s.faultAt i
    · rw [if_pos hf, find?_cons_of_neg (by simp [hf])]
      exact hrest
    · rw [if_neg hf]
      simp only [strEq_eq, pure_bind, ite_run, decide_eq_true_eq, pure_apply, hrest]
      rw [← FsState.nameAt]
      by_cases ht : (s.inode i).type = 0
      · rw [if_pos ht, find?_cons_of_neg (by simp [ht])]
      · rw [if_neg ht]
        by_cases hname : s.nameAt i = cstr p
        · rw [if_pos hname, find?_cons_of_pos (by simp [hf, ht, hname])]
        · rw [if_neg hname, find?_cons_of_neg (by simp [hname])]

theorem fsFind_at (s : FsState) (p : CStr) : (fsFind p.arg : StateM FsState _) s =
    match s.findAt p.bytes with
    | none => (none, s.after 512)
    | some i => (some i, s.after (i + 1)) := by
  have hloop := fsFindLoop_at s p.bytes 512 (Nat.zero_add 512).le
  rw [cstr_of_nulFree p.nulFree, Nat.zero_add, show s.after 0 = s from rfl] at hloop
  rw [CStr.arg, fsFind, FsState.findAt, range_eq_range']
  exact hloop

/-! ## Transfers -/

/-- the bitmap and everything below the data area are as before -/
structure DataOnly (s t : FsState) : Prop where
  bitmap : t.bitmap = s.bitmap
  below : ∀ lba < 428, t.disk lba = s.disk lba

namespace DataOnly

theorem refl (s : FsState) : DataOnly s s := ⟨rfl, fun _ _ => rfl⟩

theorem trans {s t u : FsState} (h : DataOnly s t) (h' : DataOnly t u) : DataOnly s u :=
  ⟨h'.bitmap.trans h.bitmap, fun lba hlba => (h'.below lba hlba).trans (h.below lba hlba)⟩

theorem inode {s t : FsState} (h : DataOnly s t) {i : ℕ} (hi : i < 512) : t.inode i = s.inode i := by
  rw [FsState.inode, FsState.inode, h.below _ (by omega)]

theorem after (s : FsState) (n : ℕ) : DataOnly s (s.after n) := ⟨rfl, fun _ _ => rfl⟩

end DataOnly

/-- programs that write to data sectors only -/
def dataOnly : MonadRel (StateM FsState) (StateM FsState) := .keeps DataOnly .refl fun _ _ _ => .trans

theorem dataOnly_read (lba : ℕ) : dataOnly.rel (ataReadSector lba) (ataReadSector lba) := by
  intro s
  rw [ataReadSector_at]
  exact .after s 1

theorem dataOnly_write {lba : ℕ} (h : 428 ≤ lba) (buf : Sector) :
    dataOnly.rel (ataWriteSector lba buf) (ataWriteSector lba buf) := by
  intro s
  rw [ataWriteSector_at]
  split_ifs
  · exact .after s 1
  · exact ⟨rfl, fun k hk => Function.update_of_ne (by omega) _ _⟩

theorem writeLoop_dataOnly (inp : ℕ → ℕ → List UInt8) {start : ℕ} (h : 428 ≤ start) (h' : start < 16384)
    (off len done : ℕ) (sb : Sector) :
    dataOnly.rel (writeLoop (fun o n => pure (inp o n)) start off len done sb)
      (writeLoop (fun o n => pure (inp o n)) start off len done sb) := by
  induction hk : len - done using Nat.strong_induction_on generalizing done sb with
  | _ k ih =>
    rw [writeLoop]
    split_ifs with hlt
    · have hlba : 428 ≤ u32 (start + u32 (off + done) / 512) := by
        unfold u32
        omega
      refine dataOnly.bind ?_ fun base => ?_
      · unfold sectorBase
        split_ifs
        · exact dataOnly_read _
        · exact dataOnly.pure _
      · cases base with
        | none => exact dataOnly.pure _
        | some base =>
          refine dataOnly.bind (dataOnly.pure _) fun bytes => dataOnly.bind (dataOnly_write hlba _) fun ok => ?_
          cases ok with
          | false => exact dataOnly.pure _
          | true => exact ih _ (by omega) _ _ rfl
    · exact dataOnly.pure _

/-- the copy of a growing file succeeds exactly if none of its accesses fails -/
theorem copySectors_at (src : ℕ) {dst : ℕ} (hdst : 428 ≤ dst) (n k : ℕ) (hend : dst + k + n ≤ 4294967296) (s : FsState) :
    let r := (copySectors src dst n k : StateM FsState _) s
    DataOnly s r.2 ∧ (r.1 = true ↔ ∀ m < 2 * n, s.faultAt m = false) ∧
      (r.1 = true → r.2.faults = s.faults.drop (2 * n)) := by
  induction n generalizing k s with
  | zero => exact ⟨.refl s, by simp [copySectors], fun _ => rfl⟩
  | succ n ih =>
    have hread := ataReadSector_at s (u32 (src + k))
    have hwrite := ataWriteSector_at (s.after 1) (u32 (dst + k)) (s.disk (u32 (src + k)))
    rw [FsState.after_faultAt, FsState.after_after] at hwrite
    rw [copySectors]
    by_cases h0 : s.faultAt 0
    · rw [if_pos h0] at hread
      rw [run_bind hread]
      exact ⟨.after s 1, iff_of_false Bool.false_ne_true fun h => by simp [h 0 (by omega)] at h0,
        fun h => absurd h Bool.false_ne_true⟩
    rw [if_neg h0] at hread
    rw [run_bind hread]
    dsimp only
    by_cases h1 : s.faultAt 1
    · rw [if_pos h1] at hwrite
      rw [run_bind hwrite]
      exact ⟨.after s 2, iff_of_false Bool.false_ne_true fun h => by simp [h 1 (by omega)] at h1,
        fun h => absurd h Bool.false_ne_true⟩
    rw [if_neg h1] at hwrite
    rw [run_bind hwrite]
    have hmove : DataOnly s { s.after 2 with disk := Function.update s.disk (u32 (dst + k)) (s.disk (u32 (src + k))) } := by
      refine ⟨rfl, fun lba hlba => Function.update_of_ne ?_ _ _⟩
      rw [u32_of_lt (by omega)]
      omega
    have hfault (m : ℕ) : FsState.faultAt { s.after 2 with
        disk := Function.update s.disk (u32 (dst + k)) (s.disk (u32 (src + k))) } m = s.faultAt (2 + m) :=
      s.after_faultAt 2 m
    obtain ⟨hdata, hok, hfaults⟩ := ih (k + 1) (by omega) _
    refine ⟨hmove.trans hdata, hok.trans ?_, fun h => (hfaults h).trans ?_⟩
    · simp only [hfault]
      refine ⟨fun h m hm => ?_, fun h m hm => h (2 + m) (by omega)⟩
      rcases m with _ | _ | m
      · exact Bool.eq_false_iff.2 h0
      · exact Bool.eq_false_iff.2 h1
      · exact Nat.add_comm 2 m ▸ h m (by omega)
    · show (s.faults.drop 2).drop (2 * n) = _
      rw [drop_drop]
      congr 1
      omega

end GannetOS.Filesys
