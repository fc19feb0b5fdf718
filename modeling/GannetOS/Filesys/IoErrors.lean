/-
What a failing disk does to the allocation bitmap (filesys/fs.c): one `fs_delete` or `fs_write` on any state in which the
sectors of every inode on disk are marked, for every pattern of failing sector accesses.

Both clear the bits of the old sectors before the inode on disk stops naming them, so an inode write that fails in between
leaves a live file on sectors that are free.

- `fsDelete_marks`, `fsWrite_marks`: the exact conditions under which all sectors are still marked afterwards;
- `marks_kept`: both;
- `delete_error_frees_live`: the second access of the inode write fails.

`alloc_bitmap` has `bitmapBits` bits, so a sector is marked if it has a bit and the bit is set.
-/
import GannetOS.Filesys.Bounds

namespace GannetOS.Filesys

open GannetOS.Core

/-- sector `lba` is one of the inode's -/
def Inode.Has (x : Inode) (lba : ℕ) : Prop :=
  x.startBlock.toNat ≤ lba ∧ lba < x.startBlock.toNat + x.blockCount.toNat

/-- `alloc_bitmap` has bits for all of the inode's sectors -/
def Inode.InBitmap (x : Inode) : Prop :=
  428 ≤ x.startBlock.toNat ∧ x.startBlock.toNat + x.blockCount.toNat ≤ 428 + bitmapBits

namespace FsState

/-- the sector's bit is set -/
def marked (s : FsState) (lba : ℕ) : Prop := 428 ≤ lba ∧ lba < 428 + bitmapBits ∧ s.bitmap (lba - 428) = true

/-- every sector of every inode in use is marked -/
def AllMarked (s : FsState) : Prop := ∀ i, s.live i → ∀ lba, (s.inode i).Has lba → s.marked lba

/-- the inode in slot `i` shares no sector with another in use -/
def Alone (s : FsState) (i : ℕ) : Prop := ∀ k, s.live k → k ≠ i → ∀ lba, (s.inode k).Has lba → ¬ (s.inode i).Has lba

/-- if the delete clears the bits of the inode it finds, no other inode uses the sectors and the slot is written: the
accesses behind the scan are `inode_read`'s and the two of `inode_write` -/
def DeleteSafe (s : FsState) (p : List UInt8) : Prop :=
  ∀ i, s.findAt p = some i → s.faultAt (i + 1) = false → (s.inode i).type ≠ fsTypeDir → (s.inode i).blockCount ≠ 0 →
    s.Alone i ∧ s.faultAt (i + 2) = false ∧ s.faultAt (i + 3) = false

/-- need_sects of a write at the descriptor's offset -/
def needSects (s : FsState) (fd : Fin 8) (len : ℕ) : ℕ := u32 (u32 ((s.fds fd).offset.toNat + len) + 511) / 512

/-- the growth of `x` gets as far as releasing the old sectors: there is a run, and no access of the copy fails -/
structure Copies (s : FsState) (x : Inode) (need : ℕ) : Prop where
  count : x.blockCount ≠ 0
  fit : (firstFit s.bitmap s.dataSectorCount need).isSome
  accesses : ∀ m < 2 * x.blockCount.toNat, s.faultAt m = false

/-- the write releases the old sectors of the inode in slot `idx` -/
structure Moves (s : FsState) (fd : ℤ) (len idx : ℕ) : Prop where
  nonempty : len ≠ 0
  slot : idx < 512
  read : s.faultAt 0 = false
  grows : ∃ f, fdSlot fd = some f ∧ (s.fds f).inodeIdx = some idx ∧
    (s.inode idx).blockCount.toNat < s.needSects f len ∧ (s.after 1).Copies (s.inode idx) (s.needSects f len)

/-- if the write releases sectors, no other inode uses them, and the inode is written unless its slot is free -/
def WriteSafe (s : FsState) (fd : ℤ) (len : ℕ) : Prop :=
  ∀ idx, s.Moves fd len idx → s.Alone idx ∧ ((s.inode idx).type ≠ 0 →
    s.faultAt (2 * (s.inode idx).blockCount.toNat + 1) = false ∧ s.faultAt (2 * (s.inode idx).blockCount.toNat + 2) = false)

/-- the data sectors have bits, and the descriptor is usable: an inode that was freed under it names data sectors, and
the span written does not wrap around to no sectors -/
structure Regular (s : FsState) (fd : ℤ) (len : ℕ) : Prop where
  bits : s.dataSectorCount ≤ bitmapBits
  freed : ∀ f idx, fdSlot fd = some f → (s.fds f).inodeIdx = some idx → (s.inode idx).type = 0 →
    (s.inode idx).blockCount ≠ 0 → (s.inode idx).InBitmap
  span : ∀ f idx, fdSlot fd = some f → (s.fds f).inodeIdx = some idx → (s.inode idx).blockCount = 0 →
    s.needSects f len ≠ 0

/-! ## Marks -/

section

variable {s t : FsState}

theorem AllMarked.inBitmap (h : s.AllMarked) {i : ℕ} (hi : s.live i) (hcount : (s.inode i).blockCount ≠ 0) :
    (s.inode i).InBitmap := by
  have hpos : (s.inode i).blockCount.toNat ≠ 0 := fun h0 => hcount (UInt32.toNat_inj.1 h0)
  have hfirst := h i hi (s.inode i).startBlock.toNat ⟨le_rfl, by omega⟩
  have hlast := h i hi ((s.inode i).startBlock.toNat + (s.inode i).blockCount.toNat - 1) ⟨by omega, by omega⟩
  exact ⟨hfirst.1, by have := hlast.2.1; omega⟩

/-- marks depend on the bitmap and on which sectors the inodes in use name -/
theorem allMarked_congr (hbitmap : t.bitmap = s.bitmap) (hinode : ∀ j < 512, (t.inode j).type = (s.inode j).type ∧
    (t.inode j).startBlock = (s.inode j).startBlock ∧ (t.inode j).blockCount = (s.inode j).blockCount) :
    t.AllMarked ↔ s.AllMarked := by
  have hlive (j : ℕ) : t.live j ↔ s.live j := and_congr_right fun hj => by rw [(hinode j hj).1]
  refine forall_congr' fun j => ?_
  rw [hlive]
  refine imp_congr_right fun hj => forall_congr' fun lba => ?_
  rw [Inode.Has, Inode.Has, (hinode j hj.1).2.1, (hinode j hj.1).2.2, marked, marked, hbitmap]

theorem allMarked_dataOnly (h : DataOnly s t) : t.AllMarked ↔ s.AllMarked :=
  allMarked_congr h.bitmap fun j hj => by rw [h.inode hj]; exact ⟨rfl, rfl, rfl⟩

variable {i : ℕ} (hs : s.AllMarked) (hother : ∀ j < 512, j ≠ i → t.inode j = s.inode j)
include hs hother

/-- bits may be added while the other inodes stay -/
theorem AllMarked.grown (hkeep : ∀ b, s.bitmap b = true → t.bitmap b = true)
    (hown : t.live i → ∀ lba, (t.inode i).Has lba → t.marked lba) : t.AllMarked := by
  intro j hj lba hlba
  by_cases hji : j = i
  · subst hji
    exact hown hj lba hlba
  · rw [hother j hj.1 hji] at hlba
    have hlive : s.live j := ⟨hj.1, hother j hj.1 hji ▸ hj.2⟩
    obtain ⟨hge, hlt, hbit⟩ := hs j hlive lba hlba
    exact ⟨hge, hlt, hkeep _ hbit⟩

variable (hclear : ∀ lba, (s.inode i).Has lba → t.bitmap (lba - 428) = false)
include hclear

/-- an inode's sectors are released and its slot is in order: exactly the inodes that share a sector lose a mark -/
theorem AllMarked.released (hkeep : ∀ lba, 428 ≤ lba → ¬ (s.inode i).Has lba → s.bitmap (lba - 428) = true →
      t.bitmap (lba - 428) = true) (hown : t.live i → ∀ lba, (t.inode i).Has lba → t.marked lba) :
    t.AllMarked ↔ s.Alone i := by
  refine ⟨fun ht k hk hki lba hlba hshared => ?_, fun halone j hj lba hlba => ?_⟩
  · have hlive : t.live k := ⟨hk.1, (hother k hk.1 hki).symm ▸ hk.2⟩
    have hmark := (ht k hlive lba ((hother k hk.1 hki).symm ▸ hlba)).2.2
    rw [hclear lba hshared] at hmark
    exact Bool.false_ne_true hmark
  · by_cases hji : j = i
    · subst hji
      exact hown hj lba hlba
    · rw [hother j hj.1 hji] at hlba
      have hlive : s.live j := ⟨hj.1, hother j hj.1 hji ▸ hj.2⟩
      obtain ⟨hge, hlt, hbit⟩ := hs j hlive lba hlba
      exact ⟨hge, hlt, hkeep lba hge (halone j hlive hji lba hlba) hbit⟩

end

/-- an inode in use whose sectors were released -/
theorem not_allMarked {s t : FsState} {i : ℕ} (hi : s.live i) (hcount : (s.inode i).blockCount ≠ 0)
    (hsame : t.inode i = s.inode i) (hclear : ∀ lba, (s.inode i).Has lba → t.bitmap (lba - 428) = false) :
    ¬ t.AllMarked := by
  intro ht
  have hpos : (s.inode i).blockCount.toNat ≠ 0 := fun h0 => hcount (UInt32.toNat_inj.1 h0)
  have hfirst : (s.inode i).Has (s.inode i).startBlock.toNat := ⟨le_rfl, by omega⟩
  have hlive : t.live i := by rwa [live, hsame]
  have hmark := ht i hlive (s.inode i).startBlock.toNat (by rwa [hsame])
  exact Bool.false_ne_true ((hclear _ hfirst).symm.trans hmark.2.2)

end FsState

variable {x y : Inode} {lba idx need : ℕ} {s u : FsState}

theorem Inode.InBitmap.mem_extent (h : x.InBitmap) (hlba : 428 ≤ lba) :
    lba - 428 ∈ x.extent ↔ x.Has lba := by
  have := h.1
  rw [Inode.mem_extent, Inode.Has]
  omega

/-- the release loops clear the bits of the inode's sectors and no others -/
theorem bmClrRun_inBitmap (s : FsState) (h : x.InBitmap) :
    (bmClrRun (sub32 x.startBlock.toNat fsDataStart) x.blockCount.toNat : StateM FsState _) s =
      ((), { s with bitmap := mark s.bitmap x.extent false }) := by
  have hbits : bitmapBits = 7776 := rfl
  have hend := h.2
  exact bmClrRun_extent s x h.1 (by omega)

theorem Inode.InBitmap.released (h : x.InBitmap) (bm : ℕ → Bool) (hlba : x.Has lba) :
    mark bm x.extent false (lba - 428) = false :=
  if_pos ((h.mem_extent (h.1.trans hlba.1)).2 hlba)

theorem Inode.InBitmap.kept (h : x.InBitmap) (bm : ℕ → Bool) (hge : 428 ≤ lba) (hlba : ¬ x.Has lba) :
    mark bm x.extent false (lba - 428) = bm (lba - 428) :=
  if_neg fun hmem => hlba ((h.mem_extent hge).1 hmem)

/-- the inode write after a release: where it fails, an inode in use still names the released sectors -/
theorem inodeWrite_marks (hs : s.AllMarked) {i : ℕ} (hi : i < 512) (hcount : (s.inode i).blockCount ≠ 0)
    (hin : (s.inode i).InBitmap) (htable : ∀ j < 512, u.inode j = s.inode j) {bm : ℕ → Bool}
    (hbitmap : u.bitmap = mark bm (s.inode i).extent false) (hbm : ∀ b, s.bitmap b = true → bm b = true)
    (hy : y.type ≠ 0 → (s.inode i).type ≠ 0 ∧ ∀ lba, y.Has lba → u.marked lba) :
    ((inodeWrite i y : StateM FsState _) u).2.AllMarked ↔
      s.Alone i ∧ ((s.inode i).type ≠ 0 → u.faultAt 0 = false ∧ u.faultAt 1 = false) := by
  have hclear (lba : ℕ) (hlba : (s.inode i).Has lba) : u.bitmap (lba - 428) = false := by
    rw [hbitmap]
    exact hin.released bm hlba
  have hkeep (lba : ℕ) (hge : 428 ≤ lba) (hlba : ¬ (s.inode i).Has lba) (hbit : s.bitmap (lba - 428) = true) :
      u.bitmap (lba - 428) = true := by
    rw [hbitmap, hin.kept bm hge hlba]
    exact hbm _ hbit
  -- a failed write leaves the table as it was
  have hfailed (n : ℕ) (hfault : ¬ (u.faultAt 0 = false ∧ u.faultAt 1 = false)) : (u.after n).AllMarked ↔
      s.Alone i ∧ ((s.inode i).type ≠ 0 → u.faultAt 0 = false ∧ u.faultAt 1 = false) := by
    by_cases htype : (s.inode i).type = 0
    · have hfree : ¬ (u.after n).live i := fun hl => hl.2 ((congrArg Inode.type (htable i hi)).trans htype)
      refine (hs.released (t := u.after n) (fun j hj _ => htable j hj) hclear hkeep fun hl => absurd hl hfree).trans ?_
      exact (and_iff_left fun hne => absurd htype hne).symm
    · exact iff_of_false (FsState.not_allMarked ⟨hi, htype⟩ hcount (htable i hi) hclear) fun h => hfault (h.2 htype)
  rw [inodeWrite_at u hi]
  split_ifs with h0 h1
  · exact hfailed 1 fun h => absurd (h.1.symm.trans h0) Bool.false_ne_true
  · exact hfailed 2 fun h => absurd (h.2.symm.trans h1) Bool.false_ne_true
  · have hother (j : ℕ) (hj : j < 512) (hji : j ≠ i) : ((u.after 2).setInode i y).inode j = s.inode j := by
      rw [FsState.inode_setInode, if_neg hji]
      exact htable j hj
    have hslot : ((u.after 2).setInode i y).inode i = y := by rw [FsState.inode_setInode, if_pos rfl]
    rw [hs.released hother hclear hkeep fun hl => ?_]
    · exact (and_iff_left fun _ => ⟨Bool.eq_false_iff.2 h0, Bool.eq_false_iff.2 h1⟩).symm
    · rw [FsState.live, hslot] at hl
      rw [hslot]
      exact (hy hl.2).2

/-! ## Deleting -/

/-- **`fs_delete` on a failing disk.** -/
theorem fsDelete_marks (hs : s.AllMarked) (p : CStr) :
    ((fsDelete p.arg : StateM FsState _) s).2.AllMarked ↔ s.DeleteSafe p.bytes := by
  have hfound := fsFind_at s p
  have hsame (n : ℕ) : (s.after n).AllMarked := (FsState.allMarked_dataOnly (.after s n)).2 hs
  unfold fsDelete
  cases hfind : s.findAt p.bytes with
  | none =>
    rw [hfind] at hfound
    rw [run_bind hfound]
    exact iff_of_true (hsame 512) fun i hi => absurd (hfind.symm.trans hi) (by simp)
  | some i =>
    have hlive := FsState.findAt_some hfind
    have hsafe : s.DeleteSafe p.bytes ↔ (s.faultAt (i + 1) = false → (s.inode i).type ≠ fsTypeDir →
        (s.inode i).blockCount ≠ 0 → s.Alone i ∧ s.faultAt (i + 2) = false ∧ s.faultAt (i + 3) = false) :=
      ⟨fun h => h i hfind, fun h j hj => Option.some.inj (hfind.symm.trans hj) ▸ h⟩
    have hread := inodeRead_at (s.after (i + 1)) hlive.1
    rw [FsState.after_faultAt, FsState.after_after, FsState.after_inode, Nat.add_zero] at hread
    rw [hfind] at hfound
    rw [run_bind hfound, hsafe]
    by_cases h1 : s.faultAt (i + 1)
    · rw [if_pos h1] at hread
      dsimp only
      rw [run_bind hread]
      exact iff_of_true (hsame _) fun hf => absurd (hf.symm.trans h1) Bool.false_ne_true
    rw [if_neg h1] at hread
    dsimp only
    rw [run_bind hread]
    by_cases hdir : (s.inode i).type = fsTypeDir
    · simp only [ite_run, if_pos hdir]
      exact iff_of_true (hsame _) fun _ hne => absurd hdir hne
    simp only [ite_run, if_neg hdir]
    by_cases hcount : (s.inode i).blockCount = 0
    · rw [if_neg (not_not.2 hcount), inodeWrite_at _ hlive.1, FsState.after_after, FsState.after_after]
      refine iff_of_true ?_ fun _ _ hne => absurd hcount hne
      split_ifs
      · exact hsame _
      · exact hsame _
      · refine hs.grown (i := i) (fun j _ hji => ?_) (fun b hb => hb) fun hl => ?_
        · rw [FsState.inode_setInode, if_neg hji]
          rfl
        · rw [FsState.live, FsState.inode_setInode, if_pos rfl] at hl
          exact absurd rfl hl.2
    · have hin := hs.inBitmap hlive hcount
      let u : FsState := { s.after (i + 2) with bitmap := mark s.bitmap (s.inode i).extent false }
      have hfault (n : ℕ) : u.faultAt n = s.faultAt (i + 2 + n) := s.after_faultAt (i + 2) n
      have hwrite := inodeWrite_marks (u := u) (y := Inode.zero) hs hlive.1 hcount hin (fun _ _ => rfl) rfl
        (fun b hb => hb) fun h => absurd rfl h
      rw [hfault, hfault] at hwrite
      rw [if_pos hcount, run_bind (bmClrRun_inBitmap _ hin)]
      refine hwrite.trans ⟨fun h _ _ _ => ⟨h.1, h.2 hlive.2⟩, fun h => ?_⟩
      obtain ⟨halone, hwritten⟩ := h (Bool.eq_false_iff.2 h1) hdir hcount
      exact ⟨halone, fun _ => hwritten⟩

/-! ## Writing -/

/-- storing an inode that names the same sectors leaves the marks alone -/
theorem inodeWrite_resized {i : ℕ} (hi : i < 512) (htype : y.type = (s.inode i).type)
    (hstart : y.startBlock = (s.inode i).startBlock) (hcount : y.blockCount = (s.inode i).blockCount) :
    ((inodeWrite i y : StateM FsState _) s).2.AllMarked ↔ s.AllMarked := by
  rw [inodeWrite_at s hi]
  split_ifs
  · exact FsState.allMarked_dataOnly (.after s 1)
  · exact FsState.allMarked_dataOnly (.after s 2)
  · refine FsState.allMarked_congr rfl fun j _ => ?_
    rw [FsState.inode_setInode, FsState.after_inode]
    split_ifs with hji
    · exact hji ▸ ⟨htype, hstart, hcount⟩
    · exact ⟨rfl, rfl, rfl⟩

/-- the data part of a write leaves the marks alone, whatever fails -/
theorem putData_marks {t : FsState} (hge : 428 ≤ x.startBlock.toNat) (hlt : x.startBlock.toNat < 16384)
    (hi : idx < 512) (hx : t.inode idx = x) (inp : ℕ → ℕ → List UInt8) (fd : Fin 8) (off len : ℕ) :
    ((putData (fun o n => pure (inp o n)) fd idx off len x : StateM FsState _) t).2.AllMarked ↔ t.AllMarked := by
  have hloop := writeLoop_dataOnly inp hge hlt off len 0 (fun _ => 0) t
  unfold putData
  rw [bind_apply]
  generalize (writeLoop (fun o n => pure (inp o n)) x.startBlock.toNat off len 0 fun _ => 0 : StateM FsState _) t = r
    at hloop ⊢
  obtain ⟨ok, u⟩ := r
  cases ok with
  | false => exact FsState.allMarked_dataOnly hloop
  | true =>
    let v := u.setFd fd ⟨some idx, UInt32.ofNat (off + len)⟩
    have hv : DataOnly t v := ⟨hloop.bitmap, hloop.below⟩
    have hslot : v.inode idx = x := (hv.inode hi).trans hx
    have hset : (setFd fd ⟨some idx, UInt32.ofNat (off + len)⟩ : StateM FsState _) u = ((), v) := rfl
    simp only [Bool.not_true, Bool.false_eq_true, if_false]
    rw [run_bind hset, bind_apply]
    refine (inodeWrite_resized hi ?_ ?_ ?_).trans (FsState.allMarked_dataOnly hv) <;> rw [hslot] <;> split_ifs <;> rfl

/-- how the allocation part of a write can end: with nothing changed but data sectors, with the first run of an empty
file, or with the file moved and its old sectors released -/
inductive Grown (s : FsState) (x : Inode) (need : ℕ) : Option Inode → FsState → Prop
  | refused (t : FsState) (hdata : DataOnly s t) (hno : ¬ s.Copies x need) : Grown s x need none t
  | first (rel : ℕ) (hcount : x.blockCount = 0) (hfit : firstFit s.bitmap s.dataSectorCount need = some rel) :
    Grown s x need (some (x.moved rel need)) { s with bitmap := mark s.bitmap ⟨rel, need⟩ true }
  | moved (rel : ℕ) (t : FsState) (hcopies : s.Copies x need)
    (hfit : firstFit s.bitmap s.dataSectorCount need = some rel)
    (hdata : DataOnly { s with bitmap := mark (mark s.bitmap ⟨rel, need⟩ true) x.extent false } t)
    (hfaults : t.faults = s.faults.drop (2 * x.blockCount.toNat)) : Grown s x need (some (x.moved rel need)) t

theorem mark_undo {bm : ℕ → Bool} {e : Extent} (h : ∀ b ∈ e, bm b = false) : mark (mark bm e true) e false = bm := by
  funext b
  by_cases hb : b ∈ e
  · rw [mark, if_pos hb, h b hb]
  · rw [mark, if_neg hb, mark, if_neg hb]

theorem growInode_at (s : FsState) (hbits : s.dataSectorCount ≤ bitmapBits) (hx : x.blockCount ≠ 0 → x.InBitmap)
    (hneed : x.blockCount.toNat < need) :
    Grown s x need ((growInode x need : StateM FsState _) s).1 ((growInode x need : StateM FsState _) s).2 := by
  have h7776 : bitmapBits = 7776 := rfl
  have halloc := bmAlloc_run s need (by omega)
  unfold growInode
  cases hfit : firstFit s.bitmap s.dataSectorCount need with
  | none =>
    simp only [hfit] at halloc
    rw [ite_run, run_bind halloc, run_bind halloc]
    simp only [ite_self]
    exact .refused s (.refl s) fun h => by simpa [hfit] using h.fit
  | some rel =>
    obtain ⟨hend, hclear⟩ := firstFit_sound hfit
    simp only [hfit] at halloc
    rw [ite_run, run_bind halloc, run_bind halloc]
    dsimp only
    by_cases hcount : x.blockCount = 0
    · rw [if_pos hcount]
      exact .first rel hcount hfit
    rw [if_neg hcount]
    have hcopy := copySectors_at x.startBlock.toNat (Nat.le_add_right 428 rel) x.blockCount.toNat 0 (by omega)
      { s with bitmap := mark s.bitmap ⟨rel, need⟩ true }
    rw [bind_apply]
    generalize (copySectors x.startBlock.toNat (428 + rel) x.blockCount.toNat 0 : StateM FsState _)
      { s with bitmap := mark s.bitmap ⟨rel, need⟩ true } = r at hcopy ⊢
    obtain ⟨ok, t⟩ := r
    obtain ⟨hdata, hok, hfaults⟩ := hcopy
    cases ok with
    | false =>
      have hno : ¬ s.Copies x need := fun h => absurd (hok.2 h.accesses) Bool.false_ne_true
      simp only [Bool.not_false, if_true]
      rw [run_bind (bmClrRun_run t rel need (by omega))]
      refine .refused _ ⟨?_, hdata.below⟩ hno
      show mark t.bitmap _ false = s.bitmap
      rw [hdata.bitmap, mark_undo hclear]
    | true =>
      have hcopies : s.Copies x need := ⟨hcount, by rw [hfit]; rfl, hok.1 rfl⟩
      simp only [Bool.not_true, Bool.false_eq_true, if_false]
      rw [run_bind (bmClrRun_inBitmap t (hx hcount))]
      refine .moved rel _ hcopies hfit ⟨?_, hdata.below⟩ (hfaults rfl)
      show mark t.bitmap _ false = _
      rw [hdata.bitmap]

/-- where a moved inode is -/
theorem moved_inBitmap (hbits : s.dataSectorCount ≤ bitmapBits) {rel : ℕ}
    (hfit : firstFit s.bitmap s.dataSectorCount need = some rel) (x : Inode) :
    (x.moved rel need).startBlock.toNat = 428 + rel ∧ (x.moved rel need).blockCount.toNat = need ∧
      rel + need ≤ bitmapBits := by
  have hend := (firstFit_sound hfit).1
  have h7776 : bitmapBits = 7776 := rfl
  refine ⟨?_, ?_, hend.trans hbits⟩
  · exact UInt32.toNat_ofNat_of_lt' (show _ < 4294967296 by omega)
  · exact UInt32.toNat_ofNat_of_lt' (show _ < 4294967296 by omega)

/-- what follows the inode write of a grown file leaves the marks alone -/
theorem afterInodeWrite_marks (hge : 428 ≤ y.startBlock.toNat) (hlt : y.startBlock.toNat < 16384) (hi : idx < 512)
    (inp : ℕ → ℕ → List UInt8) (fd : Fin 8) (offset : UInt32) (len : ℕ) :
    ((do
      if !(← inodeWrite idx y) then
        setFd fd ⟨none, offset⟩
        return none
      putData (fun o n => pure (inp o n)) fd idx offset.toNat len y : StateM FsState (Option ℕ)) u).2.AllMarked ↔
      ((inodeWrite idx y : StateM FsState _) u).2.AllMarked := by
  have hwrite := inodeWrite_at u hi y
  by_cases h0 : u.faultAt 0
  · rw [if_pos h0] at hwrite
    rw [run_bind hwrite, hwrite]
    exact Iff.rfl
  rw [if_neg h0] at hwrite
  by_cases h1 : u.faultAt 1
  · rw [if_pos h1] at hwrite
    rw [run_bind hwrite, hwrite]
    exact Iff.rfl
  rw [if_neg h1] at hwrite
  rw [run_bind hwrite, hwrite]
  have hstored : ((u.after 2).setInode idx y).inode idx = y := by rw [FsState.inode_setInode, if_pos rfl]
  exact putData_marks hge hlt hi hstored inp fd offset.toNat len

/-- the sectors of a moved inode are marked where its run was marked and is not released -/
theorem moved_marked (hbits : s.dataSectorCount ≤ bitmapBits) {rel : ℕ}
    (hfit : firstFit s.bitmap s.dataSectorCount need = some rel)
    (hset : ∀ b ∈ (⟨rel, need⟩ : Extent), u.bitmap b = true) (lba : ℕ) (hlba : (x.moved rel need).Has lba) :
    u.marked lba := by
  obtain ⟨hstart, hblocks, hend⟩ := moved_inBitmap hbits hfit x
  obtain ⟨hle, hlt⟩ := hlba
  exact ⟨by omega, by omega, hset _ (Extent.mem_def.2 ⟨by simp only; omega, by simp only; omega⟩)⟩

section

variable {s u : FsState} (hs : s.AllMarked) {idx need : ℕ}
include hs

/-- a write that found no room or could not copy the file -/
theorem Grown.marks_none (h : Grown (s.after 1) (s.inode idx) need none u) :
    u.AllMarked ∧ ¬ (s.after 1).Copies (s.inode idx) need := by
  cases h with
  | refused t hdata hno => exact ⟨(FsState.allMarked_dataOnly ((DataOnly.after s 1).trans hdata)).2 hs, hno⟩

/-- a write that has grown the file -/
theorem Grown.marks_some (hbits : s.dataSectorCount ≤ bitmapBits) (hi : idx < 512)
    (hx : (s.inode idx).blockCount ≠ 0 → (s.inode idx).InBitmap) {y : Inode}
    (h : Grown (s.after 1) (s.inode idx) need (some y) u) :
    428 ≤ y.startBlock.toNat ∧ y.startBlock.toNat < 16384 ∧ (((inodeWrite idx y : StateM FsState _) u).2.AllMarked ↔
      ((s.after 1).Copies (s.inode idx) need → s.Alone idx ∧ ((s.inode idx).type ≠ 0 →
        s.faultAt (2 * (s.inode idx).blockCount.toNat + 1) = false ∧
          s.faultAt (2 * (s.inode idx).blockCount.toNat + 2) = false))) := by
  have h7776 : bitmapBits = 7776 := rfl
  generalize hr : some y = r at h
  cases h with
  | refused => exact absurd hr (by simp)
  | first rel hcount hfit =>
    obtain rfl := Option.some.inj hr
    obtain ⟨hstart, -, hend⟩ := moved_inBitmap (s := s.after 1) hbits hfit (s.inode idx)
    refine ⟨by omega, by omega, iff_of_true ?_ fun h => absurd hcount h.count⟩
    have hkeep (b : ℕ) (hb : s.bitmap b = true) : mark s.bitmap ⟨rel, need⟩ true b = true := by rw [mark, hb, ite_self]
    -- until the inode is written, the file on disk is still empty
    have hempty (t : FsState) (htable : ∀ j < 512, t.inode j = s.inode j) (ht : t.bitmap = mark s.bitmap ⟨rel, need⟩ true) :
        t.AllMarked := by
      refine hs.grown (i := idx) (fun j hj _ => htable j hj) (fun b hb => ht ▸ hkeep b hb) fun _ lba hlba => ?_
      rw [htable idx hi, Inode.Has, hcount, UInt32.toNat_zero] at hlba
      omega
    rw [inodeWrite_at _ hi]
    split_ifs
    · exact hempty _ (fun _ _ => rfl) rfl
    · exact hempty _ (fun _ _ => rfl) rfl
    · refine hs.grown (i := idx) (fun j _ hj => ?_) hkeep fun _ lba hlba => ?_
      · rw [FsState.inode_setInode, if_neg hj]
        rfl
      · rw [FsState.inode_setInode, if_pos rfl] at hlba
        exact moved_marked (s := s.after 1) hbits hfit (fun b hb => if_pos hb) lba hlba
  | moved rel t hcopies hfit hdata hfaults =>
    obtain rfl := Option.some.inj hr
    obtain ⟨hstart, -, hend⟩ := moved_inBitmap (s := s.after 1) hbits hfit (s.inode idx)
    refine ⟨by omega, by omega, ?_⟩
    have hin := hx hcopies.count
    have hfault (n : ℕ) : u.faultAt n = s.faultAt (2 * (s.inode idx).blockCount.toNat + 1 + n) := by
      rw [Nat.add_comm _ 1, ← s.after_faultAt, ← FsState.after_after]
      simp only [FsState.faultAt, hfaults, FsState.after]
    -- the old sectors of a file in use were marked, so the new run has none of them
    have hfresh (htype : (s.inode idx).type ≠ 0) (b : ℕ) (hb : b ∈ (⟨rel, need⟩ : Extent)) : u.bitmap b = true := by
      have hold : b ∉ (s.inode idx).extent := fun hmem => by
        have hlba : (s.inode idx).Has (b + 428) := by
          rw [← hin.mem_extent (by omega), Nat.add_sub_cancel]
          exact hmem
        have hmark := (hs idx ⟨hi, htype⟩ _ hlba).2.2
        rw [Nat.add_sub_cancel] at hmark
        exact Bool.false_ne_true (((firstFit_sound hfit).2 b hb).symm.trans hmark)
      rw [hdata.bitmap]
      exact (if_neg hold).trans (if_pos hb)
    have hwrite := inodeWrite_marks hs hi hcopies.count hin (fun j hj => hdata.inode hj) hdata.bitmap
      (fun b hb => by rw [mark, FsState.after_bitmap, hb, ite_self]) (y := (s.inode idx).moved rel need)
      fun htype => ⟨htype, moved_marked (s := s.after 1) hbits hfit (hfresh htype)⟩
    rw [hwrite, hfault, hfault]
    exact ⟨fun h _ => h, fun h => h hcopies⟩

end

theorem writeSafe_iff {fd : ℤ} {len : ℕ} {f : Fin 8} (hfd : fdSlot fd = some f)
    (hidx : (s.fds f).inodeIdx = some idx) : s.WriteSafe fd len ↔ (len ≠ 0 → idx < 512 → s.faultAt 0 = false →
      (s.inode idx).blockCount.toNat < s.needSects f len → (s.after 1).Copies (s.inode idx) (s.needSects f len) →
      s.Alone idx ∧ ((s.inode idx).type ≠ 0 → s.faultAt (2 * (s.inode idx).blockCount.toNat + 1) = false ∧
        s.faultAt (2 * (s.inode idx).blockCount.toNat + 2) = false)) := by
  refine ⟨fun h hlen hslot hread hgrow hcopies => h idx ⟨hlen, hslot, hread, f, hfd, hidx, hgrow, hcopies⟩,
    fun h idx' hm => ?_⟩
  obtain ⟨f', hf, hi, hgrow, hcopies⟩ := hm.grows
  obtain rfl : f = f' := Option.some.inj (hfd.symm.trans hf)
  obtain rfl : idx = idx' := Option.some.inj (hidx.symm.trans hi)
  exact h hm.nonempty hm.slot hm.read hgrow hcopies

/-- **`fs_write` on a failing disk.** -/
theorem fsWrite_marks (hs : s.AllMarked) {fd : ℤ} {len : ℕ} (hreg : s.Regular fd len) (inp : ℕ → ℕ → List UInt8) :
    ((fsWrite (fun o n => pure (inp o n)) fd len : StateM FsState _) s).2.AllMarked ↔ s.WriteSafe fd len := by
  have hget : (getFs : StateM FsState _) s = (s, s) := rfl
  have h7776 : bitmapBits = 7776 := rfl
  have hsame (n : ℕ) : (s.after n).AllMarked := (FsState.allMarked_dataOnly (.after s n)).2 hs
  unfold fsWrite
  cases hfd : fdSlot fd with
  | none =>
    refine iff_of_true hs fun idx hm => ?_
    obtain ⟨f, hf, -⟩ := hm.grows
    exact absurd (hfd.symm.trans hf) (by simp)
  | some f =>
  dsimp only
  rw [run_bind hget]
  cases hidx : (s.fds f).inodeIdx with
  | none =>
    refine iff_of_true hs fun idx hm => ?_
    obtain ⟨f', hf, hi, -⟩ := hm.grows
    obtain rfl : f = f' := Option.some.inj (hfd.symm.trans hf)
    exact absurd (hidx.symm.trans hi) (by simp)
  | some idx =>
  rw [writeSafe_iff hfd hidx]
  dsimp only
  by_cases hlen : len = 0
  · rw [if_pos hlen]
    exact iff_of_true hs fun hne => absurd hlen hne
  rw [if_neg hlen]
  by_cases hslot : idx < 512
  swap
  · have hread : (inodeRead idx : StateM FsState _) s = (none, s) := by
      rw [inodeRead, if_pos (not_lt.1 hslot)]
      rfl
    rw [run_bind hread]
    exact iff_of_true hs fun _ hlt => absurd hlt hslot
  have hread := inodeRead_at s hslot
  by_cases h0 : s.faultAt 0
  · rw [if_pos h0] at hread
    rw [run_bind hread]
    exact iff_of_true (hsame 1) fun _ _ hf => absurd (hf.symm.trans h0) Bool.false_ne_true
  rw [if_neg h0] at hread
  rw [run_bind hread]
  have hx : (s.inode idx).blockCount ≠ 0 → (s.inode idx).InBitmap := fun hcount => by
    by_cases htype : (s.inode idx).type = 0
    · exact hreg.freed f idx hfd hidx htype hcount
    · exact hs.inBitmap ⟨hslot, htype⟩ hcount
  rw [← FsState.needSects]
  simp only [ite_run]
  by_cases hgrow : (s.inode idx).blockCount.toNat < s.needSects f len
  swap
  · rw [if_neg hgrow]
    have hcount : (s.inode idx).blockCount ≠ 0 := fun hc => by
      have hneed := hreg.span f idx hfd hidx hc
      rw [hc, UInt32.toNat_zero] at hgrow
      omega
    obtain ⟨hge, hend⟩ := hx hcount
    have hput := putData_marks hge (by omega) hslot (s.after_inode 1 idx) inp f (s.fds f).offset.toNat len
    exact iff_of_true (hput.2 (hsame 1)) fun _ _ _ hlt => absurd hlt hgrow
  rw [if_pos hgrow, bind_apply]
  have hgrown := growInode_at (s.after 1) hreg.bits hx hgrow
  generalize (growInode (s.inode idx) (s.needSects f len) : StateM FsState _) (s.after 1) = r at hgrown ⊢
  obtain ⟨_ | y, u⟩ := r
  · obtain ⟨hu, hno⟩ := hgrown.marks_none hs
    exact iff_of_true hu fun _ _ _ _ hcopies => absurd hcopies hno
  · obtain ⟨hge, hlt, hwrite⟩ := hgrown.marks_some hs hreg.bits hslot hx
    refine ((afterInodeWrite_marks hge hlt hslot inp f (s.fds f).offset len).trans hwrite).trans ?_
    exact ⟨fun h _ _ _ _ => h, fun h => h hlen hslot (Bool.eq_false_iff.2 h0) hgrow⟩

/-! ## Both -/

/-- **I/O errors and the bitmap.** On every state in which all sectors of all inodes in use are marked, for every pattern of
failures: after `fs_delete` they are still marked exactly if it is `DeleteSafe`, and after `fs_write` through a regular
descriptor exactly if it is `WriteSafe`. -/
theorem marks_kept {s : FsState} (hs : s.AllMarked) :
    (∀ p : CStr, ((fsDelete p.arg : StateM FsState _) s).2.AllMarked ↔ s.DeleteSafe p.bytes) ∧
      ∀ (fd : ℤ) (len : ℕ) (inp : ℕ → ℕ → List UInt8), s.Regular fd len →
        (((fsWrite (fun o n => pure (inp o n)) fd len : StateM FsState _) s).2.AllMarked ↔ s.WriteSafe fd len) :=
  ⟨fsDelete_marks hs, fun _ _ inp hreg => fsWrite_marks hs hreg inp⟩

/-- /a, one sector long and open everywhere, on an otherwise empty disk -/
def oneFile (faults : List Bool) : FsState :=
  FsState.setInode ⟨fun _ _ => 0, fun b => b == 0, 7764, fun _ => ⟨some 0, 0⟩, faults⟩ 0
    { Inode.fresh [slash, 97] fsTypeFile with startBlock := 428, blockCount := 1 }

section

variable (faults : List Bool)

theorem oneFile_inode : (oneFile faults).inode 0 =
    { Inode.fresh [slash, 97] fsTypeFile with startBlock := 428, blockCount := 1 } := by
  rw [oneFile, FsState.inode_setInode, if_pos rfl]

theorem oneFile_live {j : ℕ} (h : (oneFile faults).live j) : j = 0 := by
  by_contra hj
  have htype := h.2
  rw [oneFile, FsState.inode_setInode, if_neg hj] at htype
  exact htype (by simp [FsState.inode, Inode.decode, Sector.byte])

theorem oneFile_allMarked : (oneFile faults).AllMarked := by
  intro j hj lba hlba
  rw [oneFile_live faults hj, oneFile_inode] at hlba
  obtain rfl : lba = 428 := by
    obtain ⟨hge, hlt⟩ := hlba
    exact le_antisymm (Nat.lt_succ_iff.1 hlt) hge
  exact ⟨le_rfl, by decide, rfl⟩

theorem oneFile_find (hread : (oneFile faults).faultAt 0 = false) : (oneFile faults).findAt [slash, 97] = some 0 := by
  have hname : (oneFile faults).nameAt 0 = [slash, 97] := by
    rw [FsState.nameAt, oneFile_inode]
    decide
  rw [FsState.findAt, List.range_succ_eq_map, List.find?_cons_of_pos]
  simp [hread, hname, oneFile_inode, Inode.fresh]

end

/-- the second access fails: /a is to be deleted and its inode cannot be read again, or it is to grow to two sectors and its
first one cannot be copied -/
theorem marks_kept_oneFile :
    let s := oneFile [false, true]
    s.AllMarked ∧ s.Regular 0 513 ∧ s.findAt [slash, 97] = some 0 ∧
      ((fsDelete (StrArg.ofBytes [slash, 97]) : StateM FsState _) s).2.AllMarked ∧
      ((fsWrite (fun _ n => pure (List.replicate n 98)) 0 513 : StateM FsState _) s).2.AllMarked := by
  intro s
  have hs : s.AllMarked := oneFile_allMarked _
  have hslot (f : Fin 8) (idx : ℕ) (hidx : (s.fds f).inodeIdx = some idx) : idx = 0 := (Option.some.inj hidx).symm
  have hreg : s.Regular 0 513 := by
    refine ⟨by decide, fun f idx _ hidx htype => ?_, fun f idx _ hidx hcount => ?_⟩
    · rw [hslot f idx hidx, oneFile_inode] at htype
      exact absurd htype (by decide)
    · rw [hslot f idx hidx, oneFile_inode] at hcount
      exact absurd hcount (by decide)
  have hfails : s.faultAt 1 = true := rfl
  obtain ⟨hdelete, hwrite⟩ := marks_kept hs
  refine ⟨hs, hreg, oneFile_find _ rfl, (hdelete ⟨[slash, 97], by decide⟩).2 ?_,
    (hwrite 0 513 (fun _ n => List.replicate n 98) hreg).2 ?_⟩
  · intro i hfind hread
    rw [oneFile_live _ (FsState.findAt_some hfind)] at hread
    exact absurd hread (by rw [hfails]; decide)
  · intro idx hm
    obtain ⟨f, -, hidx, -, hcopies⟩ := hm.grows
    have hcopied : s.faultAt 1 = false := hcopies.accesses 0 (by rw [hslot f idx hidx, oneFile_inode]; decide)
    exact absurd hcopied (by rw [hfails]; decide)

/-- /a is deleted, and only the last access fails, the write of its inode: the file is still there, on a free sector -/
theorem delete_error_frees_live :
    let s := oneFile [false, false, false, true]
    s.AllMarked ∧ ¬ ((fsDelete (StrArg.ofBytes [slash, 97]) : StateM FsState _) s).2.AllMarked := by
  intro s
  have hs : s.AllMarked := oneFile_allMarked _
  refine ⟨hs, fun h => ?_⟩
  have hsafe := (fsDelete_marks hs ⟨[slash, 97], by decide⟩).1 h 0 (oneFile_find _ rfl) rfl
  rw [oneFile_inode] at hsafe
  have hwritten : true = false := (hsafe (by decide) (by decide)).2.2
  exact Bool.false_ne_true hwritten.symm

end GannetOS.Filesys
