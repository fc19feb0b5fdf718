/-
What `fs_rrmdr` leaves behind: inodes and allocation bitmap.

On a table with unique names, existing parents and marked, disjoint extents (`Layout`), `fs_rrmdr` of a directory frees
exactly the inodes at the path or below it, at any depth. In the bitmap it clears the sectors of the files among them and
nothing else (`Removes.bitmap`). A directory's own sectors are never released, since `fs_rrmdr` only zeroes its inode.
- `rrmdr_removes_subtree_iff`: so exactly the sectors of the freed inodes are cleared if and only if no directory among
  them has sectors.
- `rrmdr_keeps_dir_sectors`: a directory gets sectors by a write through a descriptor that is still open on the deleted
  file whose slot it took; `fs_rrmdr` of it then leaks them.
-/
import GannetOS.Filesys.Identity
import GannetOS.Filesys.Namespace

namespace GannetOS.Filesys

open GannetOS.Core FsState

/-! ## What removals do to the bitmap -/

namespace FsState

theorem live_remove {s : FsState} {i j : ℕ} : (s.remove i).live j ↔ j ≠ i ∧ s.live j := by
  refine ⟨live_of_remove, fun ⟨hne, hj⟩ => ⟨hj.1, ?_⟩⟩
  rw [remove_inode, if_neg hne]
  exact hj.2

theorem Removes.inode_eq {s t : FsState} (h : s.Removes t) {j : ℕ} (hj : t.live j) : t.inode j = s.inode j := by
  induction h with
  | refl => rfl
  | tail _ hstep ih =>
    obtain ⟨i, -, rfl⟩ := hstep
    obtain ⟨hne, hl⟩ := live_remove.1 hj
    rw [remove_inode, if_neg hne]
    exact ih hl

/-- bit `b` belongs to a file of `s` that is not in `t` -/
def fileGone (s t : FsState) (b : ℕ) : Prop :=
  ∃ j, s.live j ∧ ¬ t.live j ∧ (s.inode j).type ≠ fsTypeDir ∧ b ∈ (s.inode j).extent

/-- one more inode is removed: its bits count if it is a file -/
theorem fileGone_remove {s t : FsState} {i : ℕ} (hs : s.live i) (b : ℕ) :
    fileGone s (t.remove i) b ↔ fileGone s t b ∨ ((s.inode i).type ≠ fsTypeDir ∧ b ∈ (s.inode i).extent) := by
  constructor
  · rintro ⟨j, hj, hgone, hfile, hb⟩
    by_cases hji : j = i
    · rw [hji] at hfile hb
      exact .inr ⟨hfile, hb⟩
    · exact .inl ⟨j, hj, fun htj => hgone (live_remove.2 ⟨hji, htj⟩), hfile, hb⟩
  · rintro (⟨j, hj, hgone, hfile, hb⟩ | ⟨hfile, hb⟩)
    · exact ⟨j, hj, fun hl => hgone (live_remove.1 hl).2, hfile, hb⟩
    · exact ⟨i, hs, fun hl => (live_remove.1 hl).1 rfl, hfile, hb⟩

/-- **Removals clear the bits of the removed files, and no others.** -/
theorem Removes.bitmap {s t : FsState} (h : s.Removes t) (b : ℕ) :
    (fileGone s t b → t.bitmap b = false) ∧ (¬ fileGone s t b → t.bitmap b = s.bitmap b) := by
  induction h with
  | refl => exact ⟨fun ⟨_, hj, hgone, _⟩ => absurd hj hgone, fun _ => rfl⟩
  | @tail u v hrun hstep ih =>
    obtain ⟨i, hi, rfl⟩ := hstep
    have hsame : u.inode i = s.inode i := Removes.inode_eq hrun hi
    rw [fileGone_remove (Removes.live_of hrun hi) b, remove, hsame]
    split_ifs with hdir
    · -- a directory: the bitmap stays
      have hiff : (fileGone s u b ∨ (s.inode i).type ≠ fsTypeDir ∧ b ∈ (s.inode i).extent) ↔ fileGone s u b :=
        or_iff_left fun hf => hf.1 hdir
      rw [hiff]
      exact ih
    · rw [dropFile_bitmap, hsame, mark]
      split_ifs with hb
      · exact ⟨fun _ => rfl, fun hno => absurd (.inr ⟨hdir, hb⟩) hno⟩
      · have hiff : (fileGone s u b ∨ (s.inode i).type ≠ fsTypeDir ∧ b ∈ (s.inode i).extent) ↔ fileGone s u b :=
          or_iff_left fun hf => hb hf.2
        rw [hiff]
        exact ih

end FsState

/-! ## The subtree -/

/-- unique names, existing parents, and sectors of the data area that are marked and shared by no two inodes -/
structure Layout (s : FsState) : Prop extends Nested s where
  faults : s.faults = []
  inData : ∀ i, s.live i → (s.inode i).InData
  marked : ∀ i b, s.live i → b ∈ (s.inode i).extent → s.bitmap b = true
  disjoint : ∀ i j b, s.live i → s.live j → b ∈ (s.inode i).extent → b ∈ (s.inode j).extent → i = j

theorem Layout.ready {s : FsState} (h : Layout s) : s.Ready := ⟨h.faults, h.inData⟩

theorem Sound.layout {s : FsState} (h : Sound s) (hnames : Nested s) : Layout s where
  toNested := hnames
  faults := h.faults
  inData i hi := (h.placed i (.inl hi)).range
  marked i b hi hb := h.marked (.inl hi) hb
  disjoint i j b hi hj hbi hbj := by
    by_contra hne
    exact h.owned.disjoint i j hne b (mem_owner.2 ⟨.inl hi, hbi⟩) (mem_owner.2 ⟨.inl hj, hbj⟩)

/-- `p` names a directory other than the root -/
def NamesDir (s : FsState) (p : List UInt8) : Prop :=
  p ≠ [slash] ∧ ∃ i, s.find p = some i ∧ (s.inode i).type = fsTypeDir

/-- the call succeeded, and exactly the inodes at `p` or below it are freed, with exactly their sectors -/
structure SubtreeRemoved (s : FsState) (p : List UInt8) (r : Bool × FsState) : Prop where
  ok : r.1 = true
  freed : ∀ j, s.below p j → r.2.inode j = Inode.zero
  kept : ∀ j, ¬ s.below p j → r.2.inode j = s.inode j
  cleared : ∀ j b, s.below p j → b ∈ (s.inode j).extent → r.2.bitmap b = false
  marked : ∀ b, (∀ j, s.below p j → b ∉ (s.inode j).extent) → r.2.bitmap b = s.bitmap b

section
variable {s : FsState} (h : Layout s) (p : CStr) (hdir : NamesDir s p.bytes)
include h hdir

/-- the bits that `fs_rrmdr` clears are those of the files at `p` or below it -/
theorem Layout.rrmdr_fileGone (b : ℕ) :
    fileGone s ((fsRrmdr p.arg : StateM FsState _) s).2 b ↔
      ∃ j, s.below p.bytes j ∧ (s.inode j).type ≠ fsTypeDir ∧ b ∈ (s.inode j).extent := by
  obtain ⟨hroot, i, hf, ht⟩ := hdir
  obtain ⟨t, hrun, hcut⟩ := fsRrmdr_prunes p h.ready h.toNested hf ht hroot
  rw [hrun]
  constructor
  · rintro ⟨j, hj, hgone, hfile, hb⟩
    refine ⟨j, ?_, hfile, hb⟩
    by_contra hbelow
    exact hgone (hcut.live_iff.2 ⟨hj, hbelow⟩)
  · rintro ⟨j, hbelow, hfile, hb⟩
    exact ⟨j, hbelow.1, fun hl => (hcut.live_iff.1 hl).2 hbelow, hfile, hb⟩

/-- a directory's sectors stay marked -/
theorem Layout.rrmdr_dir_marked {j b : ℕ} (hj : s.live j) (htype : (s.inode j).type = fsTypeDir)
    (hb : b ∈ (s.inode j).extent) : ((fsRrmdr p.arg : StateM FsState _) s).2.bitmap b = true := by
  rw [((fsRrmdr_removes p h.ready).bitmap b).2, h.marked j b hj hb]
  rw [h.rrmdr_fileGone p hdir]
  rintro ⟨k, hk, hfile, hbk⟩
  -- no file shares a sector with the directory
  rw [h.disjoint k j b hk.1 hj hbk hb] at hfile
  exact hfile htype

/-- without sectors of directories, the subtree is removed as a whole -/
theorem Layout.rrmdr_subtree
    (hempty : ∀ j, s.below p.bytes j → (s.inode j).type = fsTypeDir → (s.inode j).blockCount = 0) :
    SubtreeRemoved s p.bytes ((fsRrmdr p.arg : StateM FsState _) s) := by
  have hbits := (fsRrmdr_removes p h.ready).bitmap
  have hgone := h.rrmdr_fileGone p hdir
  obtain ⟨hroot, i, hf, ht⟩ := hdir
  obtain ⟨t, hrun, hcut⟩ := fsRrmdr_prunes p h.ready h.toNested hf ht hroot
  rw [hrun] at hbits hgone ⊢
  refine ⟨rfl, hcut.gone, hcut.kept, fun j b hj hb => ?_, fun b hb => ?_⟩
  · refine (hbits b).1 ((hgone b).2 ⟨j, hj, fun htype => ?_, hb⟩)
    rw [Inode.extent_of_zero (hempty j hj htype)] at hb
    exact Extent.not_mem_zero _ _ hb
  · exact (hbits b).2 fun hg => by
      obtain ⟨j, hj, -, hbj⟩ := (hgone b).1 hg
      exact hb j hj hbj

end

theorem Inode.exists_mem_extent {x : Inode} (h : x.blockCount ≠ 0) : ∃ b, b ∈ x.extent := by
  have hpos : x.blockCount.toNat ≠ 0 := fun h0 => h (UInt32.toNat_inj.1 h0)
  refine ⟨x.extent.start, ?_⟩
  rw [Inode.extent_eq, Extent.mem_def]
  constructor <;> simp only <;> omega

/-- **Recursive removal removes exactly the subtree**, if and only if no directory of the subtree has sectors. The
recursion depth of the model is never used up; a path that is no directory, or the root, is refused without effect. -/
theorem rrmdr_removes_subtree_iff (p : CStr) {s : FsState} (hs : Layout s) :
    (∀ d, (fsRrmdrDepth (130 + d) p.arg : StateM FsState _) s = (fsRrmdr p.arg : StateM FsState _) s) ∧
    (((NamesDir s p.bytes → SubtreeRemoved s p.bytes ((fsRrmdr p.arg : StateM FsState _) s)) ∧
        (¬ NamesDir s p.bytes → (fsRrmdr p.arg : StateM FsState _) s = (false, s))) ↔
      (NamesDir s p.bytes →
        ∀ j, s.below p.bytes j → (s.inode j).type = fsTypeDir → (s.inode j).blockCount = 0)) := by
  have hdepth : ∀ d, (fsRrmdrDepth (130 + d) p.arg : StateM FsState _) s = (fsRrmdr p.arg : StateM FsState _) s :=
    fun d => congrFun (fsRrmdr_eq_depth d p.bytes).symm s
  refine ⟨hdepth, ⟨fun ⟨hremoved, _⟩ hdir j hj htype => ?_, fun hempty => ⟨fun hdir => ?_, fun hno => ?_⟩⟩⟩
  · -- a sector of a directory would have to be cleared, and is not
    by_contra hsectors
    obtain ⟨b, hb⟩ := Inode.exists_mem_extent hsectors
    have hmarked := hs.rrmdr_dir_marked p hdir hj.1 htype hb
    rw [(hremoved hdir).cleared j b hj hb] at hmarked
    exact Bool.false_ne_true hmarked
  · exact hs.rrmdr_subtree p hdir (hempty hdir)
  · refine fsRrmdr_fails p hs.faults ?_
    by_cases hroot : p.bytes = [slash]
    · exact .inl hroot
    · exact .inr fun i hf ht => hno ⟨hroot, i, hf, ht⟩

/-! A disk with the directories /d and /d/e, and the file /d/e/f on one sector. -/

def nestedTable : List Inode :=
  [rootInode, .fresh [47, 100] fsTypeDir, .fresh [47, 100, 47, 101] fsTypeDir,
    { Inode.fresh [47, 100, 47, 101, 47, 102] fsTypeFile with startBlock := 428, blockCount := 1 }]

def nestedDisk : FsState :=
  (List.range 4).foldl (fun s i => s.setInode i (nestedTable.getD i Inode.zero))
    ⟨fun _ _ => 0, fun b => b == 0, 7764, fun _ => ⟨none, 0⟩, []⟩

theorem nestedDisk_inode {j : ℕ} (hj : j < 4) : nestedDisk.inode j = nestedTable.getD j Inode.zero := by
  interval_cases j <;> simp [nestedDisk, List.range_succ]

theorem nestedDisk_live {j : ℕ} (h : nestedDisk.live j) : j < 4 := by
  by_contra hj
  apply h.2
  simp only [nestedDisk, List.range_succ, List.range_zero, List.nil_append, List.cons_append, List.foldl_cons,
    List.foldl_nil, inode_setInode]
  rw [if_neg (by omega), if_neg (by omega), if_neg (by omega), if_neg (by omega)]
  simp [inode, Inode.decode, Sector.byte]

theorem nestedDisk_name {j : ℕ} (hj : j < 4) :
    nestedDisk.nameAt j = cstr (nestedTable.getD j Inode.zero).name.toList := by
  rw [nameAt, nestedDisk_inode hj]

theorem nestedDisk_tree : Tree nestedDisk := by
  refine ⟨?_, fun i hi => ?_, fun i j hi hj hij => ?_, fun i hi => ?_⟩
  · rw [nestedDisk_inode (by decide), nestedDisk_name (by decide)]
    decide
  · replace hi := nestedDisk_live hi
    rw [nestedDisk_inode hi]
    revert i
    decide
  · replace hi := nestedDisk_live hi
    replace hj := nestedDisk_live hj
    rw [nestedDisk_name hi, nestedDisk_name hj] at hij
    interval_cases i <;> interval_cases j <;> first | rfl | exact absurd hij (by decide)
  · have hi := nestedDisk_live hi
    have hparent : ∀ i < 4, ∃ j < 4, (nestedTable.getD j Inode.zero).type = fsTypeDir ∧
        cstr (nestedTable.getD j Inode.zero).name.toList =
          parentOf (cstr (nestedTable.getD i Inode.zero).name.toList) := by decide
    obtain ⟨j, hj, htype, hname⟩ := hparent i hi
    rw [← nestedDisk_inode hj] at htype
    rw [← nestedDisk_name hj, ← nestedDisk_name hi] at hname
    exact ⟨j, ⟨by omega, by rw [htype]; decide⟩, htype, hname⟩

theorem nestedDisk_layout : Layout nestedDisk := by
  have hfile {j b : ℕ} (hj : nestedDisk.live j) (hb : b ∈ (nestedDisk.inode j).extent) : j = 3 ∧ b = 0 := by
    have hj := nestedDisk_live hj
    rw [nestedDisk_inode hj, Inode.extent_eq, Extent.mem_def] at hb
    interval_cases j <;> simp [nestedTable, rootInode, Inode.fresh, Inode.zero] at hb ⊢
    omega
  refine ⟨nestedDisk_tree.nested, rfl, fun i hi => ?_, fun i b hi hb => ?_, fun i j b hi hj hbi hbj => ?_⟩
  · replace hi := nestedDisk_live hi
    rw [nestedDisk_inode hi]
    unfold Inode.InData
    revert i
    decide
  · rw [(hfile hi hb).2]
    rfl
  · rw [(hfile hi hbi).1, (hfile hj hbj).1]

/-- /d is removed with what is below it -/
theorem rrmdr_removes_subtree_iff_nested :
    let d : CStr := ⟨[47, 100], by decide⟩
    NamesDir nestedDisk d.bytes ∧ nestedDisk.below d.bytes 2 ∧ nestedDisk.below d.bytes 3 ∧
      (nestedDisk.inode 3).blockCount = 1 ∧
      SubtreeRemoved nestedDisk d.bytes ((fsRrmdr d.arg : StateM FsState _) nestedDisk) := by
  intro d
  have hlive (j : ℕ) (hj : j < 4) : nestedDisk.live j := ⟨by omega, by rw [nestedDisk_inode hj]; revert j; decide⟩
  have hdir : NamesDir nestedDisk d.bytes :=
    ⟨by decide, 1, nestedDisk_tree.find_iff.2 ⟨hlive 1 (by decide), by rw [nestedDisk_name (by decide)]; decide⟩,
      by rw [nestedDisk_inode (by decide)]; rfl⟩
  refine ⟨hdir, ⟨hlive 2 (by decide), 1, ?_⟩, ⟨hlive 3 (by decide), 2, ?_⟩, ?_,
    ((rrmdr_removes_subtree_iff d nestedDisk_layout).2.2 fun _ j hj htype => ?_).1 hdir⟩
  · rw [nestedDisk_name (by decide)]
    decide
  · rw [nestedDisk_name (by decide)]
    decide
  · rw [nestedDisk_inode (by decide)]
    rfl
  · replace hj := nestedDisk_live hj.1
    rw [nestedDisk_inode hj] at htype ⊢
    revert htype
    revert j
    decide

/-! ## A directory with sectors -/

section
variable {a : CStr} (hp : a.bytes ≠ [slash]) (hpar : parentOf a.bytes = [slash]) (hlen : a.bytes.length < 128)
include hp hpar hlen

/-- after `a` was opened as descriptor 0 and deleted, a new directory takes its slot -/
theorem stale_mkdir {d : CStr} (hd : d.bytes ≠ [slash]) (hdpar : parentOf d.bytes = [slash]) :
    step (stale a) (.fsMkdir d) = (.rc true, (stale a).create 1 d.bytes fsTypeDir) := by
  have hdir : (stale a).isdir (parentOf d.bytes) = true := by
    rw [hdpar]
    simp [isdir]
  simp only [step, fsMkdir_run (stale_sound a).faults, stale_find hp hpar hlen hd, stale_freeSlot hp hpar hlen, hdir]
  rfl

/-- then writing one byte to descriptor 0 gives the directory a sector -/
theorem stale_mkdir_write {d : CStr} (hd : d.bytes ≠ [slash]) (hdpar : parentOf d.bytes = [slash])
    (hdlen : d.bytes.length < 128) {s t : FsState} (hs : s = (step (stale a) (.fsMkdir d)).2)
    (ht : t = (step s (.fsWrite 0 [1])).2) :
    t.live 1 ∧ t.nameAt 1 = d.bytes ∧ (t.inode 1).type = fsTypeDir ∧ (t.inode 1).blockCount ≠ 0 := by
  have hsound : Sound s := hs ▸ (stale_sound a).step _ trivial
  rw [stale_mkdir hp hpar hlen hd hdpar] at hs
  have hino : s.inode 1 = Inode.fresh d.bytes fsTypeDir := by rw [hs, create_inode, if_pos rfl]
  have hname : s.nameAt 1 = d.bytes := by rw [hs, create_nameAt _ 1 _ d hdlen]
  have hfd : s.fds 0 = ⟨some 1, 0⟩ := by rw [hs, create_fds, stale_fds hp hpar hlen, if_pos rfl]
  have hclear : ∀ n, s.bitmap n = false := fun n => by rw [hs, create_bitmap, stale_bitmap hp hpar hlen]
  obtain ⟨u, hu, hw, hsound'⟩ := write_clear hsound hfd hclear (List.cons_ne_nil (1 : UInt8) []) (by decide)
  have hlive : s.live 1 := ⟨by decide, by rw [hino]; exact (by decide : fsTypeDir ≠ 0)⟩
  obtain rfl : t = u := ht.trans (congrArg Prod.snd hu)
  refine ⟨hw.live_iff.2 hlive, by rw [nameAt, hw.name, ← nameAt, hname], by rw [hw.kind, hino]; rfl, fun h0 => ?_⟩
  -- the file has one byte, which needs a sector
  have hsize := (hsound'.placed 1 (.inl (hw.live_iff.2 hlive))).size
  rw [hw.size, hfd, h0] at hsize
  simp at hsize

end

theorem stale_tree (p : CStr) (h : (Op.fsOpen p true).storable boot) : Tree (stale p) :=
  (fresh_boot.tree.step fresh_boot.sound (.fsOpen p true) trivial h).step
    (fresh_boot.sound.step (.fsOpen p true) trivial) (.fsDelete p) trivial trivial

/-- **A directory's sectors leak.** `"/a"` is opened as descriptor 0 and deleted, `"/d"` takes its slot, and a byte is
written to descriptor 0. Then `fs_rrmdr("/d")` succeeds and frees the inode, and its sector stays marked. -/
theorem rrmdr_keeps_dir_sectors :
    let a : CStr := ⟨[47, 97], by decide⟩
    let d : CStr := ⟨[47, 100], by decide⟩
    let s := runOps step boot [.fsOpen a true, .fsDelete a, .fsMkdir d, .fsWrite 0 [1]]
    let r := (fsRrmdr d.arg : StateM FsState _) s
    Layout s ∧ NamesDir s d.bytes ∧ s.below d.bytes 1 ∧ r.1 = true ∧ r.2.inode 1 = Inode.zero ∧
      ∃ b ∈ (s.inode 1).extent, r.2.bitmap b = true := by
  intro a d s
  have ha : a.bytes ≠ [slash] := by decide
  have hapar : parentOf a.bytes = [slash] := by decide
  have halen : a.bytes.length < 128 := by decide
  have hmkdir : runOps step boot [.fsOpen a true, .fsDelete a, .fsMkdir d] = (step (stale a) (.fsMkdir d)).2 :=
    runOps_snoc step boot [.fsOpen a true, .fsDelete a] (.fsMkdir d)
  have hs : s = (step (runOps step boot [.fsOpen a true, .fsDelete a, .fsMkdir d]) (.fsWrite 0 [1])).2 :=
    runOps_snoc step boot [.fsOpen a true, .fsDelete a, .fsMkdir d] (.fsWrite 0 [1])
  obtain ⟨s₁, hs₁⟩ : ∃ s₁, s₁ = (step (stale a) (.fsMkdir d)).2 := ⟨_, rfl⟩
  rw [hmkdir, ← hs₁] at hs
  obtain ⟨hlive, hname, htype, hsectors⟩ :=
    stale_mkdir_write ha hapar halen (by decide : d.bytes ≠ [slash]) (by decide) (by decide) hs₁ hs
  have hsound₁ : Sound s₁ := hs₁ ▸ (stale_sound a).step _ trivial
  have hfits : Op.fits s₁ (.fsWrite 0 [1]) := by
    intro k i hk _
    obtain rfl : 0 = k := Option.some.inj (fdSlot_zero.symm.trans hk)
    rw [hs₁, stale_mkdir ha hapar halen (by decide) (by decide), create_fds, stale_fds ha hapar halen]
    decide
  have hsound : Sound s := hs ▸ hsound₁.step _ hfits
  have htree : Tree s := by
    have h₁ : Tree s₁ := hs₁ ▸ (stale_tree a fun _ => by decide).step (stale_sound a) (.fsMkdir d) trivial fun _ => by decide
    exact hs ▸ h₁.step hsound₁ (.fsWrite 0 [1]) hfits trivial
  have hlayout : Layout s := hsound.layout htree.nested
  have hfind : s.find d.bytes = some 1 := htree.find_iff.2 ⟨hlive, hname⟩
  have hdir : NamesDir s d.bytes := ⟨by decide, 1, hfind, htype⟩
  have hbelow : s.below d.bytes 1 := ⟨hlive, hname ▸ under_refl _⟩
  obtain ⟨t, hrun, hcut⟩ := fsRrmdr_prunes d hlayout.ready htree.nested hfind htype (by decide)
  obtain ⟨b, hb⟩ := Inode.exists_mem_extent hsectors
  have hmarked := hlayout.rrmdr_dir_marked d hdir hlive htype hb
  rw [hrun] at hmarked ⊢
  exact ⟨hlayout, hdir, hbelow, rfl, hcut.gone 1 hbelow, b, hb, hmarked⟩

end GannetOS.Filesys
