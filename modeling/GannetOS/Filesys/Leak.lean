/-
The allocation bitmap against the disk: is every marked sector accounted for by an inode?

`rebuilt s` is the bitmap that `fs_init` computes from the inode table. It equals `alloc_bitmap` as long as `fs_write` is
only used on descriptors of existing files (`bitmap_exact`, with `Tidy` as the invariant). `fs_delete` does not close
descriptors, and `fs_write` does not look at the inode's type: a write through the descriptor of a deleted file allocates
sectors for a free inode, which no later call releases (`stale_write_leaks`).
-/
import GannetOS.Filesys.Extents

namespace GannetOS.Filesys

open GannetOS.Core FsState

/-- writes go to files only -/
def fileWrites : Policy := ⟨fun s i => (s.inode i).type = fsTypeFile, fun _ _ => True⟩

structure Tidy (s : FsState) : Prop where
  sound : Sound s
  empty : ∀ i < 512, (s.inode i).type ≠ fsTypeFile → (s.inode i).blockCount = 0
  owner : ∀ b, s.bitmap b = true → ∃ i, s.live i ∧ b ∈ (s.inode i).extent

section
variable {s : FsState}

/-- an inode with sectors is a file -/
theorem Tidy.file_of_mem (h : Tidy s) {i b : ℕ} (hi : i < 512) (hb : b ∈ (s.inode i).extent) :
    (s.inode i).type = fsTypeFile := by
  by_contra ht
  rw [Inode.extent_of_zero (h.empty i hi ht)] at hb
  exact Extent.not_mem_zero _ _ hb

theorem Tidy.create (h : Tidy s) {i : ℕ} {p : List UInt8} {type : UInt8} (hfree : (s.inode i).type = 0)
    (hsound : Sound (s.create i p type)) : Tidy (s.create i p type) where
  sound := hsound
  empty j hj ht := by
    rw [create_inode] at ht ⊢
    split_ifs with hji
    · rfl
    · rw [if_neg hji] at ht
      exact h.empty j hj ht
  owner b hb := by
    obtain ⟨j, hj, hbj⟩ := h.owner b hb
    have hji : j ≠ i := by
      rintro rfl
      exact hj.2 hfree
    exact ⟨j, ⟨hj.1, by rw [create_inode, if_neg hji]; exact hj.2⟩, by rw [create_inode, if_neg hji]; exact hbj⟩

theorem Tidy.remove (h : Tidy s) {i : ℕ} (hi : s.live i) : Tidy (s.remove i) where
  sound := h.sound.remove hi
  empty j hj ht := by
    rw [remove_inode] at ht ⊢
    split_ifs with hji
    · rfl
    · rw [if_neg hji] at ht
      exact h.empty j hj ht
  owner b hb := by
    -- whichever way the inode went, a bit that is still set was not one of its bits
    obtain ⟨hbs, hbi⟩ : s.bitmap b = true ∧ b ∉ (s.inode i).extent := by
      unfold FsState.remove at hb
      by_cases ht : (s.inode i).type = fsTypeDir
      · rw [if_pos ht] at hb
        refine ⟨hb, fun hbi => ?_⟩
        have hfile := h.file_of_mem hi.1 hbi
        rw [ht] at hfile
        exact absurd hfile (by decide)
      · rw [if_neg ht, dropFile_bitmap, mark] at hb
        by_cases hbi : b ∈ (s.inode i).extent
        · rw [if_pos hbi] at hb
          exact absurd hb Bool.false_ne_true
        · rw [if_neg hbi] at hb
          exact ⟨hb, hbi⟩
    obtain ⟨j, hj, hbj⟩ := h.owner b hbs
    have hji : j ≠ i := by
      rintro rfl
      exact hbi hbj
    exact ⟨j, ⟨hj.1, by rw [remove_inode, if_neg hji]; exact hj.2⟩, by rw [remove_inode, if_neg hji]; exact hbj⟩

theorem Tidy.setFd (h : Tidy s) {fd : Fin 8} {e : Fd} (hsound : Sound (s.setFd fd e)) : Tidy (s.setFd fd e) :=
  ⟨hsound, h.empty, h.owner⟩

theorem Tidy.remount (h : Tidy s) : Tidy s.remount :=
  ⟨h.sound.remount, h.empty, fun b hb => (rebuilt_iff (s := s) (b := b)).1 hb⟩

/-- a write to a file; `x` is the inode with the sectors the write uses -/
theorem Tidy.store (h : Tidy s) {u : FsState} {fd : Fin 8} {i off : ℕ} {x : Inode} {data : List UInt8}
    (hi : i < 512) (htype : x.type = fsTypeFile) (hs : 428 ≤ x.startBlock.toNat)
    (hino : ∀ j < 512, u.inode j = s.inode j) (hsound : Sound (u.store fd i x off data))
    (howner : ∀ b, u.bitmap b = true → b ∈ x.extent ∨ ∃ j, j ≠ i ∧ s.live j ∧ b ∈ (s.inode j).extent) :
    Tidy (u.store fd i x off data) where
  sound := hsound
  empty j hj ht := by
    rw [store_inode _ _ _ _ _ _ _ hj hs, hino j hj] at ht ⊢
    split_ifs with hji
    · rw [if_pos hji, Inode.sized_type] at ht
      exact absurd htype ht
    · rw [if_neg hji] at ht
      exact h.empty j hj ht
  owner b hb := by
    rcases howner b hb with hbx | ⟨j, hji, hj, hbj⟩
    · refine ⟨i, ⟨hi, ?_⟩, ?_⟩ <;> rw [store_inode _ _ _ _ _ _ _ hi hs, if_pos rfl]
      · rw [Inode.sized_type, htype]
        decide
      · rw [Inode.sized_extent]
        exact hbx
    · refine ⟨j, ⟨hj.1, ?_⟩, ?_⟩ <;> rw [store_inode _ _ _ _ _ _ _ hj.1 hs, if_neg hji, hino j hj.1]
      · exact hj.2
      · exact hbj

theorem Tidy.move (h : Tidy s) {t : FsState} (hm : Move fileWrites s t) : Tidy t := by
  have hsound : Sound t := h.sound.move hm
  cases hm with
  | create _ hfree _ _ => exact h.create hfree hsound
  | remove hi => exact h.remove hi
  | openFd _ _ _ => exact h.setFd hsound
  | closeFd fd => exact h.setFd hsound
  | advance _ _ => exact h.setFd hsound
  | @put fd i data hfd hok hne hfit =>
    have hi := h.sound.fdIdx fd i hfd
    have hlen : 0 < data.length := List.length_pos_iff.2 hne
    have hr := (h.sound.placed i (Or.inr ⟨fd, hfd⟩)).range (by unfold sectorsFor at hfit; omega)
    refine h.store hi hok hr.1 (fun _ _ => rfl) hsound fun b hb => ?_
    obtain ⟨j, hj, hbj⟩ := h.owner b hb
    by_cases hji : j = i
    · exact Or.inl (hji ▸ hbj)
    · exact Or.inr ⟨j, hji, hj, hbj⟩
  | @putGrown fd i rel need data hfd hok hne hneed hgt hfit =>
    have hi := h.sound.fdIdx fd i hfd
    have hrel := (firstFit_sound hfit).1
    rw [h.sound.count] at hrel
    refine h.store hi hok (by rw [moved_start _ hrel]; omega)
      (fun j hj => grow_inode s j (s.inode i) rel need hj) hsound fun b hb => ?_
    rw [grow_bitmap, mark] at hb
    by_cases hold : b ∈ (s.inode i).extent
    · rw [if_pos hold] at hb
      exact absurd hb Bool.false_ne_true
    · rw [if_neg hold, mark] at hb
      by_cases hnew : b ∈ (⟨rel, need⟩ : Extent)
      · rw [Inode.moved_extent _ hrel]
        exact Or.inl hnew
      · rw [if_neg hnew] at hb
        obtain ⟨j, hj, hbj⟩ := h.owner b hb
        exact Or.inr ⟨j, fun hji => hold (hji ▸ hbj), hj, hbj⟩
  | remount => exact h.remount

theorem Tidy.step (h : Tidy s) (o : Op) (hfit : o.fits s) (hP : o.obeys fileWrites s) : Tidy (step s o).2 := by
  have hm := step_moves h.sound o hfit hP
  revert hm
  generalize (Filesys.step s o).2 = t
  intro hm
  induction hm with
  | refl => exact h
  | tail _ hstep ih => exact ih.move hstep

/-- the bitmap a remount would build is the one in memory -/
theorem Tidy.rebuilt_eq (h : Tidy s) : s.rebuilt = s.bitmap := by
  funext b
  rw [Bool.eq_iff_iff, rebuilt_iff]
  exact ⟨fun ⟨_, hi, hb⟩ => h.sound.marked (Or.inl hi) hb, h.owner b⟩

end

theorem Fresh.tidy {s : FsState} (hs : Fresh s) : Tidy s := by
  refine ⟨hs.sound, ?_, ?_⟩ <;> obtain ⟨s₀, hf, rfl⟩ := hs.eq_formatted
  · intro i hi _
    rw [formatted_inode s₀ hi]
    split_ifs <;> rfl
  · intro b hb
    exact absurd hb Bool.false_ne_true

/-! ## The bitmap over runs -/

/-- the call's sizes fit its 32-bit arithmetic and its path buffer, and a write goes to a file -/
def WritesFile (s : FsState) (o : Op) : Prop := o.fits s ∧ o.parentFits ∧ o.obeys fileWrites s

/-- **The bitmap is exact.** In every run in which `fs_write` is used on descriptors of files only, mounting the disk
again would compute the bitmap that is in memory. With no file left, every run of sectors is free. -/
theorem bitmap_exact {s t : FsState} {tr : List (Op × Res)} (hs : Fresh s) (hrun : Run step WritesFile s tr t) :
    ((fsInit : StateM FsState _) t).2.bitmap = t.bitmap ∧
      ((∀ i < 512, (t.inode i).type ≠ fsTypeFile) →
        ∀ n ≤ 7764, firstFit t.bitmap t.dataSectorCount n = some 0) := by
  have h : Tidy t := hrun.invariant (fun s o hs ho => hs.step o ho.1 ho.2.2) hs.tidy
  refine ⟨?_, fun hnone n hn => firstFit_clear (fun b => ?_) (by rw [h.sound.count]; exact hn)⟩
  · rw [fsInit_remount h.sound.faults h.sound.magic h.sound.ready.placed]
    exact h.rebuilt_eq
  · by_contra hb
    obtain ⟨i, hi, hbi⟩ := h.owner b (by simpa using hb)
    exact hnone i hi.1 (h.file_of_mem hi.1 hbi)

/-- a file of three bytes -/
theorem bitmap_exact_write :
    let s := (step boot (.fsOpen ⟨[47, 97], by decide⟩ true)).2
    let t := (step s (.fsWrite 0 [1, 2, 3])).2
    ((fsInit : StateM FsState _) t).2.bitmap = t.bitmap := by
  intro s t
  have hopen : WritesFile boot (.fsOpen ⟨[47, 97], by decide⟩ true) :=
    ⟨trivial, (by decide : lastSlash [47, 97] < 128), (fun _ h => by cases h), fun _ _ => trivial⟩
  have hwrite : WritesFile (step boot (.fsOpen ⟨[47, 97], by decide⟩ true)).2 (.fsWrite 0 [1, 2, 3]) := by
    rw [boot_open (by decide) (by decide)]
    refine ⟨fun k i hk _ => ?_, trivial, fun i hi => ?_, fun _ _ => trivial⟩
    · cases hk
      decide
    · have h1 : some 1 = some i := hi
      cases h1
      show (((boot.create 1 [47, 97] fsTypeFile).setFd 0 ⟨some 1, 0⟩).inode 1).type = fsTypeFile
      rw [setFd_inode, create_inode, if_pos rfl]
      rfl
  have hrun₁ : Run step WritesFile boot _ s := .snoc _ (.nil boot) hopen
  have hrun₂ : Run step WritesFile boot _ t := .snoc _ hrun₁ hwrite
  exact (bitmap_exact fresh_boot hrun₂).1

/-! ## The leak -/

/-- a fresh disk on which the file `p` was created, opened as descriptor 0 and deleted -/
def FsState.stale (p : CStr) : FsState := runOps step boot [.fsOpen p true, .fsDelete p]

section
variable {p : CStr} (hp : p.bytes ≠ [slash]) (hpar : parentOf p.bytes = [slash]) (hlen : p.bytes.length < 128)
include hp hpar hlen

omit hpar in
/-- before it is deleted -/
theorem opened_find : ((boot.create 1 p.bytes fsTypeFile).setFd 0 ⟨some 1, 0⟩).find p.bytes = some 1 := by
  have hname := create_nameAt boot 1 fsTypeFile p hlen
  rw [setFd_find]
  refine find_eq_some ⟨by decide, by rw [create_inode, if_pos rfl]; exact (by decide : fsTypeFile ≠ 0)⟩ hname
    fun j hj _ hn => hp ?_
  have hj0 : j = 0 := by omega
  rw [nameAt, create_inode, if_neg (by omega), boot_inode (by omega), if_pos hj0, rootInode_name] at hn
  exact hn.symm

/-- the inode is free, the descriptor still refers to it -/
theorem stale_eq : stale p = ((boot.create 1 p.bytes fsTypeFile).setFd 0 ⟨some 1, 0⟩).dropFile 1 := by
  set s₁ := (boot.create 1 p.bytes fsTypeFile).setFd 0 ⟨some 1, 0⟩ with hs₁
  have hstep : (step boot (.fsOpen p true)).2 = s₁ := by rw [boot_open hp hpar]
  have hsound : Sound s₁ := hstep ▸ fresh_boot.sound.step _ trivial
  have hino : s₁.inode 1 = Inode.fresh p.bytes fsTypeFile := by rw [hs₁, setFd_inode, create_inode, if_pos rfl]
  have hfind : s₁.find (cstr p.bytes) = some 1 := by
    rw [cstr_of_nulFree p.nulFree]
    exact opened_find hp hlen
  have hdel : (step s₁ (.fsDelete p)).2 = s₁.dropFile 1 := by
    simp only [step, CStr.arg, fsDelete_run hsound.faults _ hsound.ready.placed, hfind]
    rw [if_neg (by rw [hino]; exact (by decide : fsTypeFile ≠ fsTypeDir))]
    rfl
  rw [stale, runOps, List.foldl_cons, List.foldl_cons, List.foldl_nil, hstep, hdel]

theorem stale_inode {j : ℕ} (hj : j < 512) : (stale p).inode j = if j = 0 then rootInode else Inode.zero := by
  rw [stale_eq hp hpar hlen, dropFile_inode, setFd_inode, create_inode, boot_inode hj]
  split_ifs with h1 h2 h3
  · omega
  · rfl
  · rfl
  · rfl

theorem stale_bitmap (b : ℕ) : (stale p).bitmap b = false := by
  rw [stale_eq hp hpar hlen, dropFile_bitmap, setFd_bitmap, create_bitmap, boot_bitmap, mark]
  split_ifs <;> rfl

theorem stale_fds (k : Fin 8) : (stale p).fds k = if k = 0 then ⟨some 1, 0⟩ else ⟨none, 0⟩ := by
  rw [stale_eq hp hpar hlen, dropFile_fds, setFd_fds, create_fds, Function.update_apply, boot_fds]

omit hp hpar hlen in
theorem stale_sound (p : CStr) : Sound (stale p) :=
  (fresh_boot.sound.step (.fsOpen p true) trivial).step (.fsDelete p) trivial

/-- writing one byte through the descriptor gives the free inode a sector -/
theorem stale_write : step (stale p) (.fsWrite 0 [1]) =
    (.count (some 1), ((stale p).grow Inode.zero 0 1).store 0 1 (Inode.zero.moved 0 1) 0 [1]) := by
  have hfd : (stale p).fds 0 = ⟨some 1, 0⟩ := by rw [stale_fds hp hpar hlen, if_pos rfl]
  have hidx : ((stale p).fds 0).inodeIdx = some 1 := by rw [hfd]
  have hoff : ((stale p).fds 0).offset.toNat = 0 := by rw [hfd]; rfl
  have hheld : (stale p).held 1 := Or.inr ⟨0, hidx⟩
  have hsound := stale_sound p
  have hx : (stale p).inode 1 = Inode.zero := by rw [stale_inode hp hpar hlen (by decide), if_neg (by decide)]
  have hfit : firstFit (stale p).bitmap (stale p).dataSectorCount 1 = some 0 :=
    firstFit_clear (stale_bitmap hp hpar hlen) (by rw [hsound.count]; decide)
  have hwrite := fsWrite_run hsound.faults fdSlot_zero hidx (by decide) (hsound.placed 1 hheld)
    hsound.count (fun b hb => hsound.marked hheld hb) (by decide : [(1 : UInt8)] ≠ []) (by rw [hoff]; decide)
  have hone : sectorsFor (0 + [(1 : UInt8)].length) = 1 := by decide
  simp only [hx, hoff, hone, hfit] at hwrite
  rw [if_neg (by decide)] at hwrite
  simp only [step, hwrite]
  rfl

end

/-- **A write through the descriptor of a deleted file leaks its sectors.** The sector is marked in memory, but no inode
in use accounts for it: mounting the disk again would clear the bit. -/
theorem stale_write_leaks :
    let a : CStr := ⟨[47, 97], by decide⟩
    let t := runOps step boot [.fsOpen a true, .fsDelete a, .fsWrite 0 [1]]
    t.bitmap 0 = true ∧ ((fsInit : StateM FsState _) t).2.bitmap 0 = false := by
  intro a t
  have hp : a.bytes ≠ [slash] := by decide
  have hpar : parentOf a.bytes = [slash] := by decide
  have hlen : a.bytes.length < 128 := by decide
  have hlast : t = (step (stale a) (.fsWrite 0 [1])).2 :=
    runOps_snoc step boot [.fsOpen a true, .fsDelete a] (.fsWrite 0 [1])
  have ht : t = ((stale a).grow Inode.zero 0 1).store 0 1 (Inode.zero.moved 0 1) 0 [1] := by
    rw [hlast, stale_write hp hpar hlen]
  have hstart : (Inode.zero.moved 0 1).startBlock.toNat = 428 := moved_start _ (by decide)
  constructor
  · rw [ht, store_bitmap, grow_bitmap, mark, if_neg, mark, if_pos (by decide)]
    rw [Inode.extent_of_zero rfl]
    exact Extent.not_mem_zero _ _
  · have hsound' : Sound t := by
      rw [hlast]
      refine (stale_sound a).step _ fun k i hk _ => ?_
      obtain rfl : 0 = k := Option.some.inj (fdSlot_zero.symm.trans hk)
      rw [stale_fds hp hpar hlen, if_pos rfl]
      decide
    rw [fsInit_remount hsound'.faults hsound'.magic hsound'.ready.placed]
    by_contra hb
    obtain ⟨i, hi, hbi⟩ := rebuilt_iff.1 (by simpa using hb)
    have hti := store_inode ((stale a).grow Inode.zero 0 1) i 1 0 (Inode.zero.moved 0 1) 0 [1] hi.1 (by rw [hstart])
    rw [← ht, grow_inode _ _ _ _ _ hi.1, stale_inode hp hpar hlen hi.1] at hti
    by_cases h1 : i = 1
    · -- the inode with the sector is free
      rw [if_pos h1] at hti
      exact hi.2 (by rw [hti, Inode.sized_type]; rfl)
    · rw [if_neg h1] at hti
      by_cases h0 : i = 0
      · rw [if_pos h0] at hti
        rw [hti, Inode.extent_of_zero rfl] at hbi
        exact Extent.not_mem_zero _ _ hbi
      · rw [if_neg h0] at hti
        exact hi.2 (by rw [hti]; rfl)

end GannetOS.Filesys
