/-
What the calls do to the contents of files.

`FsState.content` is the byte string of the inode in a slot. `step_read` and `step_write` say what `fs_read` and `fs_write`
do in these terms: a write changes one inode (`Wrote`), overwrites its content at the descriptor's offset
(`Wrote.content`), also when the file moves to a fresh run of sectors, and leaves the sectors of every other held inode
alone (`Wrote.content_other`).
-/
import GannetOS.Filesys.Extents

namespace GannetOS.Filesys

open GannetOS.Core List

namespace FsState

/-- the bytes of the file in slot `i` -/
def content (s : FsState) (i : ℕ) : List UInt8 :=
  dataBytes s.disk (s.inode i).startBlock.toNat 0 (s.inode i).size.toNat

@[simp] theorem content_length (s : FsState) (i : ℕ) : (s.content i).length = (s.inode i).size.toNat := by
  simp [content]

theorem content_getElem? (s : FsState) (i k : ℕ) :
    (s.content i)[k]? =
      if k < (s.inode i).size.toNat then some (dataByte s.disk (s.inode i).startBlock.toNat k) else none := by
  unfold content dataBytes
  by_cases h : k < (s.inode i).size.toNat
  · simp [h]
  · simp [h]

theorem dataBytes_eq_content (s : FsState) (i off n : ℕ) (h : off + n ≤ (s.inode i).size.toNat) :
    dataBytes s.disk (s.inode i).startBlock.toNat off n = ((s.content i).drop off).take n := by
  apply ext_getElem?
  intro k
  by_cases hk : k < n
  · rw [getElem?_take_of_lt hk, getElem?_drop, content_getElem?, if_pos (by omega)]
    simp [dataBytes, hk]
  · rw [getElem?_eq_none (by simp; omega), getElem?_eq_none (by simp; omega)]

/-- the content depends on the inode and on its sectors -/
theorem content_congr {s t : FsState} {i : ℕ} (hp : (s.inode i).Placed) (hino : t.inode i = s.inode i)
    (hdata : ∀ b ∈ (s.inode i).extent, t.disk (428 + b) = s.disk (428 + b)) : t.content i = s.content i := by
  unfold content
  rw [hino]
  apply map_congr_left
  intro k hk
  rw [mem_range] at hk
  have hsize := hp.size
  have hr := hp.range (by omega)
  have hsector := hdata ((s.inode i).startBlock.toNat - 428 + k / 512) (Inode.mem_extent.2 (by omega))
  rw [show 428 + ((s.inode i).startBlock.toNat - 428 + k / 512) = (s.inode i).startBlock.toNat + k / 512 by omega] at hsector
  rw [dataByte, dataByte, Nat.zero_add, hsector]

end FsState

open FsState

/-! ## Reading -/

variable {s : FsState} {k : Fin 8} {i : ℕ} {data : List UInt8}

theorem step_read (h : Sound s) {fd : ℤ} (hk : fdSlot fd = some k) (hi : (s.fds k).inodeIdx = some i) (len : UInt32) :
    step s (.fsRead fd len) =
      (.data (some (((s.content i).drop (s.fds k).offset.toNat).take len.toNat)),
        s.setFd k ⟨some i, UInt32.ofNat ((s.fds k).offset.toNat +
          min len.toNat ((s.inode i).size.toNat - (s.fds k).offset.toNat))⟩) := by
  have hbytes : dataBytes s.disk (s.inode i).startBlock.toNat (s.fds k).offset.toNat
      (min len.toNat ((s.inode i).size.toNat - (s.fds k).offset.toNat)) =
      ((s.content i).drop (s.fds k).offset.toNat).take len.toNat := by
    by_cases hoff : (s.fds k).offset.toNat ≤ (s.inode i).size.toNat
    · have hall : ((s.content i).drop (s.fds k).offset.toNat).length ≤
          (s.inode i).size.toNat - (s.fds k).offset.toNat := by simp
      rw [dataBytes_eq_content _ _ _ _ (by omega), ← take_take, take_of_length_le hall]
    · -- the descriptor is beyond the end: nothing is read
      rw [Nat.sub_eq_zero_of_le (by omega), Nat.min_zero, drop_eq_nil_of_le (by simp; omega),
        take_nil]
      rfl
  simp only [step, fsRead_run h.faults hk hi (h.fdIdx k i hi) (h.placed i (Or.inr ⟨k, hi⟩)).start_lt, hbytes]
  rfl

/-! ## Writing -/

/-- `data` was written through descriptor `k` to the inode in slot `i` -/
structure Wrote (s t : FsState) (k : Fin 8) (i : ℕ) (data : List UInt8) : Prop where
  kind : (t.inode i).type = (s.inode i).type
  name : (t.inode i).name = (s.inode i).name
  size : (t.inode i).size.toNat = max (s.inode i).size.toNat ((s.fds k).offset.toNat + data.length)
  fds : t.fds = Function.update s.fds k ⟨some i, UInt32.ofNat ((s.fds k).offset.toNat + data.length)⟩
  other : ∀ j < 512, j ≠ i → t.inode j = s.inode j
  bytes : ∀ n, ((s.fds k).offset.toNat ≤ n ∧ n < (s.fds k).offset.toNat + data.length) ∨ n < (s.inode i).size.toNat →
    dataByte t.disk (t.inode i).startBlock.toNat n =
      if (s.fds k).offset.toNat ≤ n ∧ n < (s.fds k).offset.toNat + data.length then
        data.getD (n - (s.fds k).offset.toNat) 0
      else dataByte s.disk (s.inode i).startBlock.toNat n
  apart : ∀ j b, j ≠ i → b ∈ s.owner j → t.disk (428 + b) = s.disk (428 + b)

namespace Wrote
variable {s t : FsState} {k : Fin 8} {i : ℕ} {data : List UInt8} (h : Wrote s t k i data)
include h

variable {j : ℕ}

theorem live_iff : t.live j ↔ s.live j := by
  refine and_congr_right fun hj => ?_
  by_cases hji : j = i
  · rw [hji, h.kind]
  · rw [h.other j hj hji]

theorem type_eq (hj : j < 512) : (t.inode j).type = (s.inode j).type := by
  by_cases hji : j = i
  · rw [hji, h.kind]
  · rw [h.other j hj hji]

theorem name_eq (hj : j < 512) : (t.inode j).name = (s.inode j).name := by
  by_cases hji : j = i
  · rw [hji, h.name]
  · rw [h.other j hj hji]

/-- the content is overwritten at the descriptor's offset, and extended at the end -/
theorem content (hoff : (s.fds k).offset.toNat ≤ (s.inode i).size.toNat) :
    t.content i = overwrite (s.content i) (s.fds k).offset.toNat data := by
  apply ext_getElem?
  intro n
  rw [overwrite_getElem? (by simpa using hoff), content_getElem?, content_getElem?, h.size]
  by_cases hin : (s.fds k).offset.toNat ≤ n ∧ n < (s.fds k).offset.toNat + data.length
  · rw [if_pos (by omega), if_pos hin, h.bytes n (Or.inl hin), if_pos hin, getD_eq_getElem _ _ (by omega),
      getElem?_eq_getElem (by omega)]
  · rw [if_neg hin]
    by_cases hold : n < (s.inode i).size.toNat
    · rw [if_pos (by omega), if_pos hold, h.bytes n (Or.inr hold), if_neg hin]
    · rw [if_neg (by omega), if_neg hold]

/-- the contents of the other held inodes are as before -/
theorem content_other (hs : Sound s) (hj : s.held j) (hji : j ≠ i) : t.content j = s.content j :=
  content_congr (hs.placed j hj) (h.other j (hs.held_lt hj) hji) fun b hb => h.apart j b hji (mem_owner.2 ⟨hj, hb⟩)

end Wrote

theorem Inode.sized_size {x : Inode} {n : ℕ} (hn : n < 4294967296) :
    (x.sized (UInt32.ofNat n)).size.toNat = max x.size.toNat n := by
  have hlt : (UInt32.ofNat n > x.size) = (x.size.toNat < n) := by
    rw [gt_iff_lt, UInt32.lt_iff_toNat_lt, toNat_ofNat32 hn]
  unfold sized
  simp only [hlt]
  split_ifs with h
  · rw [toNat_ofNat32 hn]
    omega
  · omega

theorem Inode.sized_name (x : Inode) (n : UInt32) : (x.sized n).name = x.name := by
  unfold sized; split_ifs <;> rfl

theorem Inode.sized_start (x : Inode) (n : UInt32) : (x.sized n).startBlock = x.startBlock := by
  unfold sized; split_ifs <;> rfl

/-- the transfer of a write whose file has the sectors of `x`, with its data in place in the disk of `u` -/
theorem Sound.wrote {u : FsState} (h : Sound s) {x : Inode} (hi : (s.fds k).inodeIdx = some i)
    (hstart : 428 ≤ x.startBlock.toNat) (hend : x.startBlock.toNat + x.blockCount.toNat ≤ 8192)
    (hfds : u.fds = s.fds) (htype : x.type = (s.inode i).type) (hname : x.name = (s.inode i).name)
    (hsize : x.size = (s.inode i).size) (hfit : (s.fds k).offset.toNat + data.length ≤ 512 * x.blockCount.toNat)
    (hino : ∀ j < 512, u.inode j = s.inode j) (hcopy : ∀ n < (s.inode i).size.toNat,
      dataByte u.disk x.startBlock.toNat n = dataByte s.disk (s.inode i).startBlock.toNat n)
    (hapart : ∀ j b, j ≠ i → b ∈ s.owner j → u.disk (428 + b) = s.disk (428 + b) ∧ b ∉ x.extent) :
    Wrote s (u.store k i x (s.fds k).offset.toNat data) k i data := by
  have hi' : i < 512 := h.fdIdx k i hi
  have hself : (u.store k i x (s.fds k).offset.toNat data).inode i =
      x.sized (UInt32.ofNat ((s.fds k).offset.toNat + data.length)) := by
    rw [store_inode _ _ _ _ _ _ _ hi' hstart, if_pos rfl]
  refine ⟨?_, ?_, ?_, ?_, fun j hj hji => ?_, fun n hn => ?_, fun j b hji hb => ?_⟩
  · rw [hself, Inode.sized_type, htype]
  · rw [hself, Inode.sized_name, hname]
  · rw [hself, Inode.sized_size (by omega), hsize]
  · rw [store_fds, hfds]
  · rw [store_inode _ _ _ _ _ _ _ hj hstart, if_neg hji, hino j hj]
  · have hdisk : dataByte (u.store k i x (s.fds k).offset.toNat data).disk x.startBlock.toNat n =
        dataByte (putBytes u.disk x.startBlock.toNat (s.fds k).offset.toNat data.length fun m => data.getD m 0)
          x.startBlock.toNat n := by
      rw [dataByte, dataByte, store_disk _ _ _ _ _ _ hi' (Or.inr (by omega))]
    rw [hself, Inode.sized_start, hdisk, dataByte_putBytes]
    by_cases hin : (s.fds k).offset.toNat ≤ n ∧ n < (s.fds k).offset.toNat + data.length
    · rw [if_pos hin, if_pos hin]
    · rw [if_neg hin, if_neg hin, hcopy n (hn.resolve_left hin)]
  · obtain ⟨hsame, hout⟩ := hapart j b hji hb
    rw [Inode.mem_extent] at hout
    rw [store_disk _ _ _ _ _ _ hi' (Or.inr (by omega)), putBytes_out _ _ (by omega), hsame]

/-- **What a write does.** It fails without effect, which it can only do when the file's sectors do not suffice and no
run of free sectors is long enough, or all of `data` is written. -/
theorem step_write (h : Sound s) {fd : ℤ} (hk : fdSlot fd = some k) (hi : (s.fds k).inodeIdx = some i)
    (hne : data ≠ []) (hfit : Op.fits s (.fsWrite fd data)) :
    (step s (.fsWrite fd data) = (.count none, s) ∧
      (s.inode i).blockCount.toNat < sectorsFor ((s.fds k).offset.toNat + data.length) ∧
      firstFit s.bitmap s.dataSectorCount (sectorsFor ((s.fds k).offset.toNat + data.length)) = none) ∨
    ∃ t, step s (.fsWrite fd data) = (.count (some data.length), t) ∧ Wrote s t k i data := by
  have hheld : s.held i := Or.inr ⟨k, hi⟩
  have hplaced := h.placed i hheld
  have howner : s.owner i = (s.inode i).extent := if_pos hheld
  have hlen : 0 < data.length := List.length_pos_iff.2 hne
  simp only [step, fsWrite_run h.faults hk hi (h.fdIdx k i hi) hplaced h.count (fun b hb => h.marked hheld hb) hne
    (hfit k i hk hi)]
  split_ifs with hroom
  · unfold sectorsFor at hroom
    obtain ⟨hstart, hend⟩ := hplaced.range (by omega)
    refine Or.inr ⟨_, rfl, h.wrote hi hstart hend rfl rfl rfl rfl (by omega) (fun _ _ => rfl) (fun _ _ => rfl) ?_⟩
    intro j b hji hb
    exact ⟨rfl, fun hbi => h.owned.disjoint j i hji b hb (howner ▸ hbi)⟩
  · cases hff : firstFit s.bitmap s.dataSectorCount (sectorsFor ((s.fds k).offset.toNat + data.length)) with
    | none => exact Or.inl ⟨rfl, by omega, rfl⟩
    | some rel =>
      obtain ⟨hrel, hclear⟩ := firstFit_sound hff
      rw [h.count] at hrel
      have hsize := hplaced.size
      -- the free run overlaps no held inode, so the copy and the transfer stay clear of them
      have hfree : ∀ j b, b ∈ s.owner j → b ∉ (⟨rel, sectorsFor ((s.fds k).offset.toNat + data.length)⟩ : Extent) :=
        fun j b hb hbe => h.owned.not_mem_free hclear hb hbe
      refine Or.inr ⟨_, rfl, h.wrote hi ?_ ?_ rfl rfl rfl rfl ?_ (fun j hj => grow_inode s j _ rel _ hj) ?_ ?_⟩
      · rw [moved_start _ hrel]; omega
      · rw [moved_start _ hrel, moved_count _ hrel]; omega
      · rw [moved_count _ hrel]
        unfold sectorsFor
        omega
      · intro n hn
        rw [moved_start _ hrel]
        exact dataByte_copyRun _ _ _ _ _ (by omega)
      · intro j b hji hb
        have hout := hfree j b hb
        refine ⟨copyRun_out _ ?_, by rw [Inode.moved_extent _ hrel]; exact hout⟩
        rw [Extent.mem_def] at hout
        simp only at hout
        omega

/-! ## A file on a fresh disk -/

open FsState in
/-- while nothing is allocated a write from the start of a file has room -/
theorem write_clear (h : Sound s) (hfd : s.fds 0 = ⟨some i, 0⟩) (hclear : ∀ n, s.bitmap n = false) (hne : data ≠ [])
    (hroom : data.length ≤ 3975168) :
    ∃ t, step s (.fsWrite 0 data) = (.count (some data.length), t) ∧ Wrote s t 0 i data ∧ Sound t := by
  have hoff : (s.fds 0).offset.toNat = 0 := by rw [hfd]; rfl
  have hfits : Op.fits s (.fsWrite 0 data) := by
    intro k j hk _
    obtain rfl : 0 = k := Option.some.inj (fdSlot_zero.symm.trans hk)
    rw [hoff]
    omega
  have hnext := h.step _ hfits
  rcases step_write h fdSlot_zero (by rw [hfd]) hne hfits with ⟨-, -, hfull⟩ | ⟨t, ht, hw⟩
  · have hfit : sectorsFor (0 + data.length) ≤ s.dataSectorCount := by
      rw [h.count, sectorsFor]
      omega
    rw [hoff, firstFit_clear hclear hfit] at hfull
    cases hfull
  · rw [ht] at hnext
    exact ⟨t, ht, hw, hnext⟩

section

variable {p : CStr} {data : List UInt8} (hp : p.bytes ≠ [slash]) (hpar : parentOf p.bytes = [slash])
include hp hpar

/-- writing to the first file created on a fresh disk -/
theorem boot_write (hne : data ≠ []) (hroom : data.length ≤ 3975168) {s : FsState}
    (hs : s = (step boot (.fsOpen p true)).2) :
    ∃ t, step s (.fsWrite 0 data) = (.count (some data.length), t) ∧ Wrote s t 0 1 data ∧ Sound t := by
  have hsound : Sound s := hs ▸ fresh_boot.sound.step _ trivial
  rw [boot_open hp hpar] at hs
  refine write_clear hsound ?_ (fun n => ?_) hne hroom
  · rw [hs, setFd_fds, Function.update_self]
  · rw [hs, setFd_bitmap, create_bitmap, boot_bitmap]

/-- **The first file of a disk**: created, written and closed, it is found and holds what was written. -/
theorem boot_store (hlen : p.bytes.length < 128) (hne : data ≠ []) (hroom : data.length ≤ 3975168) {s : FsState}
    (hs : s = runOps step boot [.fsOpen p true, .fsWrite 0 data, .fsClose 0]) :
    Sound s ∧ s.find p.bytes = some 1 ∧ (s.inode 1).type = fsTypeFile ∧ s.content 1 = data ∧
      ∀ k, (s.fds k).inodeIdx = none := by
  obtain ⟨t, ht, hw, htsound⟩ := boot_write hp hpar hne hroom rfl
  have hclose : s = (step t (.fsClose 0)).2 := by
    rw [hs]
    show (step (step _ (.fsWrite 0 data)).2 (.fsClose 0)).2 = _
    rw [ht]
  have hsound : Sound s := hclose ▸ htsound.step _ trivial
  rw [boot_open hp hpar] at hw
  have hs' : s = t.setFd 0 ⟨none, (t.fds 0).offset⟩ := by
    rw [hclose, step, fsClose_run, fdSlot_zero]
    rfl
  set u := (boot.create 1 p.bytes fsTypeFile).setFd 0 ⟨some 1, 0⟩ with hu
  have hfd : u.fds 0 = ⟨some 1, 0⟩ := by rw [hu, setFd_fds, Function.update_self]
  have hino : u.inode 1 = Inode.fresh p.bytes fsTypeFile := by rw [hu, setFd_inode, create_inode, if_pos rfl]
  have hempty : u.content 1 = [] := eq_nil_of_length_eq_zero (by rw [content_length, hino]; rfl)
  have hname : s.nameAt 1 = p.bytes := by
    rw [nameAt, hs', setFd_inode, hw.name, ← nameAt, hu, nameAt_congr (setFd_inode _ _ _ _), create_nameAt _ 1 _ p hlen]
  have htype : (s.inode 1).type = fsTypeFile := by rw [hs', setFd_inode, hw.kind, hino]; rfl
  refine ⟨hsound, find_eq_some ⟨by decide, by rw [htype]; decide⟩ hname fun j hj _ hn => hp ?_, htype, ?_, fun k => ?_⟩
  · obtain rfl : j = 0 := by omega
    rw [nameAt, hs', setFd_inode, hw.other 0 (by decide) (by decide), hu, setFd_inode, create_inode, if_neg (by decide),
      boot_inode (by decide), if_pos rfl, rootInode_name] at hn
    exact hn.symm
  · have hcontent : t.content 1 = data := by
      rw [hw.content (by exact Nat.zero_le _), hempty, hfd]
      simp [overwrite]
    rw [hs']
    exact hcontent
  · rw [hs', setFd_fds, hw.fds, hu, setFd_fds, create_fds]
    by_cases hk : k = 0
    · rw [hk, Function.update_self]
    · simp only [Function.update_of_ne hk, boot_fds]

end

end GannetOS.Filesys
