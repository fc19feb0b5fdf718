/-
Sector allocation of the filesystem over whole runs.

`Move P s t` lists what a call can do to the state: take a free inode, remove an inode, open, close or advance a
descriptor, write in place, write after moving the file to a fresh run, remount. `step_moves` says that every call is a
sequence of moves; invariants are proved move by move. The policy `P` restricts which slots are written and taken; some
results only hold under one.

`Sound` is the invariant behind all of them. An inode is `held` if it is in use or an open descriptor refers to it
(`fs_delete` does not look at descriptors, so a removed inode can still be written through one). The sectors of held
inodes lie in the data area, are marked, and are pairwise disjoint: `Owned` of the library with the held inodes as owners.

Result: `sectors_allocated_once`.
-/
import GannetOS.Filesys.Machine

namespace GannetOS.Filesys

open GannetOS.Core
open Function (update update_eq_self update_of_ne update_self)

/-! ## The invariant -/

namespace FsState

/-- slot `i` is in use, or an open descriptor refers to it -/
def held (s : FsState) (i : ℕ) : Prop := s.live i ∨ ∃ fd, (s.fds fd).inodeIdx = some i

instance (s : FsState) (i : ℕ) : Decidable (s.held i) := inferInstanceAs (Decidable (_ ∨ _))

/-- the bits slot `i` accounts for -/
def owner (s : FsState) (i : ℕ) : Extent := if s.held i then (s.inode i).extent else Extent.empty

theorem mem_owner {s : FsState} {i b : ℕ} : b ∈ s.owner i ↔ s.held i ∧ b ∈ (s.inode i).extent := by
  unfold owner
  split_ifs with h
  · exact ⟨fun hb => ⟨h, hb⟩, fun hb => hb.2⟩
  · exact ⟨fun hb => absurd hb (Extent.not_mem_empty b), fun hb => absurd hb.1 h⟩

/-- whether a slot is held depends on its type and on the descriptors -/
theorem held_congr {s t : FsState} {j : ℕ} (ht : (t.inode j).type = (s.inode j).type)
    (hf : ∀ fd, (t.fds fd).inodeIdx = (s.fds fd).inodeIdx) : t.held j ↔ s.held j := by
  simp only [held, live, ht, hf]

end FsState

structure Sound (s : FsState) : Prop where
  faults : s.faults = []
  count : s.dataSectorCount = 7764
  magic : (s.disk 256).word 0 = fsMagic
  dataSectors : (s.disk 256).word 16 = 7764
  fdIdx : ∀ fd i, (s.fds fd).inodeIdx = some i → i < 512
  placed : ∀ i, s.held i → (s.inode i).Placed
  owned : Owned s.bitmap s.owner
  offset : ∀ fd i, (s.fds fd).inodeIdx = some i → (s.fds fd).offset.toNat ≤ 3975168

variable {s : FsState} {i : ℕ}

theorem Sound.held_lt (h : Sound s) (hi : s.held i) : i < 512 := by
  rcases hi with hi | ⟨fd, hfd⟩
  · exact hi.1
  · exact h.fdIdx fd i hfd

theorem Sound.ready (h : Sound s) : s.Ready := ⟨h.faults, fun i hi => (h.placed i (Or.inl hi)).range⟩

/-- the sectors of a held inode are marked -/
theorem Sound.marked (h : Sound s) {b : ℕ} (hi : s.held i) (hb : b ∈ (s.inode i).extent) :
    s.bitmap b = true := by
  apply h.owned.marked i b
  rwa [FsState.owner, if_pos hi]

/-! ## Moves -/

/-- which slots may be written through a descriptor, and which may be taken for a new inode -/
structure Policy where
  write : FsState → ℕ → Prop
  create : FsState → ℕ → Prop

/-- no restriction -/
def Policy.any : Policy := ⟨fun _ _ => True, fun _ _ => True⟩

/-- what a call that obeys the policy can do to the state -/
inductive Move (P : Policy) (s : FsState) : FsState → Prop
  | create {i : ℕ} {p : List UInt8} {type : UInt8} (hi : i < 512) (hfree : (s.inode i).type = 0)
      (htype : type = fsTypeFile ∨ type = fsTypeDir) (hok : P.create s i) : Move P s (s.create i p type)
  | remove {i : ℕ} (hi : s.live i) : Move P s (s.remove i)
  | openFd {fd : Fin 8} {i : ℕ} (hi : s.live i) (hfile : (s.inode i).type ≠ fsTypeDir)
      (hfd : (s.fds fd).inodeIdx = none) : Move P s (s.setFd fd ⟨some i, 0⟩)
  | closeFd (fd : Fin 8) : Move P s (s.setFd fd ⟨none, (s.fds fd).offset⟩)
  | advance {fd : Fin 8} {i n : ℕ} (hfd : (s.fds fd).inodeIdx = some i)
      (hn : n ≤ (s.inode i).size.toNat - (s.fds fd).offset.toNat) :
      Move P s (s.setFd fd ⟨some i, UInt32.ofNat ((s.fds fd).offset.toNat + n)⟩)
  | put {fd : Fin 8} {i : ℕ} {data : List UInt8} (hfd : (s.fds fd).inodeIdx = some i) (hok : P.write s i) (hne : data ≠ [])
      (hfit : sectorsFor ((s.fds fd).offset.toNat + data.length) ≤ (s.inode i).blockCount.toNat) :
      Move P s (s.store fd i (s.inode i) (s.fds fd).offset.toNat data)
  | putGrown {fd : Fin 8} {i rel need : ℕ} {data : List UInt8} (hfd : (s.fds fd).inodeIdx = some i) (hok : P.write s i)
      (hne : data ≠ [])
      (hneed : need = sectorsFor ((s.fds fd).offset.toNat + data.length)) (hgt : (s.inode i).blockCount.toNat < need)
      (hfit : firstFit s.bitmap s.dataSectorCount need = some rel) :
      Move P s ((s.grow (s.inode i) rel need).store fd i ((s.inode i).moved rel need) (s.fds fd).offset.toNat data)
  | remount : Move P s s.remount

theorem Inode.sized_extent (x : Inode) (n : UInt32) : (x.sized n).extent = x.extent := by
  rw [extent_eq, extent_eq, sized]
  split_ifs <;> rfl

theorem Inode.sized_type (x : Inode) (n : UInt32) : (x.sized n).type = x.type := by
  unfold sized; split_ifs <;> rfl

theorem Inode.sized_placed {x : Inode} (h : x.Placed) {n : ℕ} (hn : n ≤ 512 * x.blockCount.toNat)
    (hlt : n < 4294967296) : (x.sized (UInt32.ofNat n)).Placed := by
  unfold sized
  split_ifs
  · exact ⟨h.range, by simp only; rw [toNat_ofNat32 hlt]; exact hn⟩
  · exact h

theorem Inode.placed_of_empty {x : Inode} (hc : x.blockCount = 0) (hs : x.size = 0) : x.Placed where
  range h := absurd (by rw [hc]; rfl) h
  size := by rw [hs]; exact Nat.zero_le _

theorem Inode.moved_placed (x : Inode) (hx : x.Placed) {rel need : ℕ} (hgt : x.blockCount.toNat < need)
    (hfit : rel + need ≤ 7764) : (x.moved rel need).Placed where
  range _ := by rw [moved_start x hfit, moved_count x hfit]; omega
  size := by
    rw [moved_count x hfit]
    have := hx.size
    simp only [moved]
    omega

theorem Inode.moved_extent (x : Inode) {rel need : ℕ} (hfit : rel + need ≤ 7764) :
    (x.moved rel need).extent = ⟨rel, need⟩ := by
  rw [extent_eq, moved_start x hfit, moved_count x hfit, Nat.add_sub_cancel_left]

/-! ## Every move keeps the invariant -/

open FsState

section
variable {s : FsState} (h : Sound s)
include h

variable {i : ℕ}

theorem Sound.create (hi : i < 512) (p : List UInt8) (type : UInt8) : Sound (s.create i p type) := by
  have hheld : ∀ j, j ≠ i → ((s.create i p type).held j ↔ s.held j) := fun j hj =>
    held_congr (by rw [create_inode, if_neg hj]) fun fd => rfl
  have hdisk : (s.create i p type).disk 256 = s.disk 256 := create_disk _ _ _ _ hi (Or.inl le_rfl)
  refine ⟨h.faults, h.count, by rw [hdisk]; exact h.magic, by rw [hdisk]; exact h.dataSectors, h.fdIdx, fun j hj => ?_,
    h.owned.mono fun j b hb => ?_, h.offset⟩
  · rw [create_inode]
    split_ifs with hji
    · exact Inode.placed_of_empty rfl rfl
    · exact h.placed j ((hheld j hji).1 hj)
  · rw [mem_owner] at hb ⊢
    by_cases hji : j = i
    · rw [create_inode, if_pos hji, Inode.extent_of_zero rfl] at hb
      exact absurd hb.2 (Extent.not_mem_zero _ _)
    · rw [create_inode, if_neg hji, hheld j hji] at hb
      exact hb

/-- removing an inode of either kind -/
theorem Sound.remove (hi : s.live i) : Sound (s.remove i) := by
  have hheld : ∀ j, j ≠ i → ((s.remove i).held j ↔ s.held j) := fun j hj =>
    held_congr (by rw [remove_inode, if_neg hj]) fun fd => by rw [remove_fds]
  have hown : ∀ j b, b ∈ (s.remove i).owner j → j ≠ i ∧ b ∈ s.owner j := by
    intro j b hb
    rw [mem_owner, remove_inode] at hb
    by_cases hji : j = i
    · rw [if_pos hji, Inode.extent_of_zero rfl] at hb
      exact absurd hb.2 (Extent.not_mem_zero _ _)
    · rw [if_neg hji] at hb
      exact ⟨hji, mem_owner.2 ⟨(hheld j hji).1 hb.1, hb.2⟩⟩
  have hdisk : (s.remove i).disk 256 = s.disk 256 := remove_disk _ hi.1 (Or.inl le_rfl)
  have howner : s.owner i = (s.inode i).extent := if_pos (Or.inl hi)
  refine ⟨by rw [remove_faults]; exact h.faults, ?_, by rw [hdisk]; exact h.magic, by rw [hdisk]; exact h.dataSectors,
    by rw [remove_fds]; exact h.fdIdx, fun j hj => ?_, ?_, by rw [remove_fds]; exact h.offset⟩
  · unfold FsState.remove
    split_ifs <;> exact h.count
  · rw [remove_inode]
    split_ifs with hji
    · exact Inode.placed_of_empty rfl rfl
    · exact h.placed j ((hheld j hji).1 hj)
  · unfold FsState.remove
    by_cases ht : (s.inode i).type = fsTypeDir
    · rw [if_pos ht]
      refine h.owned.mono fun j b hb => (hown j b ?_).2
      rwa [FsState.remove, if_pos ht]
    · -- the bits of the file are given back
      rw [if_neg ht, dropFile_bitmap, ← howner]
      refine (h.owned.give i).mono fun j b hb => ?_
      obtain ⟨hji, hb'⟩ := hown j b (by rwa [FsState.remove, if_neg ht])
      rwa [update_of_ne hji]

/-- changing a descriptor so that no new inode becomes held -/
theorem Sound.setFd {fd : Fin 8} {e : Fd} (hheld : ∀ j, e.inodeIdx = some j → s.held j)
    (hoff : ∀ j, e.inodeIdx = some j → e.offset.toNat ≤ 3975168) : Sound (s.setFd fd e) := by
  have hsub : ∀ j, (s.setFd fd e).held j → s.held j := by
    rintro j (hj | ⟨k, hk⟩)
    · exact Or.inl hj
    · rw [setFd_fds] at hk
      by_cases hkf : k = fd
      · rw [hkf, update_self] at hk
        exact hheld j hk
      · rw [update_of_ne hkf] at hk
        exact Or.inr ⟨k, hk⟩
  refine ⟨h.faults, h.count, h.magic, h.dataSectors, fun k j hk => ?_, fun j hj => h.placed j (hsub j hj), ?_,
    fun k j hk => ?_⟩
  · exact h.held_lt (hsub j (Or.inr ⟨k, hk⟩))
  · refine h.owned.mono fun j b hb => ?_
    rw [mem_owner] at hb ⊢
    exact ⟨hsub j hb.1, hb.2⟩
  · rw [setFd_fds] at hk ⊢
    by_cases hkf : k = fd
    · rw [hkf, update_self] at hk ⊢
      exact hoff j hk
    · rw [update_of_ne hkf] at hk ⊢
      exact h.offset k j hk

theorem Sound.remount : Sound s.remount := by
  have hheld : ∀ j, s.remount.held j ↔ s.live j := by
    intro j
    constructor
    · rintro (hj | ⟨fd, hfd⟩)
      · exact hj
      · cases hfd
    · exact Or.inl
  refine ⟨h.faults, ?_, h.magic, h.dataSectors, fun fd i hfd => ?_, fun j hj => ?_, ⟨fun j b hb => ?_, ?_⟩,
    fun fd i hfd => ?_⟩
  · simp only [FsState.remount, h.dataSectors]
    rfl
  · cases hfd
  · exact h.placed j (Or.inl ((hheld j).1 hj))
  · rw [mem_owner, hheld] at hb
    exact rebuilt_iff.2 ⟨j, hb⟩
  · intro j j' hne b hb hb'
    rw [mem_owner, hheld] at hb hb'
    exact h.owned.disjoint j j' hne b (mem_owner.2 ⟨Or.inl hb.1, hb.2⟩) (mem_owner.2 ⟨Or.inl hb'.1, hb'.2⟩)
  · cases hfd

/-- a write that found the file's sectors `x` in place: they cover the write and belong to slot `i` alone -/
theorem Sound.store (bm : ℕ → Bool) (disk : ℕ → Sector) {fd : Fin 8} {off : ℕ} {x : Inode} {data : List UInt8}
    (hfd : (s.fds fd).inodeIdx = some i) (hx : x.Placed) (htype : x.type = (s.inode i).type) (hne : data ≠ [])
    (hfit : off + data.length ≤ 512 * x.blockCount.toNat)
    (hino : ∀ j < 512, ({ s with disk := disk, bitmap := bm } : FsState).inode j = s.inode j)
    (hsuper : disk 256 = s.disk 256) (howned : Owned bm (update s.owner i x.extent)) :
    Sound (({ s with disk := disk, bitmap := bm } : FsState).store fd i x off data) := by
  set u : FsState := { s with disk := disk, bitmap := bm } with hu
  have hi : i < 512 := h.fdIdx fd i hfd
  have hlen : 0 < data.length := List.length_pos_iff.2 hne
  have hr := hx.range (by omega)
  have hinode : ∀ j < 512, (u.store fd i x off data).inode j =
      if j = i then x.sized (UInt32.ofNat (off + data.length)) else s.inode j := by
    intro j hj
    rw [store_inode _ _ _ _ _ _ _ hj hr.1, hino j hj]
  have hfds : ∀ k, ((u.store fd i x off data).fds k).inodeIdx = (s.fds k).inodeIdx := by
    intro k
    rw [store_fds]
    by_cases hkf : k = fd
    · rw [hkf, update_self, hfd]
    · rw [update_of_ne hkf]
  have hheld : ∀ j < 512, ((u.store fd i x off data).held j ↔ s.held j) := by
    intro j hj
    refine held_congr ?_ hfds
    rw [hinode j hj]
    split_ifs with hji
    · rw [Inode.sized_type, htype, hji]
    · rfl
  have hheldlt : ∀ j, (u.store fd i x off data).held j → j < 512 := by
    rintro j (hj | ⟨k, hk⟩)
    · exact hj.1
    · exact h.fdIdx k j (by rw [← hfds]; exact hk)
  have hdisk : (u.store fd i x off data).disk 256 = s.disk 256 := by
    rw [store_disk _ _ _ _ _ _ hi (Or.inl le_rfl), putBytes_out _ _ (by omega)]
    exact hsuper
  refine ⟨h.faults, h.count, by rw [hdisk]; exact h.magic, by rw [hdisk]; exact h.dataSectors, ?_, ?_, ?_, ?_⟩
  · intro k j hk
    exact h.fdIdx k j (by rw [← hfds]; exact hk)
  · intro j hj
    have hjlt := hheldlt j hj
    rw [hinode j hjlt]
    split_ifs with hji
    · exact Inode.sized_placed hx hfit (by omega)
    · exact h.placed j ((hheld j hjlt).1 hj)
  · refine howned.mono fun j b hb => ?_
    rw [mem_owner] at hb
    have hjlt := hheldlt j hb.1
    rw [hheld j hjlt, hinode j hjlt] at hb
    by_cases hji : j = i
    · rw [if_pos hji, Inode.sized_extent] at hb
      rw [hji, update_self]
      exact hb.2
    · rw [if_neg hji] at hb
      rw [update_of_ne hji]
      exact mem_owner.2 hb
  · intro k j hk
    rw [store_fds] at hk ⊢
    by_cases hkf : k = fd
    · rw [hkf, update_self]
      simp only
      rw [toNat_ofNat32 (by omega)]
      omega
    · rw [update_of_ne hkf] at hk ⊢
      exact h.offset k j hk

theorem Sound.move {P : Policy} {t : FsState} (hm : Move P s t) : Sound t := by
  cases hm with
  | create hi _ _ _ => exact h.create hi _ _
  | remove hi => exact h.remove hi
  | openFd hi _ _ =>
    refine h.setFd (fun j hj => ?_) fun _ _ => Nat.zero_le _
    cases hj
    exact Or.inl hi
  | closeFd fd => exact h.setFd (fun j hj => by cases hj) fun j hj => by cases hj
  | @advance fd i n hfd hn =>
    have hheld : s.held i := Or.inr ⟨fd, hfd⟩
    have hoff := h.offset fd i hfd
    have hp := h.placed i hheld
    have hsize := hp.size
    refine h.setFd (fun j hj => ?_) fun _ _ => ?_
    · cases hj
      exact hheld
    · have hend : (s.fds fd).offset.toNat + n ≤ 3975168 := by
        rcases Nat.eq_zero_or_pos n with h0 | hpos
        · omega
        · have := hp.range (by omega)
          omega
      simp only
      rw [toNat_ofNat32 (by omega)]
      exact hend
  | @put fd i data hfd _ hne hfit =>
    have hheld : s.held i := Or.inr ⟨fd, hfd⟩
    refine h.store s.bitmap s.disk hfd (h.placed i hheld) rfl hne ?_ (fun _ _ => rfl) rfl ?_
    · unfold sectorsFor at hfit
      omega
    · have howner : (s.inode i).extent = s.owner i := (if_pos hheld).symm
      rw [howner, update_eq_self]
      exact h.owned
  | @putGrown fd i rel need data hfd _ hne hneed hgt hfit =>
    have hheld : s.held i := Or.inr ⟨fd, hfd⟩
    obtain ⟨hrel, hclear⟩ := firstFit_sound hfit
    rw [h.count] at hrel
    have hplaced := h.placed i hheld
    have howner : s.owner i = (s.inode i).extent := if_pos hheld
    refine h.store _ _ (x := (s.inode i).moved rel need) hfd (Inode.moved_placed _ hplaced hgt hrel) rfl hne ?_
      (fun j hj => grow_inode s j (s.inode i) rel need hj) (copyRun_out _ (by omega)) ?_
    · rw [moved_count _ hrel, hneed, sectorsFor]
      omega
    · rw [Inode.moved_extent _ hrel, ← howner]
      exact h.owned.move i hclear
  | remount => exact h.remount

theorem Sound.moves {P : Policy} {t : FsState} (hm : Relation.ReflTransGen (Move P) s t) : Sound t := by
  induction hm with
  | refl => exact h
  | tail _ hstep ih => exact ih.move hstep

end

/-! ## Every call is a sequence of moves -/

/-- the 32-bit arithmetic of `fs_write` does not wrap -/
def Op.fits (s : FsState) : Op → Prop
  | .fsWrite fd data => ∀ k i, fdSlot fd = some k → (s.fds k).inodeIdx = some i →
      (s.fds k).offset.toNat + data.length + 511 < 4294967296
  | _ => True

/-- the parent directory of the path fits the 128-byte buffer of `parent_exists` -/
def Op.parentFits : Op → Prop
  | .fsOpen p _ | .fsMkdir p => lastSlash p.bytes < 128
  | _ => True

/-- the slot a call writes through a descriptor -/
def Op.writes (s : FsState) : Op → Option ℕ
  | .fsWrite fd data => if data = [] then none else (fdSlot fd).bind fun k => (s.fds k).inodeIdx
  | _ => none

/-- the slot a call takes for a new file or directory -/
def Op.creates (s : FsState) : Op → Option ℕ
  | .fsOpen p create =>
    if s.freeFd.isSome ∧ s.find p.bytes = none ∧ create = true ∧ s.isdir (parentOf p.bytes) = true then s.freeSlot
    else none
  | .fsMkdir p => if s.find p.bytes = none ∧ s.isdir (parentOf p.bytes) = true then s.freeSlot else none
  | _ => none

/-- the call obeys the policy -/
def Op.obeys (P : Policy) (s : FsState) (o : Op) : Prop :=
  (∀ i, o.writes s = some i → P.write s i) ∧ ∀ i, o.creates s = some i → P.create s i

theorem Op.obeys_any (s : FsState) (o : Op) : o.obeys Policy.any s := ⟨fun _ _ => trivial, fun _ _ => trivial⟩

theorem freeFd_some {fd : Fin 8} (h : s.freeFd = some fd) : (s.fds fd).inodeIdx = none := by
  simpa using List.find?_some h

theorem fsRead_closed (s : FsState) (fd : ℤ) (len : ℕ) (h : ∀ k i, fdSlot fd = some k → (s.fds k).inodeIdx ≠ some i) :
    (fsRead (fun _ _ => pure ()) fd len : StateM FsState _) s = (none, s) := by
  have hget : (getFs : StateM FsState _) s = (s, s) := rfl
  unfold fsRead
  cases hfd : fdSlot fd with
  | none => rfl
  | some k =>
    simp only
    rw [run_bind hget]
    cases hk : (s.fds k).inodeIdx with
    | none => rfl
    | some i => exact absurd hk (h k i hfd)

theorem fsWrite_closed (s : FsState) (fd : ℤ) (inp : ℕ → ℕ → StateM FsState (List UInt8)) (len : ℕ)
    (h : ∀ k i, fdSlot fd = some k → (s.fds k).inodeIdx ≠ some i) :
    (fsWrite inp fd len : StateM FsState _) s = (none, s) := by
  have hget : (getFs : StateM FsState _) s = (s, s) := rfl
  unfold fsWrite
  cases hfd : fdSlot fd with
  | none => rfl
  | some k =>
    simp only
    rw [run_bind hget]
    cases hk : (s.fds k).inodeIdx with
    | none => rfl
    | some i => exact absurd hk (h k i hfd)

theorem fsWrite_empty {fd : ℤ} {k : Fin 8} (hfd : fdSlot fd = some k) (hk : (s.fds k).inodeIdx = some i)
    (inp : ℕ → ℕ → StateM FsState (List UInt8)) :
    (fsWrite inp fd 0 : StateM FsState _) s = (some 0, s) := by
  have hget : (getFs : StateM FsState _) s = (s, s) := rfl
  unfold fsWrite
  rw [hfd]
  simp only
  rw [run_bind hget, hk]
  rfl

/-- a descriptor is either open, or unusable -/
theorem fd_cases (s : FsState) (fd : ℤ) :
    (∃ k i, fdSlot fd = some k ∧ (s.fds k).inodeIdx = some i) ∨
      ∀ k i, fdSlot fd = some k → (s.fds k).inodeIdx ≠ some i := by
  by_cases h : ∃ k i, fdSlot fd = some k ∧ (s.fds k).inodeIdx = some i
  · exact Or.inl h
  · exact Or.inr fun k i hk hi => h ⟨k, i, hk, hi⟩

theorem Removes.moves (P : Policy) {t : FsState} (h : s.Removes t) : Relation.ReflTransGen (Move P) s t := by
  induction h with
  | refl => exact .refl
  | tail _ hstep ih =>
    obtain ⟨i, hi, rfl⟩ := hstep
    exact ih.tail (.remove hi)

theorem step_moves {P : Policy} (h : Sound s) (o : Op) (hfit : o.fits s) (hP : o.obeys P s) :
    Relation.ReflTransGen (Move P) s (step s o).2 := by
  have single : ∀ {t : FsState}, Move P s t → Relation.ReflTransGen (Move P) s t := Relation.ReflTransGen.single
  cases o with
  | fsInit =>
    simp only [step, fsInit_remount h.faults h.magic h.ready.placed]
    exact single .remount
  | fsOpen p create =>
    simp only [step, fsOpen_run h.faults]
    cases hfd : s.freeFd with
    | none => exact .refl
    | some fd =>
      cases hf : s.find p.bytes with
      | some i =>
        by_cases ht : (s.inode i).type = fsTypeDir
        · simp only [if_pos ht]; exact .refl
        · simp only [if_neg ht]; exact single (.openFd (find_some hf).1 ht (freeFd_some hfd))
      | none =>
        simp only
        split_ifs with hno
        · exact .refl
        · cases hfree : s.freeSlot with
          | none => exact .refl
          | some i =>
            obtain ⟨hi, h0⟩ := freeSlot_some hfree
            have hok : P.create s i := hP.2 i (by simpa [Op.creates, hfd, hf, hfree] using hno)
            have hnew : ((s.create i p.bytes fsTypeFile).inode i).type = fsTypeFile := by
              rw [create_inode, if_pos rfl]; rfl
            refine (single (.create hi h0 (Or.inl rfl) hok)).tail (.openFd ⟨hi, ?_⟩ ?_ (freeFd_some hfd))
            · rw [hnew]; decide
            · rw [hnew]; decide
  | fsRead fd len =>
    rcases fd_cases s fd with ⟨k, i, hk, hi⟩ | hclosed
    · simp only [step, fsRead_run h.faults hk hi (h.fdIdx k i hi) (h.placed i (Or.inr ⟨k, hi⟩)).start_lt]
      exact single (.advance hi (Nat.min_le_right _ _))
    · simp only [step, fsRead_closed s fd _ hclosed]
      exact .refl
  | fsWrite fd data =>
    rcases fd_cases s fd with ⟨k, i, hk, hi⟩ | hclosed
    · by_cases hne : data = []
      · subst hne
        simp only [step, List.length_nil, fsWrite_empty hk hi]
        exact .refl
      · have hheld : s.held i := Or.inr ⟨k, hi⟩
        have hok : P.write s i := hP.1 i (by simp [Op.writes, hne, hk, hi])
        simp only [step, fsWrite_run h.faults hk hi (h.fdIdx k i hi) (h.placed i hheld) h.count
          (fun b hb => h.marked hheld hb) hne (hfit k i hk hi)]
        split_ifs with hroom
        · exact single (.put hi hok hne hroom)
        · cases hff : firstFit s.bitmap s.dataSectorCount
              (sectorsFor ((s.fds k).offset.toNat + data.length)) with
          | none => exact .refl
          | some rel => exact single (.putGrown hi hok hne rfl (by omega) hff)
    · simp only [step, fsWrite_closed s fd _ _ hclosed]
      exact .refl
  | fsClose fd =>
    simp only [step, fsClose_run]
    cases fdSlot fd with
    | none => exact .refl
    | some k => exact single (.closeFd k)
  | fsMkdir p =>
    simp only [step, fsMkdir_run h.faults]
    split_ifs with hno
    · exact .refl
    · cases hfree : s.freeSlot with
      | none => exact .refl
      | some i =>
        obtain ⟨hi, h0⟩ := freeSlot_some hfree
        have hok : P.create s i := hP.2 i (by simpa [Op.creates, hfree] using hno)
        exact single (.create hi h0 (Or.inr rfl) hok)
  | fsRmdir p =>
    simp only [step, fsRmdir_run h.faults]
    split_ifs
    · exact .refl
    · cases hf : s.find p.bytes with
      | none => exact .refl
      | some i =>
        simp only
        split_ifs with hdir
        · have hrm := Move.remove (P := P) (find_some hf).1
          rw [FsState.remove, if_pos hdir.1] at hrm
          exact single hrm
        · exact .refl
  | fsRrmdr p => exact Removes.moves P (fsRrmdr_removes p h.ready)
  | fsDelete p =>
    simp only [step, CStr.arg, fsDelete_run h.faults p.bytes h.ready.placed]
    cases hf : s.find (cstr p.bytes) with
    | none => exact .refl
    | some i =>
      simp only
      split_ifs with hdir
      · exact .refl
      · have hrm := Move.remove (P := P) (find_some hf).1
        rw [FsState.remove, if_neg hdir] at hrm
        exact single hrm

theorem Sound.step {s : FsState} (h : Sound s) (o : Op) (hfit : o.fits s) : Sound (step s o).2 :=
  h.moves (step_moves h o hfit (o.obeys_any s))

/-! ## Runs -/

theorem Fresh.sound (h : Fresh s) : Sound s := by
  obtain ⟨s₀, hf, rfl⟩ := h.eq_formatted
  have hheld : ∀ j, s₀.formatted.held j → j = 0 := by
    rintro j (hj | ⟨fd, hfd⟩)
    · exact formatted_live hj
    · cases hfd
  have hroot : s₀.formatted.inode 0 = rootInode := by rw [formatted_inode s₀ (by decide), if_pos rfl]
  have hempty : ∀ j b, b ∉ s₀.formatted.owner j := by
    intro j b hb
    rw [mem_owner] at hb
    rw [hheld j hb.1, hroot, Inode.extent_of_zero rfl] at hb
    exact Extent.not_mem_zero _ _ hb.2
  refine ⟨hf, rfl, ?_, ?_, fun fd i hfd => (by cases hfd), fun j hj => ?_,
    ⟨fun j b hb => absurd hb (hempty j b), fun j _ _ b hb => absurd hb (hempty j b)⟩, fun fd i hfd => (by cases hfd)⟩
  · rw [formatted_super]; exact freshSuper_magic
  · rw [formatted_super]; exact freshSuper_count
  · rw [hheld j hj, hroot]
    exact Inode.placed_of_empty rfl rfl

/-- paths shorter than 128 bytes, writes of at most 65536 bytes -/
def Op.bounded : Op → Prop
  | .fsOpen p _ | .fsMkdir p | .fsRmdir p | .fsRrmdr p | .fsDelete p => p.bytes.length < 128
  | .fsWrite _ data => data.length ≤ 65536
  | _ => True

/-- the offset of an open descriptor stays within the disk, so a bounded write cannot wrap -/
theorem Sound.fits (h : Sound s) {o : Op} (ho : o.bounded) : o.fits s := by
  cases o with
  | fsWrite fd data =>
    intro k i _ hi
    have hoff := h.offset k i hi
    have hlen : data.length ≤ 65536 := ho
    omega
  | _ => trivial

/-- **No sector is allocated twice.** In every state reached from a fresh disk, with remounts and with writes through
descriptors of deleted files, the sectors of the inodes in use lie in the data area, are marked in the bitmap, and
belong to one inode each. -/
theorem sectors_allocated_once {s t : FsState} {tr : List (Op × Res)} (hs : Fresh s)
    (hrun : Run step (fun _ o => o.bounded) s tr t) :
    (∀ i, t.live i → 0 < (t.inode i).blockCount.toNat →
      428 ≤ (t.inode i).startBlock.toNat ∧ (t.inode i).startBlock.toNat + (t.inode i).blockCount.toNat ≤ 8192) ∧
    (∀ i, t.live i → ∀ lba, (t.inode i).startBlock.toNat ≤ lba →
      lba < (t.inode i).startBlock.toNat + (t.inode i).blockCount.toNat → t.bitmap (lba - 428) = true) ∧
    ∀ i j, t.live i → t.live j → i ≠ j → ∀ lba, (t.inode i).startBlock.toNat ≤ lba →
      lba < (t.inode i).startBlock.toNat + (t.inode i).blockCount.toNat →
      lba < (t.inode j).startBlock.toNat ∨ (t.inode j).startBlock.toNat + (t.inode j).blockCount.toNat ≤ lba := by
  have h : Sound t := hrun.invariant (fun s o hs ho => hs.step o (hs.fits ho)) hs.sound
  have hrange : ∀ i, t.live i → 0 < (t.inode i).blockCount.toNat → _ := fun i hi hc =>
    (h.placed i (Or.inl hi)).range (by omega)
  refine ⟨hrange, fun i hi lba h1 h2 => ?_, fun i j hi hj hne lba h1 h2 => ?_⟩
  · have hr := hrange i hi (by omega)
    exact h.marked (Or.inl hi) (Inode.mem_extent.2 (by omega))
  · by_contra hin
    rw [not_or] at hin
    have hri := hrange i hi (by omega)
    have hrj := hrange j hj (by omega)
    have hbi : lba - 428 ∈ t.owner i := mem_owner.2 ⟨Or.inl hi, Inode.mem_extent.2 (by omega)⟩
    have hbj : lba - 428 ∈ t.owner j := mem_owner.2 ⟨Or.inl hj, Inode.mem_extent.2 (by omega)⟩
    exact h.owned.disjoint i j hne _ hbi hbj

/-- a file is written, deleted while open, written through the stale descriptor, and the disk is remounted -/
theorem sectors_allocated_once_stale :
    let a : CStr := ⟨[47, 97], by decide⟩
    let t := runOps step FsState.boot [.fsOpen a true, .fsWrite 0 [1, 2, 3], .fsDelete a, .fsWrite 0 [4], .fsInit]
    ∀ i, t.live i → 0 < (t.inode i).blockCount.toNat →
      428 ≤ (t.inode i).startBlock.toNat ∧ (t.inode i).startBlock.toNat + (t.inode i).blockCount.toNat ≤ 8192 := by
  intro a t
  obtain ⟨tr, hrun⟩ : ∃ tr, Run step (fun _ o => o.bounded) boot tr t := Run.of_forall _ fun _ => by simp [Op.bounded, a]
  exact (sectors_allocated_once fresh_boot hrun).1

end GannetOS.Filesys
