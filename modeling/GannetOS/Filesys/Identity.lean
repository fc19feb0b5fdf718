/-
Which file does a descriptor refer to?

A descriptor of `fs.c` stores a bare slot of the inode table. `Tracked` adds ghost state to the machine: every inode gets
a birth stamp when its slot is taken, and `fs_open` records the stamp of the file it opened. `Tracked.step` runs the
machine's own step, and every run of the machine is the run of a tracked one (`Run.lift`).

- `descriptor_identity`: as long as no call takes a free slot that an open descriptor still refers to, and none reads or
  writes through a descriptor whose file is gone, reads and writes only touch the file that was opened.
- `stale_write_hits_new_file`: `fs_delete` leaves descriptors open and `fs_open` takes the first free slot, so a write
  through the descriptor of a deleted file lands in a file created later.
-/
import GannetOS.Filesys.Leak
import GannetOS.Filesys.Content

namespace GannetOS.Filesys

open GannetOS.Core FsState

/-! ## What a call does to slots and descriptors -/

/-- the only slot a call can take is `Op.creates`, and only `fs_open` makes a descriptor refer to a slot -/
theorem step_slots {s : FsState} (h : Sound s) (o : Op) (hfit : o.fits s) :
    (∀ i, (step s o).2.live i → s.live i ∨ o.creates s = some i) ∧
      ∀ k i, ((step s o).2.fds k).inodeIdx = some i → (s.fds k).inodeIdx = some i ∨ (step s o).1 = .fd (some k) := by
  have hset : ∀ (t : FsState) (fd : Fin 8) (e : Fd), (∀ i, e.inodeIdx = some i → (t.fds fd).inodeIdx = some i) →
      ∀ k i, ((t.setFd fd e).fds k).inodeIdx = some i → (t.fds k).inodeIdx = some i := by
    intro t fd e he k i hk
    rw [setFd_fds] at hk
    by_cases hkf : k = fd
    · subst hkf
      rw [Function.update_self] at hk
      exact he i hk
    · rwa [Function.update_of_ne hkf] at hk
  have hsame (q : ℕ → Prop) (r : Fin 8 → Prop) : (∀ i, s.live i → s.live i ∨ q i) ∧
      ∀ k i, (s.fds k).inodeIdx = some i → (s.fds k).inodeIdx = some i ∨ r k := ⟨fun _ => .inl, fun _ _ => .inl⟩
  cases o with
  | fsInit =>
    simp only [step, fsInit_remount h.faults h.magic h.ready.placed]
    exact ⟨fun i hi => Or.inl hi, fun k i hk => by cases hk⟩
  | fsOpen p create =>
    simp only [step, fsOpen_run h.faults]
    cases hfd : s.freeFd with
    | none => exact hsame _ _
    | some fd =>
      have hother : ∀ (t : FsState) (e : Fd) k i, ((t.setFd fd e).fds k).inodeIdx = some i →
          (t.fds k).inodeIdx = some i ∨ Res.fd (some fd) = .fd (some k) := by
        intro t e k i hk
        by_cases hkf : k = fd
        · exact Or.inr (by rw [hkf])
        · rw [setFd_fds, Function.update_of_ne hkf] at hk
          exact Or.inl hk
      cases hf : s.find p.bytes with
      | some j =>
        simp only
        split_ifs
        · exact hsame _ _
        · exact ⟨fun i hi => Or.inl hi, hother s _⟩
      | none =>
        simp only
        split_ifs with hno
        · exact hsame _ _
        · cases hfree : s.freeSlot with
          | none => exact hsame _ _
          | some j =>
            refine ⟨fun i hi => ?_, hother _ _⟩
            by_cases hij : i = j
            · rw [hij]
              exact Or.inr (by simpa [Op.creates, hfd, hf, hfree] using hno)
            · have hl : (s.create j p.bytes fsTypeFile).live i := hi
              unfold live at hl
              rw [create_inode, if_neg hij] at hl
              exact Or.inl hl
  | fsRead fd len =>
    rcases fd_cases s fd with ⟨k, i, hk, hi⟩ | hclosed
    · rw [step_read h hk hi]
      exact ⟨fun j hj => Or.inl hj, fun k' j hj => Or.inl (hset s _ _ (fun _ he => he ▸ hi) k' j hj)⟩
    · simp only [step, fsRead_closed s fd _ hclosed]
      exact hsame _ _
  | fsWrite fd data =>
    rcases fd_cases s fd with ⟨k, i, hk, hi⟩ | hclosed
    · by_cases hne : data = []
      · subst hne
        simp only [step, List.length_nil, fsWrite_empty hk hi]
        exact hsame _ _
      · rcases step_write h hk hi hne hfit with ⟨ht, -⟩ | ⟨t, ht, hw⟩
        · rw [ht]
          exact hsame _ _
        · rw [ht]
          refine ⟨fun j hj => Or.inl (hw.live_iff.1 hj), fun k' j hj => Or.inl ?_⟩
          simp only [hw.fds] at hj
          exact hset s k _ (fun _ he => he ▸ hi) k' j hj
    · simp only [step, fsWrite_closed s fd _ _ hclosed]
      exact hsame _ _
  | fsClose fd =>
    simp only [step, fsClose_run]
    cases fdSlot fd with
    | none => exact hsame _ _
    | some k => exact ⟨fun i hi => Or.inl hi, fun k' i hk => Or.inl (hset s k _ (fun _ he => by cases he) k' i hk)⟩
  | fsMkdir p =>
    simp only [step, fsMkdir_run h.faults]
    split_ifs with hno
    · exact hsame _ _
    · cases hfree : s.freeSlot with
      | none => exact hsame _ _
      | some j =>
        refine ⟨fun i hi => ?_, fun k i hk => Or.inl hk⟩
        by_cases hij : i = j
        · rw [hij]
          exact Or.inr (by simpa [Op.creates, hfree] using hno)
        · have hl : (s.create j p.bytes fsTypeDir).live i := hi
          unfold live at hl
          rw [create_inode, if_neg hij] at hl
          exact Or.inl hl
  | fsRmdir p =>
    simp only [step, fsRmdir_run h.faults]
    split_ifs
    · exact hsame _ _
    · cases hf : s.find p.bytes with
      | none => exact hsame _ _
      | some j =>
        simp only
        split_ifs with hdir
        · refine ⟨fun i hi => Or.inl ?_, fun k i hk => Or.inl hk⟩
          have hrm : (s.remove j).live i := by rw [FsState.remove, if_pos hdir.1]; exact hi
          exact (live_of_remove hrm).2
        · exact hsame _ _
  | fsRrmdr p =>
    have hrm : s.Removes (step s (.fsRrmdr p)).2 := fsRrmdr_removes p h.ready
    refine ⟨fun i hi => Or.inl ?_, fun k i hk => Or.inl ?_⟩
    · exact hrm.live_of hi
    · rwa [hrm.fds_eq] at hk
  | fsDelete p =>
    simp only [step, CStr.arg, fsDelete_run h.faults p.bytes h.ready.placed]
    cases hf : s.find (cstr p.bytes) with
    | none => exact hsame _ _
    | some j =>
      simp only
      split_ifs with hdir
      · exact hsame _ _
      · refine ⟨fun i hi => Or.inl ?_, fun k i hk => Or.inl hk⟩
        have hrm : (s.remove j).live i := by rw [FsState.remove, if_neg hdir]; exact hi
        exact (live_of_remove hrm).2

/-- `fs_open` opens the file at the path, or one it has just created for it -/
theorem step_open {s : FsState} (h : Sound s) {p : CStr} {create : Bool} {k : Fin 8}
    (hok : (step s (.fsOpen p create)).1 = .fd (some k)) :
    ∃ i, ((step s (.fsOpen p create)).2.fds k).inodeIdx = some i ∧
      (s.find p.bytes = some i ∨
        s.find p.bytes = none ∧ ¬ s.live i ∧ (step s (.fsOpen p create)).2.inode i = Inode.fresh p.bytes fsTypeFile) := by
  simp only [step, fsOpen_run h.faults] at hok ⊢
  cases hfd : s.freeFd with
  | none => simp [hfd] at hok
  | some fd =>
    simp only [hfd] at hok
    cases hf : s.find p.bytes with
    | some i =>
      simp only [hf] at hok ⊢
      split_ifs at hok ⊢ with ht
      · simp at hok
      · obtain rfl : fd = k := by simpa using hok
        exact ⟨i, by simp, Or.inl rfl⟩
    | none =>
      simp only [hf] at hok ⊢
      split_ifs at hok ⊢ with hno
      · simp at hok
      · cases hfree : s.freeSlot with
        | none => simp [hfree] at hok
        | some i =>
          simp only [hfree] at hok ⊢
          obtain rfl : fd = k := by simpa using hok
          refine ⟨i, by simp, Or.inr ⟨trivial, fun hl => hl.2 (freeSlot_some hfree).2, ?_⟩⟩
          simp

/-! ## Tracked runs -/

/-- the machine's state with ghost state: the number of calls so far, the call that created the inode of each slot, and
the stamp of the file each descriptor was opened on -/
structure Tracked where
  fs : FsState
  clock : ℕ
  born : ℕ → ℕ
  file : Fin 8 → ℕ

namespace Tracked

def start (s : FsState) : Tracked := ⟨s, 1, fun _ => 0, fun _ => 0⟩

/-- the stamps after a call that leads to `t` -/
def stamp (g : Tracked) (t : FsState) (i : ℕ) : ℕ := if t.live i ∧ ¬ g.fs.live i then g.clock else g.born i

/-- one call; a call that returns a descriptor records the stamp of the file behind it -/
def step (g : Tracked) (o : Op) : Res × Tracked :=
  let r := Filesys.step g.fs o
  let file := fun k => if r.1 = .fd (some k) then ((r.2.fds k).inodeIdx.map (g.stamp r.2)).getD 0 else g.file k
  (r.1, ⟨r.2, g.clock + 1, g.stamp r.2, file⟩)

theorem stamp_new {g : Tracked} {t : FsState} {i : ℕ} (ht : t.live i) (hs : ¬ g.fs.live i) : g.stamp t i = g.clock :=
  if_pos ⟨ht, hs⟩

theorem stamp_old {g : Tracked} {t : FsState} {i : ℕ} (hs : g.fs.live i) : g.stamp t i = g.born i :=
  if_neg fun h => h.2 hs

end Tracked

/-- no slot is taken that an open descriptor refers to -/
def noReuse : Policy := ⟨fun _ _ => True, fun s i => ∀ k, (s.fds k).inodeIdx ≠ some i⟩

/-- the inode behind the descriptor of a read or write is in use -/
def Op.onFile (s : FsState) : Op → Prop
  | .fsRead fd _ | .fsWrite fd _ => ∀ k i, fdSlot fd = some k → (s.fds k).inodeIdx = some i → s.live i
  | _ => True

/-- the sizes of the call fit, it takes no slot that an open descriptor refers to, and it does not read or write a file
that is gone -/
def KeepsSlots (s : FsState) (o : Op) : Prop := o.fits s ∧ o.parentFits ∧ o.obeys noReuse s ∧ o.onFile s

/-- the stamps tell the inodes in use apart, and a descriptor's inode, while in use, is the file that was opened -/
structure Own (g : Tracked) : Prop where
  sound : Sound g.fs
  past : ∀ i, g.fs.live i → g.born i < g.clock
  distinct : ∀ i j, g.fs.live i → g.fs.live j → g.born i = g.born j → i = j
  file : ∀ k i, (g.fs.fds k).inodeIdx = some i → g.fs.live i → g.born i = g.file k

theorem Own.step {g : Tracked} (h : Own g) (o : Op) (ho : KeepsSlots g.fs o) : Own (g.step o).2 := by
  obtain ⟨hlive, hfds⟩ := step_slots h.sound o ho.1
  set t := (Filesys.step g.fs o).2 with ht
  -- an inode in use after the call is an old one, or the one the call created
  have hcases : ∀ i, t.live i → (g.fs.live i ∧ g.stamp t i = g.born i) ∨
      (o.creates g.fs = some i ∧ ¬ g.fs.live i ∧ g.stamp t i = g.clock) := by
    intro i hi
    by_cases hold : g.fs.live i
    · exact Or.inl ⟨hold, Tracked.stamp_old hold⟩
    · exact Or.inr ⟨(hlive i hi).resolve_left hold, hold, Tracked.stamp_new hi hold⟩
  refine ⟨h.sound.step o ho.1, fun i hi => ?_, fun i j hi hj he => ?_, fun k i hk hi => ?_⟩
  · show g.stamp t i < g.clock + 1
    rcases hcases i hi with ⟨hold, hst⟩ | ⟨-, -, hst⟩
    · have := h.past i hold
      omega
    · omega
  · have he' : g.stamp t i = g.stamp t j := he
    rcases hcases i hi with ⟨hoi, hsi⟩ | ⟨hci, -, hsi⟩ <;> rcases hcases j hj with ⟨hoj, hsj⟩ | ⟨hcj, -, hsj⟩
    · exact h.distinct i j hoi hoj (by rw [← hsi, ← hsj, he'])
    · have := h.past i hoi
      omega
    · have := h.past j hoj
      omega
    · exact Option.some.inj (hci.symm.trans hcj)
  · have hk' : (t.fds k).inodeIdx = some i := hk
    show g.stamp t i =
      if (Filesys.step g.fs o).1 = .fd (some k) then ((t.fds k).inodeIdx.map (g.stamp t)).getD 0 else g.file k
    by_cases hopen : (Filesys.step g.fs o).1 = .fd (some k)
    · rw [if_pos hopen, hk']
      rfl
    · have hbefore := (hfds k i hk').resolve_right hopen
      rw [if_neg hopen]
      rcases hcases i hi with ⟨hold, hst⟩ | ⟨hc, -, -⟩
      · rw [hst]
        exact h.file k i hbefore hold
      · exact absurd hbefore (ho.2.2.1.2 i hc k)

theorem Fresh.own {s : FsState} (hs : Fresh s) : Own (Tracked.start s) := by
  have hone : ∀ i, s.live i → i = 0 := by
    obtain ⟨s₀, -, rfl⟩ := hs.eq_formatted
    exact fun i => formatted_live
  exact ⟨hs.sound, fun _ _ => Nat.one_pos, fun i j hi hj _ => (hone i hi).trans (hone j hj).symm, fun _ _ _ _ => rfl⟩

/-! ## Descriptors over runs -/

/-- the inode in slot `j` is as it was: its record and its bytes -/
def Untouched (s t : FsState) (j : ℕ) : Prop := t.inode j = s.inode j ∧ t.content j = s.content j

/-- **A descriptor keeps to its file.** In every run in which no call takes a slot that an open descriptor refers to, or
reads or writes through a descriptor whose inode is free: `fs_open` opens the file at the path; a read through the
descriptor returns bytes of the file that was opened, which is still there, and touches no inode; a write touches no inode
in use but the file that was opened. -/
theorem descriptor_identity {s t : FsState} {tr : List (Op × Res)} (hs : Fresh s) (hrun : Run step KeepsSlots s tr t) :
    ∃ g : Tracked, g.fs = t ∧ Run Tracked.step (fun g o => KeepsSlots g.fs o) (Tracked.start s) tr g ∧
      (∀ i j, t.live i → t.live j → g.born i = g.born j → i = j) ∧
      (∀ p create k, (step t (.fsOpen p create)).1 = .fd (some k) →
        ∃ i, ((step t (.fsOpen p create)).2.fds k).inodeIdx = some i ∧
          (g.step (.fsOpen p create)).2.file k = (g.step (.fsOpen p create)).2.born i ∧
          (t.find p.bytes = some i ∨
            t.find p.bytes = none ∧ ¬ t.live i ∧
              (step t (.fsOpen p create)).2.inode i = Inode.fresh p.bytes fsTypeFile)) ∧
      (∀ fd k len bytes, fdSlot fd = some k → KeepsSlots t (.fsRead fd len) →
        (step t (.fsRead fd len)).1 = .data (some bytes) →
        (∀ j, Untouched t (step t (.fsRead fd len)).2 j) ∧
        ∃ i, (t.fds k).inodeIdx = some i ∧ t.live i ∧ g.born i = g.file k ∧
          bytes = ((t.content i).drop (t.fds k).offset.toNat).take len.toNat) ∧
      ∀ fd k data n, fdSlot fd = some k → KeepsSlots t (.fsWrite fd data) →
        (step t (.fsWrite fd data)).1 = .count (some n) →
        ∀ j, t.live j → g.born j ≠ g.file k → Untouched t (step t (.fsWrite fd data)).2 j := by
  obtain ⟨g, rfl, hg⟩ := Run.lift Tracked.step Tracked.fs (fun _ _ => rfl) (fun _ _ => rfl)
    (g := Tracked.start s) hrun
  have h : Own g := hg.invariant (fun g o hI ho => hI.step o ho) hs.own
  refine ⟨g, rfl, hg, h.distinct, fun p create k hok => ?_, fun fd k len bytes hk ho hok => ?_,
    fun fd k data n hk ho hok j hj hne => ?_⟩
  · obtain ⟨i, hi, hwhich⟩ := step_open h.sound hok
    refine ⟨i, hi, ?_, hwhich⟩
    show (if (Filesys.step g.fs (.fsOpen p create)).1 = .fd (some k) then _ else _) = _
    rw [if_pos hok, hi]
    rfl
  · rcases fd_cases g.fs fd with ⟨k', i, hk', hi⟩ | hclosed
    · obtain rfl : k = k' := Option.some.inj (hk.symm.trans hk')
      rw [step_read h.sound hk hi] at hok ⊢
      have hlive := ho.2.2.2 k i hk hi
      refine ⟨fun j => ⟨rfl, rfl⟩, i, hi, hlive, h.file k i hi hlive, ?_⟩
      simpa using hok.symm
    · simp [step, fsRead_closed g.fs fd _ hclosed] at hok
  · rcases fd_cases g.fs fd with ⟨k', i, hk', hi⟩ | hclosed
    · obtain rfl : k = k' := Option.some.inj (hk.symm.trans hk')
      by_cases hempty : data = []
      · subst hempty
        simp only [step, List.length_nil, fsWrite_empty hk hi]
        exact ⟨rfl, rfl⟩
      · rcases step_write h.sound hk hi hempty ho.1 with ⟨ht, -⟩ | ⟨t, ht, hw⟩
        · rw [ht]
          exact ⟨rfl, rfl⟩
        · -- only the inode behind the descriptor is written, and that one is the opened file
          have hji : j ≠ i := by
            rintro rfl
            exact hne (h.file k j hi hj)
          rw [ht]
          exact ⟨hw.other j hj.1 hji, hw.content_other h.sound (Or.inl hj) hji⟩
    · simp only [step, fsWrite_closed g.fs fd _ _ hclosed]
      exact ⟨rfl, rfl⟩

/-- a new file `a`, which descriptor 0 refers to, is opened again as descriptor 1 -/
theorem boot_open_twice {a : CStr} (hp : a.bytes ≠ [slash]) (hpar : parentOf a.bytes = [slash]) (hlen : a.bytes.length < 128) :
    ∃ s, (step (step boot (.fsOpen a true)).2 (.fsOpen a false)).2 = s ∧
      (step boot (.fsOpen a true)).2.find a.bytes = some 1 ∧ Sound s ∧ s.inode 1 = Inode.fresh a.bytes fsTypeFile ∧
      (∀ n, s.bitmap n = false) ∧ s.fds 0 = ⟨some 1, 0⟩ ∧ s.fds 1 = ⟨some 1, 0⟩ := by
  have hsound := fresh_boot.sound.step (.fsOpen a true) trivial
  have hfind := opened_find hp hlen
  rw [boot_open hp hpar] at hsound ⊢
  dsimp only at hsound ⊢
  generalize hs : (boot.create 1 a.bytes fsTypeFile).setFd 0 ⟨some 1, 0⟩ = s at hsound hfind ⊢
  have hino : s.inode 1 = Inode.fresh a.bytes fsTypeFile := by rw [← hs, setFd_inode, create_inode, if_pos rfl]
  have hfds (k : Fin 8) : s.fds k = if k = 0 then ⟨some 1, 0⟩ else ⟨none, 0⟩ := by
    rw [← hs, setFd_fds, create_fds, Function.update_apply, boot_fds]
  have hfree : s.freeFd = some 1 := by
    unfold freeFd
    simp only [hfds]
    decide
  have hstep : (step s (.fsOpen a false)).2 = s.setFd 1 ⟨some 1, 0⟩ := by
    simp only [step, fsOpen_run hsound.faults, hfree, hfind]
    rw [if_neg (by rw [hino]; exact (by decide : fsTypeFile ≠ fsTypeDir))]
    rfl
  refine ⟨_, hstep, hfind, hstep ▸ hsound.step _ trivial, by rw [setFd_inode, hino], fun n => ?_, ?_, ?_⟩
  · rw [setFd_bitmap, ← hs, setFd_bitmap, create_bitmap, boot_bitmap]
  · rw [setFd_fds, Function.update_of_ne (by decide), hfds, if_pos rfl]
  · rw [setFd_fds, Function.update_self]

/-- the file is written through one descriptor and read through the other -/
theorem descriptor_identity_read :
    let a : CStr := ⟨[47, 97], by decide⟩
    ∃ tr t, Run step KeepsSlots boot tr t ∧ tr.map Prod.fst = [.fsOpen a true, .fsOpen a false, .fsWrite 0 [1]] ∧
      (step t (.fsRead 1 1)).1 = .data (some [1]) ∧ ∃ g : Tracked, g.fs = t ∧ g.born 1 = g.file 1 := by
  intro a
  obtain ⟨s, hs, hfind, hsound₀, hino, hclear, hfd₀, hfd₁⟩ :=
    boot_open_twice (a := a) (by decide) (by decide) (by decide)
  have hlive : s.live 1 := ⟨by decide, by rw [hino]; exact (by decide : fsTypeFile ≠ 0)⟩
  obtain ⟨t, ht, hw, hsound⟩ := write_clear hsound₀ hfd₀ hclear (List.cons_ne_nil (1 : UInt8) []) (by decide)
  have hfd : t.fds 1 = ⟨some 1, 0⟩ := by rw [hw.fds, Function.update_of_ne (by decide), hfd₁]
  have hcontent : t.content 1 = [1] := by
    have hempty : s.content 1 = [] := List.eq_nil_of_length_eq_zero (by rw [content_length, hino]; rfl)
    rw [hw.content (by rw [hfd₀]; exact Nat.zero_le _), hempty, hfd₀]
    rfl
  have hread : (step t (.fsRead 1 1)).1 = .data (some [1]) := by
    rw [step_read hsound (k := 1) rfl (by rw [hfd]), hcontent, hfd]
    rfl
  have hok₁ : KeepsSlots boot (.fsOpen a true) := by
    refine ⟨trivial, (by decide : lastSlash a.bytes < 128), ⟨fun _ _ => trivial, fun i _ k hk => ?_⟩, trivial⟩
    rw [boot_fds] at hk
    cases hk
  have hok₂ : KeepsSlots (step boot (.fsOpen a true)).2 (.fsOpen a false) := by
    refine ⟨trivial, (by decide : lastSlash a.bytes < 128), ⟨fun _ _ => trivial, fun i hc => ?_⟩, trivial⟩
    simp [Op.creates] at hc
  have hok₃ : KeepsSlots s (.fsWrite 0 [1]) := by
    refine ⟨fun k i hk _ => ?_, trivial, ⟨fun _ _ => trivial, fun i hc => by cases hc⟩, fun k i hk hi => ?_⟩
    all_goals obtain rfl : 0 = k := Option.some.inj hk
    · rw [hfd₀]
      decide
    · rw [hfd₀] at hi
      obtain rfl := Option.some.inj hi
      exact hlive
  have hok₄ : KeepsSlots t (.fsRead 1 1) := by
    refine ⟨trivial, trivial, ⟨fun _ _ => trivial, fun i hc => by cases hc⟩, fun k i hk hi => ?_⟩
    obtain rfl : 1 = k := Option.some.inj hk
    rw [hfd] at hi
    obtain rfl := Option.some.inj hi
    exact hw.live_iff.2 hlive
  have hrun : Run step KeepsSlots boot [] boot := .nil _
  have hrun := (hrun.snoc _ hok₁).snoc _ hok₂
  rw [hs] at hrun
  have hrun := hrun.snoc _ hok₃
  rw [ht] at hrun
  obtain ⟨g, hg, -, -, -, hreads, -⟩ := descriptor_identity fresh_boot hrun
  obtain ⟨-, i, hi, -, hborn, -⟩ := hreads 1 1 1 _ rfl hok₄ hread
  rw [hfd] at hi
  obtain rfl := Option.some.inj hi
  exact ⟨_, t, hrun, rfl, hread, g, hg, hborn⟩

/-! ## Reuse of a slot behind an open descriptor -/

section
variable {a : CStr} (hp : a.bytes ≠ [slash]) (hpar : parentOf a.bytes = [slash]) (hlen : a.bytes.length < 128)
include hp hpar hlen

theorem stale_freeFd : (stale a).freeFd = some 1 := by
  unfold freeFd
  simp only [stale_fds hp hpar hlen]
  decide

theorem stale_freeSlot : (stale a).freeSlot = some 1 := by
  refine freeSlot_eq_some (by decide) (by rw [stale_inode hp hpar hlen (by decide)]; rfl) fun j hj => ?_
  rw [stale_inode hp hpar hlen (by omega), if_pos (by omega)]
  decide

theorem stale_find {q : List UInt8} (hq : q ≠ [slash]) : (stale a).find q = none := by
  refine find_none.2 fun i hi hn => ?_
  by_cases h0 : i = 0
  · rw [nameAt, stale_inode hp hpar hlen hi.1, if_pos h0, rootInode_name] at hn
    exact hq hn.symm
  · exact hi.2 (by rw [stale_inode hp hpar hlen hi.1, if_neg h0]; rfl)

/-- after `a` was opened as descriptor 0 and deleted, creating `b` takes the same slot -/
theorem stale_open {b : CStr} (hb : b.bytes ≠ [slash]) (hbpar : parentOf b.bytes = [slash]) :
    step (stale a) (.fsOpen b true) =
      (.fd (some 1), ((stale a).create 1 b.bytes fsTypeFile).setFd 1 ⟨some 1, 0⟩) := by
  have hdir : (stale a).isdir (parentOf b.bytes) = true := by
    rw [hbpar]
    simp [isdir]
  simp only [step, fsOpen_run (stale_sound a).faults, stale_freeFd hp hpar hlen, stale_find hp hpar hlen hb,
    stale_freeSlot hp hpar hlen, hdir]
  rfl

/-- then writing one byte to descriptor 0 writes `b` -/
theorem stale_open_write {b : CStr} (hb : b.bytes ≠ [slash]) (hbpar : parentOf b.bytes = [slash])
    (hblen : b.bytes.length < 128) {s : FsState} (hlast : s = (step (stale a) (.fsOpen b true)).2) :
    s.live 1 ∧ s.nameAt 1 = b.bytes ∧ s.content 1 = [] ∧ (step s (.fsWrite 0 [1])).1 = .count (some 1) ∧
      (step s (.fsWrite 0 [1])).2.nameAt 1 = b.bytes ∧ (step s (.fsWrite 0 [1])).2.content 1 = [1] := by
  have hsound : Sound s := hlast ▸ (stale_sound a).step _ trivial
  have hs : s = ((stale a).create 1 b.bytes fsTypeFile).setFd 1 ⟨some 1, 0⟩ := by
    rw [hlast, stale_open hp hpar hlen hb hbpar]
  have hino : s.inode 1 = Inode.fresh b.bytes fsTypeFile := by rw [hs, setFd_inode, create_inode, if_pos rfl]
  have hname : s.nameAt 1 = b.bytes := by
    rw [hs, nameAt_congr (setFd_inode _ _ _ _), create_nameAt _ 1 _ b hblen]
  have hcontent : s.content 1 = [] := List.eq_nil_of_length_eq_zero (by rw [content_length, hino]; rfl)
  have hfd : s.fds 0 = ⟨some 1, 0⟩ := by
    rw [hs, setFd_fds, Function.update_of_ne (by decide), create_fds, stale_fds hp hpar hlen, if_pos rfl]
  have hclear : ∀ n, s.bitmap n = false := fun n => by
    rw [hs, setFd_bitmap, create_bitmap, stale_bitmap hp hpar hlen]
  obtain ⟨t, ht, hw, -⟩ := write_clear hsound hfd hclear (List.cons_ne_nil (1 : UInt8) []) (by decide)
  rw [ht]
  refine ⟨⟨by decide, by rw [hino]; exact (by decide : fsTypeFile ≠ 0)⟩, hname, hcontent, rfl, ?_, ?_⟩
  · rw [nameAt, hw.name, ← nameAt, hname]
  · have hoff : (s.fds 0).offset.toNat = 0 := by rw [hfd]; rfl
    rw [hw.content (by rw [hoff]; exact Nat.zero_le _), hcontent, hoff]
    rfl

end

/-- **A write through a stale descriptor lands in a file created later.** Descriptor 0 was opened on `"/a"`; `"/b"` did not
exist then. After `"/a"` is deleted and `"/b"` created, writing to descriptor 0 writes the content of `"/b"`. -/
theorem stale_write_hits_new_file :
    let a : CStr := ⟨[47, 97], by decide⟩
    let b : CStr := ⟨[47, 98], by decide⟩
    let s := runOps step boot [.fsOpen a true, .fsDelete a, .fsOpen b true]
    let t := step s (.fsWrite 0 [1])
    (step boot (.fsOpen a true)).1 = .fd (some 0) ∧ (step boot (.fsOpen a true)).2.nameAt 1 = a.bytes ∧
      s.live 1 ∧ s.nameAt 1 = b.bytes ∧ s.content 1 = [] ∧
      t.1 = .count (some 1) ∧ t.2.nameAt 1 = b.bytes ∧ t.2.content 1 = [1] := by
  intro a b s
  have hlast : s = (step (stale a) (.fsOpen b true)).2 :=
    runOps_snoc step boot [.fsOpen a true, .fsDelete a] (.fsOpen b true)
  refine ⟨by rw [boot_open (by decide) (by decide)], ?_,
    stale_open_write (by decide) (by decide) (by decide) (by decide) (by decide) (by decide) hlast⟩
  rw [boot_open (by decide) (by decide), nameAt_congr (setFd_inode _ _ _ _), create_nameAt _ 1 _ a (by decide)]

end GannetOS.Filesys
