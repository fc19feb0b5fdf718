/-
`fs_rrmdr`, the recursive removal of a directory.

- `fsRrmdrDepth_stable`: the recursion depth the model allows is never used up. A child's stored name is longer than the
  directory's name and at most 128 bytes long.
- `fsRrmdr_removes`: whatever the table looks like, the call only removes inodes in use, one after the other
  (`Removes`).
-/
import GannetOS.Filesys.Ops

namespace GannetOS.Filesys

open GannetOS.Core

/-! ## Recursion depth -/

section
variable {m : Type → Type} [Monad m] [LawfulMonad m] [MonadStateOf FsState m]

/-- the loop only makes the recursive call for children of `p` -/
theorem rrmdrLoop_congr {f g : StrArg m → m Bool} {p : List UInt8} (idx : ℕ)
    (hfg : ∀ x : Inode, parentOf (cstr x.name.toList) = cstr p →
      f (StrArg.ofBytes x.name.toList) = g (StrArg.ofBytes x.name.toList)) (is : List ℕ) :
    rrmdrLoop f (StrArg.ofBytes p) idx is = rrmdrLoop g (StrArg.ofBytes p) idx is := by
  induction is with
  | nil => rfl
  | cons i is ih =>
    simp only [rrmdrLoop, fsGetParent_eq, strEq_eq, pure_bind, ih]
    split_ifs with hi
    · rfl
    · refine bind_congr fun r => ?_
      cases r with
      | none => rfl
      | some child =>
        have hnul : (0 : UInt8) ∉ parentOf (cstr child.name.toList) := parentOf_nulFree (cstr_nulFree _)
        simp only [cstr_of_nulFree hnul]
        split_ifs with h1 h2
        · rfl
        · rfl
        · have hchild : parentOf (cstr child.name.toList) = cstr p := by simpa using h2
          simp only [removeChild, hfg child hchild]

/-- **The depth bound is not a restriction**: one more level of recursion changes nothing. -/
theorem fsRrmdrDepth_stable (d : ℕ) (hd : 1 ≤ d) (p : List UInt8) (hp : 130 ≤ d + (cstr p).length) :
    fsRrmdrDepth (m := m) d (StrArg.ofBytes p) = fsRrmdrDepth (d + 1) (StrArg.ofBytes p) := by
  have hroot : cstr [slash] = [slash] := by decide
  induction d generalizing p with
  | zero => omega
  | succ d ih =>
    rw [fsRrmdrDepth, fsRrmdrDepth, strEq_eq, pure_bind, pure_bind, hroot]
    by_cases h0 : cstr p = [slash]
    · simp [h0]
    · have hloop : ∀ idx, rrmdrLoop (m := m) (fsRrmdrDepth d) (StrArg.ofBytes p) idx (List.range 512) =
          rrmdrLoop (fsRrmdrDepth (d + 1)) (StrArg.ofBytes p) idx (List.range 512) := by
        intro idx
        refine rrmdrLoop_congr idx (fun x hx => ?_) _
        -- names get longer downwards and have at most 128 bytes
        have hlong : (cstr p).length < (cstr x.name.toList).length := by
          rw [← hx]
          exact parentOf_length_lt (by rw [hx]; exact h0)
        have hshort : (cstr x.name.toList).length ≤ 128 := by
          simpa using cstr_length_le x.name.toList
        exact ih (by omega) _ (by omega)
      simp only [hloop]

/-- `fs_rrmdr` is the recursion at every depth from 130 on -/
theorem fsRrmdr_eq_depth (d : ℕ) (p : List UInt8) :
    fsRrmdr (m := m) (StrArg.ofBytes p) = fsRrmdrDepth (130 + d) (StrArg.ofBytes p) := by
  induction d with
  | zero => rfl
  | succ d ih => rw [ih, fsRrmdrDepth_stable _ (by omega) _ (by omega)]; rfl

end

/-! ## What is removed -/

namespace FsState

/-- the inode in slot `i` removed, as `fs_rmdir` or `fs_delete` does it -/
def remove (s : FsState) (i : ℕ) : FsState := if (s.inode i).type = fsTypeDir then s.dropDir i else s.dropFile i

@[simp] theorem remove_inode (s : FsState) (i j : ℕ) :
    (s.remove i).inode j = if j = i then Inode.zero else s.inode j := by
  unfold remove
  by_cases ht : (s.inode i).type = fsTypeDir
  · rw [if_pos ht, dropDir_inode]
  · rw [if_neg ht, dropFile_inode]

@[simp] theorem remove_fds (s : FsState) (i : ℕ) : (s.remove i).fds = s.fds := by
  unfold remove; split_ifs <;> rfl

@[simp] theorem remove_faults (s : FsState) (i : ℕ) : (s.remove i).faults = s.faults := by
  unfold remove; split_ifs <;> rfl

theorem remove_disk (s : FsState) {i : ℕ} (hi : i < 512) {lba : ℕ} (hl : lba ≤ 256 ∨ 428 ≤ lba) :
    (s.remove i).disk lba = s.disk lba := by
  unfold remove
  split_ifs
  · exact dropDir_disk _ _ hi hl
  · exact dropFile_disk _ _ hi hl

/-- one inode in use is removed -/
def RemoveStep (s t : FsState) : Prop := ∃ i, s.live i ∧ t = s.remove i

/-- inodes in use are removed one after the other -/
def Removes : FsState → FsState → Prop := Relation.ReflTransGen RemoveStep

/-- no I/O fails, and the inodes in use have their sectors in the data area -/
structure Ready (s : FsState) : Prop where
  faults : s.faults = []
  placed : ∀ i, s.live i → (s.inode i).InData

variable {s t : FsState}

theorem live_of_remove {i j : ℕ} (h : (s.remove i).live j) : j ≠ i ∧ s.live j := by
  unfold live at h ⊢
  rw [remove_inode] at h
  by_cases hj : j = i
  · rw [if_pos hj] at h
    exact absurd rfl h.2
  · rw [if_neg hj] at h
    exact ⟨hj, h⟩

theorem Ready.removes (hs : s.Ready) (h : s.Removes t) : t.Ready := by
  induction h with
  | refl => exact hs
  | tail _ hstep ih =>
    obtain ⟨i, -, rfl⟩ := hstep
    refine ⟨by rw [remove_faults]; exact ih.faults, fun j hj => ?_⟩
    obtain ⟨hne, hl⟩ := live_of_remove hj
    rw [remove_inode, if_neg hne]
    exact ih.placed j hl

theorem Removes.live_of (h : s.Removes t) {j : ℕ} (hj : t.live j) : s.live j := by
  induction h with
  | refl => exact hj
  | tail _ hstep ih =>
    obtain ⟨i, -, rfl⟩ := hstep
    exact ih (live_of_remove hj).2

theorem Removes.disk_eq (h : s.Removes t) {lba : ℕ} (hl : lba ≤ 256 ∨ 428 ≤ lba) :
    t.disk lba = s.disk lba := by
  induction h with
  | refl => rfl
  | tail _ hstep ih =>
    obtain ⟨i, hi, rfl⟩ := hstep
    rw [remove_disk _ hi.1 hl, ih]

theorem Removes.fds_eq (h : s.Removes t) : t.fds = s.fds := by
  induction h with
  | refl => rfl
  | tail _ hstep ih =>
    obtain ⟨i, -, rfl⟩ := hstep
    rw [remove_fds, ih]

end FsState

open FsState

/-- the inodes whose names have at most `n` bytes are the same in both states -/
def ShortKept (n : ℕ) (s t : FsState) : Prop := ∀ j, (s.nameAt j).length ≤ n → t.inode j = s.inode j

variable {s : FsState}

theorem ShortKept.trans {n : ℕ} {t u : FsState} (h1 : ShortKept n s t) (h2 : ShortKept n t u) : ShortKept n s u := by
  intro j hj
  have hsame := h1 j hj
  rw [h2 j (by rw [nameAt_congr hsame]; exact hj), hsame]

theorem fsDelete_removes (hs : s.Ready) (p : List UInt8) {n : ℕ} (hn : n < (cstr p).length) :
    s.Removes ((fsDelete (StrArg.ofBytes p) : StateM FsState _) s).2 ∧
      ShortKept n s ((fsDelete (StrArg.ofBytes p) : StateM FsState _) s).2 := by
  rw [fsDelete_run hs.faults p hs.placed]
  cases hf : s.find (cstr p) with
  | none => exact ⟨.refl, fun _ _ => rfl⟩
  | some i =>
    obtain ⟨hl, hname⟩ := find_some hf
    by_cases ht : (s.inode i).type = fsTypeDir
    · simp only [if_pos ht]
      exact ⟨.refl, fun _ _ => rfl⟩
    · simp only [if_neg ht]
      refine ⟨.single ⟨i, hl, by rw [remove, if_neg ht]⟩, fun j hj => ?_⟩
      rw [dropFile_inode, if_neg]
      rintro rfl
      rw [hname] at hj
      omega

/-- the loop removes inodes with names longer than the directory's, if the recursive call does -/
theorem rrmdrLoop_removes {rrmdr : StrArg (StateM FsState) → StateM FsState Bool} {p : List UInt8}
    (hroot : cstr p ≠ [slash])
    (hrec : ∀ (q : List UInt8) (s : FsState), s.Ready → s.Removes (rrmdr (StrArg.ofBytes q) s).2 ∧
      ∀ n < (cstr q).length, ShortKept n s (rrmdr (StrArg.ofBytes q) s).2) (idx : ℕ) (is : List ℕ)
    (his : ∀ i ∈ is, i < 512) (hs : s.Ready) :
    s.Removes (rrmdrLoop rrmdr (StrArg.ofBytes p) idx is s).2 ∧
      ShortKept (cstr p).length s (rrmdrLoop rrmdr (StrArg.ofBytes p) idx is s).2 := by
  induction is generalizing s with
  | nil => exact ⟨.refl, fun _ _ => rfl⟩
  | cons i is ih =>
    have hi : i < 512 := his i (by simp)
    have hrest : ∀ {t : FsState}, t.Ready → _ := fun {t} ht => ih (fun j hj => his j (by simp [hj])) (s := t) ht
    have hnul : (0 : UInt8) ∉ parentOf (s.nameAt i) := parentOf_nulFree (nameAt_nulFree s i)
    rw [rrmdrLoop, ite_run, run_bind (inodeRead_some hs.faults hi)]
    simp only [fsGetParent_eq, strEq_eq, pure_bind, ite_run]
    rw [← nameAt, cstr_of_nulFree hnul]
    by_cases h1 : i = idx
    · rw [if_pos h1]
      exact hrest hs
    · rw [if_neg h1]
      by_cases h2 : (s.inode i).type = 0
      · rw [if_pos h2]
        exact hrest hs
      · rw [if_neg h2]
        by_cases h3 : parentOf (s.nameAt i) = cstr p
        · have hlong : (cstr p).length < (s.nameAt i).length := by
            rw [← h3]
            exact parentOf_length_lt (by rw [h3]; exact hroot)
          have hchild : s.Removes (removeChild rrmdr (s.inode i) s).2 ∧
              ShortKept (cstr p).length s (removeChild rrmdr (s.inode i) s).2 := by
            rw [nameAt] at hlong
            unfold removeChild
            rw [ite_run]
            split_ifs
            · exact ⟨(hrec _ s hs).1, (hrec _ s hs).2 _ hlong⟩
            · exact fsDelete_removes hs _ hlong
          rw [if_neg (by simp [h3]), bind_apply]
          cases (removeChild rrmdr (s.inode i) s).1 with
          | false => exact hchild
          | true =>
            obtain ⟨hr, hk⟩ := hrest (hs.removes hchild.1)
            exact ⟨hchild.1.trans hr, hchild.2.trans hk⟩
        · rw [if_pos (by simp [h3])]
          exact hrest hs

theorem fsRrmdrDepth_removes (d : ℕ) (p : List UInt8) (hs : s.Ready) :
    s.Removes ((fsRrmdrDepth d (StrArg.ofBytes p) : StateM FsState _) s).2 ∧
      ∀ n < (cstr p).length, ShortKept n s ((fsRrmdrDepth d (StrArg.ofBytes p) : StateM FsState _) s).2 := by
  have hroot : cstr [slash] = [slash] := by decide
  induction d generalizing p s with
  | zero => exact ⟨.refl, fun _ _ _ _ => rfl⟩
  | succ d ih =>
    rw [fsRrmdrDepth, strEq_eq, pure_bind, hroot, ite_run, run_bind (fsFind_run hs.faults p)]
    by_cases h0 : cstr p = [slash]
    · rw [if_pos (by simpa using h0)]
      exact ⟨.refl, fun _ _ _ _ => rfl⟩
    · rw [if_neg (by simpa using h0)]
      cases hf : s.find (cstr p) with
      | none => exact ⟨.refl, fun _ _ _ _ => rfl⟩
      | some idx =>
        obtain ⟨hl, hname⟩ := find_some hf
        simp only
        rw [run_bind (inodeRead_some hs.faults hl.1)]
        simp only [ite_run]
        by_cases h1 : (s.inode idx).type = fsTypeDir
        · obtain ⟨hr, hk⟩ := rrmdrLoop_removes h0 (fun q s hs => ih q hs) idx (List.range 512)
            (fun _ => List.mem_range.1) hs
          rw [if_neg (not_not.2 h1)]
          generalize hres : (rrmdrLoop (fsRrmdrDepth d) (StrArg.ofBytes p) idx (List.range 512) :
            StateM FsState _) s = res at hr hk
          obtain ⟨ok, t⟩ := res
          rw [run_bind hres]
          have hk' : ∀ n < (cstr p).length, ShortKept n s t := fun n hn j hj => hk j (by omega)
          cases ok with
          | false => exact ⟨hr, hk'⟩
          | true =>
            -- the directory itself is still there, as a directory
            have hsame : t.inode idx = s.inode idx := hk idx (by rw [hname])
            have hlive : t.live idx := ⟨hl.1, by rw [hsame]; exact hl.2⟩
            have hdrop : t.setInode idx Inode.zero = t.remove idx := by
              rw [remove, hsame, if_pos h1]
              rfl
            simp only [Bool.not_true, Bool.false_eq_true, if_false]
            rw [inodeWrite_run (hs.removes hr).faults hl.1, hdrop]
            refine ⟨hr.tail ⟨idx, hlive, rfl⟩, fun n hn => (hk' n hn).trans fun j hj => ?_⟩
            rw [remove_inode, if_neg]
            rintro rfl
            rw [nameAt_congr hsame, hname] at hj
            omega
        · rw [if_pos h1]
          exact ⟨.refl, fun _ _ _ _ => rfl⟩

/-- **`fs_rrmdr` only removes inodes in use**, one after the other. -/
theorem fsRrmdr_removes (p : CStr) (hs : s.Ready) :
    s.Removes ((fsRrmdr p.arg : StateM FsState _) s).2 :=
  (fsRrmdrDepth_removes 130 p.bytes hs).1

end GannetOS.Filesys
