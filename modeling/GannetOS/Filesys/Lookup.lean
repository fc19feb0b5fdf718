/-
The namespace operations of `filesys/fs.c` on a state in which no I/O fails: one equation per function.

`FsState.find`, `freeSlot`, `isdir` and `noChild` are the values the scans of the inode table compute; the `_run` lemmas
say that the functions of the source compute them and change nothing. `fs_mkdir`, `fs_rmdir` and `fs_delete` then are one
inode write each (`FsState.create`, `FsState.dropDir`, `FsState.dropFile`).
-/
import GannetOS.Filesys.Strings

namespace GannetOS.Filesys

open GannetOS.Core List

/-! ## The inode table as a namespace -/

namespace FsState

/-- slot `i` is in use -/
def live (s : FsState) (i : ℕ) : Prop := i < 512 ∧ (s.inode i).type ≠ 0

instance (s : FsState) (i : ℕ) : Decidable (s.live i) := inferInstanceAs (Decidable (_ ∧ _))

/-- the path stored in slot `i` -/
def nameAt (s : FsState) (i : ℕ) : List UInt8 := cstr (s.inode i).name.toList

theorem nameAt_nulFree (s : FsState) (i : ℕ) : (0 : UInt8) ∉ s.nameAt i := cstr_nulFree _

variable {s : FsState} {i : ℕ} {p : List UInt8}

theorem nameAt_congr {t : FsState} {j : ℕ} (h : t.inode i = s.inode j) : t.nameAt i = s.nameAt j := by
  rw [nameAt, nameAt, h]

/-- the first slot in use that stores `p` -/
def find (s : FsState) (p : List UInt8) : Option ℕ :=
  (List.range 512).find? fun i => (s.inode i).type ≠ 0 ∧ s.nameAt i = p

theorem find_congr {t : FsState} (h : ∀ i, t.inode i = s.inode i) (p : List UInt8) : t.find p = s.find p := by
  have hn : ∀ i, t.nameAt i = s.nameAt i := fun i => nameAt_congr (h i)
  simp only [find, h, hn]

/-- the first free slot -/
def freeSlot (s : FsState) : Option ℕ := (List.range 512).find? fun i => (s.inode i).type = 0

/-- the value of `fs_isdir` -/
def isdir (s : FsState) (p : List UInt8) : Bool :=
  p = [slash] || match s.find p with
    | none => false
    | some i => (s.inode i).type == fsTypeDir

/-- the value of the scan of `fs_rmdir` -/
def noChild (s : FsState) (p : List UInt8) (idx : ℕ) : Bool :=
  (List.range 512).all fun i => i = idx ∨ (s.inode i).type = 0 ∨ parentOf (s.nameAt i) ≠ p

theorem find_some (h : s.find p = some i) : s.live i ∧ s.nameAt i = p := by
  have hmem := mem_of_find?_eq_some h
  have hp := find?_some h
  simp only [mem_range, decide_eq_true_eq] at hmem hp
  exact ⟨⟨hmem, hp.1⟩, hp.2⟩

theorem find_none : s.find p = none ↔ ∀ i, s.live i → s.nameAt i ≠ p := by
  simp only [find, find?_eq_none, mem_range, decide_eq_true_eq, live]
  exact ⟨fun h i hi hn => h i hi.1 ⟨hi.2, hn⟩, fun h i hi hp => h i ⟨hi, hp.1⟩ hp.2⟩

theorem freeSlot_some (h : s.freeSlot = some i) : i < 512 ∧ (s.inode i).type = 0 := by
  have hmem := mem_of_find?_eq_some h
  have hp := find?_some h
  simp only [mem_range, decide_eq_true_eq] at hmem hp
  exact ⟨hmem, hp⟩

theorem freeSlot_none (h : s.freeSlot = none) (hi : i < 512) : s.live i := by
  simp only [freeSlot, find?_eq_none, mem_range, decide_eq_true_eq] at h
  exact ⟨hi, h i hi⟩

/-- `find` returns slot `i` if no earlier slot stores the path -/
theorem find_eq_some (hi : s.live i) (hn : s.nameAt i = p) (hfirst : ∀ j < i, s.live j → s.nameAt j ≠ p) :
    s.find p = some i := by
  unfold find
  rw [find?_range_eq_some]
  refine ⟨by simpa using ⟨hi.2, hn⟩, List.mem_range.2 hi.1, fun j hj => ?_⟩
  have hlt : j < 512 := lt_trans hj hi.1
  simpa [or_iff_not_imp_left] using fun ht => hfirst j hj ⟨hlt, ht⟩

/-- no earlier slot in use stores the path -/
theorem find_first (h : s.find p = some i) {j : ℕ} (hj : j < i) (hl : s.live j) :
    s.nameAt j ≠ p := by
  unfold find at h
  rw [find?_range_eq_some] at h
  intro hn
  simpa [hl.2, hn] using h.2.2 j hj

theorem freeSlot_eq_some (hi : i < 512) (ht : (s.inode i).type = 0) (hfirst : ∀ j < i, (s.inode j).type ≠ 0) :
    s.freeSlot = some i := by
  unfold freeSlot
  rw [find?_range_eq_some]
  exact ⟨by simpa using ht, List.mem_range.2 hi, fun j hj => by simpa using hfirst j hj⟩

theorem noChild_iff {idx : ℕ} :
    s.noChild p idx = true ↔ ∀ i, s.live i → i ≠ idx → parentOf (s.nameAt i) ≠ p := by
  simp only [noChild, all_eq_true, mem_range, decide_eq_true_eq, live]
  refine ⟨fun h i hi hne => ?_, fun h i hi => ?_⟩
  · rcases h i hi.1 with h | h | h
    · exact absurd h hne
    · exact absurd h hi.2
    · exact h
  · by_cases h1 : i = idx
    · exact Or.inl h1
    · by_cases h2 : (s.inode i).type = 0
      · exact Or.inr (Or.inl h2)
      · exact Or.inr (Or.inr (h i ⟨hi, h2⟩ h1))

end FsState

/-- the inode `fs_mkdir` and `fs_open` store for the path `p` -/
def Inode.fresh (p : List UInt8) (type : UInt8) : Inode :=
  { Inode.zero with name := Vector.ofFn fun i : Fin 128 => (p.take 127).getD i 0, type := type }

/-- the name read back from a fresh inode is the path, cut to 127 bytes -/
theorem Inode.fresh_name {p : List UInt8} (hp : (0 : UInt8) ∉ p) (type : UInt8) :
    cstr (Inode.fresh p type).name.toList = p.take 127 := by
  have hlen : (p.take 127).length ≤ 127 := length_take_le _ _
  have hl : (Inode.fresh p type).name.toList = p.take 127 ++ List.replicate (128 - (p.take 127).length) 0 := by
    apply ext_getElem
    · simp only [Vector.length_toList, length_append, length_replicate]
      omega
    · intro i h1 h2
      simp only [Inode.fresh, Vector.toList_ofFn, List.getElem_ofFn, getElem_append, getElem_replicate]
      split_ifs with hi
      · exact getD_eq_getElem _ _ hi
      · exact getD_eq_default _ _ (by omega)
  have hrep : 128 - (p.take 127).length = (127 - (p.take 127).length) + 1 := by omega
  rw [hl, hrep, replicate_succ, cstr, takeWhile_append_of_pos]
  · simp
  · intro x hx
    simpa using fun h0 : x = 0 => hp (h0 ▸ mem_of_mem_take hx)

/-! ## The scans -/

section
variable {s : FsState} (h : s.faults = [])
include h

theorem fsFindLoop_run (p : List UInt8) (is : List ℕ) (his : ∀ i ∈ is, i < 512) :
    (fsFindLoop (StrArg.ofBytes p) is : StateM FsState _) s =
      (is.find? fun i => (s.inode i).type ≠ 0 ∧ s.nameAt i = cstr p, s) := by
  induction is with
  | nil => rfl
  | cons i is ih =>
    have hi : i < 512 := his i (by simp)
    have hstep := ih fun j hj => his j (by simp [hj])
    rw [fsFindLoop, run_bind (inodeRead_some h hi)]
    simp only [strEq_eq, pure_bind, ite_run, decide_eq_true_eq, pure_apply, hstep]
    rw [← FsState.nameAt]
    by_cases ht : (s.inode i).type = 0
    · simp [ht]
    · by_cases hn : s.nameAt i = cstr p <;> simp [ht, hn]

theorem fsFind_run (p : List UInt8) :
    (fsFind (StrArg.ofBytes p) : StateM FsState _) s = (s.find (cstr p), s) :=
  fsFindLoop_run h p _ fun _ => List.mem_range.1

theorem freeInodeLoop_run (is : List ℕ) (his : ∀ i ∈ is, i < 512) :
    (freeInodeLoop is : StateM FsState _) s = (is.find? fun i => (s.inode i).type = 0, s) := by
  induction is with
  | nil => rfl
  | cons i is ih =>
    have hi : i < 512 := his i (by simp)
    have hstep := ih fun j hj => his j (by simp [hj])
    rw [freeInodeLoop, run_bind (inodeRead_some h hi)]
    simp only [ite_run, pure_apply, hstep]
    by_cases ht : (s.inode i).type = 0 <;> simp [ht]

theorem freeInode_run : (freeInode : StateM FsState _) s = (s.freeSlot, s) :=
  freeInodeLoop_run h _ fun _ => List.mem_range.1

theorem fsIsdir_run (p : List UInt8) :
    (fsIsdir (StrArg.ofBytes p) : StateM FsState _) s = (s.isdir (cstr p), s) := by
  have hroot : cstr [slash] = [slash] := by decide
  unfold fsIsdir FsState.isdir
  simp only [strEq_eq, pure_bind, ite_run, hroot, decide_eq_true_eq, pure_apply]
  rw [run_bind (fsFind_run h p)]
  by_cases hp : cstr p = [slash]
  · simp [hp]
  · cases hf : s.find (cstr p) with
    | none => simp [hp]
    | some i =>
      simp only [hp, if_false]
      rw [run_bind (inodeRead_some h (FsState.find_some hf).1.1)]
      simp

theorem parentExists_run (p : List UInt8) :
    (parentExists (StrArg.ofBytes p) : StateM FsState _) s = (s.isdir (parentOf (cstr p)), s) := by
  have hnul : (0 : UInt8) ∉ parentOf (cstr p) := parentOf_nulFree (cstr_nulFree p)
  rw [parentExists, fsGetParent_eq, pure_bind, fsIsdir_run h, cstr_of_nulFree hnul]

theorem noChildLoop_run (p : List UInt8) (idx : ℕ) (is : List ℕ) (his : ∀ i ∈ is, i < 512) :
    (noChildLoop (StrArg.ofBytes p) idx is : StateM FsState _) s =
      (is.all fun i => i = idx ∨ (s.inode i).type = 0 ∨ parentOf (s.nameAt i) ≠ cstr p, s) := by
  induction is with
  | nil => rfl
  | cons i is ih =>
    have hi : i < 512 := his i (by simp)
    have hstep := ih fun j hj => his j (by simp [hj])
    have hnul : (0 : UInt8) ∉ parentOf (s.nameAt i) := parentOf_nulFree (cstr_nulFree _)
    rw [noChildLoop, ite_run, run_bind (inodeRead_some h hi)]
    simp only [fsGetParent_eq, strEq_eq, pure_bind, ite_run, decide_eq_true_eq, pure_apply, hstep]
    rw [← FsState.nameAt, cstr_of_nulFree hnul]
    by_cases h1 : i = idx
    · simp [h1]
    · by_cases h2 : (s.inode i).type = 0
      · simp [h1, h2]
      · by_cases h3 : parentOf (s.nameAt i) = cstr p <;> simp [h1, h2, h3]

end

-- the tables have 512 entries: from here on only the lemmas above are used
attribute [irreducible] FsState.nameAt FsState.find FsState.freeSlot FsState.noChild

end GannetOS.Filesys
