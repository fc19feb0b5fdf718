/-
The namespace of the filesystem: a tree encoded by full paths in the inode table.

`Tree` is the invariant: the root directory is in slot 0, no two inodes in use store the same path, and the parent path of
every other inode is stored by a directory. `fs_mkdir` and `fs_open` keep it for paths shorter than 128 bytes
(`namespace_tree`). A longer path is stored cut to 127 bytes while lookups compare the whole argument, so the same path
can be created again and again and is never found (`long_path_twice`).

With nested names, `fs_rrmdr` of a directory succeeds and removes exactly the inodes below it (`fsRrmdr_prunes`).
-/
import GannetOS.Filesys.Content

namespace GannetOS.Filesys

open GannetOS.Core FsState

structure Tree (s : FsState) : Prop where
  root : (s.inode 0).type = fsTypeDir ∧ s.nameAt 0 = [slash]
  kinds : ∀ i, s.live i → (s.inode i).type = fsTypeFile ∨ (s.inode i).type = fsTypeDir
  unique : ∀ i j, s.live i → s.live j → s.nameAt i = s.nameAt j → i = j
  parent : ∀ i, s.live i → ∃ j, s.live j ∧ (s.inode j).type = fsTypeDir ∧ s.nameAt j = parentOf (s.nameAt i)

variable {s : FsState} {p : List UInt8} {i : ℕ}

theorem find_iff_of_unique (hu : ∀ i j, s.live i → s.live j → s.nameAt i = s.nameAt j → i = j) :
    s.find p = some i ↔ s.live i ∧ s.nameAt i = p := by
  refine ⟨find_some, fun ⟨hi, hn⟩ => find_eq_some hi hn fun j hj hl hnj => ?_⟩
  have := hu i j hi hl (hn.trans hnj.symm)
  omega

namespace Tree
variable {s : FsState} (h : Tree s)
include h

theorem root_live : s.live 0 := ⟨by decide, by rw [h.root.1]; decide⟩

variable {p : List UInt8} {i : ℕ}

theorem find_iff : s.find p = some i ↔ s.live i ∧ s.nameAt i = p := find_iff_of_unique h.unique

/-- the directories are exactly the paths `fs_isdir` accepts -/
theorem isdir_iff :
    s.isdir p = true ↔ ∃ j, s.live j ∧ (s.inode j).type = fsTypeDir ∧ s.nameAt j = p := by
  unfold isdir
  constructor
  · intro hp
    by_cases hroot : p = [slash]
    · exact ⟨0, h.root_live, h.root.1, h.root.2.trans hroot.symm⟩
    · cases hf : s.find p with
      | none => simp [hroot, hf] at hp
      | some i =>
        obtain ⟨hi, hn⟩ := find_some hf
        exact ⟨i, hi, by simpa [hroot, hf] using hp, hn⟩
  · rintro ⟨j, hj, ht, hn⟩
    rw [h.find_iff.2 ⟨hj, hn⟩]
    simp [ht]

/-- the namespace only depends on types and names -/
theorem congr {t : FsState} (hino : ∀ j < 512, (t.inode j).type = (s.inode j).type ∧ (t.inode j).name = (s.inode j).name) :
    Tree t := by
  have hlive : ∀ j, t.live j ↔ s.live j := fun j =>
    ⟨fun hj => ⟨hj.1, by rw [← (hino j hj.1).1]; exact hj.2⟩, fun hj => ⟨hj.1, by rw [(hino j hj.1).1]; exact hj.2⟩⟩
  have hname : ∀ j < 512, t.nameAt j = s.nameAt j := fun j hj => by rw [nameAt, nameAt, (hino j hj).2]
  refine ⟨⟨?_, ?_⟩, fun i hi => ?_, fun i j hi hj hn => ?_, fun i hi => ?_⟩
  · rw [(hino 0 (by decide)).1]; exact h.root.1
  · rw [hname 0 (by decide)]; exact h.root.2
  · rw [(hino i hi.1).1]; exact h.kinds i ((hlive i).1 hi)
  · rw [hname i hi.1, hname j hj.1] at hn
    exact h.unique i j ((hlive i).1 hi) ((hlive j).1 hj) hn
  · obtain ⟨j, hj, ht, hn⟩ := h.parent i ((hlive i).1 hi)
    exact ⟨j, (hlive j).2 hj, by rw [(hino j hj.1).1]; exact ht, by rw [hname j hj.1, hname i hi.1]; exact hn⟩

theorem create {type : UInt8} (hi : i < 512) (hfree : (s.inode i).type = 0)
    (htype : type = fsTypeFile ∨ type = fsTypeDir) (hnul : (0 : UInt8) ∉ p) (hlen : p.length < 128)
    (hnew : s.find p = none) (hpar : s.isdir (parentOf p) = true) : Tree (s.create i p type) := by
  set t := s.create i p type with ht
  have hino : ∀ j, j ≠ i → t.inode j = s.inode j := fun j hj => by rw [ht, create_inode, if_neg hj]
  have hi' : t.inode i = Inode.fresh p type := by rw [ht, create_inode, if_pos rfl]
  have hnamei : t.nameAt i = p := by
    rw [nameAt, hi', Inode.fresh_name hnul, List.take_of_length_le (by omega)]
  have hname : ∀ j, j ≠ i → t.nameAt j = s.nameAt j := fun j hj => nameAt_congr (hino j hj)
  have hlive : ∀ j, j ≠ i → (t.live j ↔ s.live j) := fun j hj => by unfold live; rw [hino j hj]
  have htne : type ≠ 0 := by rcases htype with rfl | rfl <;> decide
  have hlivei : t.live i := ⟨hi, by rw [hi']; exact htne⟩
  have hne : ∀ j, s.live j → j ≠ i := fun j hj hji => hj.2 (hji ▸ hfree)
  have hfresh : ∀ j, s.live j → s.nameAt j ≠ p := find_none.1 hnew
  refine ⟨⟨?_, ?_⟩, fun j hj => ?_, fun j k hj hk hn => ?_, fun j hj => ?_⟩
  · rw [hino 0 (hne 0 h.root_live)]; exact h.root.1
  · rw [hname 0 (hne 0 h.root_live)]; exact h.root.2
  · by_cases hji : j = i
    · rw [hji, hi']; exact htype
    · rw [hino j hji]; exact h.kinds j ((hlive j hji).1 hj)
  · by_cases hji : j = i <;> by_cases hki : k = i
    · rw [hji, hki]
    · rw [hji, hnamei, hname k hki] at hn
      exact absurd hn.symm (hfresh k ((hlive k hki).1 hk))
    · rw [hki, hnamei, hname j hji] at hn
      exact absurd hn (hfresh j ((hlive j hji).1 hj))
    · rw [hname j hji, hname k hki] at hn
      exact h.unique j k ((hlive j hji).1 hj) ((hlive k hki).1 hk) hn
  · obtain ⟨k, hk, hkt, hkn⟩ : ∃ k, s.live k ∧ (s.inode k).type = fsTypeDir ∧ s.nameAt k = parentOf (t.nameAt j) := by
      by_cases hji : j = i
      · rw [hji, hnamei]; exact h.isdir_iff.1 hpar
      · rw [hname j hji]; exact h.parent j ((hlive j hji).1 hj)
    have hki := hne k hk
    exact ⟨k, (hlive k hki).2 hk, by rw [hino k hki]; exact hkt, by rw [hname k hki]; exact hkn⟩

/-- removing an inode that has no children -/
theorem remove (hi : s.live i) (hroot : s.nameAt i ≠ [slash])
    (hchild : ∀ j, s.live j → j ≠ i → parentOf (s.nameAt j) ≠ s.nameAt i) : Tree (s.remove i) := by
  set t := s.remove i with ht
  have hino : ∀ j, j ≠ i → t.inode j = s.inode j := fun j hj => by rw [ht, remove_inode, if_neg hj]
  have hname : ∀ j, j ≠ i → t.nameAt j = s.nameAt j := fun j hj => nameAt_congr (hino j hj)
  have hlive : ∀ j, t.live j → j ≠ i ∧ s.live j := fun j hj => live_of_remove hj
  have hkeep : ∀ j, j ≠ i → s.live j → t.live j := fun j hj hl => ⟨hl.1, by rw [hino j hj]; exact hl.2⟩
  have h0 : (0 : ℕ) ≠ i := by
    rintro rfl
    exact hroot h.root.2
  refine ⟨⟨?_, ?_⟩, fun j hj => ?_, fun j k hj hk hn => ?_, fun j hj => ?_⟩
  · rw [hino 0 h0]; exact h.root.1
  · rw [hname 0 h0]; exact h.root.2
  · rw [hino j (hlive j hj).1]; exact h.kinds j (hlive j hj).2
  · rw [hname j (hlive j hj).1, hname k (hlive k hk).1] at hn
    exact h.unique j k (hlive j hj).2 (hlive k hk).2 hn
  · obtain ⟨hji, hl⟩ := hlive j hj
    obtain ⟨k, hk, hkt, hkn⟩ := h.parent j hl
    have hki : k ≠ i := by
      rintro rfl
      exact hchild j hl hji hkn.symm
    exact ⟨k, hkeep k hki hk, by rw [hino k hki]; exact hkt, by rw [hname k hki, hname j hji]; exact hkn⟩

/-- a file has no children -/
theorem no_child_of_file (hi : s.live i) (ht : (s.inode i).type ≠ fsTypeDir) :
    ∀ j, s.live j → j ≠ i → parentOf (s.nameAt j) ≠ s.nameAt i := by
  intro j hj _ hp
  obtain ⟨k, hk, hkt, hkn⟩ := h.parent j hj
  rw [h.unique k i hk hi (hkn.trans hp)] at hkt
  exact ht hkt

theorem file_ne_root (hi : s.live i) (ht : (s.inode i).type ≠ fsTypeDir) : s.nameAt i ≠ [slash] := by
  intro hn
  have := h.unique i 0 hi h.root_live (hn.trans h.root.2.symm)
  rw [this] at ht
  exact ht h.root.1

end Tree

/-! ## Recursive removal -/

/-- what the removal needs of the names: no path twice, and every parent a directory -/
structure Nested (s : FsState) : Prop where
  unique : ∀ i j, s.live i → s.live j → s.nameAt i = s.nameAt j → i = j
  parent : ∀ i, s.live i → s.isdir (parentOf (s.nameAt i)) = true

theorem Tree.nested (h : Tree s) : Nested s := ⟨h.unique, fun i hi => h.isdir_iff.2 (h.parent i hi)⟩

namespace Nested
variable {s : FsState} (h : Nested s)
include h

variable {i : ℕ}

theorem find_iff {p : List UInt8} : s.find p = some i ↔ s.live i ∧ s.nameAt i = p := find_iff_of_unique h.unique

/-- a parent other than the root is stored by a directory -/
theorem parent_dir (hi : s.live i) (hne : parentOf (s.nameAt i) ≠ [slash]) :
    ∃ j, s.live j ∧ (s.inode j).type = fsTypeDir ∧ s.nameAt j = parentOf (s.nameAt i) := by
  have hdir := h.parent i hi
  unfold isdir at hdir
  cases hf : s.find (parentOf (s.nameAt i)) with
  | none => simp [hne, hf] at hdir
  | some j =>
    obtain ⟨hj, hn⟩ := find_some hf
    exact ⟨j, hj, by simpa [hne, hf] using hdir, hn⟩

/-- a tree is what is left to say: the root is in its slot, and there are only files and directories -/
theorem tree (hroot : (s.inode 0).type = fsTypeDir ∧ s.nameAt 0 = [slash])
    (hkinds : ∀ i, s.live i → (s.inode i).type = fsTypeFile ∨ (s.inode i).type = fsTypeDir) : Tree s := by
  refine ⟨hroot, hkinds, h.unique, fun i hi => ?_⟩
  by_cases hp : parentOf (s.nameAt i) = [slash]
  · exact ⟨0, ⟨by decide, by rw [hroot.1]; decide⟩, hroot.1, hroot.2.trans hp.symm⟩
  · exact h.parent_dir hi hp

/-- every directory but the root above a path in use is in use -/
theorem ancestor {p : List UInt8} (hp : p ≠ [slash]) (hi : s.live i) (hu : under p (s.nameAt i)) :
    ∃ j, s.live j ∧ s.nameAt j = p := by
  obtain ⟨n, hn⟩ := hu
  induction n generalizing i with
  | zero => exact ⟨i, hi, hn⟩
  | succ n ih =>
    rw [Function.iterate_succ_apply] at hn
    have hpar : parentOf (s.nameAt i) ≠ [slash] := by
      intro hpar
      rw [hpar, Function.iterate_fixed parentOf_root n] at hn
      exact hp hn.symm
    obtain ⟨j, hj, -, hnj⟩ := h.parent_dir hi hpar
    exact ih hj (by rw [hnj]; exact hn)

end Nested

/-- slot `j` is in use, at `p` or below it -/
def FsState.below (s : FsState) (p : List UInt8) (j : ℕ) : Prop := s.live j ∧ under p (s.nameAt j)

/-- the inodes in `S` are gone, the others are as they were -/
structure Pruned (S : ℕ → Prop) (s t : FsState) : Prop where
  gone : ∀ j, S j → t.inode j = Inode.zero
  kept : ∀ j, ¬ S j → t.inode j = s.inode j

namespace Pruned
variable {S : ℕ → Prop} {s t : FsState} (h : Pruned S s t)
include h

theorem live_iff {j : ℕ} : t.live j ↔ s.live j ∧ ¬ S j := by
  unfold live
  by_cases hj : S j
  · rw [h.gone j hj]
    simp [hj, Inode.zero]
  · rw [h.kept j hj]
    simp [hj]

theorem nameAt_eq {j : ℕ} (hj : ¬ S j) : t.nameAt j = s.nameAt j := nameAt_congr (h.kept j hj)

theorem congr {S' : ℕ → Prop} (hiff : ∀ j, S j ↔ S' j) : Pruned S' s t := by
  have hS : S = S' := funext fun j => propext (hiff j)
  exact hS ▸ h

theorem trans {S' : ℕ → Prop} {u : FsState} (h' : Pruned S' t u) : Pruned (fun j => S j ∨ S' j) s u where
  gone j hj := by
    by_cases hj' : S' j
    · exact h'.gone j hj'
    · rw [h'.kept j hj', h.gone j (hj.resolve_right hj')]
  kept j hj := by
    rw [not_or] at hj
    rw [h'.kept j hj.2, h.kept j hj.1]

end Pruned

theorem pruned_refl {S : ℕ → Prop} (s : FsState) (hS : ∀ j, ¬ S j) : Pruned S s s :=
  ⟨fun j hj => absurd hj (hS j), fun _ _ => rfl⟩

section
variable {s : FsState} (h : Nested s)
include h

/-- cutting off a subtree leaves every other parent in place -/
theorem Nested.prune_below {p : List UInt8} {t : FsState} (hcut : Pruned (s.below p) s t) : Nested t := by
  have hunique : ∀ i j, t.live i → t.live j → t.nameAt i = t.nameAt j → i = j := by
    intro i j hi hj hn
    obtain ⟨hi, hSi⟩ := hcut.live_iff.1 hi
    obtain ⟨hj, hSj⟩ := hcut.live_iff.1 hj
    rw [hcut.nameAt_eq hSi, hcut.nameAt_eq hSj] at hn
    exact h.unique i j hi hj hn
  refine ⟨hunique, fun i hi => ?_⟩
  obtain ⟨hi, hSi⟩ := hcut.live_iff.1 hi
  rw [hcut.nameAt_eq hSi]
  by_cases hroot : parentOf (s.nameAt i) = [slash]
  · simp [isdir, hroot]
  · obtain ⟨j, hj, ht, hn⟩ := h.parent_dir hi hroot
    have hSj : ¬ s.below p j := fun hSj => hSi ⟨hi, under_of_parent (hn ▸ hSj.2)⟩
    have hfind : t.find (parentOf (s.nameAt i)) = some j :=
      (find_iff_of_unique hunique).2 ⟨hcut.live_iff.2 ⟨hj, hSj⟩, by rw [hcut.nameAt_eq hSj]; exact hn⟩
    unfold isdir
    rw [hfind]
    simp [hcut.kept j hSj, ht]

/-- a file is alone in its subtree -/
theorem Nested.below_file {i j : ℕ} (hi : s.live i) (ht : (s.inode i).type ≠ fsTypeDir) (hroot : s.nameAt i ≠ [slash]) :
    s.below (s.nameAt i) j ↔ j = i := by
  refine ⟨fun ⟨hj, hu⟩ => ?_, fun hj => ?_⟩
  swap
  · rw [hj]
    exact ⟨hi, under_refl _⟩
  by_contra hne
  have hname : s.nameAt j ≠ s.nameAt i := fun hn => hne (h.unique j i hj hi hn)
  -- a child of the file on the way down to `j` would have the file as its directory
  obtain ⟨c, hc, hcu⟩ := under_child hu hname
  have hcroot : c ≠ [slash] := by
    rintro rfl
    exact hroot hc.symm
  obtain ⟨k, hk, hkn⟩ := h.ancestor hcroot hj hcu
  obtain ⟨l, hl, hlt, hln⟩ := h.parent_dir hk (by rw [hkn, hc]; exact hroot)
  rw [hkn, hc] at hln
  rw [h.unique l i hl hi hln] at hlt
  exact ht hlt

end

theorem Tree.not_below_root (h : Tree s) (hp : p ≠ [slash]) : ¬ s.below p 0 := by
  rintro ⟨-, n, hn⟩
  apply hp
  rw [← hn, h.root.2]
  exact Function.iterate_fixed parentOf_root n

theorem Tree.prune_below (h : Tree s) (hp : p ≠ [slash]) {t : FsState} (hcut : Pruned (s.below p) s t) : Tree t := by
  have h0 := h.not_below_root hp
  refine (h.nested.prune_below hcut).tree ⟨?_, ?_⟩ fun i hi => ?_
  · rw [hcut.kept 0 h0]; exact h.root.1
  · rw [hcut.nameAt_eq h0]; exact h.root.2
  · obtain ⟨hi, hSi⟩ := hcut.live_iff.1 hi
    rw [hcut.kept i hSi]; exact h.kinds i hi

/-- the slots below the children of `p` listed in `is` -/
def FsState.belowChildren (s : FsState) (p : List UInt8) (is : List ℕ) (j : ℕ) : Prop :=
  ∃ c ∈ is, s.live c ∧ parentOf (s.nameAt c) = p ∧ s.below (s.nameAt c) j

/-- `fs_delete` of a file -/
theorem fsDelete_prunes (hs : s.Ready) (h : Nested s) (hi : s.live i) (ht : (s.inode i).type ≠ fsTypeDir)
    (hroot : s.nameAt i ≠ [slash]) (hp : cstr p = s.nameAt i) :
    ∃ t, (fsDelete (StrArg.ofBytes p) : StateM FsState _) s = (true, t) ∧ Pruned (s.below (s.nameAt i)) s t := by
  refine ⟨s.dropFile i, ?_, ⟨fun j hj => ?_, fun j hj => ?_⟩⟩
  · rw [fsDelete_run hs.faults p hs.placed, hp, h.find_iff.2 ⟨hi, rfl⟩]
    simp only [if_neg ht]
  · rw [dropFile_inode, if_pos ((h.below_file hi ht hroot).1 hj)]
  · rw [dropFile_inode, if_neg fun hji => hj ((h.below_file hi ht hroot).2 hji)]

/-- the loop of `fs_rrmdr` removes the subtrees of the children it meets -/
theorem rrmdrLoop_prunes {rrmdr : StrArg (StateM FsState) → StateM FsState Bool} (hroot : cstr p ≠ [slash])
    (hrem : ∀ (q : List UInt8) (s : FsState), s.Ready → s.Removes (rrmdr (StrArg.ofBytes q) s).2)
    (hrec : ∀ (q : List UInt8) (s : FsState) (i : ℕ), s.Ready → Nested s → s.live i → (s.inode i).type = fsTypeDir →
      cstr q = s.nameAt i → (cstr p).length < (cstr q).length → cstr q ≠ [slash] →
      ∃ t, rrmdr (StrArg.ofBytes q) s = (true, t) ∧ Pruned (s.below (cstr q)) s t) (idx : ℕ) (is : List ℕ)
    (his : ∀ i ∈ is, i < 512) (hs : s.Ready) (h : Nested s) (hidx : parentOf (s.nameAt idx) ≠ cstr p) :
    ∃ t, rrmdrLoop rrmdr (StrArg.ofBytes p) idx is s = (true, t) ∧ t.Ready ∧
      Pruned (s.belowChildren (cstr p) is) s t := by
  induction is generalizing s with
  | nil => exact ⟨s, rfl, hs, pruned_refl s fun j ⟨c, hc, _⟩ => by cases hc⟩
  | cons i is ih =>
    have hi : i < 512 := his i (by simp)
    have hnul : (0 : UInt8) ∉ parentOf (s.nameAt i) := parentOf_nulFree (nameAt_nulFree s i)
    rw [rrmdrLoop, ite_run, run_bind (inodeRead_some hs.faults hi)]
    simp only [fsGetParent_eq, strEq_eq, pure_bind, ite_run]
    rw [← nameAt, cstr_of_nulFree hnul]
    by_cases hchild : i ≠ idx ∧ (s.inode i).type ≠ 0 ∧ parentOf (s.nameAt i) = cstr p
    · obtain ⟨h1, h2, h3⟩ := hchild
      have hlive : s.live i := ⟨hi, h2⟩
      have hlong : (cstr p).length < (s.nameAt i).length := by
        rw [← h3]
        exact parentOf_length_lt (by rw [h3]; exact hroot)
      have hne : s.nameAt i ≠ [slash] := fun hn => hroot (by rw [← h3, hn]; rfl)
      obtain ⟨t, ht, hcut, htr⟩ : ∃ t, removeChild rrmdr (s.inode i) s = (true, t) ∧ Pruned (s.below (s.nameAt i)) s t ∧
          t.Ready := by
        have hname : s.nameAt i = cstr (s.inode i).name.toList := by rw [nameAt]
        unfold removeChild
        split_ifs with hdir
        · obtain ⟨t, ht, hcut⟩ := hrec _ s i hs h hlive hdir hname.symm (by rw [← hname]; exact hlong)
            (by rw [← hname]; exact hne)
          have hr := hrem (s.inode i).name.toList s hs
          rw [ht] at hr
          rw [← hname] at hcut
          exact ⟨t, ht, hcut, hs.removes hr⟩
        · obtain ⟨t, ht, hcut⟩ := fsDelete_prunes hs h hlive hdir hne hname.symm
          have hr := (fsDelete_removes hs (s.inode i).name.toList (by rw [← hname]; exact hlong)).1
          rw [ht] at hr
          exact ⟨t, ht, hcut, hs.removes hr⟩
      have hidx' : parentOf (t.nameAt idx) ≠ cstr p := by
        by_cases hb : s.below (s.nameAt i) idx
        · rw [nameAt, hcut.gone idx hb]
          exact fun hp => hroot hp.symm
        · rw [hcut.nameAt_eq hb]; exact hidx
      obtain ⟨u, hu, hur, hrest⟩ := ih (fun j hj => his j (by simp [hj])) htr (h.prune_below hcut) hidx'
      refine ⟨u, ?_, hur, (hcut.trans hrest).congr fun j => ?_⟩
      · rw [if_neg h1, if_neg h2, if_neg (by simp [h3]), run_bind ht]
        simpa using hu
      · -- what is below a later child either went with `i` or is still there
        constructor
        · rintro (hj | ⟨c, hc, hcl, hcp, hjl, hju⟩)
          · exact ⟨i, by simp, hlive, h3, hj⟩
          · obtain ⟨hcl', hcb⟩ := hcut.live_iff.1 hcl
            obtain ⟨hjl', hjb⟩ := hcut.live_iff.1 hjl
            rw [hcut.nameAt_eq hcb] at hcp hju
            rw [hcut.nameAt_eq hjb] at hju
            exact ⟨c, by simp [hc], hcl', hcp, hjl', hju⟩
        · rintro ⟨c, hc, hcl, hcp, hjl, hju⟩
          by_cases hjb : s.below (s.nameAt i) j
          · exact Or.inl hjb
          · have hcb : ¬ s.below (s.nameAt i) c := fun hcb => hjb ⟨hjl, under_trans hcb.2 hju⟩
            rcases List.mem_cons.1 hc with rfl | hc
            · exact absurd ⟨hcl, under_refl _⟩ hcb
            · refine Or.inr ⟨c, hc, hcut.live_iff.2 ⟨hcl, hcb⟩, by rw [hcut.nameAt_eq hcb]; exact hcp,
                hcut.live_iff.2 ⟨hjl, hjb⟩, ?_⟩
              rw [hcut.nameAt_eq hcb, hcut.nameAt_eq hjb]
              exact hju
    · obtain ⟨u, hu, hur, hrest⟩ := ih (fun j hj => his j (by simp [hj])) hs h hidx
      refine ⟨u, ?_, hur, hrest.congr fun j => ?_⟩
      · by_cases h1 : i = idx
        · rw [if_pos h1]; exact hu
        · by_cases h2 : (s.inode i).type = 0
          · rw [if_neg h1, if_pos h2]; exact hu
          · have h3 : parentOf (s.nameAt i) ≠ cstr p := fun h3 => hchild ⟨h1, h2, h3⟩
            rw [if_neg h1, if_neg h2, if_pos (by simp [h3])]
            exact hu
      · constructor
        · rintro ⟨c, hc, hrest⟩
          exact ⟨c, by simp [hc], hrest⟩
        · rintro ⟨c, hc, hcl, hcp, hj⟩
          rcases List.mem_cons.1 hc with rfl | hc
          · have hci : c ≠ idx := by
              rintro rfl
              exact hidx hcp
            exact absurd ⟨hci, hcl.2, hcp⟩ hchild
          · exact ⟨c, hc, hcl, hcp, hj⟩

/-- below a directory are the directory itself and what is below its children -/
theorem Nested.below_iff (h : Nested s) {j : ℕ} (hi : s.live i) (hroot : s.nameAt i ≠ [slash]) :
    s.below (s.nameAt i) j ↔ s.belowChildren (s.nameAt i) (List.range 512) j ∨ j = i := by
  constructor
  · rintro ⟨hj, hu⟩
    by_cases hn : s.nameAt j = s.nameAt i
    · exact Or.inr (h.unique j i hj hi hn)
    · obtain ⟨c, hc, hcu⟩ := under_child hu hn
      have hcroot : c ≠ [slash] := by
        rintro rfl
        exact hroot hc.symm
      obtain ⟨k, hk, rfl⟩ := h.ancestor hcroot hj hcu
      exact Or.inl ⟨k, List.mem_range.2 hk.1, hk, hc, hj, hcu⟩
  · rintro (⟨c, -, -, hcp, hj, hu⟩ | rfl)
    · have hpar : under (s.nameAt i) (parentOf (s.nameAt c)) := by rw [hcp]; exact under_refl _
      exact ⟨hj, under_trans (under_of_parent hpar) hu⟩
    · exact ⟨hi, under_refl _⟩

theorem fsRrmdrDepth_prunes (d : ℕ) (p : List UInt8) (hs : s.Ready) (h : Nested s) (hi : s.live i)
    (hdir : (s.inode i).type = fsTypeDir) (hp : cstr p = s.nameAt i) (hroot : cstr p ≠ [slash])
    (hd : 129 ≤ d + (cstr p).length) :
    ∃ t, (fsRrmdrDepth d (StrArg.ofBytes p) : StateM FsState _) s = (true, t) ∧ Pruned (s.below (cstr p)) s t := by
  have hslash : cstr [slash] = [slash] := by decide
  induction d generalizing p s i with
  | zero =>
    have hshort : (s.nameAt i).length ≤ 128 := by
      rw [nameAt]
      simpa using cstr_length_le (s.inode i).name.toList
    rw [hp] at hd
    omega
  | succ d ih =>
    have hself : parentOf (s.nameAt i) ≠ cstr p := by
      intro hpar
      have := parentOf_length_lt (by rw [hpar]; exact hroot)
      rw [hpar, hp] at this
      omega
    obtain ⟨t, ht, htr, hcut⟩ := rrmdrLoop_prunes hroot (fun q s hs => (fsRrmdrDepth_removes d q hs).1)
      (fun q s j hs h hj hjd hq hlen hqr => ih q hs h hj hjd hq hqr (by omega)) i (List.range 512)
      (fun _ => List.mem_range.1) hs h hself
    have hlast : Pruned (fun j => j = i) t (t.setInode i Inode.zero) :=
      ⟨fun j hj => by rw [inode_setInode, if_pos hj], fun j hj => by rw [inode_setInode, if_neg hj]⟩
    refine ⟨t.setInode i Inode.zero, ?_, (hcut.trans hlast).congr fun j => ?_⟩
    · rw [fsRrmdrDepth, strEq_eq, pure_bind, hslash, ite_run, if_neg (by simpa using hroot),
        run_bind (fsFind_run hs.faults p), hp, h.find_iff.2 ⟨hi, rfl⟩]
      simp only
      rw [run_bind (inodeRead_some hs.faults hi.1)]
      simp only [ite_run]
      rw [if_neg (not_not.2 hdir), run_bind ht]
      exact inodeWrite_run htr.faults hi.1 _
    · rw [hp] at hroot ⊢
      exact (h.below_iff hi hroot).symm

/-- **`fs_rrmdr` of a directory succeeds and removes exactly what is at the path or below it.** -/
theorem fsRrmdr_prunes (p : CStr) (hs : s.Ready) (h : Nested s) (hf : s.find p.bytes = some i)
    (hdir : (s.inode i).type = fsTypeDir) (hroot : p.bytes ≠ [slash]) :
    ∃ t, (fsRrmdr p.arg : StateM FsState _) s = (true, t) ∧ Pruned (s.below p.bytes) s t := by
  have hp : cstr p.bytes = p.bytes := cstr_of_nulFree p.nulFree
  obtain ⟨hi, hn⟩ := find_some hf
  have hprune := fsRrmdrDepth_prunes 130 p.bytes hs h hi hdir (by rw [hp, hn]) (by rw [hp]; exact hroot) (by omega)
  rwa [hp] at hprune

/-- `fs_rrmdr` of anything but a directory other than the root fails at once -/
theorem fsRrmdr_fails (p : CStr) (hs : s.faults = [])
    (hno : p.bytes = [slash] ∨ ∀ i, s.find p.bytes = some i → (s.inode i).type ≠ fsTypeDir) :
    (fsRrmdr p.arg : StateM FsState _) s = (false, s) := by
  have hslash : cstr [slash] = [slash] := by decide
  rw [fsRrmdr, fsRrmdrDepth, CStr.arg, strEq_eq, pure_bind, hslash, ite_run, run_bind (fsFind_run hs _),
    cstr_of_nulFree p.nulFree]
  by_cases hroot : p.bytes = [slash]
  · rw [if_pos (by simpa using hroot)]
    rfl
  · rw [if_neg (by simpa using hroot)]
    cases hf : s.find p.bytes with
    | none => rfl
    | some i =>
      simp only
      rw [run_bind (inodeRead_some hs (find_some hf).1.1)]
      simp only [ite_run]
      rw [if_pos (hno.resolve_left hroot i hf)]
      rfl

/-! ## Every call keeps the tree -/

/-- a call that creates an inode has a path that fits the name field of the inode -/
def Op.storable (s : FsState) : Op → Prop
  | .fsOpen p create => (Op.creates s (.fsOpen p create)).isSome → p.bytes.length < 128
  | .fsMkdir p => (Op.creates s (.fsMkdir p)).isSome → p.bytes.length < 128
  | _ => True

theorem Tree.step {s : FsState} (hs : Sound s) (h : Tree s) (o : Op) (hfit : o.fits s) (hstore : o.storable s) :
    Tree (step s o).2 := by
  cases o with
  | fsInit =>
    simp only [Filesys.step, fsInit_remount hs.faults hs.magic hs.ready.placed]
    exact h.congr fun _ _ => ⟨rfl, rfl⟩
  | fsOpen p create =>
    simp only [Filesys.step, fsOpen_run hs.faults]
    cases hfd : s.freeFd with
    | none => exact h
    | some fd =>
      cases hf : s.find p.bytes with
      | some i =>
        simp only
        split_ifs
        · exact h
        · exact h.congr fun _ _ => ⟨rfl, rfl⟩
      | none =>
        split_ifs with hno
        · exact h
        · rw [not_or, Bool.not_eq_false, Bool.not_eq_false] at hno
          cases hfree : s.freeSlot with
          | none => exact h
          | some i =>
            obtain ⟨hi, h0⟩ := freeSlot_some hfree
            have hlen : p.bytes.length < 128 := hstore (by simp [Op.creates, hfd, hf, hno, hfree])
            have hnew := h.create hi h0 (Or.inl rfl) p.nulFree hlen hf hno.2
            exact hnew.congr fun _ _ => ⟨rfl, rfl⟩
  | fsRead fd len =>
    rcases fd_cases s fd with ⟨k, i, hk, hi⟩ | hclosed
    · rw [step_read hs hk hi]
      exact h.congr fun _ _ => ⟨rfl, rfl⟩
    · simp only [Filesys.step, fsRead_closed s fd _ hclosed]
      exact h
  | fsWrite fd data =>
    rcases fd_cases s fd with ⟨k, i, hk, hi⟩ | hclosed
    · by_cases hne : data = []
      · subst hne
        simp only [Filesys.step, List.length_nil, fsWrite_empty hk hi]
        exact h
      · rcases step_write hs hk hi hne hfit with ⟨ht, -⟩ | ⟨t, ht, hw⟩
        · rw [ht]; exact h
        · rw [ht]; exact h.congr fun j hj => ⟨hw.type_eq hj, hw.name_eq hj⟩
    · simp only [Filesys.step, fsWrite_closed s fd _ _ hclosed]
      exact h
  | fsClose fd =>
    simp only [Filesys.step, fsClose_run]
    cases fdSlot fd with
    | none => exact h
    | some k => exact h.congr fun _ _ => ⟨rfl, rfl⟩
  | fsMkdir p =>
    simp only [Filesys.step, fsMkdir_run hs.faults]
    split_ifs with hno
    · exact h
    · rw [not_or, Bool.not_eq_true, Option.isSome_eq_false_iff, Option.isNone_iff_eq_none, Bool.not_eq_false] at hno
      cases hfree : s.freeSlot with
      | none => exact h
      | some i =>
        obtain ⟨hi, h0⟩ := freeSlot_some hfree
        have hlen : p.bytes.length < 128 := hstore (by simp [Op.creates, hno, hfree])
        exact h.create hi h0 (Or.inr rfl) p.nulFree hlen hno.1 hno.2
  | fsRmdir p =>
    simp only [Filesys.step, fsRmdir_run hs.faults]
    split_ifs with hroot
    · exact h
    · cases hf : s.find p.bytes with
      | none => exact h
      | some i =>
        simp only
        split_ifs with hdir
        · obtain ⟨hi, hn⟩ := find_some hf
          have hrm := h.remove hi (by rw [hn]; exact hroot) (by rw [hn]; exact noChild_iff.1 hdir.2)
          rw [FsState.remove, if_pos hdir.1] at hrm
          exact hrm
        · exact h
  | fsRrmdr p =>
    by_cases hroot : p.bytes = [slash]
    · simp only [Filesys.step, fsRrmdr_fails p hs.faults (Or.inl hroot)]
      exact h
    · by_cases hdir : ∃ i, s.find p.bytes = some i ∧ (s.inode i).type = fsTypeDir
      · obtain ⟨i, hf, ht⟩ := hdir
        obtain ⟨t, hrun, hcut⟩ := fsRrmdr_prunes p hs.ready h.nested hf ht hroot
        simp only [Filesys.step, hrun]
        exact h.prune_below hroot hcut
      · simp only [Filesys.step, fsRrmdr_fails p hs.faults (Or.inr fun i hf ht => hdir ⟨i, hf, ht⟩)]
        exact h
  | fsDelete p =>
    simp only [Filesys.step, CStr.arg, fsDelete_run hs.faults p.bytes hs.ready.placed]
    cases hf : s.find (cstr p.bytes) with
    | none => exact h
    | some i =>
      simp only
      split_ifs with hdir
      · exact h
      · have hi := (find_some hf).1
        have hrm := h.remove hi (h.file_ne_root hi hdir) (h.no_child_of_file hi hdir)
        rw [FsState.remove, if_neg hdir] at hrm
        exact hrm

theorem Fresh.tree (hs : Fresh s) : Tree s := by
  obtain ⟨s₀, hf, rfl⟩ := hs.eq_formatted
  have hroot : s₀.formatted.inode 0 = rootInode := by rw [formatted_inode s₀ (by decide), if_pos rfl]
  have hlive : ∀ i, s₀.formatted.live i → i = 0 := fun i => formatted_live
  have hname : s₀.formatted.nameAt 0 = [slash] := by rw [nameAt, hroot, rootInode_name]
  have hdir : (s₀.formatted.inode 0).type = fsTypeDir := by rfl
  refine ⟨⟨hdir, hname⟩, fun i hi => ?_, fun i j hi hj _ => ?_, fun i hi => ?_⟩
  · rw [hlive i hi]; exact Or.inr hdir
  · rw [hlive i hi, hlive j hj]
  · rw [hlive i hi, hname]
    exact ⟨0, hlive i hi ▸ hi, hdir, hname⟩

/-! ## The namespace over runs -/

/-- the path a call creates unless it exists -/
def Op.made : Op → Option CStr
  | .fsOpen p true | .fsMkdir p => some p
  | _ => none

theorem find_create (h : Tree s) (hi : i < 512) (hfree : (s.inode i).type = 0) {type : UInt8}
    (htype : type = fsTypeFile ∨ type = fsTypeDir) (p : CStr) (hlen : p.bytes.length < 128)
    (hnew : s.find p.bytes = none) (hpar : s.isdir (parentOf p.bytes) = true) :
    (s.create i p.bytes type).find p.bytes = some i := by
  have htne : type ≠ 0 := by rcases htype with rfl | rfl <;> decide
  refine (h.create hi hfree htype p.nulFree hlen hnew hpar).find_iff.2 ⟨⟨hi, ?_⟩, ?_⟩
  · rw [create_inode, if_pos rfl]
    exact htne
  · exact create_nameAt s i type p hlen

/-- a path is found right after it was created -/
theorem Tree.made_found (hs : Sound s) (h : Tree s) {o : Op} {p : CStr} (hmade : o.made = some p)
    (hstore : o.storable s) (hok : (Filesys.step s o).1.failed = false) :
    ∃ i, (Filesys.step s o).2.find p.bytes = some i := by
  cases o with
  | fsOpen q create =>
    cases create with
    | false => cases hmade
    | true =>
      obtain rfl : q = p := by simpa [Op.made] using hmade
      simp only [Filesys.step, fsOpen_run hs.faults] at hok ⊢
      cases hfd : s.freeFd with
      | none => simp [hfd, Res.failed] at hok
      | some fd =>
        cases hf : s.find q.bytes with
        | some i =>
          simp only
          split_ifs
          · exact ⟨i, hf⟩
          · exact ⟨i, (setFd_find _ _ _ _).trans hf⟩
        | none =>
          simp only [hfd, hf] at hok ⊢
          by_cases hdir : s.isdir (parentOf q.bytes) = true
          · simp only [hdir, Bool.true_eq_false, or_self, if_false] at hok ⊢
            cases hfree : s.freeSlot with
            | none => simp [hfree, Res.failed] at hok
            | some i =>
              obtain ⟨hi, h0⟩ := freeSlot_some hfree
              have hlen : q.bytes.length < 128 := hstore (by simp [Op.creates, hfd, hf, hdir, hfree])
              have hfound := find_create h hi h0 (Or.inl rfl) q hlen hf hdir
              exact ⟨i, (setFd_find _ _ _ _).trans hfound⟩
          · simp [hdir, Res.failed] at hok
  | fsMkdir q =>
    obtain rfl : q = p := by simpa [Op.made] using hmade
    simp only [Filesys.step, fsMkdir_run hs.faults] at hok ⊢
    split_ifs at hok ⊢ with hno
    · cases hok
    · rw [not_or, Bool.not_eq_true, Option.isSome_eq_false_iff, Option.isNone_iff_eq_none, Bool.not_eq_false] at hno
      cases hfree : s.freeSlot with
      | none => simp [hfree, Res.failed] at hok
      | some i =>
        obtain ⟨hi, h0⟩ := freeSlot_some hfree
        have hlen : q.bytes.length < 128 := hstore (by simp [Op.creates, hno, hfree])
        exact ⟨i, find_create h hi h0 (Or.inr rfl) q hlen hno.1 hno.2⟩
  | _ => cases hmade

/-- the sizes of the call fit, and so does the path of an inode it creates -/
def NameFits (s : FsState) (o : Op) : Prop := o.fits s ∧ o.parentFits ∧ o.storable s

/-- **The namespace is a tree.** In every run whose calls only create inodes with paths shorter than 128 bytes, no two
inodes in use store the same path, the parent of every stored path is stored by a directory, and a path that was just
created is found. -/
theorem namespace_tree {s t : FsState} {tr : List (Op × Res)} (hs : Fresh s) (hrun : Run step NameFits s tr t) :
    (∀ i j, t.live i → t.live j → t.nameAt i = t.nameAt j → i = j) ∧
    (∀ i, t.live i → ∃ j, t.live j ∧ (t.inode j).type = fsTypeDir ∧
      (fsGetParent (StrArg.ofBytes (t.inode i).name.toList) (fun _ _ => pure ()) : StateM FsState _) t =
        (t.nameAt j, t)) ∧
    ∀ o p, o.made = some p → NameFits t o → (step t o).1.failed = false →
      ∃ i, (fsFind p.arg : StateM FsState _) (step t o).2 = (some i, (step t o).2) := by
  obtain ⟨hsound, h⟩ : Sound t ∧ Tree t := by
    refine hrun.invariant (I := fun s => Sound s ∧ Tree s) (fun s o hI ho => ?_) ⟨hs.sound, hs.tree⟩
    exact ⟨hI.1.step o ho.1, hI.2.step hI.1 o ho.1 ho.2.2⟩
  refine ⟨h.unique, fun i hi => ?_, fun o p hmade ho hok => ?_⟩
  · obtain ⟨j, hj, ht, hn⟩ := h.parent i hi
    exact ⟨j, hj, ht, by rw [fsGetParent_eq, ← nameAt, hn]; rfl⟩
  · obtain ⟨i, hi⟩ := h.made_found hsound hmade ho.2.2 hok
    refine ⟨i, ?_⟩
    rw [CStr.arg, fsFind_run (hsound.step o ho.1).faults, cstr_of_nulFree p.nulFree, hi]

theorem nameFits_mkdir (s : FsState) {p : CStr} (hp : p.bytes.length < 128) : NameFits s (.fsMkdir p) := by
  refine ⟨trivial, ?_, fun _ => hp⟩
  by_cases h0 : lastSlash p.bytes = 0
  · simp [Op.parentFits, h0]
  · exact (lastSlash_lt h0).trans hp

/-- a directory below a directory -/
theorem namespace_tree_nested :
    let t := runOps step boot [.fsMkdir ⟨[47, 97], by decide⟩, .fsMkdir ⟨[47, 97, 47, 98], by decide⟩]
    ∀ i j, t.live i → t.live j → t.nameAt i = t.nameAt j → i = j := by
  intro t
  obtain ⟨tr, hrun⟩ : ∃ tr, Run step NameFits boot tr t := by
    refine Run.of_forall _ fun s o ho => ?_
    simp only [List.mem_cons, List.not_mem_nil, or_false] at ho
    rcases ho with rfl | rfl
    · exact nameFits_mkdir s (by decide)
    · exact nameFits_mkdir s (by decide)
  exact (namespace_tree fresh_boot hrun).1

/-! ## Long paths -/

theorem find_long (hp : 128 < p.length) : s.find p = none := by
  refine find_none.2 fun i _ hn => ?_
  have hshort := cstr_length_le (s.inode i).name.toList
  rw [← nameAt, hn, Vector.length_toList] at hshort
  omega

/-- a path longer than any stored name can be created whenever there is room -/
theorem mkdir_long (h : s.faults = []) {p : CStr} (hp : 128 < p.bytes.length) (hpar : parentOf p.bytes = [slash])
    (hfree : s.freeSlot = some i) :
    step s (.fsMkdir p) = (.rc true, s.create i p.bytes fsTypeDir) := by
  have hdir : s.isdir [slash] = true := by simp [isdir]
  simp only [step, fsMkdir_run h, find_long hp, hpar, hdir, hfree]
  rfl

/-- creating a long path twice on a fresh disk -/
theorem mkdir_long_twice {p : CStr} (hp : 128 < p.bytes.length) (hpar : parentOf p.bytes = [slash]) :
    step boot (.fsMkdir p) = (.rc true, boot.create 1 p.bytes fsTypeDir) ∧
      step (boot.create 1 p.bytes fsTypeDir) (.fsMkdir p) =
        (.rc true, (boot.create 1 p.bytes fsTypeDir).create 2 p.bytes fsTypeDir) := by
  refine ⟨mkdir_long boot_faults hp hpar boot_freeSlot, mkdir_long (by rw [create_faults, boot_faults]) hp hpar ?_⟩
  refine freeSlot_eq_some (by decide) ?_ fun j hj => ?_
  · rw [create_inode, if_neg (by decide), boot_inode (by decide)]
    rfl
  · rw [create_inode]
    split_ifs with h1
    · exact (by decide : fsTypeDir ≠ 0)
    · rw [boot_inode (by omega), if_pos (by omega)]
      decide

/-- what the two calls leave behind -/
theorem create_long_twice {p : CStr} (hp : 128 < p.bytes.length) :
    let t := (boot.create 1 p.bytes fsTypeDir).create 2 p.bytes fsTypeDir
    t.live 1 ∧ t.live 2 ∧ t.nameAt 1 = t.nameAt 2 ∧ (fsFind p.arg : StateM FsState _) t = (none, t) := by
  intro t
  have h1 : t.inode 1 = Inode.fresh p.bytes fsTypeDir := by
    rw [create_inode, if_neg (by decide), create_inode, if_pos rfl]
  have h2 : t.inode 2 = Inode.fresh p.bytes fsTypeDir := by rw [create_inode, if_pos rfl]
  have htype : (Inode.fresh p.bytes fsTypeDir).type ≠ 0 := (by decide : fsTypeDir ≠ 0)
  refine ⟨⟨by decide, by exact htype⟩, ⟨by decide, by exact htype⟩, ?_, ?_⟩
  · exact nameAt_congr (h1.trans h2.symm)
  · have hfaults : t.faults = [] := by rw [create_faults, create_faults, boot_faults]
    rw [CStr.arg, fsFind_run hfaults, cstr_of_nulFree p.nulFree, find_long hp]

/-- **A path of 200 bytes can be created twice**, in two inodes that store the same 127 bytes, and is not found. -/
theorem long_path_twice :
    let p : CStr := ⟨47 :: List.replicate 199 97, by decide⟩
    let s := step boot (.fsMkdir p)
    let t := step s.2 (.fsMkdir p)
    s.1 = .rc true ∧ t.1 = .rc true ∧ t.2.live 1 ∧ t.2.live 2 ∧ t.2.nameAt 1 = t.2.nameAt 2 ∧
      (fsFind p.arg : StateM FsState _) t.2 = (none, t.2) := by
  intro p s t
  have hlen : 128 < p.bytes.length := (by decide : 128 < 200)
  have hpar : parentOf p.bytes = [slash] := by decide
  obtain ⟨h1, h2⟩ := mkdir_long_twice hlen hpar
  have hs : s = (.rc true, boot.create 1 p.bytes fsTypeDir) := h1
  have ht : t = (.rc true, (boot.create 1 p.bytes fsTypeDir).create 2 p.bytes fsTypeDir) := by
    show step s.2 (.fsMkdir p) = _
    rw [hs]
    exact h2
  rw [hs, ht]
  exact ⟨rfl, rfl, create_long_twice hlen⟩

end GannetOS.Filesys
