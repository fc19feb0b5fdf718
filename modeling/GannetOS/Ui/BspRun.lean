/-
Whole runs of the layout tree: any sequence of `bsp_insert`, `bsp_insert_auto`, `bsp_remove`, `bsp_flip`, `bsp_rotate` and
`bsp_resize` with any arguments, from `bsp_tree_init` on. A `Session` is the tree with the windows that were inserted and
removed so far.

- `bsp_sound`: if no `bsp_resize` is given a delta that is not a number, then after every run the nodes in use are one
  binary tree with consistent links, its leaves hold the windows inserted and not removed, the ratios are between 0.1 and
  0.9, and `bsp_insert` at a leaf fails only with 63 nodes in use, changing nothing.
- `resize_by_nan`: the two tests of `bsp_resize` let a delta of NaN through, and the ratio is NaN afterwards.
-/
import GannetOS.Core.Run
import GannetOS.Ui.Bsp

namespace GannetOS.Ui

open GannetOS.Core Multiset

/-! ## What an operation does to the tree -/

/-- the windows at the leaves -/
def windowsOf : Option Layout → Multiset ℤ
  | none => 0
  | some T => T.leaves

/-- the labels of the splits -/
def splitsOf : Option Layout → Multiset (SplitDir × Binary32)
  | none => 0
  | some T => T.splits

section
variable {t : BspTree} {o : Option Layout} {T : Layout}

theorem SameTree.cells_eq {t' : BspTree} (h : SameTree t t') : cells t' = cells t := by
  funext i
  unfold cells Node.cell
  by_cases hi : (t.nodes i).inUse = true
  · rw [h.nodes i hi]
  · have hi' : ¬ (t'.nodes i).inUse = true := by rwa [h.inUse i]
    simp [hi, hi']

theorem Holding.same {t' : BspTree} (H : Holding t o) (h : SameTree t t') : Holding t' o := by
  unfold Holding
  rw [h.cells_eq, h.root]
  exact H

theorem Holding.root_ne (H : Holding t (some T)) : t.root ≠ -1 := by
  rw [H.1]
  exact fun he => H.2.rep.ne_none _ T.addr_mem (he ▸ cells_null t)

/-- a tree with a node in use is not empty -/
theorem Holding.exists_tree (H : Holding t o) {i : ℤ} (hi : cells t i ≠ none) : ∃ T, o = some T := by
  cases o with
  | none => exact absurd (H.2 i) hi
  | some T => exact ⟨T, rfl⟩

/-- `bsp_insert`: nothing changes, or the tree has one window more -/
theorem bspInsert_cases (H : Holding t o) (target : ℤ) (dir : SplitDir) (second : Bool) (w : ℤ) :
    ((bspInsert t target dir second w).1 = -1 ∧ SameTree t (bspInsert t target dir second w).2 ∧
      (validLeaf t target = true → 63 ≤ inUseCount t)) ∨
    (0 ≤ (bspInsert t target dir second w).1 ∧ ∃ T', Holding (bspInsert t target dir second w).2 (some T') ∧
      T'.leaves = w ::ₘ windowsOf o ∧ ∀ b ∈ T'.splits, b ∈ splitsOf o ∨ b.2 = half) := by
  by_cases ht : target = -1
  · subst ht
    have hinv : validLeaf t (-1) = false := by
      simp only [validLeaf, InPool]
      simp
    cases o with
    | none =>
      obtain ⟨k, hk, hres, hold⟩ := bspInsert_root H dir second w
      exact .inr ⟨hres ▸ hk, _, hold, rfl, fun b hb => absurd hb (notMem_zero b)⟩
    | some T =>
      have hrun : bspInsert t (-1) dir second w = (-1, t) := by simp [bspInsert, H.root_ne]
      rw [hrun]
      exact .inl ⟨rfl, ⟨rfl, fun _ => rfl, fun _ _ => rfl⟩, fun h => absurd h (by simp [hinv])⟩
  · by_cases hv : validLeaf t target = true
    · have hcell := validLeaf_iff.1 hv
      obtain ⟨T, rfl⟩ := H.exists_tree (hcell ▸ Option.some_ne_none _)
      rcases bspInsert_split H hv dir second w with ⟨old, n, -, -, -, hn, hres, hold⟩ | ⟨hres, hsame, hfull⟩
      · refine .inr ⟨hres ▸ hn, _, hold, ?_⟩
        obtain ⟨u, q, hu, rfl, hrep⟩ := H.2.rep.sub_at (H.mem (hcell ▸ Option.some_ne_none _))
        have hleaf := (hrep.leaf_of_cell hcell).1
        set a := (t.nodes u.addr).windowId
        have hl := Tree.leaves_alter (splitLeaf dir second old n w) H.2.nodup hu
        have hs := Tree.splits_alter (splitLeaf dir second old n w) H.2.nodup hu
        have hul : u.leaves = {a} := by rw [hleaf]; rfl
        have hus : u.splits = 0 := by rw [hleaf]; rfl
        have hfl : (splitLeaf dir second old n w u).leaves = {w} + {a} := by
          rw [hleaf]
          cases second
          · rfl
          · exact add_comm _ _
        have hfs : (splitLeaf dir second old n w u).splits = {(dir, half)} := by
          rw [hleaf]
          cases second <;> rfl
        rw [hul, hfl, ← add_assoc] at hl
        rw [hus, hfs, add_zero] at hs
        refine ⟨?_, fun b hb => ?_⟩
        · rw [add_right_cancel hl, windowsOf, add_comm, singleton_add]
        · rw [hs, mem_add, mem_singleton] at hb
          exact hb.imp_right fun he => by rw [he]
      · exact .inl ⟨hres, hsame, fun _ => hfull⟩
    · have hrun : bspInsert t target dir second w = (-1, t) := by simp [bspInsert, ht, hv]
      rw [hrun]
      exact .inl ⟨rfl, ⟨rfl, fun _ => rfl, fun _ _ => rfl⟩, fun h => absurd h hv⟩

/-- `bsp_remove`: nothing changes, or the tree has lost the leaf's window -/
theorem bspRemove_cases (H : Holding t o) (k : ℤ) :
    (validLeaf t k = false ∧ bspRemove t k = (-1, t)) ∨
    (validLeaf t k = true ∧ (bspRemove t k).1 = 0 ∧ ∃ o', Holding (bspRemove t k).2 o' ∧
      windowsOf o = (t.nodes k).windowId ::ₘ windowsOf o' ∧ ∀ b ∈ splitsOf o', b ∈ splitsOf o) := by
  cases hv : validLeaf t k with
  | false => exact .inl ⟨rfl, by simp [bspRemove, hv]⟩
  | true =>
    refine .inr ⟨rfl, ?_⟩
    have hcell := validLeaf_iff.1 hv
    obtain ⟨T, rfl⟩ := H.exists_tree (hcell ▸ Option.some_ne_none _)
    have hmem := H.mem (hcell ▸ Option.some_ne_none _)
    set w := (t.nodes k).windowId
    by_cases hroot : k = T.addr
    · have hleaf := (H.2.rep.leaf_of_cell (hroot ▸ hcell)).1
      rw [← hroot] at hleaf
      subst hleaf
      obtain ⟨hres, hold⟩ := bspRemove_last H
      exact ⟨hres, none, hold, rfl, fun b hb => hb⟩
    · obtain ⟨q, b, l, r, hsub, hc⟩ := Tree.exists_parent hmem hroot
      obtain ⟨g, hg⟩ := H.2.rep.sub hsub
      -- the child at `k` is the leaf, the other one its sibling
      obtain ⟨sib, hsib⟩ : ∃ sib, l = .leaf k w ∧ r = sib ∨ r = .leaf k w ∧ l = sib := by
        rcases hc with rfl | rfl
        · exact ⟨r, .inl ⟨(hg.2.1.leaf_of_cell hcell).1, rfl⟩⟩
        · exact ⟨l, .inr ⟨(hg.2.2.leaf_of_cell hcell).1, rfl⟩⟩
      obtain ⟨hres, hold⟩ := bspRemove_splice H hsub hsib
      refine ⟨hres, _, hold, ?_, fun b' hb' => ?_⟩
      · have hl := Tree.leaves_alter (fun _ => sib) H.2.nodup hsub
        have hu : (Tree.split q b l r : Layout).leaves = {w} + sib.leaves := by
          rcases hsib with ⟨rfl, rfl⟩ | ⟨rfl, rfl⟩
          · rfl
          · exact add_comm _ _
        rw [hu, ← add_assoc, Tree.addr_split] at hl
        show T.leaves = w ::ₘ (T.alter q fun _ => sib).leaves
        rw [← add_right_cancel hl, add_comm, singleton_add]
      · have hs := Tree.splits_alter (fun _ => sib) H.2.nodup hsub
        have hu : sib.splits ≤ (Tree.split q b l r : Layout).splits := by
          rcases hsib with ⟨-, rfl⟩ | ⟨-, rfl⟩
          · exact ((Tree.Sub.refl r).right q b l).splits_le
          · exact ((Tree.Sub.refl l).left q b r).splits_le
        have hle : (T.alter q fun _ => sib).splits ≤ T.splits := by
          have := add_le_add_right hu (T.splits)
          rw [← hs] at this
          exact le_of_add_le_add_right this
        exact mem_of_le hle hb'

/-- a change at a split keeps the windows, and changes one label -/
theorem turnSplit_labels (H : Holding t (some T)) {k : ℤ} (hv : validSplit t k = true)
    (f : SplitDir × Binary32 → SplitDir × Binary32) (swap : Bool) :
    (T.alter k (turnSplit f swap)).leaves = T.leaves ∧
      ∀ b ∈ (T.alter k (turnSplit f swap)).splits, b ∈ T.splits ∨ ∃ b₀ ∈ T.splits, b = f b₀ := by
  have hcell := validSplit_iff.1 hv
  obtain ⟨u, q, hu, rfl, hrep⟩ := H.2.rep.sub_at (H.mem (hcell ▸ Option.some_ne_none _))
  obtain ⟨-, tl, tr, hsplit, -, -⟩ := hrep.split_of_cell hcell
  set b₀ := ((t.nodes u.addr).splitDir, (t.nodes u.addr).ratio)
  have hl := Tree.leaves_alter (turnSplit f swap) H.2.nodup hu
  have hs := Tree.splits_alter (turnSplit f swap) H.2.nodup hu
  have hfl : (turnSplit f swap u).leaves = u.leaves := by
    rw [hsplit]
    cases swap
    · rfl
    · exact add_comm _ _
  have hfs : (turnSplit f swap u).splits = f b₀ ::ₘ (tl.splits + tr.splits) := by
    rw [hsplit]
    cases swap
    · rfl
    · exact congrArg _ (add_comm _ _)
  have hus : u.splits = b₀ ::ₘ (tl.splits + tr.splits) := by rw [hsplit]; rfl
  have hb₀ : b₀ ∈ T.splits := mem_of_le hu.splits_le (by rw [hus]; exact mem_cons_self _ _)
  refine ⟨add_right_cancel (hfl ▸ hl), fun b hb => ?_⟩
  generalize tl.splits + tr.splits = rest at hfs hus
  rw [hfs, hus, ← singleton_add, ← singleton_add, ← add_assoc, ← add_assoc] at hs
  have hb' : b ∈ T.splits + {f b₀} := add_right_cancel hs ▸ Multiset.mem_add.2 (.inl hb)
  rw [mem_add, mem_singleton] at hb'
  exact hb'.imp_right fun he => ⟨b₀, hb₀, he⟩

end

/-! ## Runs -/

/-- the tree, and the windows inserted and removed so far -/
structure Session where
  tree : BspTree
  inserted : Multiset ℤ
  removed : Multiset ℤ

inductive BspOp where
  | insert (targetLeaf : ℤ) (dir : SplitDir) (newOnSecondChild : Bool) (newWindowId : ℤ)
  | insertAuto (targetLeaf : ℤ) (targetRect : Rect) (newWindowId : ℤ)
  | remove (leaf : ℤ)
  | flip (node : ℤ)
  | rotate (node : ℤ)
  | resize (node : ℤ) (delta : Binary32)

namespace Session

def start (dir : ℤ → SplitDir) : Session := ⟨bspTreeInit dir, 0, 0⟩

/-- an insertion of `w` that returned `r.1` -/
def afterInsert (s : Session) (w : ℤ) (r : ℤ × BspTree) : Session :=
  ⟨r.2, if r.1 = -1 then s.inserted else w ::ₘ s.inserted, s.removed⟩

/-- one call; the functions without a result give 0 -/
def step (s : Session) : BspOp → ℤ × Session
  | .insert target dir second w =>
    let r := bspInsert s.tree target dir second w
    (r.1, s.afterInsert w r)
  | .insertAuto target rect w =>
    let r := bspInsertAuto s.tree target rect w
    (r.1, s.afterInsert w r)
  | .remove leaf =>
    let r := bspRemove s.tree leaf
    (r.1, ⟨r.2, s.inserted, if r.1 = 0 then (s.tree.nodes leaf).windowId ::ₘ s.removed else s.removed⟩)
  | .flip node => (0, { s with tree := bspFlip s.tree node })
  | .rotate node => (0, { s with tree := bspRotate s.tree node })
  | .resize node delta => (0, { s with tree := bspResize s.tree node delta })

/-- the delta of a `bsp_resize` is a number or an infinity -/
def Numeric (_ : Session) : BspOp → Prop
  | .resize _ delta => delta ≠ .nan
  | _ => True

instance (s : Session) (o : BspOp) : Decidable (Numeric s o) := by
  cases o <;> unfold Numeric <;> infer_instance

end Session

/-- a ratio in [0.1, 0.9] -/
def RatioOk (r : Binary32) : Prop := ∃ x, r = .fin x ∧ 1 / 10 ≤ x ∧ x ≤ 9 / 10

/-- the pool holds a tree with the windows inserted and not removed, and with good ratios -/
def Good (s : Session) : Prop :=
  ∃ o, Holding s.tree o ∧ (∀ b ∈ splitsOf o, RatioOk b.2) ∧ windowsOf o + s.removed = s.inserted

theorem ratioOk_half : RatioOk half := ⟨1 / 2, rfl, by norm_num, by norm_num⟩

/-- the two constants are 0.100000001… and 0.899999976… -/
theorem minRatio_eq : minRatio = .fin (13421773 / 134217728) := by decide +kernel

theorem maxRatio_eq : maxRatio = .fin (7549747 / 8388608) := by decide +kernel

theorem ratioOk_resize {r delta : Binary32} (hr : RatioOk r) (hd : delta ≠ .nan) :
    RatioOk (.clamp minRatio maxRatio (r.add delta)) := by
  obtain ⟨x, rfl, -, -⟩ := hr
  rw [minRatio_eq, maxRatio_eq]
  obtain ⟨y, hy, hlo, hhi⟩ := Binary32.clamp_mem
    (show (13421773 / 134217728 : ℚ) ≤ 7549747 / 8388608 by norm_num) (Binary32.add_ne_nan (x := x) hd)
  exact ⟨y, hy, le_trans (by norm_num) hlo, le_trans hhi (by norm_num)⟩

theorem good_start (dir : ℤ → SplitDir) : Good (.start dir) :=
  ⟨none, ⟨rfl, fun _ => cells_eq_none rfl⟩, fun b hb => absurd hb (notMem_zero b), rfl⟩

section
variable {s : Session}

theorem good_insert (h : Good s) (target : ℤ) (dir : SplitDir) (second : Bool) (w : ℤ) :
    Good (s.afterInsert w (bspInsert s.tree target dir second w)) := by
  obtain ⟨o, H, hratio, hwin⟩ := h
  rcases bspInsert_cases H target dir second w with ⟨hres, hsame, -⟩ | ⟨hres, T', hold, hleaves, hsplits⟩
  · refine ⟨o, H.same hsame, hratio, ?_⟩
    simpa [Session.afterInsert, hres] using hwin
  · refine ⟨some T', hold, fun b hb => ?_, ?_⟩
    · rcases hsplits b hb with hb | hb
      · exact hratio b hb
      · exact hb ▸ ratioOk_half
    · have hne : (bspInsert s.tree target dir second w).1 ≠ -1 := by omega
      simp only [Session.afterInsert, hne, if_false, windowsOf, hleaves, ← hwin, cons_add]

theorem good_remove (h : Good s) (leaf : ℤ) : Good (s.step (.remove leaf)).2 := by
  obtain ⟨o, H, hratio, hwin⟩ := h
  rcases bspRemove_cases H leaf with ⟨-, hrun⟩ | ⟨-, hres, o', hold, hleaves, hsplits⟩
  · simp only [Session.step, hrun]
    exact ⟨o, H, hratio, hwin⟩
  · refine ⟨o', hold, fun b hb => hratio b (hsplits b hb), ?_⟩
    simp only [Session.step, hres, if_true]
    rw [add_cons, ← cons_add, ← hleaves, hwin]

/-- a change at a split that keeps the ratios good -/
theorem good_turn (h : Good s) (node : ℤ) (f : SplitDir × Binary32 → SplitDir × Binary32) (swap : Bool)
    (hf : ∀ b, RatioOk b.2 → RatioOk (f b).2) {t' : BspTree}
    (hinvalid : validSplit s.tree node = false → t' = s.tree)
    (hvalid : ∀ T, Holding s.tree (some T) → validSplit s.tree node = true →
      Holding t' (some (T.alter node (turnSplit f swap)))) : Good { s with tree := t' } := by
  obtain ⟨o, H, hratio, hwin⟩ := h
  cases hv : validSplit s.tree node with
  | false =>
    rw [hinvalid hv]
    exact ⟨o, H, hratio, hwin⟩
  | true =>
    obtain ⟨T, rfl⟩ := H.exists_tree (validSplit_iff.1 hv ▸ Option.some_ne_none _)
    obtain ⟨hleaves, hsplits⟩ := turnSplit_labels H hv f swap
    refine ⟨_, hvalid T H hv, fun b hb => ?_, ?_⟩
    · rcases hsplits b hb with hb | ⟨b₀, hb₀, rfl⟩
      · exact hratio b hb
      · exact hf b₀ (hratio b₀ hb₀)
    · rw [windowsOf, hleaves]
      exact hwin

theorem good_step (s : Session) (o : BspOp) (h : Good s) (ho : s.Numeric o) : Good (s.step o).2 := by
  cases o with
  | insert target dir second w => exact good_insert h target dir second w
  | insertAuto target rect w => exact good_insert h target _ true w
  | remove leaf => exact good_remove h leaf
  | flip node =>
    exact good_turn h node id true (fun _ hb => hb) (fun hv => by simp [bspFlip, hv]) fun T H hv => bspFlip_stored H hv
  | rotate node =>
    exact good_turn h node (fun b => (b.1.turn, b.2)) true (fun _ hb => hb) (fun hv => by simp [bspRotate, hv])
      fun T H hv => bspRotate_stored H hv
  | resize node delta =>
    exact good_turn h node _ false (fun _ hb => ratioOk_resize hb ho) (fun hv => by simp [bspResize, hv])
      fun T H hv => bspResize_stored H hv delta

end

/-! ## After every run -/

/-- a node of the pool that is in use -/
def InUse (t : BspTree) (i : ℤ) : Prop := InPool i ∧ (t.nodes i).inUse = true

/-- `j` is a child of the split `i` -/
def ChildOf (t : BspTree) (i j : ℤ) : Prop :=
  validSplit t i = true ∧ (j = (t.nodes i).child0 ∨ j = (t.nodes i).child1)

/-- the windows at the leaves in use -/
def leafWindows (t : BspTree) : Multiset ℤ :=
  (Finset.univ : Finset (Fin maxNodes)).val.filterMap fun i : Fin maxNodes =>
    if validLeaf t (i : ℕ) then some (t.nodes (i : ℕ)).windowId else none

/-- what holds of the tree after every run -/
structure Sound (s : Session) : Prop where
  /-- the nodes in use are the nodes of one binary tree below `root`, or there are none -/
  tree : ∃ o, Holding s.tree o
  empty : s.tree.root = -1 ↔ ∀ i, ¬ InUse s.tree i
  root : s.tree.root ≠ -1 → InUse s.tree s.tree.root ∧ (s.tree.nodes s.tree.root).parent = -1
  children : ∀ i, validSplit s.tree i = true → (s.tree.nodes i).child0 ≠ (s.tree.nodes i).child1 ∧
    ∀ j, ChildOf s.tree i j → InUse s.tree j ∧ (s.tree.nodes j).parent = i
  parents : ∀ i, InUse s.tree i → i ≠ s.tree.root → ChildOf s.tree (s.tree.nodes i).parent i
  reachable : ∀ i, InUse s.tree i → Relation.ReflTransGen (ChildOf s.tree) s.tree.root i
  acyclic : ∀ i, ¬ Relation.TransGen (ChildOf s.tree) i i
  count : s.tree.root ≠ -1 → inUseCount s.tree = 2 * (leafWindows s.tree).card - 1 ∧ 1 ≤ (leafWindows s.tree).card
  windows : leafWindows s.tree + s.removed = s.inserted
  ratios : ∀ i, validSplit s.tree i = true → RatioOk (s.tree.nodes i).ratio
  /-- `bsp_insert` at a leaf fails only in a full pool, and then changes nothing -/
  insertFails : ∀ target dir second w, validLeaf s.tree target = true →
    (bspInsert s.tree target dir second w).1 = -1 →
      63 ≤ inUseCount s.tree ∧ SameTree s.tree (bspInsert s.tree target dir second w).2

section
variable {t : BspTree} {T : Layout}

theorem inUse_iff {i : ℤ} : InUse t i ↔ cells t i ≠ none := cells_ne_none.symm

theorem childOf_iff {i j : ℤ} : ChildOf t i j ↔ Link (cells t) i j := by
  constructor
  · rintro ⟨hv, hj⟩
    exact ⟨_, _, _, _, validSplit_iff.1 hv, hj⟩
  · rintro ⟨p, b, l, r, hc, hj⟩
    obtain ⟨hv, -, -, rfl, rfl⟩ := node_of_split hc
    exact ⟨hv, hj⟩

theorem childOf_eq : ChildOf t = Link (cells t) := by
  funext i j
  exact propext childOf_iff

/-- a cell holds the parent of its node -/
theorem parent_of_cell {i : ℤ} {c : Cell ℤ ℤ (SplitDir × Binary32)} (h : cells t i = some c) :
    (t.nodes i).parent = c.parent := by
  cases c with
  | leaf p a => exact (node_of_leaf h).2.1
  | split p b l r => exact (node_of_split h).2.1

/-- all addresses of the pool -/
def poolAddrs : Multiset ℤ := (Finset.univ : Finset (Fin maxNodes)).val.map fun i : Fin maxNodes => ((i : ℕ) : ℤ)

theorem mem_poolAddrs {i : ℤ} : i ∈ poolAddrs ↔ InPool i := by
  simp only [poolAddrs, mem_map, Finset.mem_val, Finset.mem_univ, true_and]
  constructor
  · rintro ⟨k, rfl⟩
    exact ⟨Int.natCast_nonneg _, Int.ofNat_lt.2 k.isLt⟩
  · intro hi
    obtain ⟨k, rfl⟩ := Int.eq_ofNat_of_zero_le hi.1
    exact ⟨⟨k, Int.ofNat_lt.1 hi.2⟩, rfl⟩

theorem nodup_poolAddrs : poolAddrs.Nodup :=
  Multiset.Nodup.map (fun _ _ h => Fin.ext (Int.ofNat_inj.1 h)) Finset.univ.nodup

/-- the addresses of the tree are those of the pool that are in use -/
theorem Holding.addrs_eq (H : Holding t (some T)) : T.addrs = poolAddrs.filter fun i => (t.nodes i).inUse = true := by
  refine (Multiset.Nodup.ext H.2.nodup (nodup_poolAddrs.filter _)).2 fun i => ?_
  rw [← H.2.exact, mem_filter, mem_poolAddrs, cells_ne_none]

theorem inUseCount_eq : inUseCount t = (poolAddrs.filter fun i => (t.nodes i).inUse = true).card := by
  rw [poolAddrs, filter_map, card_map]
  rfl

theorem leafWindows_eq : leafWindows t = poolAddrs.filterMap fun k => (cells t k).bind Cell.leafLabel := by
  rw [poolAddrs, filterMap_map]
  unfold leafWindows
  congr 1
  funext i
  show _ = (cells t (i : ℕ)).bind Cell.leafLabel
  cases hv : validLeaf t (i : ℕ) with
  | true =>
    rw [validLeaf_iff.1 hv]
    rfl
  | false =>
    cases hc : cells t (i : ℕ) with
    | none => rfl
    | some c =>
      cases c with
      | leaf p a =>
        rw [(node_of_leaf hc).1] at hv
        cases hv
      | split p b l r => rfl

theorem Holding.leafWindows_eq (H : Holding t (some T)) : leafWindows t = T.leaves := by
  rw [Ui.leafWindows_eq, H.2.rep.leaves_eq, H.addrs_eq, filterMap_filter]
  congr 1
  funext k
  split_ifs with hk
  · rfl
  · rw [cells_eq_none (by simpa using hk)]
    rfl

theorem leafWindows_none (H : Holding t none) : leafWindows t = 0 := by
  rw [Ui.leafWindows_eq]
  refine eq_zero_of_forall_notMem fun a ha => ?_
  obtain ⟨k, -, hk⟩ := (mem_filterMap _ _).1 ha
  rw [H.2 k] at hk
  cases hk

end

theorem Good.sound {s : Session} (h : Good s) : Sound s := by
  obtain ⟨o, H, hratio, hwin⟩ := h
  have hfails : ∀ target dir second w, validLeaf s.tree target = true →
      (bspInsert s.tree target dir second w).1 = -1 →
        63 ≤ inUseCount s.tree ∧ SameTree s.tree (bspInsert s.tree target dir second w).2 := by
    intro target dir second w hv hres
    rcases bspInsert_cases H target dir second w with ⟨-, hsame, hfull⟩ | ⟨hpos, -⟩
    · exact ⟨hfull hv, hsame⟩
    · omega
  cases o with
  | none =>
    have hnone : ∀ i, ¬ InUse s.tree i := fun i hi => inUse_iff.1 hi (H.2 i)
    have hsplit : ∀ i, validSplit s.tree i ≠ true := fun i hv => by
      have := validSplit_iff.1 hv
      rw [H.2 i] at this
      cases this
    refine ⟨⟨none, H⟩, ⟨fun _ => hnone, fun _ => H.1⟩, fun hr => absurd H.1 hr, fun i hv => absurd hv (hsplit i),
      fun i hi => absurd hi (hnone i), fun i hi => absurd hi (hnone i), fun i hc => ?_, fun hr => absurd H.1 hr, ?_,
      fun i hv => absurd hv (hsplit i), hfails⟩
    · obtain ⟨j, hc⟩ := Relation.TransGen.head'_iff.1 hc
      exact hsplit i hc.1.1
    · rw [leafWindows_none H]
      exact hwin
  | some T =>
    have hmem : ∀ {i}, InUse s.tree i ↔ i ∈ T.addrs := fun {i} => inUse_iff.trans (H.2.exact i)
    have hcount : inUseCount s.tree = 2 * (leafWindows s.tree).card - 1 ∧ 1 ≤ (leafWindows s.tree).card := by
      have := T.card_addrs
      rw [inUseCount_eq, ← H.addrs_eq, H.leafWindows_eq]
      omega
    have hparent : ∀ i, i ∈ T.addrs → i ≠ s.tree.root → ChildOf s.tree (s.tree.nodes i).parent i := by
      intro i hi hne
      obtain ⟨u, g, hu, rfl, hg⟩ := H.2.rep.sub_at hi
      obtain ⟨c, hc, rfl⟩ := hg.cell_parent
      rcases H.2.parent_cases hu hg with ⟨rfl, -⟩ | ⟨-, -, -, hlink⟩
      · exact absurd H.1.symm hne
      · rw [parent_of_cell hc]
        exact childOf_iff.2 hlink
    refine ⟨⟨_, H⟩, ⟨fun hr => absurd hr H.root_ne, fun hall => absurd (hmem.2 T.addr_mem) (hall _)⟩, fun _ => ?_,
      fun i hv => ⟨?_, fun j hj => ?_⟩, fun i hi hne => hparent i (hmem.1 hi) hne, fun i hi => ?_, fun i hc => ?_,
      fun _ => hcount, ?_, fun i hv => ?_, hfails⟩
    · rw [H.1]
      obtain ⟨c, hc, hp⟩ := H.2.rep.cell_parent
      exact ⟨hmem.2 T.addr_mem, (parent_of_cell hc).trans hp⟩
    · have hc := validSplit_iff.1 hv
      exact H.2.rep.children_ne H.2.nodup (H.mem (hc ▸ Option.some_ne_none _)) hc
    · have hc := validSplit_iff.1 hv
      obtain ⟨hjm, c, hcj, hp⟩ :=
        H.2.rep.parent_of_link (H.mem (hc ▸ Option.some_ne_none _)) (childOf_iff.1 hj)
      exact ⟨hmem.2 hjm, (parent_of_cell hcj).trans hp⟩
    · rw [childOf_eq, H.1]
      exact H.2.rep.reach (hmem.1 hi)
    · rw [childOf_eq] at hc
      have hi : cells s.tree i ≠ none := by
        obtain ⟨j, ⟨p, b, l, r, hcell, -⟩, -⟩ := Relation.TransGen.head'_iff.1 hc
        exact hcell ▸ Option.some_ne_none _
      exact H.2.rep.acyclic H.2.nodup (H.mem hi) hc
    · rw [H.leafWindows_eq]
      exact hwin
    · have hc := validSplit_iff.1 hv
      obtain ⟨u, g, hu, rfl, hg⟩ := H.2.rep.sub_at (H.mem (hc ▸ Option.some_ne_none _))
      obtain ⟨-, tl, tr, hsplit, -, -⟩ := hg.split_of_cell hc
      refine hratio ((s.tree.nodes u.addr).splitDir, (s.tree.nodes u.addr).ratio) (mem_of_le hu.splits_le ?_)
      rw [hsplit]
      exact mem_cons_self _ _

/-- **The nodes in use are one binary tree with consistent links, after every run** in which no `bsp_resize` is given a
delta that is not a number. -/
theorem bsp_sound {dir : ℤ → SplitDir} {tr : List (BspOp × ℤ)} {s : Session}
    (h : Run Session.step Session.Numeric (.start dir) tr s) : Sound s :=
  (h.invariant good_step (good_start dir)).sound

/-- three windows, a rotation, a resize by an infinity and a removal -/
def somePanes : List BspOp :=
  [.insert (-1) .vertical true 7, .insert 0 .vertical false 8, .insertAuto 1 ⟨0, 0, 512, 768⟩ 9, .rotate 0,
    .resize 0 (.inf false), .remove 2]

theorem bsp_sound_panes :
    AllOk Session.step Session.Numeric (.start fun _ => .vertical) somePanes ∧
      Sound (runOps Session.step (.start fun _ => .vertical) somePanes) := by
  have hok : AllOk Session.step Session.Numeric (.start fun _ => .vertical) somePanes := by decide
  obtain ⟨tr, htr⟩ := Run.of_allOk hok
  exact ⟨hok, bsp_sound htr⟩

/-- **A delta of NaN gets through.** Two windows are opened side by side and the split is resized by NaN. -/
theorem resize_by_nan :
    let s := runOps Session.step (.start fun _ => .vertical)
      [.insert (-1) .vertical true 7, .insert 0 .vertical true 8, .resize 0 .nan]
    validSplit s.tree 0 = true ∧ (s.tree.nodes 0).ratio = .nan ∧ ¬ RatioOk (s.tree.nodes 0).ratio := by
  intro s
  have hnan : (s.tree.nodes 0).ratio = .nan := by decide +kernel
  refine ⟨by decide +kernel, hnan, ?_⟩
  rw [hnan]
  rintro ⟨x, hx, -⟩
  cases hx

end GannetOS.Ui
