/-
The tree of a tiling layout, `kernel/bsp.c`: a pool of 64 nodes with links between them, by index.

The functions are translated as they stand, on the pool with its stale fields. `cells` reads the nodes in use as the cells
of `Core.NodeTree`, and each operation is then described as replacing one subtree:
- `bspInsert_root`, `bspInsert_split`, `bspInsert_full`: a new tree, a leaf that becomes a split, and the full pool;
- `bspRemove_last`, `bspRemove_splice`: the last leaf, and a sibling that takes the place of its parent;
- `bspFlip_stored`, `bspRotate_stored`, `bspResize_stored`: changes at one split.

Indices are C's `int`, with -1 for none; `nodes` is defined for every integer and only 0 to 63 are memory. Flags are
Booleans. `float` is `Core.Binary32`. The compiled code keeps intermediate results in x87 registers: the sum of
`bsp_resize` is rounded to single precision where it is stored, the share of a child not at all (`share`).
-/
import GannetOS.Core.Pool
import GannetOS.Core.NodeTree
import GannetOS.Core.Binary32

namespace GannetOS.Ui

open GannetOS.Core Multiset
open Function (update update_idem update_of_ne update_self)

inductive SplitDir where
  | vertical
  | horizontal
deriving DecidableEq

/-- `bsp_rect_t` -/
structure Rect where
  x : ℤ
  y : ℤ
  w : ℤ
  h : ℤ
deriving DecidableEq

/-- `bsp_node_t` -/
structure Node where
  inUse : Bool
  isLeaf : Bool
  parent : ℤ
  splitDir : SplitDir
  ratio : Binary32
  child0 : ℤ
  child1 : ℤ
  windowId : ℤ

/-- `bsp_tree_t` -/
structure BspTree where
  nodes : ℤ → Node
  root : ℤ

/-- `BSP_MAX_NODES` -/
def maxNodes : ℕ := 64

/-- `BSP_MIN_RATIO`, 0.1f -/
def minRatio : Binary32 := .round (1 / 10)

/-- `BSP_MAX_RATIO`, 0.9f -/
def maxRatio : Binary32 := .round (9 / 10)

/-- 0.5f -/
def half : Binary32 := .fin (1 / 2)

/-- an index into the pool -/
def InPool (i : ℤ) : Prop := 0 ≤ i ∧ i < maxNodes

instance (i : ℤ) : Decidable (InPool i) := inferInstanceAs (Decidable (_ ∧ _))

/-! ## The functions of `bsp.c` -/

/-- store a node -/
def BspTree.set (t : BspTree) (i : ℤ) (n : Node) : BspTree := { t with nodes := update t.nodes i n }

def allocNode (t : BspTree) : ℤ × BspTree :=
  match firstFree fun i : Fin maxNodes => (t.nodes (i : ℕ)).inUse with
  | none => (-1, t)
  | some i =>
    ((i : ℕ), t.set (i : ℕ) { t.nodes (i : ℕ) with inUse := true, parent := -1, child0 := -1, child1 := -1 })

def freeNode (t : BspTree) (idx : ℤ) : BspTree :=
  if ¬ InPool idx then t else t.set idx { t.nodes idx with inUse := false }

def validLeaf (t : BspTree) (idx : ℤ) : Bool := InPool idx && (t.nodes idx).inUse && (t.nodes idx).isLeaf

def validSplit (t : BspTree) (idx : ℤ) : Bool := InPool idx && (t.nodes idx).inUse && !(t.nodes idx).isLeaf

/-- `bsp_tree_init`; `dir` is what the split directions happen to be -/
def bspTreeInit (dir : ℤ → SplitDir) : BspTree := ⟨fun i => ⟨false, true, -1, dir i, half, -1, -1, -1⟩, -1⟩

def bspInsert (t : BspTree) (targetLeaf : ℤ) (dir : SplitDir) (newOnSecondChild : Bool) (newWindowId : ℤ) :
    ℤ × BspTree :=
  if targetLeaf = -1 then
    if t.root ≠ -1 then (-1, t)
    else
      let (idx, t) := allocNode t
      if idx < 0 then (-1, t)
      else
        let t := t.set idx { t.nodes idx with isLeaf := true, parent := -1, windowId := newWindowId }
        (idx, { t with root := idx })
  else if !validLeaf t targetLeaf then (-1, t)
  else
    let (oldLeaf, t) := allocNode t
    if oldLeaf < 0 then (-1, t)
    else
      let (newLeaf, t) := allocNode t
      if newLeaf < 0 then (-1, freeNode t oldLeaf)
      else
        let oldWindowId := (t.nodes targetLeaf).windowId
        let parentOfTarget := (t.nodes targetLeaf).parent
        let t := t.set oldLeaf { t.nodes oldLeaf with isLeaf := true, parent := targetLeaf, windowId := oldWindowId }
        let t := t.set newLeaf { t.nodes newLeaf with isLeaf := true, parent := targetLeaf, windowId := newWindowId }
        let t := t.set targetLeaf { t.nodes targetLeaf with
          isLeaf := false
          splitDir := dir
          ratio := half
          parent := parentOfTarget
          child0 := if newOnSecondChild then oldLeaf else newLeaf
          child1 := if newOnSecondChild then newLeaf else oldLeaf }
        (newLeaf, t)

def bspInsertAuto (t : BspTree) (targetLeaf : ℤ) (targetRect : Rect) (newWindowId : ℤ) : ℤ × BspTree :=
  bspInsert t targetLeaf (if targetRect.w ≥ targetRect.h then .vertical else .horizontal) true newWindowId

def bspRemove (t : BspTree) (leaf : ℤ) : ℤ × BspTree :=
  if !validLeaf t leaf then (-1, t)
  else
    let parent := (t.nodes leaf).parent
    if parent = -1 then (0, { freeNode t leaf with root := -1 })
    else
      let sibling := if (t.nodes parent).child0 = leaf then (t.nodes parent).child1 else (t.nodes parent).child0
      let grandparent := (t.nodes parent).parent
      let t := t.set sibling { t.nodes sibling with parent := grandparent }
      let t :=
        if grandparent = -1 then { t with root := sibling }
        else if (t.nodes grandparent).child0 = parent then
          t.set grandparent { t.nodes grandparent with child0 := sibling }
        else t.set grandparent { t.nodes grandparent with child1 := sibling }
      (0, freeNode (freeNode t leaf) parent)

def bspFlip (t : BspTree) (node : ℤ) : BspTree :=
  if !validSplit t node then t
  else t.set node { t.nodes node with child0 := (t.nodes node).child1, child1 := (t.nodes node).child0 }

def SplitDir.turn : SplitDir → SplitDir
  | vertical => horizontal
  | horizontal => vertical

def bspRotate (t : BspTree) (node : ℤ) : BspTree :=
  if !validSplit t node then t
  else bspFlip (t.set node { t.nodes node with splitDir := (t.nodes node).splitDir.turn }) node

def bspResize (t : BspTree) (node : ℤ) (delta : Binary32) : BspTree :=
  if !validSplit t node then t
  else
    let ratio := (t.nodes node).ratio.add delta
    t.set node { t.nodes node with ratio := .clamp minRatio maxRatio ratio }

/-- the first part of an extent that is split by a ratio: `(int)(extent * ratio + 0.5f)`. An x87 register has 64 bits of
precision, which hold the product of an `int` and a `float` from 0.1f to 0.9f, and the sum, without rounding -/
def share (extent : ℤ) : Binary32 → ℤ
  | .fin ratio => (Binary32.fin (extent * ratio + 1 / 2)).toInt
  | ratio => ratio.toInt

/-- the rectangles of the two children -/
def splitRect (dir : SplitDir) (ratio : Binary32) (r : Rect) : Rect × Rect :=
  match dir with
  | .vertical => ({ r with w := share r.w ratio }, { r with x := r.x + share r.w ratio, w := r.w - share r.w ratio })
  | .horizontal => ({ r with h := share r.h ratio }, { r with y := r.y + share r.h ratio, h := r.h - share r.h ratio })

/-- `layout_recurse`: the calls of `visit`, in order, each with leaf, window and rectangle -/
def layoutRecurse (t : BspTree) : ℕ → ℤ → Rect → List (ℤ × ℤ × Rect)
  | 0, _, _ => []
  | fuel + 1, node, rect =>
    if node < 0 ∨ (t.nodes node).inUse = false then []
    else if (t.nodes node).isLeaf then [(node, (t.nodes node).windowId, rect)]
    else
      let rects := splitRect (t.nodes node).splitDir (t.nodes node).ratio rect
      layoutRecurse t fuel (t.nodes node).child0 rects.1 ++ layoutRecurse t fuel (t.nodes node).child1 rects.2

/-- a path in a pool of 64 nodes has at most 64 of them -/
def bspLayout (t : BspTree) (rootRect : Rect) : List (ℤ × ℤ × Rect) :=
  if t.root = -1 then [] else layoutRecurse t maxNodes t.root rootRect

def bspFind (t : BspTree) (windowId : ℤ) : ℤ :=
  match (List.range maxNodes).find? fun i : ℕ =>
      (t.nodes i).inUse && (t.nodes i).isLeaf && (t.nodes i).windowId = windowId with
  | some i => i
  | none => -1

/-! ## The nodes in use as cells -/

/-- the labels of a tree: the window of a leaf, direction and ratio of a split -/
abbrev Layout := Tree ℤ ℤ (SplitDir × Binary32)

def Node.cell (n : Node) : Option (Cell ℤ ℤ (SplitDir × Binary32)) :=
  if n.inUse then
    some (if n.isLeaf then .leaf n.parent n.windowId else .split n.parent (n.splitDir, n.ratio) n.child0 n.child1)
  else none

def cells (t : BspTree) (i : ℤ) : Option (Cell ℤ ℤ (SplitDir × Binary32)) := if InPool i then (t.nodes i).cell else none

/-- the pool holds the tree `o` and nothing else -/
def Holding (t : BspTree) (o : Option Layout) : Prop := Tree.Stored (cells t) (-1) t.root o

/-- how many nodes are in use -/
def inUseCount (t : BspTree) : ℕ := (Finset.univ.filter fun i : Fin maxNodes => (t.nodes (i : ℕ)).inUse = true).card

/-- the same nodes are in use, with the same contents -/
structure SameTree (t t' : BspTree) : Prop where
  root : t'.root = t.root
  inUse : ∀ i, (t'.nodes i).inUse = (t.nodes i).inUse
  nodes : ∀ i, (t.nodes i).inUse = true → t'.nodes i = t.nodes i

section
variable {t : BspTree} {i j : ℤ} {n : Node}

theorem cells_set (hi : InPool i) (n : Node) : cells (t.set i n) = update (cells t) i n.cell := by
  funext j
  by_cases hj : j = i
  · subst hj
    simp [cells, BspTree.set, hi]
  · simp [cells, BspTree.set, hj]

theorem set_of_ne (hij : j ≠ i) (n : Node) : (t.set i n).nodes j = t.nodes j := update_of_ne hij _ _

@[simp] theorem set_self (t : BspTree) (i : ℤ) (n : Node) : (t.set i n).nodes i = n := update_self _ _ _

@[simp] theorem set_root (t : BspTree) (i : ℤ) (n : Node) : (t.set i n).root = t.root := rfl

theorem cells_null (t : BspTree) : cells t (-1) = none := rfl

theorem inPool_of_cells (h : cells t i ≠ none) : InPool i := by
  by_contra hi
  exact h (if_neg hi)

theorem cells_eq_none (hi : (t.nodes i).inUse = false) : cells t i = none := by
  unfold cells Node.cell
  simp [hi]

theorem cells_ne_none : cells t i ≠ none ↔ InPool i ∧ (t.nodes i).inUse = true := by
  unfold cells Node.cell
  by_cases hp : InPool i <;> cases (t.nodes i).inUse <;> simp [hp]

theorem validLeaf_iff : validLeaf t i = true ↔ cells t i = some (.leaf (t.nodes i).parent (t.nodes i).windowId) := by
  unfold validLeaf cells Node.cell
  by_cases hp : InPool i <;> cases (t.nodes i).inUse <;> cases (t.nodes i).isLeaf <;> simp [hp]

theorem validSplit_iff : validSplit t i = true ↔ cells t i = some (.split (t.nodes i).parent
    ((t.nodes i).splitDir, (t.nodes i).ratio) (t.nodes i).child0 (t.nodes i).child1) := by
  unfold validSplit cells Node.cell
  by_cases hp : InPool i <;> cases (t.nodes i).inUse <;> cases (t.nodes i).isLeaf <;> simp [hp]

/-- a leaf cell is a node with these fields -/
theorem node_of_leaf {p w : ℤ} (h : cells t i = some (.leaf p w)) :
    validLeaf t i = true ∧ (t.nodes i).parent = p ∧ (t.nodes i).windowId = w := by
  have hp : InPool i := inPool_of_cells (h ▸ Option.some_ne_none _)
  unfold cells Node.cell at h
  rw [if_pos hp] at h
  split_ifs at h with hu hl
  · obtain ⟨rfl, rfl⟩ := Cell.leaf.inj (Option.some.inj h)
    exact ⟨by simp [validLeaf, hp, hu, hl], rfl, rfl⟩
  · cases Option.some.inj h

/-- a split cell is a node with these fields -/
theorem node_of_split {p l r : ℤ} {b : SplitDir × Binary32} (h : cells t i = some (.split p b l r)) :
    validSplit t i = true ∧ (t.nodes i).parent = p ∧ ((t.nodes i).splitDir, (t.nodes i).ratio) = b ∧
      (t.nodes i).child0 = l ∧ (t.nodes i).child1 = r := by
  have hp : InPool i := inPool_of_cells (h ▸ Option.some_ne_none _)
  unfold cells Node.cell at h
  rw [if_pos hp] at h
  split_ifs at h with hu hl
  · cases Option.some.inj h
  · obtain ⟨rfl, rfl, rfl, rfl⟩ := Cell.split.inj (Option.some.inj h)
    exact ⟨by simp [validSplit, hp, hu, hl], rfl, rfl, rfl, rfl⟩

end

/-! ## Allocation -/

/-- a node is taken from the pool, or all are in use -/
theorem allocNode_cases (t : BspTree) :
    (allocNode t = (-1, t) ∧ ∀ i, InPool i → (t.nodes i).inUse = true) ∨
      ∃ i, InPool i ∧ (t.nodes i).inUse = false ∧
        allocNode t = (i, t.set i { t.nodes i with inUse := true, parent := -1, child0 := -1, child1 := -1 }) := by
  unfold allocNode
  cases hf : firstFree fun i : Fin maxNodes => (t.nodes (i : ℕ)).inUse with
  | none =>
    refine .inl ⟨rfl, fun i hi => ?_⟩
    obtain ⟨n, rfl⟩ := Int.eq_ofNat_of_zero_le hi.1
    exact firstFree_eq_none.1 hf ⟨n, Int.ofNat_lt.1 hi.2⟩
  | some i => exact .inr ⟨(i : ℕ), ⟨Int.natCast_nonneg _, Int.ofNat_lt.2 i.isLt⟩, firstFree_free hf, rfl⟩

variable {t : BspTree} {i k w : ℤ} {b : SplitDir × Binary32} {T : Layout}

theorem inUseCount_full (h : ∀ i, InPool i → (t.nodes i).inUse = true) : inUseCount t = 64 := by
  have hall : (Finset.univ.filter fun i : Fin maxNodes => (t.nodes (i : ℕ)).inUse = true) = Finset.univ :=
    Finset.filter_true_of_mem fun i _ => h _ ⟨Int.natCast_nonneg _, Int.ofNat_lt.2 i.isLt⟩
  rw [inUseCount, hall, Finset.card_univ, Fintype.card_fin]
  rfl

/-- one node more is in use -/
theorem inUseCount_set (hi : InPool i) (hfree : (t.nodes i).inUse = false) {n : Node} (hn : n.inUse = true) :
    inUseCount (t.set i n) = inUseCount t + 1 := by
  obtain ⟨k, rfl⟩ := Int.eq_ofNat_of_zero_le hi.1
  have hk : k < maxNodes := Int.ofNat_lt.1 hi.2
  have hins : (Finset.univ.filter fun j : Fin maxNodes => ((t.set k n).nodes (j : ℕ)).inUse = true) =
      insert ⟨k, hk⟩ (Finset.univ.filter fun j : Fin maxNodes => (t.nodes (j : ℕ)).inUse = true) := by
    ext j
    simp only [Finset.mem_insert, Finset.mem_filter, Finset.mem_univ, true_and]
    by_cases hj : j = ⟨k, hk⟩
    · subst hj
      simp [hn]
    · have hne : ((j : ℕ) : ℤ) ≠ k := fun he => hj (Fin.ext (Int.ofNat_inj.1 he))
      simp [set_of_ne hne, hj]
  rw [inUseCount, hins, Finset.card_insert_of_notMem (by simp [hfree])]
  rfl

theorem freeNode_cells (hi : InPool i) : cells (freeNode t i) = update (cells t) i none := by
  rw [freeNode, if_neg (not_not.2 hi), cells_set hi]
  rfl

@[simp] theorem freeNode_root (t : BspTree) (i : ℤ) : (freeNode t i).root = t.root := by
  unfold freeNode
  split_ifs <;> rfl

/-- memory after a leaf was split: the two new leaves and the split in the leaf's own place -/
def splitCells (h : ℤ → Option (Cell ℤ ℤ (SplitDir × Binary32))) (target o n p w w' : ℤ) (dir : SplitDir)
    (second : Bool) : ℤ → Option (Cell ℤ ℤ (SplitDir × Binary32)) :=
  update (update (update h o (some (.leaf target w))) n (some (.leaf target w'))) target
    (some (.split p (dir, half) (if second then o else n) (if second then n else o)))

/-- what `bsp_insert` does to the pool when the target is a leaf -/
theorem bspInsert_effect {target : ℤ} (hv : validLeaf t target = true) (dir : SplitDir) (second : Bool) (w : ℤ) :
    (∃ o n, o ≠ n ∧ cells t o = none ∧ cells t n = none ∧ 0 ≤ n ∧ (bspInsert t target dir second w).1 = n ∧
      (bspInsert t target dir second w).2.root = t.root ∧
      cells (bspInsert t target dir second w).2 =
        splitCells (cells t) target o n (t.nodes target).parent (t.nodes target).windowId w dir second) ∨
      ((bspInsert t target dir second w).1 = -1 ∧ SameTree t (bspInsert t target dir second w).2 ∧
        63 ≤ inUseCount t) := by
  have hcell := validLeaf_iff.1 hv
  have hin : InPool target := inPool_of_cells (hcell ▸ Option.some_ne_none _)
  have huse : (t.nodes target).inUse = true := (cells_ne_none.1 (hcell ▸ Option.some_ne_none _)).2
  have hne : target ≠ -1 := fun he => absurd (he ▸ hin).1 (by decide)
  unfold bspInsert
  rw [if_neg hne, hv]
  rcases allocNode_cases t with ⟨ha, hall⟩ | ⟨o, ho, hfo, ha⟩
  · refine .inr ?_
    rw [ha]
    exact ⟨rfl, ⟨rfl, fun _ => rfl, fun _ _ => rfl⟩, by rw [inUseCount_full hall]; decide⟩
  · have hto : target ≠ o := fun he => by rw [he, hfo] at huse; cases huse
    rw [ha]
    set n₀ : Node := { t.nodes o with inUse := true, parent := -1, child0 := -1, child1 := -1 } with hn₀
    have hcount : inUseCount (t.set o n₀) = inUseCount t + 1 := inUseCount_set ho hfo rfl
    simp only [Bool.not_true, Bool.false_eq_true, if_false, if_neg (not_lt.2 ho.1)]
    rcases allocNode_cases (t.set o n₀) with ⟨hb, hall⟩ | ⟨n, hn, hfn, hb⟩
    · refine .inr ?_
      rw [hb]
      have h64 := inUseCount_full hall
      refine ⟨rfl, ⟨by simp, fun i => ?_, fun i hi => ?_⟩, by omega⟩
      · show ((freeNode (t.set o n₀) o).nodes i).inUse = _
        rw [freeNode, if_neg (not_not.2 ho)]
        by_cases hi : i = o
        · rw [hi, set_self, hfo]
        · rw [set_of_ne hi, set_of_ne hi]
      · show (freeNode (t.set o n₀) o).nodes i = _
        have hio : i ≠ o := fun he => by rw [he, hfo] at hi; cases hi
        rw [freeNode, if_neg (not_not.2 ho), set_of_ne hio, set_of_ne hio]
    · have hon : n ≠ o := fun he => by rw [he, set_self] at hfn; cases hfn
      rw [set_of_ne hon] at hfn
      have htn : target ≠ n := fun he => by rw [he, hfn] at huse; cases huse
      refine .inl ⟨o, n, hon.symm, cells_eq_none hfo, cells_eq_none hfn, hn.1, ?_⟩
      rw [hb]
      simp only [if_neg (not_lt.2 hn.1)]
      refine ⟨trivial, rfl, ?_⟩
      simp only [cells_set hin, cells_set hn, cells_set ho, set_self, set_of_ne hto, set_of_ne htn, set_of_ne hon,
        set_of_ne hon.symm]
      funext j
      unfold splitCells
      by_cases h1 : j = target
      · subst h1
        simp [Node.cell, huse]
      · by_cases h2 : j = n
        · subst h2
          simp [h1, Node.cell]
        · by_cases h3 : j = o
          · subst h3
            simp [h1, h2, Node.cell, hn₀]
          · simp [h1, h2, h3]

theorem cells_reparent {s : ℤ} (hs : InPool s) (g : ℤ) :
    cells (t.set s { t.nodes s with parent := g }) = update (cells t) s ((cells t s).map (Cell.reparent g)) := by
  rw [cells_set hs]
  congr 1
  unfold cells Node.cell
  rw [if_pos hs]
  cases (t.nodes s).inUse <;> cases (t.nodes s).isLeaf <;> rfl

/-- what `bsp_remove` does to the pool when the leaf has a parent; `l` and `r` are the parent's children -/
theorem bspRemove_effect {q g l r s : ℤ} (hk : cells t k = some (.leaf q w))
    (hq : cells t q = some (.split g b l r)) (hs : s = if l = k then r else l) (hcs : cells t s ≠ none)
    (hsg : s ≠ g) (hg : g = -1 ∨ ∃ p b' gl gr, cells t g = some (.split p b' gl gr) ∧ (gl = q ∨ gr = q) ∧ gl ≠ gr) :
    (bspRemove t k).1 = 0 ∧ (bspRemove t k).2.root = (if g = -1 then s else t.root) ∧
      cells (bspRemove t k).2 = Tree.splice (cells t) k q s g := by
  obtain ⟨hvk, hkp, -⟩ := node_of_leaf hk
  obtain ⟨-, hqp, -, hql, hqr⟩ := node_of_split hq
  have hpk : InPool k := inPool_of_cells (hk ▸ Option.some_ne_none _)
  have hpq : InPool q := inPool_of_cells (hq ▸ Option.some_ne_none _)
  have hps : InPool s := inPool_of_cells hcs
  have hq1 : q ≠ -1 := fun he => absurd (he ▸ hpq).1 (by decide)
  unfold bspRemove
  rw [hvk]
  simp only [Bool.not_true, Bool.false_eq_true, if_false, hkp, hq1, hql, hqr, hqp, ← hs]
  rcases hg with rfl | ⟨p, b', gl, gr, hg, hgq, hne⟩
  · refine ⟨trivial, by simp, ?_⟩
    have hsame : ∀ x : BspTree, cells { x with root := s } = cells x := fun _ => rfl
    simp only [if_true, freeNode_cells hpk, freeNode_cells hpq, hsame, cells_reparent hps, Tree.splice, cells_null,
      Option.map_none]
    congr 2
    funext j
    by_cases hj : j = -1
    · subst hj
      rw [update_self, update_of_ne (Ne.symm hsg), cells_null]
    · rw [update_of_ne hj]
  · have hpg : InPool g := inPool_of_cells (hg ▸ Option.some_ne_none _)
    have hg1 : g ≠ -1 := fun he => absurd (he ▸ hpg).1 (by decide)
    obtain ⟨hvg, hgp, hgb, hgl, hgr⟩ := node_of_split hg
    have hug : (t.nodes g).inUse = true ∧ (t.nodes g).isLeaf = false := by
      simpa [validSplit, hpg] using hvg
    simp only [hg1, if_false, set_of_ne hsg.symm, hgl]
    split_ifs with hc
    · refine ⟨trivial, by simp, ?_⟩
      have hrq : gr ≠ q := fun he => hne (hc.trans he.symm)
      simp only [freeNode_cells hpk, freeNode_cells hpq, cells_set hpg, cells_reparent hps, Tree.splice, hg,
        Option.map_some, Cell.relink, hc, if_true, hrq, if_false]
      simp [Node.cell, hug.1, hug.2, hgp, hgb, hgr]
    · refine ⟨trivial, by simp, ?_⟩
      have hrq : gr = q := hgq.resolve_left hc
      simp only [freeNode_cells hpk, freeNode_cells hpq, cells_set hpg, cells_reparent hps, Tree.splice, hg,
        Option.map_some, Cell.relink, hc, hrq, if_true, if_false]
      simp [Node.cell, hug.1, hug.2, hgp, hgb]

/-! ## The operations on the tree -/

/-- a leaf becomes a split; its window goes to one child and the new window to the other -/
def splitLeaf (dir : SplitDir) (second : Bool) (old new w : ℤ) : Layout → Layout
  | .leaf k a =>
    .split k (dir, half) (if second then .leaf old a else .leaf new w) (if second then .leaf new w else .leaf old a)
  | u => u

/-- a change at a split: its label, and whether its children change places -/
def turnSplit (f : SplitDir × Binary32 → SplitDir × Binary32) (swap : Bool) : Layout → Layout
  | .leaf k a => .leaf k a
  | .split k b l r => .split k (f b) (if swap then r else l) (if swap then l else r)

theorem Holding.mem (H : Holding t (some T)) (hi : cells t i ≠ none) : i ∈ T.addrs :=
  (H.2.exact i).1 hi

/-- `bsp_insert` into an empty tree -/
theorem bspInsert_root (H : Holding t none) (dir : SplitDir) (second : Bool) (w : ℤ) :
    ∃ k, 0 ≤ k ∧ (bspInsert t (-1) dir second w).1 = k ∧ Holding (bspInsert t (-1) dir second w).2 (some (.leaf k w)) := by
  obtain ⟨hroot, hnone⟩ := H
  unfold bspInsert
  rcases allocNode_cases t with ⟨-, hall⟩ | ⟨k, hk, hfree, ha⟩
  · have h0 : InPool 0 := by decide
    exact absurd (hnone 0) (cells_ne_none.2 ⟨h0, hall 0 h0⟩)
  · refine ⟨k, hk.1, ?_⟩
    simp only [hroot, ha, if_true, ne_eq, not_true_eq_false, if_false, not_lt.2 hk.1]
    refine ⟨trivial, rfl, ?_⟩
    show Tree.Holds (cells _) (-1) (.leaf k w)
    have hcells : ∀ x : BspTree, cells { x with root := k } = cells x := fun _ => rfl
    rw [hcells, cells_set hk, cells_set hk, set_self]
    refine ⟨update_self _ _ _, nodup_singleton k, fun j => ?_⟩
    by_cases hj : j = k
    · subst hj
      simp [Tree.addrs, Node.cell]
    · simp [Tree.addrs, hj, hnone]

/-- `bsp_insert` at a leaf -/
theorem bspInsert_split (H : Holding t (some T)) {target : ℤ} (hv : validLeaf t target = true) (dir : SplitDir)
    (second : Bool) (w : ℤ) :
    (∃ o n, o ∉ T.addrs ∧ n ∉ T.addrs ∧ o ≠ n ∧ 0 ≤ n ∧ (bspInsert t target dir second w).1 = n ∧
      Holding (bspInsert t target dir second w).2 (some (T.alter target (splitLeaf dir second o n w)))) ∨
      ((bspInsert t target dir second w).1 = -1 ∧ SameTree t (bspInsert t target dir second w).2 ∧
        63 ≤ inUseCount t) := by
  refine (bspInsert_effect hv dir second w).imp_left ?_
  rintro ⟨o, n, hon, ho, hn, hn0, hres, hroot, hcells⟩
  have hcell := validLeaf_iff.1 hv
  set p := (t.nodes target).parent
  set a := (t.nodes target).windowId
  have hmem := H.mem (hcell ▸ Option.some_ne_none _)
  have hoT : o ∉ T.addrs := fun h => (H.2.exact o).2 h ho
  have hnT : n ∉ T.addrs := fun h => (H.2.exact n).2 h hn
  obtain ⟨u, q, hu, rfl, hrep⟩ := H.2.rep.sub_at hmem
  have hleaf := (hrep.leaf_of_cell hcell).1
  set k := u.addr
  have hok : o ≠ k := fun he => hoT (he ▸ hmem)
  have hnk : n ≠ k := fun he => hnT (he ▸ hmem)
  -- the cells of the new split
  have hk' : splitCells (cells t) k o n p a w dir second k =
      some (.split p (dir, half) (if second then o else n) (if second then n else o)) := update_self _ _ _
  have hn' : splitCells (cells t) k o n p a w dir second n = some (.leaf k w) := by simp [splitCells, hnk]
  have ho' : splitCells (cells t) k o n p a w dir second o = some (.leaf k a) := by simp [splitCells, hok, hon]
  have hother : ∀ j, j ≠ k → j ≠ n → j ≠ o → splitCells (cells t) k o n p a w dir second j = cells t j := by
    intro j h1 h2 h3
    simp [splitCells, h1, h2, h3]
  have hfu : (splitLeaf dir second o n w u).addrs = k ::ₘ o ::ₘ {n} := by
    rw [hleaf]
    cases second
    · exact congrArg _ (pair_comm n o)
    · rfl
  have hfaddr : (splitLeaf dir second o n w u).addr = k := by rw [hleaf]; rfl
  have hua : u.addrs = {k} := by rw [hleaf]; rfl
  refine ⟨o, n, hoT, hnT, hon, hn0, hres, ?_⟩
  have hsub : ∀ v, Tree.Sub v T → v.addr = k → (splitLeaf dir second o n w v).addr = k := by
    intro v hv' hvk
    rw [hv'.unique hu H.2.nodup hvk, hfaddr]
  refine ⟨?_, ?_⟩
  · rw [hroot, H.1, Tree.addr_alter]
    split_ifs with hc
    · rw [hsub T (.refl T) hc, hc]
    · rfl
  · rw [hcells]
    refine H.2.alter hu (fun g hg => ?_) (fun j hj hju => ?_) ?_ (fun j hj => ?_) (fun j hj hout => ?_)
    · obtain ⟨-, rfl⟩ := hg.leaf_of_cell hcell
      rw [hleaf]
      cases second
      · exact ⟨hk', hn', ho'⟩
      · exact ⟨hk', ho', hn'⟩
    · rw [hua, mem_singleton] at hju
      rw [hfaddr, hother j hju (fun he => hnT (he ▸ hj)) fun he => hoT (he ▸ hj), Cell.map_relink_self]
    · rw [hfu]
      simp [hon, Ne.symm hok, Ne.symm hnk]
    · rw [hfu] at hj
      simp only [mem_cons, mem_singleton] at hj
      rcases hj with rfl | rfl | rfl
      · exact .inl (by rw [hua]; exact mem_singleton_self _)
      · exact .inr hoT
      · exact .inr hnT
    · rw [hfu] at hj
      simp only [mem_cons, mem_singleton, not_or] at hj
      rw [hother j hj.1 hj.2.2 hj.2.1]
      rcases hout with hju | hjT
      · rw [hua, mem_singleton] at hju
        exact absurd hju hj.1
      · by_contra hne
        exact hjT (H.mem hne)

/-- `bsp_remove` of the only leaf -/
theorem bspRemove_last (H : Holding t (some (.leaf k w))) :
    (bspRemove t k).1 = 0 ∧ Holding (bspRemove t k).2 none := by
  have hk : cells t k = some (.leaf (-1) w) := H.2.rep
  obtain ⟨hv, hp, -⟩ := node_of_leaf hk
  have hin : InPool k := inPool_of_cells (hk ▸ Option.some_ne_none _)
  unfold bspRemove
  simp only [hv, hp, Bool.not_true, Bool.false_eq_true, if_false, if_true]
  refine ⟨trivial, rfl, fun j => ?_⟩
  show cells (freeNode t k) j = none
  rw [freeNode_cells hin]
  by_cases hj : j = k
  · rw [hj, update_self]
  · rw [update_of_ne hj]
    by_contra hne
    exact hj (Multiset.mem_singleton.1 (H.mem hne))

/-- `bsp_remove` of a leaf that has a sibling -/
theorem bspRemove_splice (H : Holding t (some T)) {q : ℤ} {l r sib : Layout} (hu : Tree.Sub (.split q b l r) T)
    (hsib : l = .leaf k w ∧ r = sib ∨ r = .leaf k w ∧ l = sib) :
    (bspRemove t k).1 = 0 ∧ Holding (bspRemove t k).2 (some (T.alter q fun _ => sib)) := by
  obtain ⟨g, hg⟩ := H.2.rep.sub hu
  have hlr : l.addr ≠ r.addr := H.2.rep.children_ne H.2.nodup hu.addr_mem hg.1
  have hk : cells t k = some (.leaf q w) := by
    rcases hsib with ⟨rfl, -⟩ | ⟨rfl, -⟩
    exacts [hg.2.1, hg.2.2]
  have hs : sib.addr = if l.addr = k then r.addr else l.addr := by
    rcases hsib with ⟨rfl, rfl⟩ | ⟨rfl, rfl⟩
    · exact (if_pos rfl).symm
    · exact (if_neg hlr).symm
  have hsu : sib.addr ∈ (Tree.split q b l r : Layout).addrs := by
    rcases hsib with ⟨-, rfl⟩ | ⟨-, rfl⟩
    · simp [Tree.addrs, r.addr_mem]
    · simp [Tree.addrs, l.addr_mem]
  have hcs := hg.ne_none _ hsu
  have hcases := H.2.parent_cases hu hg
  have hsg : sib.addr ≠ g := by
    rcases hcases with ⟨-, rfl⟩ | ⟨-, -, hgu, -⟩
    · exact fun he => hcs (he ▸ cells_null t)
    · exact fun he => hgu (he ▸ hsu)
  have hgrand : g = -1 ∨ ∃ p b' gl gr, cells t g = some (.split p b' gl gr) ∧ (gl = q ∨ gr = q) ∧ gl ≠ gr := by
    refine hcases.imp (fun h => h.2) ?_
    rintro ⟨-, hgT, -, p, b', gl, gr, hc, hlink⟩
    exact ⟨p, b', gl, gr, hc, hlink.imp Eq.symm Eq.symm, H.2.rep.children_ne H.2.nodup hgT hc⟩
  obtain ⟨hres, hroot, hcells⟩ := bspRemove_effect hk hg.1 hs hcs hsg hgrand
  refine ⟨hres, ?_, hcells ▸ H.2.splice (cells_null t) hu hsib hg⟩
  rw [hroot, Tree.addr_alter, H.1]
  rcases hcases with ⟨rfl, rfl⟩ | ⟨hne, hgT, -, -⟩
  · rw [if_pos rfl, if_pos (Tree.addr_split q b l r)]
  · have hg1 : g ≠ -1 := fun he => H.2.rep.ne_none g hgT (he ▸ cells_null t)
    rw [Tree.addr_split] at hne
    rw [if_neg hg1, if_neg hne]

/-- a change at a split keeps the pool a tree -/
theorem Holding.turn {t' : BspTree} (H : Holding t (some T)) {p l r : ℤ} (hk : cells t k = some (.split p b l r))
    (f : SplitDir × Binary32 → SplitDir × Binary32) (swap : Bool) (hroot : t'.root = t.root)
    (hcells : cells t' = update (cells t) k
      (some (.split p (f b) (if swap then r else l) (if swap then l else r)))) :
    Holding t' (some (T.alter k (turnSplit f swap))) := by
  obtain ⟨u, q, hu, rfl, hrep⟩ := H.2.rep.sub_at (H.mem (hk ▸ Option.some_ne_none _))
  obtain ⟨-, tl, tr, hsplit, rfl, rfl⟩ := hrep.split_of_cell hk
  have hfu : (turnSplit f swap u).addr = u.addr := by rw [hsplit]; rfl
  have haddrs : (turnSplit f swap u).addrs = u.addrs := by
    rw [hsplit]
    cases swap
    · rfl
    · show u.addr ::ₘ (tr.addrs + tl.addrs) = u.addr ::ₘ (tl.addrs + tr.addrs)
      rw [add_comm]
  have hnu := nodup_of_le hu.addrs_le H.2.nodup
  refine ⟨?_, hcells ▸ H.2.alter hu (fun g hg => ?_) (fun j hj hju => ?_) (haddrs ▸ hnu)
    (fun j hj => .inl (haddrs ▸ hj)) fun j hj hout => ?_⟩
  · rw [hroot, H.1, Tree.addr_alter]
    split_ifs with hc
    · rw [hu.eq_of_addr H.2.nodup hc, hfu]
    · rfl
  · rw [hsplit] at hg hnu ⊢
    obtain ⟨hc, hl, hr⟩ := hg
    obtain ⟨rfl, -⟩ := Cell.split.inj (Option.some.inj (hc.symm.trans hk))
    obtain ⟨hkl, hkr, -, -, -⟩ := Tree.nodup_split hnu
    have hout : ∀ c, ∀ v : Layout, u.addr ∉ v.addrs → ∀ j ∈ v.addrs, update (cells t) u.addr c j = cells t j :=
      fun c v hv j hj => update_of_ne (fun (he : j = u.addr) => hv (he ▸ hj)) _ _
    have hl' := fun c => hl.congr (hout c tl hkl)
    have hr' := fun c => hr.congr (hout c tr hkr)
    cases swap
    · exact ⟨update_self _ _ _, hl' _, hr' _⟩
    · exact ⟨update_self _ _ _, hr' _, hl' _⟩
  · rw [update_of_ne fun (he : j = u.addr) => hju (he ▸ u.addr_mem), hfu, Cell.map_relink_self]
  · rw [haddrs] at hj
    have hjT := hout.resolve_left hj
    rw [update_of_ne fun (he : j = u.addr) => hj (he ▸ u.addr_mem)]
    by_contra hne
    exact hjT (H.mem hne)

/-- the node of a valid split after some of its fields were changed -/
theorem cells_set_split (hv : validSplit t k = true) {n : Node} (hu : n.inUse = true) (hl : n.isLeaf = false) :
    cells (t.set k n) = update (cells t) k (some (.split n.parent (n.splitDir, n.ratio) n.child0 n.child1)) := by
  rw [cells_set (inPool_of_cells (validSplit_iff.1 hv ▸ Option.some_ne_none _))]
  simp [Node.cell, hu, hl]

theorem validSplit_flags (hv : validSplit t k = true) :
    (t.nodes k).inUse = true ∧ (t.nodes k).isLeaf = false := by
  simp only [validSplit, Bool.and_eq_true, Bool.not_eq_true'] at hv
  exact ⟨hv.1.2, hv.2⟩

theorem bspFlip_stored (H : Holding t (some T)) (hv : validSplit t k = true) :
    Holding (bspFlip t k) (some (T.alter k (turnSplit id true))) := by
  obtain ⟨hu, hl⟩ := validSplit_flags hv
  have hrun : bspFlip t k = t.set k { t.nodes k with child0 := (t.nodes k).child1, child1 := (t.nodes k).child0 } := by
    simp [bspFlip, hv]
  exact H.turn (validSplit_iff.1 hv) id true (by rw [hrun]; rfl) (by rw [hrun]; exact cells_set_split hv hu hl)

theorem bspRotate_stored (H : Holding t (some T)) (hv : validSplit t k = true) :
    Holding (bspRotate t k) (some (T.alter k (turnSplit (fun b => (b.1.turn, b.2)) true))) := by
  obtain ⟨hu, hl⟩ := validSplit_flags hv
  set n : Node := { t.nodes k with splitDir := (t.nodes k).splitDir.turn } with hn
  have hv' : validSplit (t.set k n) k = true := by
    have hin : InPool k := inPool_of_cells (validSplit_iff.1 hv ▸ Option.some_ne_none _)
    simp [validSplit, hin, hn, hu, hl]
  have hrun : bspRotate t k = (t.set k n).set k { n with child0 := n.child1, child1 := n.child0 } := by
    rw [bspRotate, hv]
    show bspFlip (t.set k n) k = _
    rw [bspFlip, hv']
    simp
  refine H.turn (validSplit_iff.1 hv) _ true (by rw [hrun]; rfl) ?_
  rw [hrun, cells_set_split hv' (n := { n with child0 := n.child1, child1 := n.child0 }) hu hl,
    cells_set_split hv (n := n) hu hl, update_idem]
  rfl

theorem bspResize_stored (H : Holding t (some T)) (hv : validSplit t k = true) (delta : Binary32) :
    Holding (bspResize t k delta)
      (some (T.alter k (turnSplit (fun b => (b.1, .clamp minRatio maxRatio (b.2.add delta))) false))) := by
  obtain ⟨hu, hl⟩ := validSplit_flags hv
  have hrun : bspResize t k delta =
      t.set k { t.nodes k with ratio := .clamp minRatio maxRatio ((t.nodes k).ratio.add delta) } := by
    simp [bspResize, hv]
  exact H.turn (validSplit_iff.1 hv) _ false (by rw [hrun]; rfl) (by rw [hrun]; exact cells_set_split hv hu hl)

end GannetOS.Ui
