/-
The kernel's window table, `kernel/ui/window.c`, over the layout tree of `kernel/bsp.c`: `wm_open_window` with its undo
when the window's task cannot be created, `wm_close_window` with its hand-over of the focus, and `wm_relayout`.

- `layoutRecurse_eq`: on a tree in the pool, `bsp_layout` visits every leaf once, and the window and rectangle of each
  visit depend on the shape of the tree alone.
- `wm_in_step`: after every sequence of calls, the open windows are the windows at the leaves, each at one leaf; the focus
  is on an open window if there is one; every open window has the rectangle of its leaf. Opening fails only with eight
  open windows or a task that was not created, and then changes neither the open windows nor the focus nor the shape.

What `task_create` answers is part of the call. The framebuffer is left out: `wm_relayout` draws borders from the
rectangles it has set.
-/
import GannetOS.Ui.BspRun

namespace GannetOS.Ui

open GannetOS.Core List

/-- `WM_MAX_WINDOWS` -/
def maxWindows : ℕ := 8

/-- `window_t` -/
structure Window where
  inUse : Bool
  windowId : ℤ
  taskId : ℤ
  rect : Rect
  name : List UInt8

/-- the static variables of `window.c`, and the screen as `fb_info` gives it -/
structure Wm where
  windows : ℤ → Window
  tree : BspTree
  focused : ℤ
  screen : Rect

namespace Wm

/-- `wm_init`: `windows` is what the table holds before, `dir` the split directions of the pool -/
def wmInit (windows : ℤ → Window) (dir : ℤ → SplitDir) (width height : ℤ) : Wm :=
  ⟨fun i => { windows i with inUse := false }, bspTreeInit dir, -1, ⟨0, 0, width, height⟩⟩

def setWindow (s : Wm) (i : ℤ) (w : Window) : Wm := { s with windows := Function.update s.windows i w }

/-- a valid index into the table -/
def InTable (i : ℤ) : Prop := 0 ≤ i ∧ i < maxWindows

instance (i : ℤ) : Decidable (InTable i) := inferInstanceAs (Decidable (_ ∧ _))

/-- the window is open -/
def Open (s : Wm) (i : ℤ) : Prop := InTable i ∧ (s.windows i).inUse = true

instance (s : Wm) (i : ℤ) : Decidable (s.Open i) := inferInstanceAs (Decidable (_ ∧ _))

def relayoutVisit (s : Wm) (visit : ℤ × ℤ × Rect) : Wm :=
  if ¬ s.Open visit.2.1 then s else s.setWindow visit.2.1 { s.windows visit.2.1 with rect := visit.2.2 }

def wmRelayout (s : Wm) : Wm := (bspLayout s.tree s.screen).foldl relayoutVisit s

/-- `wm_open_window`; `entry` is `none` without an entry function, and else what `task_create` returns for it -/
def wmOpenWindow (s : Wm) (entry : Option ℤ) (name : List UInt8) : ℤ × Wm :=
  match firstFree fun i : Fin maxWindows => (s.windows (i : ℕ)).inUse with
  | none => (-1, s)
  | some i =>
    let slot : ℤ := (i : ℕ)
    let hasFocus := s.focused ≠ -1 ∧ (s.windows s.focused).inUse = true
    let targetLeaf := if hasFocus then bspFind s.tree s.focused else -1
    let splitRect := if hasFocus then (s.windows s.focused).rect else s.screen
    let r := bspInsertAuto s.tree targetLeaf splitRect slot
    if r.1 < 0 then (-1, { s with tree := r.2 })
    else
      let opened := ({ s with tree := r.2 }).setWindow slot
        { s.windows slot with inUse := true, windowId := slot, taskId := -1, name := name.take 15 }
      match entry with
      | none => (slot, wmRelayout { opened with focused := slot })
      | some taskId =>
        if taskId < 0 then
          (-1, ({ opened with tree := (bspRemove opened.tree r.1).2 }).setWindow slot
            { opened.windows slot with inUse := false })
        else
          let started := opened.setWindow slot { opened.windows slot with taskId := taskId }
          (slot, wmRelayout { started with focused := slot })

/-- the window that gets the focus when the focused one is closed: the first one that is open -/
def nextFocus (windows : ℤ → Window) : ℤ :=
  match (List.range maxWindows).find? fun i : ℕ => (windows i).inUse with
  | some i => (windows i).windowId
  | none => -1

def wmCloseWindow (s : Wm) (windowId : ℤ) : ℤ × Wm :=
  if ¬ s.Open windowId then (-1, s)
  else
    let leaf := bspFind s.tree windowId
    let tree := if leaf ≠ -1 then (bspRemove s.tree leaf).2 else s.tree
    let closed := ({ s with tree := tree }).setWindow windowId { s.windows windowId with inUse := false }
    let focused := if s.focused = windowId then nextFocus closed.windows else s.focused
    (0, wmRelayout { closed with focused := focused })

end Wm

/-! ## `bsp_layout` and `bsp_find` on a tree in the pool -/

/-- the visits of `layout_recurse` -/
def layoutOf : Layout → Rect → List (ℤ × ℤ × Rect)
  | .leaf k w, rect => [(k, w, rect)]
  | .split _ b l r, rect => layoutOf l (splitRect b.1 b.2 rect).1 ++ layoutOf r (splitRect b.1 b.2 rect).2

/-- windows and rectangles, from the shape alone -/
def panes : Tree Unit ℤ (SplitDir × Binary32) → Rect → List (ℤ × Rect)
  | .leaf _ w, rect => [(w, rect)]
  | .split _ b l r, rect => panes l (splitRect b.1 b.2 rect).1 ++ panes r (splitRect b.1 b.2 rect).2

theorem layoutOf_panes (T : Layout) (rect : Rect) : (layoutOf T rect).map Prod.snd = panes T.forget rect := by
  induction T generalizing rect with
  | leaf k w => rfl
  | split k b l r ihl ihr =>
    rw [layoutOf, map_append, ihl, ihr]
    rfl

/-- the windows visited are those of the leaves -/
theorem panes_windows (T : Layout) (rect : Rect) :
    (((panes T.forget rect).map Prod.fst : List ℤ) : Multiset ℤ) = T.leaves := by
  induction T generalizing rect with
  | leaf k w => rfl
  | split k b l r ihl ihr =>
    rw [Tree.forget, panes, map_append, ← Multiset.coe_add, ihl, ihr]
    rfl

/-- `layout_recurse` with any way to cut a rectangle in two -/
def layoutBy (split : SplitDir → Binary32 → Rect → Rect × Rect) (t : BspTree) : ℕ → ℤ → Rect → List (ℤ × ℤ × Rect)
  | 0, _, _ => []
  | fuel + 1, node, rect =>
    if node < 0 ∨ (t.nodes node).inUse = false then []
    else if (t.nodes node).isLeaf then [(node, (t.nodes node).windowId, rect)]
    else
      let rects := split (t.nodes node).splitDir (t.nodes node).ratio rect
      layoutBy split t fuel (t.nodes node).child0 rects.1 ++ layoutBy split t fuel (t.nodes node).child1 rects.2

/-- its visits -/
def layoutByOf (split : SplitDir → Binary32 → Rect → Rect × Rect) : Layout → Rect → List (ℤ × ℤ × Rect)
  | .leaf k w, rect => [(k, w, rect)]
  | .split _ b l r, rect => layoutByOf split l (split b.1 b.2 rect).1 ++ layoutByOf split r (split b.1 b.2 rect).2

variable {t : BspTree} {p : ℤ} {T : Layout} {o : Option Layout}

/-- with enough fuel, the tree is walked -/
theorem layoutBy_eq (split : SplitDir → Binary32 → Rect → Rect × Rect) (hT : Tree.Rep (cells t) p T) (fuel : ℕ)
    (hfuel : T.addrs.card ≤ fuel) (rect : Rect) :
    layoutBy split t fuel T.addr rect = layoutByOf split T rect := by
  induction T generalizing p fuel rect with
  | leaf k w =>
    obtain ⟨fuel, rfl⟩ : ∃ n, fuel = n + 1 := ⟨fuel - 1, by simp [Tree.addrs] at hfuel; omega⟩
    obtain ⟨hv, -, hw⟩ := node_of_leaf hT
    simp only [validLeaf, Bool.and_eq_true, decide_eq_true_eq] at hv
    have hpos := hv.1.1.1
    simp [layoutBy, layoutByOf, hv.1.2, hv.2, hw, hpos]
  | split k b l r ihl ihr =>
    obtain ⟨fuel, rfl⟩ : ∃ n, fuel = n + 1 := ⟨fuel - 1, by simp [Tree.addrs] at hfuel; omega⟩
    obtain ⟨hc, hl, hr⟩ := hT
    obtain ⟨hv, -, hb, hl', hr'⟩ := node_of_split hc
    simp only [validSplit, Bool.and_eq_true, decide_eq_true_eq, Bool.not_eq_true'] at hv
    have hpos := hv.1.1.1
    simp only [Tree.addrs, Multiset.card_cons, Multiset.card_add] at hfuel
    have hdir : (t.nodes k).splitDir = b.1 := congrArg Prod.fst hb
    have hratio : (t.nodes k).ratio = b.2 := congrArg Prod.snd hb
    rw [Tree.addr_split, layoutBy, if_neg (by simp [hv.1.2, hpos]), if_neg (by simp [hv.2]), layoutByOf]
    simp only [hl', hr', hdir, hratio]
    rw [ihl hl fuel (by omega), ihr hr fuel (by omega)]

theorem layoutRecurse_by (t : BspTree) (fuel : ℕ) (node : ℤ) (rect : Rect) :
    layoutRecurse t fuel node rect = layoutBy splitRect t fuel node rect := by
  induction fuel generalizing node rect with
  | zero => rfl
  | succ fuel ih => simp only [layoutRecurse, layoutBy, ih]

theorem layoutOf_by (T : Layout) (rect : Rect) : layoutOf T rect = layoutByOf splitRect T rect := by
  induction T generalizing rect with
  | leaf k w => rfl
  | split k b l r ihl ihr => rw [layoutOf, layoutByOf, ihl, ihr]

/-- with enough fuel, `layout_recurse` walks the tree -/
theorem layoutRecurse_eq (hT : Tree.Rep (cells t) p T) (fuel : ℕ) (hfuel : T.addrs.card ≤ fuel) (rect : Rect) :
    layoutRecurse t fuel T.addr rect = layoutOf T rect := by
  rw [layoutRecurse_by, layoutOf_by, layoutBy_eq splitRect hT fuel hfuel]

theorem Holding.card_le (H : Holding t (some T)) : T.addrs.card ≤ maxNodes := by
  rw [H.addrs_eq]
  refine (Multiset.card_le_card (Multiset.filter_le _ _)).trans ?_
  rw [poolAddrs, Multiset.card_map]
  exact (Finset.card_univ.trans (Fintype.card_fin _)).le

/-- windows and rectangles of the tree in the pool -/
def panesOf : Option Layout → Rect → List (ℤ × Rect)
  | none, _ => []
  | some T, rect => panes T.forget rect

theorem bspLayout_panes (H : Holding t o) (rect : Rect) :
    (bspLayout t rect).map Prod.snd = panesOf o rect := by
  unfold bspLayout
  cases o with
  | none => rw [if_pos H.1]; rfl
  | some T =>
    rw [if_neg H.root_ne, H.1, layoutRecurse_eq H.2.rep maxNodes H.card_le, layoutOf_panes]
    rfl

/-- `bsp_find` of a window in the tree finds its leaf -/
theorem bspFind_mem (H : Holding t o) {w : ℤ} (hw : w ∈ windowsOf o) :
    validLeaf t (bspFind t w) = true ∧ (t.nodes (bspFind t w)).windowId = w := by
  cases o with
  | none => exact absurd hw (Multiset.notMem_zero w)
  | some T =>
    rw [windowsOf, H.2.rep.leaves_eq, Multiset.mem_filterMap] at hw
    obtain ⟨k, -, hk⟩ := hw
    -- some leaf holds the window, so the scan does not come to its end
    have hleaf : ∃ n < maxNodes, (t.nodes (n : ℤ)).inUse = true ∧ (t.nodes n).isLeaf = true ∧ (t.nodes n).windowId = w := by
      cases hc : cells t k with
      | none =>
        rw [hc] at hk
        cases hk
      | some c =>
        rw [hc] at hk
        cases c with
        | split p b l r => cases hk
        | leaf p a =>
          obtain rfl := Option.some.inj hk
          obtain ⟨hv, -, hwin⟩ := node_of_leaf hc
          simp only [validLeaf, Bool.and_eq_true, decide_eq_true_eq] at hv
          obtain ⟨n, rfl⟩ := Int.eq_ofNat_of_zero_le hv.1.1.1
          exact ⟨n, Int.ofNat_lt.1 hv.1.1.2, hv.1.2, hv.2, hwin⟩
    obtain ⟨n, hn, hu, hl, hwin⟩ := hleaf
    unfold bspFind
    cases hf : (List.range maxNodes).find? fun i : ℕ =>
        (t.nodes i).inUse && (t.nodes i).isLeaf && decide ((t.nodes i).windowId = w) with
    | none =>
      have := List.find?_eq_none.1 hf n (List.mem_range.2 hn)
      simp [hu, hl, hwin] at this
    | some i =>
      have hi := find?_some hf
      have hmem := List.mem_range.1 (mem_of_find?_eq_some hf)
      simp only [Bool.and_eq_true, decide_eq_true_eq] at hi
      have hin : InPool (i : ℤ) := ⟨Int.natCast_nonneg _, Int.ofNat_lt.2 hmem⟩
      exact ⟨by simp [validLeaf, hin, hi.1.1, hi.1.2], hi.2⟩

/-- a visit names a leaf and its window -/
theorem layoutOf_leaf (hT : Tree.Rep (cells t) p T) (rect : Rect) :
    ∀ v ∈ layoutOf T rect, validLeaf t v.1 = true ∧ (t.nodes v.1).windowId = v.2.1 := by
  induction T generalizing p rect with
  | leaf k w =>
    intro v hv
    obtain rfl := List.mem_singleton.1 hv
    obtain ⟨hvalid, -, hw⟩ := node_of_leaf hT
    exact ⟨hvalid, hw⟩
  | split k b l r ihl ihr =>
    intro v hv
    rcases List.mem_append.1 hv with hv | hv
    · exact ihl hT.2.1 _ v hv
    · exact ihr hT.2.2 _ v hv

theorem bspLayout_leaf (H : Holding t o) (rect : Rect) :
    ∀ v ∈ bspLayout t rect, validLeaf t v.1 = true ∧ (t.nodes v.1).windowId = v.2.1 := by
  unfold bspLayout
  cases o with
  | none =>
    rw [if_pos H.1]
    exact fun v hv => absurd hv (not_mem_nil)
  | some T =>
    rw [if_neg H.root_ne, H.1, layoutRecurse_eq H.2.rep maxNodes H.card_le]
    exact layoutOf_leaf H.2.rep rect

/-! ## Inserting a leaf and taking it out again -/

theorem inUseCount_le (H : Holding t o) : inUseCount t ≤ 2 * (windowsOf o).card := by
  cases o with
  | none =>
    have hzero : inUseCount t = 0 := by
      rw [inUseCount, Finset.card_eq_zero, Finset.filter_eq_empty_iff]
      intro i _ hu
      have hin : InPool ((i : ℕ) : ℤ) := ⟨Int.natCast_nonneg _, Int.ofNat_lt.2 i.isLt⟩
      exact cells_ne_none.2 ⟨hin, hu⟩ (H.2 _)
    omega
  | some T =>
    have := T.card_addrs
    rw [inUseCount_eq, ← H.addrs_eq]
    simp only [windowsOf]
    omega

/-- **Insertion and its undo.** In a pool with room, a window is inserted, and removing its leaf again gives a tree of the
shape there was before. -/
theorem insert_undo (H : Holding t o) {target : ℤ} (htarget : target = -1 ∧ o = none ∨ validLeaf t target = true)
    (hroom : inUseCount t < 63) (rect : Rect) (w : ℤ) :
    0 ≤ (bspInsertAuto t target rect w).1 ∧
      (∃ T', Holding (bspInsertAuto t target rect w).2 (some T') ∧ T'.leaves = w ::ₘ windowsOf o) ∧
      ∃ o', Holding (bspRemove (bspInsertAuto t target rect w).2 (bspInsertAuto t target rect w).1).2 o' ∧
        o'.map Tree.forget = o.map Tree.forget := by
  unfold bspInsertAuto
  generalize (if rect.w ≥ rect.h then SplitDir.vertical else SplitDir.horizontal) = dir
  rcases htarget with ⟨rfl, rfl⟩ | hv
  · obtain ⟨k, hk, hres, hold⟩ := bspInsert_root H dir true w
    rw [hres]
    exact ⟨hk, ⟨_, hold, rfl⟩, none, (bspRemove_last hold).2, rfl⟩
  · have hcell := validLeaf_iff.1 hv
    obtain ⟨T, rfl⟩ := H.exists_tree (hcell ▸ Option.some_ne_none _)
    rcases bspInsert_cases H target dir true w with ⟨-, -, hfull⟩ | ⟨hpos, T', hold', hleaves, -⟩
    · exact absurd (hfull hv) (by omega)
    · refine ⟨hpos, ⟨T', hold', hleaves⟩, ?_⟩
      rcases bspInsert_split H hv dir true w with ⟨old, n, -, -, -, -, hres, hold⟩ | ⟨-, -, hfull⟩
      · obtain ⟨u, q, hu, rfl, hrep⟩ := H.2.rep.sub_at (H.mem (hcell ▸ Option.some_ne_none _))
        have hleaf := (hrep.leaf_of_cell hcell).1
        set a := (t.nodes u.addr).windowId
        have hsub := hu.alter (splitLeaf dir true old n w) H.2.nodup
        have hsplit : splitLeaf dir true old n w u = .split u.addr (dir, half) (.leaf old a) (.leaf n w) := by
          rw [hleaf]
          rfl
        rw [hsplit] at hsub
        rw [hres]
        refine ⟨_, (bspRemove_splice hold hsub (.inr ⟨rfl, rfl⟩)).2, ?_⟩
        rw [Tree.alter_alter _ _ H.2.nodup hu (by rw [hsplit]; rfl)]
        refine congrArg some (Tree.forget_alter _ H.2.nodup hu ?_)
        show (Tree.leaf old a : Layout).forget = u.forget
        rw [hleaf]
        rfl
      · exact absurd hfull (by omega)

namespace Wm

/-! ## The window table and the tree -/

variable {s : Wm} {o : Option Layout}

/-- the open windows are those at the leaves, and the focus is on one of them -/
structure Tabled (s : Wm) (o : Option Layout) : Prop where
  held : Holding s.tree o
  nodup : (windowsOf o).Nodup
  open_iff : ∀ i, s.Open i ↔ i ∈ windowsOf o
  ids : ∀ i, s.Open i → (s.windows i).windowId = i
  focus : (s.focused = -1 ∧ ∀ i, ¬ s.Open i) ∨ s.Open s.focused

/-- every window has the rectangle of its leaf -/
def Placed (s : Wm) (o : Option Layout) : Prop := ∀ v ∈ panesOf o s.screen, (s.windows v.1).rect = v.2

@[simp] theorem setWindow_self (s : Wm) (i : ℤ) (w : Window) : (s.setWindow i w).windows i = w :=
  Function.update_self _ _ _

theorem setWindow_of_ne {i j : ℤ} (h : j ≠ i) (w : Window) : (s.setWindow i w).windows j = s.windows j :=
  Function.update_of_ne h _ _

/-- the visits of `wm_relayout` set the rectangles and nothing else -/
theorem foldl_relayoutVisit (vs : List (ℤ × ℤ × Rect)) (hn : (vs.map fun v => v.2.1).Nodup)
    (hopen : ∀ v ∈ vs, s.Open v.2.1) :
    (vs.foldl relayoutVisit s).tree = s.tree ∧ (vs.foldl relayoutVisit s).focused = s.focused ∧
      (vs.foldl relayoutVisit s).screen = s.screen ∧
      (∀ i, ((vs.foldl relayoutVisit s).windows i).inUse = (s.windows i).inUse ∧
        ((vs.foldl relayoutVisit s).windows i).windowId = (s.windows i).windowId) ∧
      (∀ i, i ∉ vs.map (fun v => v.2.1) → (vs.foldl relayoutVisit s).windows i = s.windows i) ∧
      ∀ v ∈ vs, ((vs.foldl relayoutVisit s).windows v.2.1).rect = v.2.2 := by
  induction vs generalizing s with
  | nil => exact ⟨rfl, rfl, rfl, fun _ => ⟨rfl, rfl⟩, fun _ _ => rfl, fun v hv => absurd hv not_mem_nil⟩
  | cons v vs ih =>
    rw [map_cons, nodup_cons] at hn
    have hv := hopen v mem_cons_self
    have hstep : relayoutVisit s v = s.setWindow v.2.1 { s.windows v.2.1 with rect := v.2.2 } := if_neg (not_not.2 hv)
    have hsame : ∀ i, ((relayoutVisit s v).windows i).inUse = (s.windows i).inUse ∧
        ((relayoutVisit s v).windows i).windowId = (s.windows i).windowId := by
      intro i
      rw [hstep]
      by_cases hi : i = v.2.1
      · subst hi
        simp
      · simp [setWindow_of_ne hi]
    have hopen' : ∀ u ∈ vs, (relayoutVisit s v).Open u.2.1 := fun u hu =>
      ⟨(hopen u (mem_cons_of_mem _ hu)).1, (hsame _).1.trans (hopen u (mem_cons_of_mem _ hu)).2⟩
    obtain ⟨htree, hfoc, hscreen, hrest, hout, hset⟩ := ih hn.2 hopen'
    rw [foldl_cons]
    refine ⟨htree.trans (by rw [hstep]; rfl), hfoc.trans (by rw [hstep]; rfl), hscreen.trans (by rw [hstep]; rfl),
      fun i => ⟨(hrest i).1.trans (hsame i).1, (hrest i).2.trans (hsame i).2⟩, fun i hi => ?_, fun u hu => ?_⟩
    · rw [map_cons, mem_cons, not_or] at hi
      rw [hout i hi.2, hstep, setWindow_of_ne hi.1]
    · rcases List.mem_cons.1 hu with rfl | hu
      · rw [hout _ hn.1, hstep, setWindow_self]
      · exact hset u hu

/-- `wm_relayout` gives every open window the rectangle of its leaf -/
theorem Tabled.relayout (h : Tabled s o) : Tabled (wmRelayout s) o ∧ Placed (wmRelayout s) o := by
  have hpanes := bspLayout_panes h.held s.screen
  have hwin : (((bspLayout s.tree s.screen).map fun v => v.2.1 : List ℤ) : Multiset ℤ) = windowsOf o := by
    have hmap : ((bspLayout s.tree s.screen).map fun v => v.2.1) = (panesOf o s.screen).map Prod.fst := by
      rw [← hpanes, map_map]
      rfl
    rw [hmap]
    cases o with
    | none => rfl
    | some T => exact panes_windows T s.screen
  have hn : ((bspLayout s.tree s.screen).map fun v => v.2.1).Nodup := Multiset.coe_nodup.1 (hwin ▸ h.nodup)
  have hopen : ∀ v ∈ bspLayout s.tree s.screen, s.Open v.2.1 := by
    intro v hv
    rw [h.open_iff, ← hwin]
    exact Multiset.mem_coe.2 (mem_map_of_mem hv)
  obtain ⟨htree, hfoc, hscreen, hsame, -, hset⟩ := foldl_relayoutVisit _ hn hopen
  have hopen' : ∀ i, (wmRelayout s).Open i ↔ s.Open i := fun i => and_congr_right fun _ => by
    rw [wmRelayout, (hsame i).1]
  refine ⟨⟨?_, h.nodup, fun i => (hopen' i).trans (h.open_iff i), fun i hi => ?_, ?_⟩, fun v hv => ?_⟩
  · rw [wmRelayout, htree]
    exact h.held
  · rw [wmRelayout, (hsame i).2]
    exact h.ids i ((hopen' i).1 hi)
  · have hf : (wmRelayout s).focused = s.focused := hfoc
    rw [hf, hopen']
    exact h.focus.imp_left fun hc => ⟨hc.1, fun i hi => hc.2 i ((hopen' i).1 hi)⟩
  · have hsc : (wmRelayout s).screen = s.screen := hscreen
    rw [hsc, ← hpanes] at hv
    obtain ⟨u, hu, rfl⟩ := List.mem_map.1 hv
    exact hset u hu

/-- at most eight windows are open, so the pool has room -/
theorem Tabled.room (h : Tabled s o) : inUseCount s.tree < 63 := by
  have hcard : (windowsOf o).card ≤ 8 := by
    rw [← Multiset.toFinset_card_of_nodup h.nodup]
    refine (Finset.card_le_card (t := Finset.Ico (0 : ℤ) 8) fun i hi => ?_).trans (by simp)
    have hin := ((h.open_iff i).2 (Multiset.mem_toFinset.1 hi)).1
    exact Finset.mem_Ico.2 hin
  have := inUseCount_le h.held
  omega

/-- where the next window goes: the leaf of the focused window, or the empty tree -/
theorem Tabled.target (h : Tabled s o) :
    (if s.focused ≠ -1 ∧ (s.windows s.focused).inUse = true then bspFind s.tree s.focused else -1) = -1 ∧ o = none ∨
      validLeaf s.tree
        (if s.focused ≠ -1 ∧ (s.windows s.focused).inUse = true then bspFind s.tree s.focused else -1) = true := by
  rcases h.focus with ⟨hf, hnone⟩ | hopen
  · refine .inl ⟨if_neg fun hc => hc.1 hf, ?_⟩
    cases o with
    | none => rfl
    | some T =>
      have hcard := T.card_addrs
      have hpos := Multiset.card_pos_iff_exists_mem.2 ⟨_, T.addr_mem⟩
      obtain ⟨w, hw⟩ := Multiset.card_pos_iff_exists_mem.1 (show 0 < T.leaves.card by omega)
      exact absurd ((h.open_iff w).2 hw) (hnone w)
  · have hne : s.focused ≠ -1 := fun he => absurd (he ▸ hopen.1).1 (by decide)
    rw [if_pos ⟨hne, hopen.2⟩]
    exact .inr (bspFind_mem h.held ((h.open_iff _).1 hopen)).1

/-- a window was opened at `slot` -/
theorem Tabled.opened (h : Tabled s o) {slot : ℤ} (hin : InTable slot) (hfree : ¬ s.Open slot) {t' : BspTree}
    {T' : Layout} (H : Holding t' (some T')) (hleaves : T'.leaves = slot ::ₘ windowsOf o) {w : Window}
    (hu : w.inUse = true) (hw : w.windowId = slot) :
    Tabled { ({ s with tree := t' }).setWindow slot w with focused := slot } (some T') := by
  set s₁ : Wm := { ({ s with tree := t' }).setWindow slot w with focused := slot } with hs₁
  have hslot : s₁.windows slot = w := Function.update_self _ _ _
  have hother : ∀ i, i ≠ slot → s₁.windows i = s.windows i := fun i hi => Function.update_of_ne hi _ _
  have hopen : ∀ i, s₁.Open i ↔ i = slot ∨ s.Open i := by
    intro i
    by_cases hi : i = slot
    · subst hi
      simp [Open, hslot, hin, hu]
    · simp [Open, hother i hi, hi]
  refine ⟨H, ?_, fun i => ?_, fun i hi => ?_, .inr ((hopen slot).2 (.inl rfl))⟩
  · rw [windowsOf, hleaves, Multiset.nodup_cons]
    exact ⟨fun hm => hfree ((h.open_iff slot).2 hm), h.nodup⟩
  · rw [hopen, windowsOf, hleaves, Multiset.mem_cons, h.open_iff]
  · by_cases hi' : i = slot
    · rw [hi', hslot, hw]
    · rw [hother i hi']
      exact h.ids i (((hopen i).1 hi).resolve_left hi')

/-- a tree of the same shape and a slot that is closed again: nothing has changed -/
theorem Tabled.undone (h : Tabled s o) (hp : Placed s o) {slot : ℤ} (hfree : ¬ s.Open slot) {t' : BspTree}
    {o' : Option Layout} (H : Holding t' o') (hshape : o'.map Tree.forget = o.map Tree.forget) {w : Window}
    (hu : w.inUse = false) :
    Tabled (({ s with tree := t' }).setWindow slot w) o' ∧ Placed (({ s with tree := t' }).setWindow slot w) o' := by
  set s₁ : Wm := ({ s with tree := t' }).setWindow slot w with hs₁
  have hslot : s₁.windows slot = w := Function.update_self _ _ _
  have hother : ∀ i, i ≠ slot → s₁.windows i = s.windows i := fun i hi => Function.update_of_ne hi _ _
  have hopen : ∀ i, s₁.Open i ↔ s.Open i := by
    intro i
    by_cases hi : i = slot
    · subst hi
      exact iff_of_false (fun hc => by rw [Open, hslot, hu] at hc; cases hc.2) hfree
    · simp [Open, hother i hi]
  have hwin : windowsOf o' = windowsOf o := by
    have hof : ∀ x : Option Layout, windowsOf x = ((x.map Tree.forget).map Tree.leaves).getD 0 := by
      intro x
      cases x with
      | none => rfl
      | some T => exact T.leaves_forget.symm
    rw [hof, hof, hshape]
  have hpanes : ∀ rect, panesOf o' rect = panesOf o rect := by
    have hof : ∀ (x : Option Layout) rect, panesOf x rect = ((x.map Tree.forget).map (panes · rect)).getD [] := by
      intro x rect
      cases x <;> rfl
    intro rect
    rw [hof, hof, hshape]
  refine ⟨⟨H, hwin ▸ h.nodup, fun i => ?_, fun i hi => ?_, ?_⟩, fun v hv => ?_⟩
  · rw [hopen, hwin, h.open_iff]
  · have hne : i ≠ slot := fun he => hfree (he ▸ (hopen i).1 hi)
    rw [hother i hne]
    exact h.ids i ((hopen i).1 hi)
  · show (s.focused = -1 ∧ _) ∨ s₁.Open s.focused
    rw [hopen]
    exact h.focus.imp_left fun hc => ⟨hc.1, fun i hi => hc.2 i ((hopen i).1 hi)⟩
  · have hv' : v ∈ panesOf o s.screen := hpanes s.screen ▸ hv
    have hmem : v.1 ∈ windowsOf o := by
      cases o with
      | none => cases hv'
      | some T =>
        rw [windowsOf, ← panes_windows T s.screen]
        exact Multiset.mem_coe.2 (mem_map_of_mem hv')
    have hne : v.1 ≠ slot := fun he => hfree (he ▸ (h.open_iff _).2 hmem)
    rw [hother _ hne]
    exact hp v hv'

theorem nextFocus_cases (windows : ℤ → Window)
    (hids : ∀ i, InTable i → (windows i).inUse = true → (windows i).windowId = i) :
    (nextFocus windows = -1 ∧ ∀ i, InTable i → (windows i).inUse = false) ∨
      InTable (nextFocus windows) ∧ (windows (nextFocus windows)).inUse = true := by
  unfold nextFocus
  cases hf : (List.range maxWindows).find? fun i : ℕ => (windows i).inUse with
  | none =>
    refine .inl ⟨rfl, fun i hi => ?_⟩
    obtain ⟨n, rfl⟩ := Int.eq_ofNat_of_zero_le hi.1
    simpa using List.find?_eq_none.1 hf n (List.mem_range.2 (Int.ofNat_lt.1 hi.2))
  | some n =>
    have hin : InTable (n : ℤ) :=
      ⟨Int.natCast_nonneg _, Int.ofNat_lt.2 (List.mem_range.1 (mem_of_find?_eq_some hf))⟩
    have hu : (windows n).inUse = true := by simpa using find?_some hf
    simp only [hids n hin hu]
    exact .inr ⟨hin, hu⟩

/-- an open window was closed -/
theorem Tabled.closed (h : Tabled s o) {w : ℤ} (hw : s.Open w) :
    ∃ o', Tabled ({ ({ s with tree := (bspRemove s.tree (bspFind s.tree w)).2 }).setWindow w
        { s.windows w with inUse := false } with
      focused := if s.focused = w then
        nextFocus (({ s with tree := (bspRemove s.tree (bspFind s.tree w)).2 }).setWindow w
          { s.windows w with inUse := false }).windows else s.focused }) o' := by
  obtain ⟨hv, hwin⟩ := bspFind_mem h.held ((h.open_iff w).1 hw)
  rcases bspRemove_cases h.held (bspFind s.tree w) with ⟨hinv, -⟩ | ⟨-, -, o', H, hleaves, -⟩
  · rw [hv] at hinv
    cases hinv
  rw [hwin] at hleaves
  have hnodup : w ∉ windowsOf o' ∧ (windowsOf o').Nodup := Multiset.nodup_cons.1 (hleaves ▸ h.nodup)
  set c : Wm := ({ s with tree := (bspRemove s.tree (bspFind s.tree w)).2 }).setWindow w
    { s.windows w with inUse := false } with hc
  have hself : (c.windows w).inUse = false := by
    rw [hc, setWindow_self]
  have hother : ∀ i, i ≠ w → c.windows i = s.windows i := fun i hi => Function.update_of_ne hi _ _
  have hopen : ∀ i, c.Open i ↔ i ≠ w ∧ s.Open i := by
    intro i
    by_cases hi : i = w
    · subst hi
      simp [Open, hself]
    · simp [Open, hother i hi, hi]
  have hids : ∀ i, c.Open i → (c.windows i).windowId = i := by
    intro i hi
    rw [hother i ((hopen i).1 hi).1]
    exact h.ids i ((hopen i).1 hi).2
  refine ⟨o', H, hnodup.2, fun i => ?_, hids, ?_⟩
  · show c.Open i ↔ _
    rw [hopen, h.open_iff, hleaves, Multiset.mem_cons]
    constructor
    · rintro ⟨hne, hi⟩
      exact hi.resolve_left hne
    · intro hi
      exact ⟨fun he => hnodup.1 (he ▸ hi), .inr hi⟩
  · show ((if s.focused = w then nextFocus c.windows else s.focused) = -1 ∧ ∀ i, ¬ c.Open i) ∨
      c.Open (if s.focused = w then nextFocus c.windows else s.focused)
    split_ifs with hf
    · refine (nextFocus_cases c.windows fun i hi hu => hids i ⟨hi, hu⟩).imp (fun hc' => ⟨hc'.1, fun i hi => ?_⟩) id
      rw [Open, hc'.2 i hi.1] at hi
      cases hi.2
    · rcases h.focus with ⟨-, hnone⟩ | hfo
      · exact absurd hw (hnone w)
      · exact .inr ((hopen _).2 ⟨hf, hfo⟩)

/-! ## Runs -/

/-- open windows, focus and the shape of the tree are the same -/
structure Untouched (s s' : Wm) : Prop where
  focused : s'.focused = s.focused
  inUse : ∀ i, (s'.windows i).inUse = (s.windows i).inUse
  windows : ∀ i, s.Open i → s'.windows i = s.windows i
  shape : ∃ o o', Holding s.tree o ∧ Holding s'.tree o' ∧ o'.map Tree.forget = o.map Tree.forget

/-- `wm_open_window`: all windows are open, or the task was not created, or one more window is open -/
theorem wmOpenWindow_cases (h : Tabled s o) (hp : Placed s o) (entry : Option ℤ) (name : List UInt8) :
    (wmOpenWindow s entry name = (-1, s) ∧ ∀ i, InTable i → (s.windows i).inUse = true) ∨
    ((∃ taskId < 0, entry = some taskId) ∧ (wmOpenWindow s entry name).1 = -1 ∧
      Untouched s (wmOpenWindow s entry name).2 ∧
      ∃ o', Tabled (wmOpenWindow s entry name).2 o' ∧ Placed (wmOpenWindow s entry name).2 o') ∨
    (0 ≤ (wmOpenWindow s entry name).1 ∧
      ∃ o', Tabled (wmOpenWindow s entry name).2 o' ∧ Placed (wmOpenWindow s entry name).2 o') := by
  unfold wmOpenWindow
  cases hf : firstFree fun i : Fin maxWindows => (s.windows (i : ℕ)).inUse with
  | none =>
    refine .inl ⟨rfl, fun i hi => ?_⟩
    obtain ⟨n, rfl⟩ := Int.eq_ofNat_of_zero_le hi.1
    exact firstFree_eq_none.1 hf ⟨n, Int.ofNat_lt.1 hi.2⟩
  | some i =>
    refine .inr ?_
    have hin : InTable ((i : ℕ) : ℤ) := ⟨Int.natCast_nonneg _, Int.ofNat_lt.2 i.isLt⟩
    have hslot : (s.windows (i : ℕ)).inUse = false := firstFree_free hf
    dsimp only
    generalize ((i : ℕ) : ℤ) = slot at hin hslot ⊢
    have hfree : ¬ s.Open slot := fun hc => by rw [Open, hslot] at hc; cases hc.2
    have htarget := h.target
    generalize (if s.focused ≠ -1 ∧ (s.windows s.focused).inUse = true then bspFind s.tree s.focused else -1) = target
      at htarget ⊢
    generalize (if s.focused ≠ -1 ∧ (s.windows s.focused).inUse = true then (s.windows s.focused).rect
      else s.screen) = rect
    obtain ⟨hpos, ⟨T', H', hleaves⟩, o', Hu, hshape⟩ := insert_undo h.held htarget h.room rect slot
    generalize bspInsertAuto s.tree target rect slot = r at hpos H' Hu ⊢
    rw [if_neg (not_lt.2 hpos)]
    cases entry with
    | none =>
      exact .inr ⟨hin.1, _, (h.opened hin hfree H' hleaves rfl rfl).relayout⟩
    | some taskId =>
      by_cases ht : taskId < 0
      · simp only [if_pos ht]
        left
        have hundo := h.undone hp hfree Hu hshape
          (w := { s.windows slot with inUse := false, windowId := slot, taskId := -1, name := name.take 15 }) rfl
        have hsame : ∀ (t' : BspTree) (w w' : Window),
            { ({ s with tree := r.2 }).setWindow slot w with tree := t' }.setWindow slot w' =
              ({ s with tree := t' }).setWindow slot w' := by
          intro t' w w'
          simp [setWindow]
        rw [hsame, setWindow_self]
        refine ⟨⟨taskId, ht, rfl⟩, trivial, ⟨rfl, fun j => ?_, fun j hj => ?_, o, o', h.held, Hu, hshape⟩, o', hundo⟩
        · by_cases hj : j = slot
          · rw [hj, setWindow_self, hslot]
          · rw [setWindow_of_ne hj]
        · have hne : j ≠ slot := fun he => hfree (he ▸ hj)
          rw [setWindow_of_ne hne]
      · simp only [if_neg ht]
        right
        have hopened := h.opened hin hfree H' hleaves
          (w := { s.windows slot with inUse := true, windowId := slot, taskId := taskId, name := name.take 15 }) rfl rfl
        have hsame : ∀ w w' : Window, (({ s with tree := r.2 }).setWindow slot w).setWindow slot w' =
            ({ s with tree := r.2 }).setWindow slot w' := by
          intro w w'
          simp [setWindow]
        rw [hsame, setWindow_self]
        exact ⟨hin.1, _, hopened.relayout⟩

theorem wmCloseWindow_cases (h : Tabled s o) (hp : Placed s o) (w : ℤ) :
    ∃ o', Tabled (wmCloseWindow s w).2 o' ∧ Placed (wmCloseWindow s w).2 o' := by
  unfold wmCloseWindow
  by_cases hw : s.Open w
  · obtain ⟨o', hclosed⟩ := h.closed hw
    have hvalid := (bspFind_mem h.held ((h.open_iff w).1 hw)).1
    have hne : bspFind s.tree w ≠ -1 := by
      intro he
      simp only [validLeaf, Bool.and_eq_true, decide_eq_true_eq] at hvalid
      exact absurd (he ▸ hvalid.1.1.1) (by decide)
    simp only [hw, not_true_eq_false, if_false, ne_eq, hne, not_false_eq_true, if_true]
    exact ⟨o', hclosed.relayout⟩
  · rw [if_pos hw]
    exact ⟨o, h, hp⟩

inductive WmOp where
  | openWindow (entry : Option ℤ) (name : List UInt8)
  | closeWindow (windowId : ℤ)

def step (s : Wm) : WmOp → ℤ × Wm
  | .openWindow entry name => wmOpenWindow s entry name
  | .closeWindow windowId => wmCloseWindow s windowId

/-- what holds of table and tree after every run -/
structure InStep (s : Wm) : Prop where
  /-- the open windows are the windows at the leaves, each at one leaf -/
  leaves : (leafWindows s.tree).Nodup ∧ ∀ i, i ∈ leafWindows s.tree ↔ s.Open i
  focus : (s.focused = -1 ↔ ∀ i, ¬ s.Open i) ∧ (s.focused ≠ -1 → s.Open s.focused)
  /-- `bsp_layout` visits the leaf of every open window, with the window's rectangle -/
  rects : ∀ i, s.Open i → ∃ leaf, validLeaf s.tree leaf = true ∧ (s.tree.nodes leaf).windowId = i ∧
    (leaf, i, (s.windows i).rect) ∈ bspLayout s.tree s.screen
  openFails : ∀ entry name, (wmOpenWindow s entry name).1 = -1 →
    ((∀ i, InTable i → s.Open i) ∨ ∃ taskId < 0, entry = some taskId) ∧ Untouched s (wmOpenWindow s entry name).2

theorem windowsOf_eq {t : BspTree} (H : Holding t o) : leafWindows t = windowsOf o := by
  cases o with
  | none => exact leafWindows_none H
  | some T => exact H.leafWindows_eq

theorem Tabled.inStep (h : Tabled s o) (hp : Placed s o) : InStep s := by
  have hneg : ¬ s.Open (-1) := fun hc => absurd hc.1.1 (by decide)
  refine ⟨?_, ⟨⟨fun hf => ?_, fun hnone => ?_⟩, fun hf => ?_⟩, fun i hi => ?_, fun entry name hres => ?_⟩
  · rw [windowsOf_eq h.held]
    exact ⟨h.nodup, fun i => (h.open_iff i).symm⟩
  · exact (h.focus.resolve_right fun hc => hneg (hf ▸ hc)).2
  · exact (h.focus.resolve_right (hnone _)).1
  · exact h.focus.resolve_left fun hc => hf hc.1
  · -- the window is at a leaf, so it is visited
    have hvisit : ∃ v ∈ bspLayout s.tree s.screen, v.2.1 = i := by
      have hmem : i ∈ (panesOf o s.screen).map Prod.fst := by
        have hi' := (h.open_iff i).1 hi
        cases o with
        | none => exact absurd hi' (Multiset.notMem_zero i)
        | some T =>
          rw [windowsOf, ← panes_windows T s.screen] at hi'
          exact Multiset.mem_coe.1 hi'
      rw [← bspLayout_panes h.held, map_map] at hmem
      exact List.mem_map.1 hmem
    obtain ⟨v, hv, rfl⟩ := hvisit
    obtain ⟨hvalid, hwin⟩ := bspLayout_leaf h.held s.screen v hv
    refine ⟨v.1, hvalid, hwin, ?_⟩
    rw [hp v.2 (by rw [← bspLayout_panes h.held]; exact mem_map_of_mem hv)]
    exact hv
  · rcases wmOpenWindow_cases h hp entry name with ⟨hrun, hall⟩ | ⟨htask, -, huntouched, -⟩ | ⟨hpos, -⟩
    · rw [hrun]
      exact ⟨.inl fun i hi => ⟨hi, hall i hi⟩, rfl, fun _ => rfl, fun _ _ => rfl, o, o, h.held, h.held, rfl⟩
    · exact ⟨.inr htask, huntouched⟩
    · omega

theorem tabled_init (windows : ℤ → Window) (dir : ℤ → SplitDir) (width height : ℤ) :
    Tabled (wmInit windows dir width height) none ∧ Placed (wmInit windows dir width height) none := by
  have hnone : ∀ i, ¬ (wmInit windows dir width height).Open i := fun i hi => by cases hi.2
  exact ⟨⟨⟨rfl, fun _ => cells_eq_none rfl⟩, Multiset.nodup_zero,
    fun i => iff_of_false (hnone i) (Multiset.notMem_zero i), fun i hi => absurd hi (hnone i), .inl ⟨rfl, hnone⟩⟩,
    fun v hv => absurd hv not_mem_nil⟩

theorem step_tabled (s : Wm) (op : WmOp) (h : ∃ o, Tabled s o ∧ Placed s o) :
    ∃ o, Tabled (step s op).2 o ∧ Placed (step s op).2 o := by
  obtain ⟨o, ht, hp⟩ := h
  cases op with
  | openWindow entry name =>
    rcases wmOpenWindow_cases ht hp entry name with ⟨hrun, -⟩ | ⟨-, -, -, hres⟩ | ⟨-, hres⟩
    · show ∃ o, Tabled (wmOpenWindow s entry name).2 o ∧ Placed (wmOpenWindow s entry name).2 o
      rw [hrun]
      exact ⟨o, ht, hp⟩
    · exact hres
    · exact hres
  | closeWindow w => exact wmCloseWindow_cases ht hp w

/-- **Window table and layout tree stay in step**, after `wm_init` and every sequence of calls. -/
theorem wm_in_step (windows : ℤ → Window) (dir : ℤ → SplitDir) (width height : ℤ) (ops : List WmOp) :
    InStep (runOps step (wmInit windows dir width height) ops) := by
  obtain ⟨tr, htr⟩ : ∃ tr, Run step (fun _ _ => True) (wmInit windows dir width height) tr
      (runOps step (wmInit windows dir width height) ops) := Run.of_forall ops fun _ _ _ => trivial
  obtain ⟨o, ht, hp⟩ := htr.invariant (I := fun s => ∃ o, Tabled s o ∧ Placed s o) (fun s op hs _ => step_tabled s op hs)
    ⟨none, tabled_init windows dir width height⟩
  exact ht.inStep hp

end Wm

end GannetOS.Ui
