/-
The rectangles of `bsp_layout` in `kernel/bsp.c`.

A list of parts tiles a region if the parts lie inside it, no two of them meet, and they cover it (`Tiles`). A region that is
cut in two is tiled by what tiles the halves (`Tiles.append`). A rectangle stands for its points; a split node cuts it in two
since the share of its first child is not negative and not more than there is (`share_fair`).

- `bspLayout_lays`: with unbounded coordinates, the leaves of a tree are visited in order and tile the rectangle;
- `layoutByOf_wrap`: with the 32-bit coordinates of the code, every rectangle is where it should be, modulo 2^32;
- `layout_tiles`: so the visited rectangles tile every root rectangle with its edges within `int`;
- `layout_wraps`: a root rectangle that reaches beyond the last `int`;
- `layout_shares_screen`: the windows tile the screen after every run.
-/
import GannetOS.Ui.Window

namespace GannetOS.Ui

open GannetOS.Core Multiset

/-! ## Tilings -/

section
variable {α : Type*}

/-- the parts lie in the region, do not meet, and cover it -/
structure Tiles (region : Set α) (parts : List (Set α)) : Prop where
  inside : ∀ s ∈ parts, s ⊆ region
  disjoint : parts.Pairwise Disjoint
  cover : ∀ a ∈ region, ∃ s ∈ parts, a ∈ s

theorem tiles_singleton (s : Set α) : Tiles s [s] where
  inside _ hp := (List.mem_singleton.1 hp).subset
  disjoint := List.pairwise_singleton _ _
  cover _ ha := ⟨s, List.mem_singleton_self s, ha⟩

/-- a region cut in two -/
theorem Tiles.append {a b : Set α} {as bs : List (Set α)} (ha : Tiles a as) (hb : Tiles b bs) (hab : Disjoint a b) :
    Tiles (a ∪ b) (as ++ bs) where
  inside s hs := by
    rcases List.mem_append.1 hs with hs | hs
    · exact (ha.inside s hs).trans Set.subset_union_left
    · exact (hb.inside s hs).trans Set.subset_union_right
  disjoint := by
    refine List.pairwise_append.2 ⟨ha.disjoint, hb.disjoint, fun s hs s' hs' => ?_⟩
    exact hab.mono (ha.inside s hs) (hb.inside s' hs')
  cover x hx := by
    rcases hx with hx | hx
    · obtain ⟨s, hs, hxs⟩ := ha.cover x hx
      exact ⟨s, List.mem_append_left _ hs, hxs⟩
    · obtain ⟨s, hs, hxs⟩ := hb.cover x hx
      exact ⟨s, List.mem_append_right _ hs, hxs⟩

/-- every point is in exactly one part -/
theorem Tiles.existsUnique {region : Set α} {parts : List (Set α)} (h : Tiles region parts) {a : α} (ha : a ∈ region) :
    ∃! i : Fin parts.length, a ∈ parts.get i := by
  obtain ⟨s, hs, has⟩ := h.cover a ha
  obtain ⟨i, hi⟩ := List.get_of_mem hs
  rw [← hi] at has
  refine ⟨i, has, fun j hj => ?_⟩
  by_contra hne
  have hpair := List.pairwise_iff_get.1 h.disjoint
  rcases lt_or_gt_of_ne hne with hlt | hgt
  · exact Set.disjoint_left.1 (hpair j i hlt) hj has
  · exact Set.disjoint_left.1 (hpair i j hgt) has hj

end

/-! ## Cutting a rectangle -/

/-- the pixels of a rectangle -/
def Rect.points (r : Rect) : Set (ℤ × ℤ) := {p | r.x ≤ p.1 ∧ p.1 < r.x + r.w ∧ r.y ≤ p.2 ∧ p.2 < r.y + r.h}

variable {r root : Rect} {T : Layout} {t : BspTree}

theorem Rect.mem_points {p : ℤ × ℤ} :
    p ∈ r.points ↔ r.x ≤ p.1 ∧ p.1 < r.x + r.w ∧ r.y ≤ p.2 ∧ p.2 < r.y + r.h := Iff.rfl

/-- the sides are those of a `bsp_rect_t`, and not negative -/
structure Rect.Sized (r : Rect) : Prop where
  w_nonneg : 0 ≤ r.w
  w_lt : r.w < 2 ^ 31
  h_nonneg : 0 ≤ r.h
  h_lt : r.h < 2 ^ 31

theorem toInt_between {q : ℚ} {n : ℤ} (hq : 0 ≤ q) (hlt : q < n + 1) (hn : n < 2 ^ 31) :
    0 ≤ (Binary32.fin q).toInt ∧ (Binary32.fin q).toInt ≤ n := by
  have hlo : 0 ≤ ⌊q⌋ := Int.floor_nonneg.2 hq
  have hhi : ⌊q⌋ ≤ n := Int.floor_le_iff.2 hlt
  unfold Binary32.toInt
  dsimp only
  rw [if_pos hq, if_pos ⟨by omega, by omega⟩]
  exact ⟨hlo, hhi⟩

/-- the first child gets no more than there is -/
theorem share_fair {extent : ℤ} {ratio : Binary32} (hpos : 0 ≤ extent) (hlt : extent < 2 ^ 31) (hratio : RatioOk ratio) :
    0 ≤ share extent ratio ∧ share extent ratio ≤ extent := by
  obtain ⟨x, rfl, hx, hx'⟩ := hratio
  have hext : (0 : ℚ) ≤ extent := by exact_mod_cast hpos
  unfold share
  apply toInt_between _ _ hlt
  · positivity
  · nlinarith

/-- the rectangles of the two children; `fit` is what becomes of a coordinate that is computed -/
def splitBy (fit : ℤ → ℤ) (dir : SplitDir) (ratio : Binary32) (r : Rect) : Rect × Rect :=
  match dir with
  | .vertical =>
    ({ r with w := share r.w ratio }, { r with x := fit (r.x + share r.w ratio), w := r.w - share r.w ratio })
  | .horizontal =>
    ({ r with h := share r.h ratio }, { r with y := fit (r.y + share r.h ratio), h := r.h - share r.h ratio })

/-- with unbounded coordinates, the halves are a tiling of their own -/
theorem splitBy_points (dir : SplitDir) {ratio : Binary32} (hratio : RatioOk ratio) (hr : r.Sized) :
    (splitBy id dir ratio r).1.Sized ∧ (splitBy id dir ratio r).2.Sized ∧
      r.points = (splitBy id dir ratio r).1.points ∪ (splitBy id dir ratio r).2.points ∧
      Disjoint (splitBy id dir ratio r).1.points (splitBy id dir ratio r).2.points := by
  obtain ⟨hw, hw', hh, hh'⟩ := hr
  cases dir with
  | vertical =>
    obtain ⟨hlo, hhi⟩ := share_fair hw hw' hratio
    refine ⟨⟨hlo, by simp only [splitBy]; omega, hh, hh'⟩,
      ⟨by simp only [splitBy]; omega, by simp only [splitBy]; omega, hh, hh'⟩,
      ?_, ?_⟩
    · ext p
      simp only [splitBy, id, Set.mem_union, Rect.mem_points]
      omega
    · rw [Set.disjoint_left]
      intro p
      simp only [splitBy, id, Rect.mem_points]
      omega
  | horizontal =>
    obtain ⟨hlo, hhi⟩ := share_fair hh hh' hratio
    refine ⟨⟨hw, hw', hlo, by simp only [splitBy]; omega⟩,
      ⟨hw, hw', by simp only [splitBy]; omega, by simp only [splitBy]; omega⟩,
      ?_, ?_⟩
    · ext p
      simp only [splitBy, id, Set.mem_union, Rect.mem_points]
      omega
    · rw [Set.disjoint_left]
      intro p
      simp only [splitBy, id, Rect.mem_points]
      omega

/-! ## The leaves in order -/

/-- the leaves with their windows, those of the first child in front -/
def leafOrder : Layout → List (ℤ × ℤ)
  | .leaf k w => [(k, w)]
  | .split _ _ l r => leafOrder l ++ leafOrder r

theorem layoutByOf_leaves (split : SplitDir → Binary32 → Rect → Rect × Rect) (T : Layout) (rect : Rect) :
    (layoutByOf split T rect).map (fun v => (v.1, v.2.1)) = leafOrder T := by
  induction T generalizing rect with
  | leaf k w => rfl
  | split k b l r ihl ihr => rw [layoutByOf, List.map_append, ihl, ihr, leafOrder]

theorem leafOrder_le (T : Layout) : (((leafOrder T).map Prod.fst : List ℤ) : Multiset ℤ) ≤ T.addrs := by
  induction T with
  | leaf k w => exact le_rfl
  | split k b l r ihl ihr =>
    rw [leafOrder, List.map_append, ← coe_add, Tree.addrs]
    exact (add_le_add ihl ihr).trans (le_cons_self _ _)

theorem mem_leafOrder_of_sub {k w : ℤ} (h : Tree.Sub (.leaf k w) T) : (k, w) ∈ leafOrder T := by
  induction h with
  | refl => exact List.mem_singleton_self _
  | left k b r h ih => exact List.mem_append_left _ ih
  | right k b l h ih => exact List.mem_append_right _ ih

/-- the leaves of the tree are the leaves in the pool -/
theorem validLeaf_iff_mem (H : Holding t (some T)) (i : ℤ) :
    validLeaf t i = true ↔ i ∈ (leafOrder T).map Prod.fst := by
  obtain ⟨-, hholds⟩ := H
  constructor
  · intro hv
    have hcell := validLeaf_iff.1 hv
    obtain ⟨u, q, hsub, rfl, hu⟩ := hholds.rep.sub_at ((hholds.exact i).1 (by rw [hcell]; exact Option.some_ne_none _))
    rw [(Tree.Rep.leaf_of_cell hu hcell).1] at hsub
    exact List.mem_map_of_mem (mem_leafOrder_of_sub hsub)
  · intro hmem
    have hleaf := layoutOf_leaf hholds.rep ⟨0, 0, 0, 0⟩
    rw [← layoutByOf_leaves splitRect T ⟨0, 0, 0, 0⟩, ← layoutOf_by, List.map_map] at hmem
    obtain ⟨v, hv, rfl⟩ := List.mem_map.1 hmem
    exact (hleaf v hv).1

/-! ## The layout -/

/-- what the visits of `bsp_layout` should be: one for each leaf, in order, with rectangles that tile the root rectangle -/
structure Lays (t : BspTree) (T : Layout) (root : Rect) (visits : List (ℤ × ℤ × Rect)) : Prop where
  order : visits.map (fun v => (v.1, v.2.1)) = leafOrder T
  once : (visits.map Prod.fst).Nodup
  leaves : ∀ i, validLeaf t i = true ↔ i ∈ visits.map Prod.fst
  sides : ∀ v ∈ visits, 0 ≤ v.2.2.w ∧ 0 ≤ v.2.2.h
  tiles : Tiles root.points (visits.map fun v => v.2.2.points)
  point : ∀ p ∈ root.points, ∃! i : Fin (visits.map fun v => v.2.2.points).length,
    p ∈ (visits.map fun v => v.2.2.points).get i

/-- the rectangles of a tree tile the rectangle it is laid out in -/
theorem tiles_layoutByOf (hratio : ∀ b ∈ T.splits, RatioOk b.2) (hr : r.Sized) :
    (∀ v ∈ layoutByOf (splitBy id) T r, v.2.2.Sized) ∧
      Tiles r.points ((layoutByOf (splitBy id) T r).map fun v => v.2.2.points) := by
  induction T generalizing r with
  | leaf k w =>
    refine ⟨fun v hv => ?_, tiles_singleton r.points⟩
    rw [List.mem_singleton.1 hv]
    exact hr
  | split k b l r' ihl ihr =>
    have hb := hratio b (mem_cons_self _ _)
    obtain ⟨hs₀, hs₁, hunion, hdisjoint⟩ := splitBy_points b.1 hb hr
    obtain ⟨hl, htl⟩ := ihl (fun c hc => hratio c (mem_cons_of_mem (Multiset.mem_add.2 (.inl hc)))) hs₀
    obtain ⟨hr', htr⟩ := ihr (fun c hc => hratio c (mem_cons_of_mem (Multiset.mem_add.2 (.inr hc)))) hs₁
    rw [layoutByOf, List.map_append, hunion]
    refine ⟨fun v hv => ?_, htl.append htr hdisjoint⟩
    exact (List.mem_append.1 hv).elim (hl v) (hr' v)

/-- `bsp_layout` with any way to cut a rectangle in two -/
def bspLayoutBy (split : SplitDir → Binary32 → Rect → Rect × Rect) (t : BspTree) (root : Rect) : List (ℤ × ℤ × Rect) :=
  if t.root = -1 then [] else layoutBy split t maxNodes t.root root

theorem bspLayout_by (t : BspTree) (root : Rect) : bspLayout t root = bspLayoutBy (splitBy id) t root := by
  unfold bspLayout bspLayoutBy
  rw [layoutRecurse_by]
  have hsplit : splitRect = splitBy id := by
    funext dir ratio r
    cases dir <;> rfl
  rw [hsplit]

theorem bspLayoutBy_eq (split : SplitDir → Binary32 → Rect → Rect × Rect) (H : Holding t (some T)) (root : Rect) :
    bspLayoutBy split t root = layoutByOf split T root := by
  unfold bspLayoutBy
  rw [if_neg H.root_ne, H.1, layoutBy_eq split H.2.rep maxNodes H.card_le]

/-- the ratios of a tree are those of the splits in the pool -/
theorem splits_ratioOk {p : ℤ} (hT : Tree.Rep (cells t) p T)
    (hratio : ∀ i, validSplit t i = true → RatioOk (t.nodes i).ratio) : ∀ b ∈ T.splits, RatioOk b.2 := by
  induction T generalizing p with
  | leaf k w => exact fun b hb => absurd hb (notMem_zero b)
  | split k b l r ihl ihr =>
    obtain ⟨hc, hl, hr⟩ := hT
    obtain ⟨hv, -, hb, -, -⟩ := node_of_split hc
    intro c hmem
    rcases Multiset.mem_cons.1 hmem with rfl | hmem
    · rw [← hb]
      exact hratio k hv
    · exact (Multiset.mem_add.1 hmem).elim (ihl hl c) (ihr hr c)

/-- the visits are those of the leaves, however the rectangles are cut -/
theorem visits_leaves (H : Holding t (some T)) (split : SplitDir → Binary32 → Rect → Rect × Rect) (root : Rect) :
    let visits := bspLayoutBy split t root
    visits.map (fun v => (v.1, v.2.1)) = leafOrder T ∧ (visits.map Prod.fst).Nodup ∧
      ∀ i, validLeaf t i = true ↔ i ∈ visits.map Prod.fst := by
  dsimp only
  rw [bspLayoutBy_eq split H]
  have horder := layoutByOf_leaves split T root
  have hfst : ((layoutByOf split T root).map Prod.fst) = (leafOrder T).map Prod.fst := by
    rw [← horder, List.map_map]
    rfl
  refine ⟨horder, ?_, fun i => ?_⟩
  · rw [hfst, ← coe_nodup]
    exact nodup_of_le (leafOrder_le T) H.2.nodup
  · rw [hfst]
    exact validLeaf_iff_mem H i

/-- **With unbounded coordinates the leaves tile the rectangle.** -/
theorem bspLayout_lays (H : Holding t (some T)) (hratio : ∀ i, validSplit t i = true → RatioOk (t.nodes i).ratio)
    (hroot : root.Sized) : Lays t T root (bspLayout t root) := by
  rw [bspLayout_by]
  obtain ⟨horder, honce, hleaves⟩ := visits_leaves H (splitBy id) root
  obtain ⟨hsized, htiles⟩ := tiles_layoutByOf (splits_ratioOk H.2.rep hratio) hroot
  rw [← bspLayoutBy_eq _ H root] at hsized htiles
  exact ⟨horder, honce, hleaves, fun v hv => ⟨(hsized v hv).w_nonneg, (hsized v hv).h_nonneg⟩, htiles,
    fun p hp => htiles.existsUnique hp⟩

/-! ## 32-bit coordinates -/

/-- a rectangle with its corner in an `int` -/
def Rect.wrap (r : Rect) : Rect := { r with x := r.x.bmod (2 ^ 32), y := r.y.bmod (2 ^ 32) }

theorem splitBy_wrap (dir : SplitDir) (ratio : Binary32) (r : Rect) :
    splitBy (Int.bmod · (2 ^ 32)) dir ratio r.wrap =
      ((splitBy id dir ratio r).1.wrap, (splitBy id dir ratio r).2.wrap) := by
  cases dir with
  | vertical => simp [splitBy, Rect.wrap]
  | horizontal => simp [splitBy, Rect.wrap]

/-- **Every rectangle is where it should be, modulo 2^32.** -/
theorem layoutByOf_wrap (T : Layout) (r : Rect) :
    layoutByOf (splitBy (Int.bmod · (2 ^ 32))) T r.wrap =
      (layoutByOf (splitBy id) T r).map fun v => (v.1, v.2.1, v.2.2.wrap) := by
  induction T generalizing r with
  | leaf k w => rfl
  | split k b l r' ihl ihr =>
    rw [layoutByOf, layoutByOf, splitBy_wrap, ihl, ihr, List.map_append]

/-- `bsp_layout` as it is compiled: coordinates are `int` -/
def intLayout (t : BspTree) (root : Rect) : List (ℤ × ℤ × Rect) := bspLayoutBy (splitBy (Int.bmod · (2 ^ 32))) t root

/-- the corner of a `bsp_rect_t` -/
structure Rect.Cornered (r : Rect) : Prop where
  x_ge : -2 ^ 31 ≤ r.x
  x_lt : r.x < 2 ^ 31
  y_ge : -2 ^ 31 ≤ r.y
  y_lt : r.y < 2 ^ 31

theorem bmod_eq_self {x : ℤ} (hlo : -2 ^ 31 ≤ x) (hhi : x < 2 ^ 31) : x.bmod (2 ^ 32) = x :=
  Int.bmod_eq_of_le (by omega) (by omega)

theorem Rect.Cornered.wrap (h : r.Cornered) : r.wrap = r := by
  rw [Rect.wrap, bmod_eq_self h.x_ge h.x_lt, bmod_eq_self h.y_ge h.y_lt]

theorem intLayout_eq (H : Holding t (some T)) (hcorner : root.Cornered) :
    intLayout t root = (bspLayout t root).map fun v => (v.1, v.2.1, v.2.2.wrap) := by
  have hwrap := layoutByOf_wrap T root
  rw [hcorner.wrap] at hwrap
  rw [intLayout, bspLayout_by, bspLayoutBy_eq _ H, bspLayoutBy_eq _ H, hwrap]

/-- a rectangle without points, wherever it is -/
theorem Rect.points_eq_empty (h : ¬ (0 < r.w ∧ 0 < r.h)) : r.points = ∅ := by
  apply Set.eq_empty_of_forall_notMem
  intro p hp
  rw [Rect.mem_points] at hp
  omega

theorem Rect.corner_mem (hw : 0 < r.w) (hh : 0 < r.h) : (r.x, r.y) ∈ r.points := by
  rw [Rect.mem_points]
  dsimp only
  omega

/-- a part of a root rectangle with its edges within `int` stays where it is -/
theorem wrap_points (hcorner : root.Cornered) (hright : root.x + root.w ≤ 2 ^ 31) (hbottom : root.y + root.h ≤ 2 ^ 31)
    (hinside : r.points ⊆ root.points) : r.wrap.points = r.points := by
  by_cases hpoints : 0 < r.w ∧ 0 < r.h
  · have hmem := hinside (Rect.corner_mem hpoints.1 hpoints.2)
    rw [Rect.mem_points] at hmem
    have hcorner' : r.Cornered :=
      ⟨hcorner.x_ge.trans hmem.1, by omega, hcorner.y_ge.trans hmem.2.2.1, by omega⟩
    rw [hcorner'.wrap]
  · rw [Rect.points_eq_empty hpoints, Rect.points_eq_empty (r := r.wrap) hpoints]

/-- the rectangles in `int` tile what those with unbounded coordinates tile -/
theorem intLayout_lays (H : Holding t (some T)) (hratio : ∀ i, validSplit t i = true → RatioOk (t.nodes i).ratio)
    (hsized : root.Sized) (hcorner : root.Cornered) (hright : root.x + root.w ≤ 2 ^ 31)
    (hbottom : root.y + root.h ≤ 2 ^ 31) : Lays t T root (intLayout t root) := by
  have hexact := bspLayout_lays H hratio hsized
  have hint := intLayout_eq H hcorner
  obtain ⟨horder, honce, hleaves⟩ := visits_leaves H (splitBy (Int.bmod · (2 ^ 32))) root
  have hpoints : (bspLayout t root).map (fun v => v.2.2.wrap.points) = (bspLayout t root).map fun v => v.2.2.points :=
    List.map_congr_left fun v hv => wrap_points hcorner hright hbottom
      (hexact.tiles.inside _ (List.mem_map_of_mem (f := fun v : ℤ × ℤ × Rect => v.2.2.points) hv))
  have htiles : Tiles root.points ((intLayout t root).map fun v => v.2.2.points) := by
    rw [hint, List.map_map]
    show Tiles root.points ((bspLayout t root).map fun v => v.2.2.wrap.points)
    rw [hpoints]
    exact hexact.tiles
  refine ⟨horder, honce, hleaves, fun v hv => ?_, htiles, fun p hp => htiles.existsUnique hp⟩
  rw [hint] at hv
  obtain ⟨u, hu, rfl⟩ := List.mem_map.1 hv
  exact hexact.sides u hu

/-- **`bsp_layout` tiles the screen.** For every tree that is not empty, with ratios from 0.1 to 0.9 as exact numbers, and
every `bsp_rect_t` with sides that are not negative: one visit for each leaf, the first child's in front, and rectangles
that tile the root rectangle; with unbounded coordinates always, and with those of the code if its edges are within
`int`. -/
theorem layout_tiles {t : BspTree} {T : Layout} (H : Holding t (some T))
    (hratio : ∀ i, validSplit t i = true → RatioOk (t.nodes i).ratio) {root : Rect} (hsized : root.Sized)
    (hcorner : root.Cornered) :
    Lays t T root (bspLayout t root) ∧
      (root.x + root.w ≤ 2 ^ 31 → root.y + root.h ≤ 2 ^ 31 → Lays t T root (intLayout t root)) :=
  ⟨bspLayout_lays H hratio hsized, intLayout_lays H hratio hsized hcorner⟩

/-- **The windows share the screen.** After every run of `bsp.c`'s operations with no resize by NaN, the rectangles of
`bsp_layout` tile any rectangle with its edges within `int`, one for each window. -/
theorem layout_shares_screen {dir : ℤ → SplitDir} {tr : List (BspOp × ℤ)} {s : Session}
    (h : Run Session.step Session.Numeric (.start dir) tr s) (hopen : s.tree.root ≠ -1) (hsized : root.Sized)
    (hcorner : root.Cornered) (hright : root.x + root.w ≤ 2 ^ 31) (hbottom : root.y + root.h ≤ 2 ^ 31) :
    ∃ T, Holding s.tree (some T) ∧ T.leaves + s.removed = s.inserted ∧ Lays s.tree T root (intLayout s.tree root) := by
  have hgood := h.invariant good_step (good_start dir)
  obtain ⟨o, H, -, hwin⟩ := id hgood
  cases o with
  | none => exact absurd H.1 hopen
  | some T => exact ⟨T, H, hwin, intLayout_lays H hgood.sound.ratios hsized hcorner hright hbottom⟩

/-- three windows, of which one is closed -/
theorem layout_shares_screen_panes : ∃ tr s T root, Run Session.step Session.Numeric (.start fun _ => .vertical) tr s ∧
    s.removed ≠ 0 ∧ Lays s.tree T root (intLayout s.tree root) := by
  obtain ⟨tr, h⟩ := Run.of_allOk (show AllOk Session.step Session.Numeric (.start fun _ => .vertical) somePanes by decide)
  obtain ⟨T, -, -, hlays⟩ := layout_shares_screen h (by decide +kernel)
    (show Rect.Sized ⟨0, 0, 1024, 768⟩ from ⟨by decide, by decide, by decide, by decide⟩)
    ⟨by decide, by decide, by decide, by decide⟩ (by decide) (by decide)
  exact ⟨tr, _, T, _, h, by decide +kernel, hlays⟩

/-- two windows side by side -/
def twoPanes : BspTree :=
  (runOps Session.step (.start fun _ => .vertical) [.insert (-1) .vertical true 7, .insert 0 .vertical true 8]).tree

theorem layout_tiles_screen :
    ∃ T, Holding twoPanes (some T) ∧ Lays twoPanes T ⟨0, 0, 1023, 768⟩ (intLayout twoPanes ⟨0, 0, 1023, 768⟩) := by
  have hgood : Good (runOps Session.step (.start fun _ => .vertical)
      [.insert (-1) .vertical true 7, .insert 0 .vertical true 8]) :=
    good_insert (good_insert (good_start _) (-1) .vertical true 7) 0 .vertical true 8
  obtain ⟨o, H, -, -⟩ := id hgood
  cases o with
  | none => exact absurd H.1 (by decide +kernel)
  | some T =>
    exact ⟨T, H, (layout_tiles H hgood.sound.ratios ⟨by decide, by decide, by decide, by decide⟩
      ⟨by decide, by decide, by decide, by decide⟩).2 (by decide) (by decide)⟩

/-- **A rectangle that reaches beyond the last `int`.** Two windows share a root rectangle of two pixels at x = 2^31 - 1: the
second pixel should be the second window's, which gets the rectangle at x = -2^31. -/
theorem layout_wraps :
    bspLayout twoPanes ⟨2147483647, 0, 2, 1⟩ = [(1, 7, ⟨2147483647, 0, 1, 1⟩), (2, 8, ⟨2147483648, 0, 1, 1⟩)] ∧
    intLayout twoPanes ⟨2147483647, 0, 2, 1⟩ = [(1, 7, ⟨2147483647, 0, 1, 1⟩), (2, 8, ⟨-2147483648, 0, 1, 1⟩)] := by
  decide +kernel

end GannetOS.Ui
