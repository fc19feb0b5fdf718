/-
Drawing in a window, `win_fillrect` and `win_putpixel` of `kernel/ui/window.c`, over the back buffer.

A rectangle is clipped along each axis by itself (`Axis`): what should be drawn is the part of the requested interval that is
in the window (`wanted`); what is drawn starts and ends at sums of `int` that may wrap around (`drawn`). The two differ in
two ways. An interval that reaches into the window and ends beyond 2^31 - 1 is lost (`Lost`); an interval with a negative
extent that wraps around is drawn (`Stray`).

- `winFillrect_eq`: `win_fillrect` paints the product of what is drawn along the axes;
- `winPutpixel_eq`: `win_putpixel` paints its point if that is in the window, and else nothing;
- `win_drawing_clipped`: when the pixels that `win_fillrect` changes are those of the intersection;
- `fillrect_wraps`: a rectangle that is lost, and one that is drawn with a negative width.

The rectangle of the window is on the screen (`OnScreen`), and the screen is a mode of the display (`FbInfo.Screen`).
-/
import GannetOS.Ui.Framebuffer
import GannetOS.Ui.Tiling

namespace GannetOS.Ui

/-! ## The code -/

def winFillrect (fb : FbInfo) (win : Option Window) (x y w h : Int32) (color : UInt32) (mem : ℕ → UInt8) : ℕ → UInt8 :=
  match win with
  | none => mem
  | some win =>
    let x0 := Int32.ofInt win.rect.x + x
    let y0 := Int32.ofInt win.rect.y + y
    let x1 := x0 + w
    let y1 := y0 + h
    let cx0 := Int32.ofInt win.rect.x
    let cy0 := Int32.ofInt win.rect.y
    let cx1 := Int32.ofInt win.rect.x + Int32.ofInt win.rect.w
    let cy1 := Int32.ofInt win.rect.y + Int32.ofInt win.rect.h
    let x0 := if x0 < cx0 then cx0 else x0
    let y0 := if y0 < cy0 then cy0 else y0
    let x1 := if x1 > cx1 then cx1 else x1
    let y1 := if y1 > cy1 then cy1 else y1
    if x1 ≤ x0 ∨ y1 ≤ y0 then mem
    else fb.fbFillrect x0.toUInt32 y0.toUInt32 (x1 - x0).toUInt32 (y1 - y0).toUInt32 color mem

def winPutpixel (fb : FbInfo) (win : Option Window) (x y : Int32) (color : UInt32) (mem : ℕ → UInt8) : ℕ → UInt8 :=
  match win with
  | none => mem
  | some win =>
    let sx := Int32.ofInt win.rect.x + x
    let sy := Int32.ofInt win.rect.y + y
    if sx < Int32.ofInt win.rect.x ∨ sy < Int32.ofInt win.rect.y ∨
        sx ≥ Int32.ofInt win.rect.x + Int32.ofInt win.rect.w ∨ sy ≥ Int32.ofInt win.rect.y + Int32.ofInt win.rect.h then mem
    else fb.fbPutpixel sx.toUInt32 sy.toUInt32 color mem

/-! ## One axis -/

/-- a window and a requested interval along one axis; the offset is from the window -/
structure Axis where
  origin : ℤ
  size : ℤ
  offset : ℤ
  extent : ℤ

namespace Axis

/-- the window is on the screen, the request is of two `int` -/
structure Valid (a : Axis) : Prop where
  origin_nonneg : 0 ≤ a.origin
  size_nonneg : 0 ≤ a.size
  stop_lt : a.origin + a.size < 2 ^ 31
  offset_ge : -2 ^ 31 ≤ a.offset
  offset_lt : a.offset < 2 ^ 31
  extent_ge : -2 ^ 31 ≤ a.extent
  extent_lt : a.extent < 2 ^ 31

/-- the part of the requested interval that is in the window -/
def wanted (a : Axis) : Set ℤ :=
  Set.Ico a.origin (a.origin + a.size) ∩ Set.Ico (a.origin + a.offset) (a.origin + a.offset + a.extent)

/-- the interval that the code gets -/
def drawn (a : Axis) : Set ℤ :=
  Set.Ico (max a.origin ((a.origin + a.offset).bmod (2 ^ 32)))
    (min (a.origin + a.size) ((a.origin + a.offset + a.extent).bmod (2 ^ 32)))

/-- the requested interval reaches into the window -/
def Meets (a : Axis) : Prop := max 0 a.offset < min a.size (a.offset + a.extent)

/-- its end wraps around -/
def Lost (a : Axis) : Prop := a.Meets ∧ 2 ^ 31 ≤ a.origin + a.offset + a.extent

/-- an interval with a negative extent: its start wraps around and its end does not, or its end wraps around -/
def Stray (a : Axis) : Prop :=
  0 < a.size ∧
    (2 ^ 31 ≤ a.origin + a.offset ∧ a.origin + a.offset + a.extent < 2 ^ 31 ∧ 0 < a.offset + a.extent ∨
      a.origin + a.offset + a.extent < -2 ^ 31 ∧ -2 ^ 32 < a.offset + a.extent)

/-- the interval is neither lost nor drawn astray -/
def Right (a : Axis) : Prop := ¬ a.Lost ∧ ¬ a.Stray

/-- something is drawn -/
def Draws (a : Axis) : Prop := a.Meets ∧ ¬ a.Lost ∨ a.Stray

instance (a : Axis) : Decidable a.Meets := inferInstanceAs (Decidable (_ < _))
instance (a : Axis) : Decidable a.Lost := inferInstanceAs (Decidable (_ ∧ _))
instance (a : Axis) : Decidable a.Stray := inferInstanceAs (Decidable (_ ∧ _))
instance (a : Axis) : Decidable a.Right := inferInstanceAs (Decidable (_ ∧ _))
instance (a : Axis) : Decidable a.Draws := inferInstanceAs (Decidable (_ ∨ _))

variable {a : Axis}

theorem wanted_eq (a : Axis) :
    a.wanted = Set.Ico (max a.origin (a.origin + a.offset)) (min (a.origin + a.size) (a.origin + a.offset + a.extent)) :=
  Set.Ico_inter_Ico

theorem wanted_eq_empty_iff : a.wanted = ∅ ↔ ¬ a.Meets := by
  rw [wanted_eq, Set.Ico_eq_empty_iff, Meets]
  omega

theorem drawn_eq_empty_iff (h : a.Valid) : a.drawn = ∅ ↔ ¬ a.Draws := by
  obtain ⟨h₁, h₂, h₃, h₄, h₅, h₆, h₇⟩ := h
  rw [drawn, Set.Ico_eq_empty_iff, Int.bmod_def, Int.bmod_def]
  unfold Draws Stray Lost Meets
  split_ifs <;> omega

theorem drawn_eq_of_right (h : a.Valid) (hright : a.Right) : a.drawn = a.wanted := by
  obtain ⟨h₁, h₂, h₃, h₄, h₅, h₆, h₇⟩ := h
  ext p
  rw [wanted_eq, drawn, Set.mem_Ico, Set.mem_Ico, Int.bmod_def, Int.bmod_def]
  unfold Right Stray Lost Meets at hright
  split_ifs <;> omega

/-- **When an axis is clipped right.** -/
theorem drawn_eq_iff (h : a.Valid) : a.drawn = a.wanted ↔ a.Right := by
  constructor
  · intro heq
    have hempty : ¬ a.Draws ↔ ¬ a.Meets := by rw [← drawn_eq_empty_iff h, ← wanted_eq_empty_iff, heq]
    obtain ⟨h₁, h₂, h₃, h₄, h₅, h₆, h₇⟩ := h
    unfold Draws Stray Lost Meets at hempty
    unfold Right Stray Lost Meets
    omega
  · exact drawn_eq_of_right h

/-- in particular if no sum leaves `int` -/
theorem right_of_fits (hstart : a.origin + a.offset < 2 ^ 31) (hlo : -2 ^ 31 ≤ a.origin + a.offset + a.extent)
    (hhi : a.origin + a.offset + a.extent < 2 ^ 31) : a.Right := by
  unfold Right Lost Stray
  omega

end Axis

/-- where the code starts along an axis -/
def clipStart (o x : Int32) : Int32 := if o + x < o then o else o + x

/-- where it stops -/
def clipStop (o n x w : Int32) : Int32 := if o + x + w > o + n then o + n else o + x + w

theorem toInt_clipStart (o x : Int32) : (clipStart o x).toInt = max o.toInt ((o.toInt + x.toInt).bmod (2 ^ 32)) := by
  have hsum := Int32.toInt_add o x
  unfold clipStart
  split_ifs with h
  · rw [Int32.lt_iff_toInt_lt, hsum] at h
    rw [max_eq_left h.le]
  · rw [Int32.lt_iff_toInt_lt, hsum] at h
    rw [hsum, max_eq_right (not_lt.1 h)]

theorem toInt_clipStop (o n x w : Int32) :
    (clipStop o n x w).toInt = min (o + n).toInt ((o.toInt + x.toInt + w.toInt).bmod (2 ^ 32)) := by
  have hsum : (o + x + w).toInt = (o.toInt + x.toInt + w.toInt).bmod (2 ^ 32) := by
    rw [Int32.toInt_add, Int32.toInt_add, Int.bmod_add_bmod]
  unfold clipStop
  split_ifs with h
  · rw [gt_iff_lt, Int32.lt_iff_toInt_lt, hsum] at h
    rw [min_eq_left h.le]
  · rw [gt_iff_lt, Int32.lt_iff_toInt_lt, hsum] at h
    rw [hsum, min_eq_right (not_lt.1 h)]

/-! ## Windows on the screen -/

structure OnScreen (fb : FbInfo) (r : Rect) : Prop where
  x_nonneg : 0 ≤ r.x
  y_nonneg : 0 ≤ r.y
  w_nonneg : 0 ≤ r.w
  h_nonneg : 0 ≤ r.h
  right : r.x + r.w ≤ fb.width.toNat
  bottom : r.y + r.h ≤ fb.height.toNat

/-- the requested rectangle, in unbounded coordinates of the screen -/
def requested (win : Rect) (x y w h : Int32) : Rect := ⟨win.x + x.toInt, win.y + y.toInt, w.toInt, h.toInt⟩

/-- the axes of a request -/
def axisX (win : Rect) (x w : Int32) : Axis := ⟨win.x, win.w, x.toInt, w.toInt⟩
def axisY (win : Rect) (y h : Int32) : Axis := ⟨win.y, win.h, y.toInt, h.toInt⟩

theorem Rect.points_eq_prod (r : Rect) : r.points = Set.Ico r.x (r.x + r.w) ×ˢ Set.Ico r.y (r.y + r.h) := by
  ext p
  rw [Rect.mem_points, Set.mem_prod, Set.mem_Ico, Set.mem_Ico, and_assoc]

theorem points_inter_requested (win : Rect) (x y w h : Int32) :
    win.points ∩ (requested win x y w h).points = (axisX win x w).wanted ×ˢ (axisY win y h).wanted := by
  rw [Rect.points_eq_prod, Rect.points_eq_prod, Set.prod_inter_prod]
  rfl

theorem toNat_toUInt32 {z : Int32} (h : 0 ≤ z.toInt) : (z.toUInt32.toNat : ℤ) = z.toInt := by
  have hcond := BitVec.toInt_eq_toNat_cond z.toBitVec
  have hlt := z.toBitVec.isLt
  have hint : z.toInt = z.toBitVec.toInt := rfl
  have hnat : z.toUInt32.toNat = z.toBitVec.toNat := rfl
  split_ifs at hcond <;> omega

/-- the far edge of a rectangle, in `uint32_t` -/
theorem toUInt32_add_sub (a b : Int32) : a.toUInt32 + (b - a).toUInt32 = b.toUInt32 := by
  rw [← Int32.toUInt32_add, Int32.add_comm, Int32.sub_add_cancel]

theorem toInt_edges {o n : ℤ} (ho : 0 ≤ o) (hn : 0 ≤ n) (hstop : o + n < 2 ^ 31) :
    (Int32.ofInt o).toInt = o ∧ (Int32.ofInt o + Int32.ofInt n).toInt = o + n := by
  have ho' : (Int32.ofInt o).toInt = o := Int32.toInt_ofInt_of_le (by omega) (by omega)
  have hn' : (Int32.ofInt n).toInt = n := Int32.toInt_ofInt_of_le (by omega) (by omega)
  refine ⟨ho', ?_⟩
  rw [Int32.toInt_add, ho', hn']
  exact bmod_eq_self (by omega) hstop

/-- an offset that makes the sum wrap around does not lead into the window -/
theorem toInt_add_inside_iff {o n : ℤ} (ho : 0 ≤ o) (hn : 0 ≤ n) (hstop : o + n < 2 ^ 31) (x : Int32) :
    (o ≤ (Int32.ofInt o + x).toInt ∧ (Int32.ofInt o + x).toInt < o + n ↔ o ≤ o + x.toInt ∧ o + x.toInt < o + n) ∧
    (o ≤ o + x.toInt → o + x.toInt < o + n → (Int32.ofInt o + x).toInt = o + x.toInt) := by
  have hlo := x.le_toInt
  have hhi := x.toInt_lt
  rw [Int32.toInt_add, (toInt_edges ho hn hstop).1]
  refine ⟨?_, fun h₁ h₂ => bmod_eq_self (by omega) (by omega)⟩
  rw [Int.bmod_def]
  split_ifs <;> omega

section
variable {fb : FbInfo} {win : Window} {x y w h : Int32} {color : UInt32} {mem : ℕ → UInt8}

theorem OnScreen.points_subset (hin : OnScreen fb win.rect) : win.rect.points ⊆ fb.screen := by
  obtain ⟨h₁, h₂, -, -, h₃, h₄⟩ := hin
  rintro p ⟨hx, hx', hy, hy'⟩
  exact ⟨⟨by omega, by omega⟩, by omega, by omega⟩

theorem OnScreen.right_lt (hs : fb.Screen) (hin : OnScreen fb win.rect) : win.rect.x + win.rect.w < 2 ^ 31 :=
  lt_of_le_of_lt hin.right (by exact_mod_cast hs.width_lt)

theorem OnScreen.bottom_lt (hs : fb.Screen) (hin : OnScreen fb win.rect) : win.rect.y + win.rect.h < 2 ^ 31 :=
  lt_of_le_of_lt hin.bottom (by exact_mod_cast hs.height_lt)

theorem OnScreen.axisX (hs : fb.Screen) (hin : OnScreen fb win.rect) : (axisX win.rect x w).Valid :=
  ⟨hin.x_nonneg, hin.w_nonneg, hin.right_lt hs, x.le_toInt, x.toInt_lt, w.le_toInt, w.toInt_lt⟩

theorem OnScreen.axisY (hs : fb.Screen) (hin : OnScreen fb win.rect) : (axisY win.rect y h).Valid :=
  ⟨hin.y_nonneg, hin.h_nonneg, hin.bottom_lt hs, y.le_toInt, y.toInt_lt, h.le_toInt, h.toInt_lt⟩

/-- the coordinates of the window are `int`, and so are those of its far edges -/
theorem OnScreen.toInt_x (hs : fb.Screen) (hin : OnScreen fb win.rect) :
    (Int32.ofInt win.rect.x).toInt = win.rect.x ∧
      (Int32.ofInt win.rect.x + Int32.ofInt win.rect.w).toInt = win.rect.x + win.rect.w :=
  toInt_edges hin.x_nonneg hin.w_nonneg (hin.right_lt hs)

theorem OnScreen.toInt_y (hs : fb.Screen) (hin : OnScreen fb win.rect) :
    (Int32.ofInt win.rect.y).toInt = win.rect.y ∧
      (Int32.ofInt win.rect.y + Int32.ofInt win.rect.h).toInt = win.rect.y + win.rect.h :=
  toInt_edges hin.y_nonneg hin.h_nonneg (hin.bottom_lt hs)

theorem drawn_axisX (hs : fb.Screen) (hin : OnScreen fb win.rect) :
    (axisX win.rect x w).drawn = Set.Ico (clipStart (Int32.ofInt win.rect.x) x).toInt
      (clipStop (Int32.ofInt win.rect.x) (Int32.ofInt win.rect.w) x w).toInt := by
  rw [toInt_clipStart, toInt_clipStop, (hin.toInt_x hs).1, (hin.toInt_x hs).2]
  rfl

theorem drawn_axisY (hs : fb.Screen) (hin : OnScreen fb win.rect) :
    (axisY win.rect y h).drawn = Set.Ico (clipStart (Int32.ofInt win.rect.y) y).toInt
      (clipStop (Int32.ofInt win.rect.y) (Int32.ofInt win.rect.h) y h).toInt := by
  rw [toInt_clipStart, toInt_clipStop, (hin.toInt_y hs).1, (hin.toInt_y hs).2]
  rfl

/-- what is drawn is in the window -/
theorem drawn_subset (win : Rect) (x y w h : Int32) :
    (axisX win x w).drawn ×ˢ (axisY win y h).drawn ⊆ win.points := by
  rw [Rect.points_eq_prod]
  exact Set.prod_mono (Set.Ico_subset_Ico (le_max_left _ _) (min_le_left _ _))
    (Set.Ico_subset_Ico (le_max_left _ _) (min_le_left _ _))

/-- **`win_fillrect` paints what is drawn along the axes.** -/
theorem winFillrect_eq (hs : fb.Screen) (hin : OnScreen fb win.rect) :
    winFillrect fb (some win) x y w h color mem =
      fb.paint ((axisX win.rect x w).drawn ×ˢ (axisY win.rect y h).drawn) (fb.pixelBytes (fb.convertColor color)) mem := by
  have hscreen := (drawn_subset win.rect x y w h).trans hin.points_subset
  have hx₀ : 0 ≤ (clipStart (Int32.ofInt win.rect.x) x).toInt := by
    rw [toInt_clipStart, (hin.toInt_x hs).1]
    exact hin.x_nonneg.trans (le_max_left _ _)
  have hy₀ : 0 ≤ (clipStart (Int32.ofInt win.rect.y) y).toInt := by
    rw [toInt_clipStart, (hin.toInt_y hs).1]
    exact hin.y_nonneg.trans (le_max_left _ _)
  rw [drawn_axisX hs hin, drawn_axisY hs hin] at hscreen ⊢
  generalize hX₀ : clipStart (Int32.ofInt win.rect.x) x = x₀ at *
  generalize hY₀ : clipStart (Int32.ofInt win.rect.y) y = y₀ at *
  generalize hX₁ : clipStop (Int32.ofInt win.rect.x) (Int32.ofInt win.rect.w) x w = x₁ at *
  generalize hY₁ : clipStop (Int32.ofInt win.rect.y) (Int32.ofInt win.rect.h) y h = y₁ at *
  have hcode : winFillrect fb (some win) x y w h color mem =
      if x₁ ≤ x₀ ∨ y₁ ≤ y₀ then mem
      else fb.fbFillrect x₀.toUInt32 y₀.toUInt32 (x₁ - x₀).toUInt32 (y₁ - y₀).toUInt32 color mem := by
    rw [← hX₀, ← hY₀, ← hX₁, ← hY₁]
    rfl
  rw [hcode]
  by_cases hnone : x₁ ≤ x₀ ∨ y₁ ≤ y₀
  · rw [if_pos hnone]
    rw [Int32.le_iff_toInt_le, Int32.le_iff_toInt_le] at hnone
    have hempty : Set.Ico x₀.toInt x₁.toInt ×ˢ Set.Ico y₀.toInt y₁.toInt = ∅ := by
      rw [Set.prod_eq_empty_iff]
      exact hnone.imp (fun h => Set.Ico_eq_empty (not_lt.2 h)) fun h => Set.Ico_eq_empty (not_lt.2 h)
    rw [hempty, FbInfo.paint_empty]
  · rw [if_neg hnone]
    rw [Int32.le_iff_toInt_le, Int32.le_iff_toInt_le, not_or, not_le, not_le] at hnone
    rw [FbInfo.fbFillrect_eq hs, toUInt32_add_sub, toUInt32_add_sub, toNat_toUInt32 hx₀, toNat_toUInt32 hy₀,
      toNat_toUInt32 (hx₀.trans hnone.1.le), toNat_toUInt32 (hy₀.trans hnone.2.le), Set.inter_eq_left.2 hscreen]

/-- **`win_putpixel` paints its point if that is in the window.** -/
theorem winPutpixel_eq (hs : fb.Screen) (hin : OnScreen fb win.rect) :
    winPutpixel fb (some win) x y color mem =
      fb.paint (win.rect.points ∩ {(win.rect.x + x.toInt, win.rect.y + y.toInt)}) (fb.pixelBytes (fb.convertColor color))
        mem := by
  obtain ⟨hx, hx₁⟩ := hin.toInt_x hs
  obtain ⟨hy, hy₁⟩ := hin.toInt_y hs
  obtain ⟨hinx, hsx⟩ := toInt_add_inside_iff hin.x_nonneg hin.w_nonneg (hin.right_lt hs) x
  obtain ⟨hiny, hsy⟩ := toInt_add_inside_iff hin.y_nonneg hin.h_nonneg (hin.bottom_lt hs) y
  have hout : Int32.ofInt win.rect.x + x < Int32.ofInt win.rect.x ∨ Int32.ofInt win.rect.y + y < Int32.ofInt win.rect.y ∨
      Int32.ofInt win.rect.x + x ≥ Int32.ofInt win.rect.x + Int32.ofInt win.rect.w ∨
      Int32.ofInt win.rect.y + y ≥ Int32.ofInt win.rect.y + Int32.ofInt win.rect.h ↔
      (win.rect.x + x.toInt, win.rect.y + y.toInt) ∉ win.rect.points := by
    rw [Int32.lt_iff_toInt_lt, Int32.lt_iff_toInt_lt, ge_iff_le, ge_iff_le, Int32.le_iff_toInt_le, Int32.le_iff_toInt_le,
      hx, hx₁, hy, hy₁, Rect.mem_points]
    dsimp only
    omega
  unfold winPutpixel
  dsimp only
  by_cases hpoint : (win.rect.x + x.toInt, win.rect.y + y.toInt) ∈ win.rect.points
  · have hscreen := hin.points_subset hpoint
    obtain ⟨h₁, h₂, h₃, h₄⟩ := id hpoint
    have hx₀ := hsx h₁ h₂
    have hy₀ := hsy h₃ h₄
    rw [if_neg fun h => hout.1 h hpoint, FbInfo.fbPutpixel_eq hs, toNat_toUInt32 (by rw [hx₀]; exact hin.x_nonneg.trans h₁),
      toNat_toUInt32 (by rw [hy₀]; exact hin.y_nonneg.trans h₃), hx₀, hy₀,
      Set.inter_eq_left.2 (Set.singleton_subset_iff.2 hscreen), Set.inter_eq_right.2 (Set.singleton_subset_iff.2 hpoint)]
  · rw [if_pos (hout.2 hpoint), Set.inter_singleton_eq_empty.2 hpoint, FbInfo.paint_empty]

theorem changed_winFillrect (hs : fb.Screen) (hin : OnScreen fb win.rect) :
    fb.changed (winFillrect fb (some win) x y w h color) = (axisX win.rect x w).drawn ×ˢ (axisY win.rect y h).drawn := by
  rw [show winFillrect fb (some win) x y w h color = fb.paint _ _ from funext fun mem => winFillrect_eq hs hin]
  exact FbInfo.changed_paint hs ((drawn_subset win.rect x y w h).trans hin.points_subset)

theorem changed_winPutpixel (hs : fb.Screen) (hin : OnScreen fb win.rect) :
    fb.changed (winPutpixel fb (some win) x y color) =
      win.rect.points ∩ {(win.rect.x + x.toInt, win.rect.y + y.toInt)} := by
  rw [show winPutpixel fb (some win) x y color = fb.paint _ _ from funext fun mem => winPutpixel_eq hs hin]
  exact FbInfo.changed_paint hs (Set.inter_subset_left.trans hin.points_subset)

end

/-- **When drawing is clipped exactly.** For every window on the screen, all `int` arguments and every colour: the pixels
that `win_fillrect` changes are those of the window that are in the requested rectangle, in unbounded coordinates, if and
only if neither axis loses its interval or strays, or if nothing is wanted and nothing drawn. They get the colour and all
other bytes stay. `win_putpixel` changes its point if and only if that is in the window. -/
theorem win_drawing_clipped {fb : FbInfo} (hs : fb.Screen) {win : Window} (hin : OnScreen fb win.rect) (x y w h : Int32)
    (color : UInt32) :
    (fb.changed (winFillrect fb (some win) x y w h color) = win.rect.points ∩ (requested win.rect x y w h).points ↔
      (axisX win.rect x w).Right ∧ (axisY win.rect y h).Right ∨
      (¬ (axisX win.rect x w).Draws ∨ ¬ (axisY win.rect y h).Draws) ∧
        (¬ (axisX win.rect x w).Meets ∨ ¬ (axisY win.rect y h).Meets)) ∧
    (∀ mem, winFillrect fb (some win) x y w h color mem =
      fb.paint (fb.changed (winFillrect fb (some win) x y w h color)) (fb.pixelBytes (fb.convertColor color)) mem) ∧
    fb.changed (winPutpixel fb (some win) x y color) =
      win.rect.points ∩ {(win.rect.x + x.toInt, win.rect.y + y.toInt)} ∧
    (∀ mem, winPutpixel fb (some win) x y color mem =
      fb.paint (fb.changed (winPutpixel fb (some win) x y color)) (fb.pixelBytes (fb.convertColor color)) mem) := by
  rw [changed_winFillrect hs hin, changed_winPutpixel hs hin]
  refine ⟨?_, fun mem => winFillrect_eq hs hin, rfl, fun mem => winPutpixel_eq hs hin⟩
  rw [points_inter_requested, Set.prod_eq_prod_iff, Axis.drawn_eq_iff (hin.axisX hs), Axis.drawn_eq_iff (hin.axisY hs),
    Axis.drawn_eq_empty_iff (hin.axisX hs), Axis.drawn_eq_empty_iff (hin.axisY hs), Axis.wanted_eq_empty_iff,
    Axis.wanted_eq_empty_iff]

/-- 1024 by 768 pixels of 24 bits, the mode that the boot loader asks for -/
def vesa : FbInfo := .fbInit fun i => [0, 1024, 768, 24, 0, 8, 16, 8, 8, 8, 0].getD i 0

theorem vesa_screen : vesa.Screen := ⟨by decide, by decide, by decide, by decide, by decide⟩

/-- a window of two pixels -/
def pane : Window := ⟨true, 0, -1, ⟨10, 0, 2, 1⟩, []⟩

theorem pane_onScreen : OnScreen vesa pane.rect := ⟨by decide, by decide, by decide, by decide, by decide, by decide⟩

theorem clipped_at_edge :
    vesa.changed (winFillrect vesa (some pane) 1 (-3) 100 50 0xFF) =
      pane.rect.points ∩ (requested pane.rect 1 (-3) 100 50).points :=
  (win_drawing_clipped vesa_screen pane_onScreen 1 (-3) 100 50 0xFF).1.2
    (.inl ⟨Axis.right_of_fits (by decide) (by decide) (by decide), Axis.right_of_fits (by decide) (by decide) (by decide)⟩)

/-- **Sums that wrap around.** A rectangle of the largest width from the window's corner covers the window, and nothing is
drawn. A rectangle of width -20 far to the right has no points, and the window is filled: its first byte becomes 255. -/
theorem fillrect_wraps :
    ((10, 0) ∈ pane.rect.points ∩ (requested pane.rect 0 0 2147483647 1).points ∧
      ∀ mem, winFillrect vesa (some pane) 0 0 2147483647 1 0xFFFFFF mem = mem) ∧
    ((requested pane.rect 2147483647 0 (-20) 1).points = ∅ ∧
      winFillrect vesa (some pane) 2147483647 0 (-20) 1 0xFFFFFF (fun _ => 0) 30 = 255) := by
  refine ⟨⟨⟨⟨by decide, by decide, by decide, by decide⟩, by decide, by decide, by decide, by decide⟩, fun mem => ?_⟩,
    Rect.points_eq_empty (by decide), by decide +kernel⟩
  unfold winFillrect
  dsimp only
  exact if_pos (by decide)

end GannetOS.Ui
