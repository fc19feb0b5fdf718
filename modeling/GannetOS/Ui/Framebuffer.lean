/-
The back buffer of `kernel/ui/fb.c`: `fb_putpixel` and `fb_fillrect` over its bytes.

The buffer is the bytes behind `BACKBUFFER_ADDR`, by offset. A picture is painted on it: every byte of a pixel in the region
gets its byte of the colour, every other byte stays (`paint`). What one operation paints, and then another in the same
colour, is painted at once (`paint_paint`). A screen that fits in the address space behind the buffer (`Screen`) has its
pixels apart, so that each operation is a painting:

- `fbPutpixel_eq`: of one pixel, if it is on the screen;
- `fbFillrect_eq`: of the part of the rectangle that is on the screen; the two loops are followed by `forUp_eq`;
- `changed_paint`: and the pixels that an operation changes are those that it paints.

`fb_clear`, the copy to the screen (`fb_swap`) and the font are left out.
-/
import GannetOS.Core.Loop
import GannetOS.Core.Writes

namespace GannetOS.Ui

open GannetOS.Core

/-! ## The code -/

def backbufferAddr : ℕ := 0x01000000

/-- `fb_info_t` without `phys_base` -/
structure FbInfo where
  width : UInt32
  height : UInt32
  bpp : UInt32
  pitch : UInt32
  redMaskSize : UInt32
  redFieldPos : UInt32
  greenMaskSize : UInt32
  greenFieldPos : UInt32
  blueMaskSize : UInt32
  blueFieldPos : UInt32

namespace FbInfo

/-- `fb_bytes_per_pixel` -/
def bytesPerPixel (fb : FbInfo) : UInt32 := (fb.bpp + 7) / 8

/-- `fb_convert_color` -/
def convertColor (fb : FbInfo) (color : UInt32) : UInt32 :=
  let r := (color >>> 16) &&& 0xFF
  let g := (color >>> 8) &&& 0xFF
  let b := (color >>> 0) &&& 0xFF
  let out := (r >>> (8 - fb.redMaskSize)) <<< fb.redFieldPos
  let out := out ||| ((g >>> (8 - fb.greenMaskSize)) <<< fb.greenFieldPos)
  let out := out ||| ((b >>> (8 - fb.blueMaskSize)) <<< fb.blueFieldPos)
  if fb.bpp = 32 then out ||| 0xFF000000 else out

/-- the bytes of a pixel, the low one first -/
def pixelBytes (fb : FbInfo) (converted : UInt32) : List UInt8 :=
  (List.range fb.bytesPerPixel.toNat).map fun i => (converted >>> UInt32.ofNat (8 * i)).toUInt8

def fbWritePixelAt (fb : FbInfo) (byteOffset converted : UInt32) (mem : ℕ → UInt8) : ℕ → UInt8 :=
  stored (putAt byteOffset.toNat (fb.pixelBytes converted)) mem

def fbPutpixel (fb : FbInfo) (x y color : UInt32) (mem : ℕ → UInt8) : ℕ → UInt8 :=
  if fb.width ≤ x ∨ fb.height ≤ y then mem
  else
    let offset := y * fb.pitch + x * fb.bytesPerPixel
    fb.fbWritePixelAt offset (fb.convertColor color) mem

def fbFillrect (fb : FbInfo) (x y w h color : UInt32) (mem : ℕ → UInt8) : ℕ → UInt8 :=
  let converted := fb.convertColor color
  let bypp := fb.bytesPerPixel
  forUp (y + h) fb.height (fun row mem =>
    let rowOffset := row * fb.pitch
    forUp (x + w) fb.width (fun col mem => fb.fbWritePixelAt (rowOffset + col * bypp) converted mem) fb.width.toNat x mem)
    fb.height.toNat y mem

/-- the `fb_info` of `fb_init`, from the words of the boot loader -/
def fbInit (src : ℕ → UInt32) : FbInfo where
  width := src 1
  height := src 2
  bpp := src 3
  pitch := src 1 * ((src 3 + 7) / 8)
  redMaskSize := src 5
  redFieldPos := src 6
  greenMaskSize := src 7
  greenFieldPos := src 8
  blueMaskSize := src 9
  blueFieldPos := src 10

/-! ## Paintings -/

/-- the pixel that a byte of the buffer belongs to: column, row -/
def pixelOf (fb : FbInfo) (k : ℕ) : ℤ × ℤ :=
  let rowBytes := fb.width.toNat * fb.bytesPerPixel.toNat
  ((k % rowBytes / fb.bytesPerPixel.toNat : ℕ), (k / rowBytes : ℕ))

open Classical in
/-- the buffer with the pixels of a region in one colour, given by its bytes -/
noncomputable def paint (fb : FbInfo) (region : Set (ℤ × ℤ)) (value : List UInt8) (mem : ℕ → UInt8) : ℕ → UInt8 := fun k =>
  if fb.pixelOf k ∈ region then value.getD (k % fb.bytesPerPixel.toNat) 0 else mem k

/-- the pixels of the screen -/
def screen (fb : FbInfo) : Set (ℤ × ℤ) := Set.Ico 0 (fb.width.toNat : ℤ) ×ˢ Set.Ico 0 (fb.height.toNat : ℤ)

/-- a pixel is changed by an operation if the bytes of some buffer are -/
def changed (fb : FbInfo) (op : (ℕ → UInt8) → ℕ → UInt8) : Set (ℤ × ℤ) := {p | ∃ mem k, fb.pixelOf k = p ∧ op mem k ≠ mem k}

variable {fb : FbInfo} {region region' : Set (ℤ × ℤ)} {value : List UInt8} {mem : ℕ → UInt8}

theorem paint_empty : fb.paint ∅ value mem = mem := by
  funext k
  exact if_neg (Set.notMem_empty _)

theorem paint_paint : fb.paint region value (fb.paint region' value mem) = fb.paint (region ∪ region') value mem := by
  funext k
  unfold paint
  by_cases h : fb.pixelOf k ∈ region
  · rw [if_pos h, if_pos (Set.mem_union_left _ h)]
  · rw [if_neg h]
    by_cases h' : fb.pixelOf k ∈ region'
    · rw [if_pos h', if_pos (Set.mem_union_right _ h')]
    · rw [if_neg h', if_neg fun hk => hk.elim h h']

/-- a mode of the display: the pixels have bytes, the sides are not negative as `int`, and the buffer ends in the address
space -/
structure Screen (fb : FbInfo) : Prop where
  pitch_eq : fb.pitch = fb.width * fb.bytesPerPixel
  depth : 0 < fb.bytesPerPixel.toNat
  width_lt : fb.width.toNat < 2 ^ 31
  height_lt : fb.height.toNat < 2 ^ 31
  fits : backbufferAddr + fb.height.toNat * (fb.width.toNat * fb.bytesPerPixel.toNat) ≤ 2 ^ 32

/-- the bytes of a pixel -/
theorem pixelOf_eq_iff (hdepth : 0 < fb.bytesPerPixel.toNat) {col : ℕ} (hcol : col < fb.width.toNat) (row k : ℕ) :
    fb.pixelOf k = ((col : ℤ), (row : ℤ)) ↔
      (row * fb.width.toNat + col) * fb.bytesPerPixel.toNat ≤ k ∧
      k < (row * fb.width.toNat + col) * fb.bytesPerPixel.toNat + fb.bytesPerPixel.toNat := by
  unfold pixelOf
  dsimp only
  generalize fb.bytesPerPixel.toNat = B at *
  generalize fb.width.toNat = W at *
  rw [Prod.mk.injEq, Nat.cast_inj, Nat.cast_inj]
  have hrow : 0 < W * B := Nat.mul_pos (by omega) hdepth
  have hcols : (col + 1) * B ≤ W * B := Nat.mul_le_mul_right B hcol
  rw [Nat.add_mul] at hcols
  rw [Nat.add_mul, Nat.mul_assoc row W B]
  constructor
  · rintro ⟨rfl, rfl⟩
    have h₁ := Nat.div_add_mod k (W * B)
    have h₂ := Nat.div_add_mod (k % (W * B)) B
    have h₃ := Nat.mod_lt (k % (W * B)) hdepth
    rw [Nat.mul_comm] at h₁ h₂
    omega
  · rintro ⟨hlo, hhi⟩
    obtain ⟨r, rfl⟩ := Nat.exists_eq_add_of_le hlo
    have hmod : (row * (W * B) + col * B + r) / (W * B) = row ∧ (row * (W * B) + col * B + r) % (W * B) = col * B + r :=
      (Nat.div_mod_unique hrow).2 ⟨by ring, by omega⟩
    have hdiv : (col * B + r) / B = col ∧ (col * B + r) % B = r := (Nat.div_mod_unique hdepth).2 ⟨by ring, by omega⟩
    exact ⟨by rw [hmod.2, hdiv.1], hmod.1⟩

/-! ## What the operations paint -/

variable {x y w h color : UInt32}

theorem offset_toNat (hs : fb.Screen) {col row : UInt32} (hcol : col.toNat < fb.width.toNat)
    (hrow : row.toNat < fb.height.toNat) :
    (row * fb.pitch + col * fb.bytesPerPixel).toNat =
      (row.toNat * fb.width.toNat + col.toNat) * fb.bytesPerPixel.toNat := by
  have hfits : fb.height.toNat * (fb.width.toNat * fb.bytesPerPixel.toNat) < 2 ^ 32 := by
    have := hs.fits
    rw [backbufferAddr] at this
    omega
  rw [hs.pitch_eq, UInt32.toNat_add, UInt32.toNat_mul, UInt32.toNat_mul, UInt32.toNat_mul, Nat.mul_mod_mod, ← Nat.add_mod,
    Nat.mod_eq_of_lt]
  · ring
  · calc row.toNat * (fb.width.toNat * fb.bytesPerPixel.toNat) + col.toNat * fb.bytesPerPixel.toNat
        ≤ row.toNat * (fb.width.toNat * fb.bytesPerPixel.toNat) + fb.width.toNat * fb.bytesPerPixel.toNat := by gcongr
      _ = (row.toNat + 1) * (fb.width.toNat * fb.bytesPerPixel.toNat) := by ring
      _ ≤ fb.height.toNat * (fb.width.toNat * fb.bytesPerPixel.toNat) := Nat.mul_le_mul_right _ hrow
      _ < 2 ^ 32 := hfits

/-- **A pixel that is written is painted.** -/
theorem fbWritePixelAt_eq (hs : fb.Screen) {col row converted : UInt32} (hcol : col.toNat < fb.width.toNat)
    (hrow : row.toNat < fb.height.toNat) :
    fb.fbWritePixelAt (row * fb.pitch + col * fb.bytesPerPixel) converted mem =
      fb.paint {((col.toNat : ℤ), (row.toNat : ℤ))} (fb.pixelBytes converted) mem := by
  have hlen : (fb.pixelBytes converted).length = fb.bytesPerPixel.toNat := by
    rw [pixelBytes, List.length_map, List.length_range]
  funext k
  rw [fbWritePixelAt, offset_toNat hs hcol hrow, stored_putAt, hlen, paint]
  have hpixel := pixelOf_eq_iff hs.depth hcol row.toNat k
  by_cases hk : fb.pixelOf k = ((col.toNat : ℤ), (row.toNat : ℤ))
  · have hbytes := hpixel.1 hk
    rw [if_pos hbytes, if_pos (Set.mem_singleton_iff.2 hk)]
    -- the byte of the pixel is the rest of the offset
    obtain ⟨r, rfl⟩ := Nat.exists_eq_add_of_le hbytes.1
    rw [Nat.add_sub_cancel_left, Nat.mul_add_mod_of_lt (by omega)]
  · rw [if_neg fun hbytes => hk (hpixel.2 hbytes), if_neg fun hmem => hk (Set.mem_singleton_iff.1 hmem)]

theorem fbPutpixel_eq (hs : fb.Screen) :
    fb.fbPutpixel x y color mem =
      fb.paint ({((x.toNat : ℤ), (y.toNat : ℤ))} ∩ fb.screen) (fb.pixelBytes (fb.convertColor color)) mem := by
  unfold fbPutpixel
  by_cases hout : fb.width ≤ x ∨ fb.height ≤ y
  · rw [if_pos hout]
    rw [UInt32.le_iff_toNat_le, UInt32.le_iff_toNat_le] at hout
    have hempty : {((x.toNat : ℤ), (y.toNat : ℤ))} ∩ fb.screen = ∅ := by
      rw [Set.singleton_inter_eq_empty]
      rintro ⟨⟨-, hx⟩, -, hy⟩
      dsimp only at hx hy
      omega
    rw [hempty, paint_empty]
  · rw [if_neg hout]
    rw [UInt32.le_iff_toNat_le, UInt32.le_iff_toNat_le] at hout
    have hin : {((x.toNat : ℤ), (y.toNat : ℤ))} ∩ fb.screen = {((x.toNat : ℤ), (y.toNat : ℤ))} := by
      rw [Set.inter_eq_left, Set.singleton_subset_iff]
      refine ⟨⟨?_, ?_⟩, ?_, ?_⟩ <;> dsimp only <;> omega
    rw [hin]
    exact fbWritePixelAt_eq hs (by omega) (by omega)

/-- the inner loop: a part of a row -/
theorem fillRow_eq (hs : fb.Screen) {row stop converted : UInt32} (hrow : row.toNat < fb.height.toNat) :
    forUp stop fb.width (fun col mem => fb.fbWritePixelAt (row * fb.pitch + col * fb.bytesPerPixel) converted mem)
        fb.width.toNat x mem =
      fb.paint (Set.Ico (x.toNat : ℤ) (min stop.toNat fb.width.toNat : ℕ) ×ˢ {(row.toNat : ℤ)}) (fb.pixelBytes converted)
        mem := by
  refine (forUp_eq (fun n => fb.paint (Set.Ico (x.toNat : ℤ) n ×ˢ {(row.toNat : ℤ)}) (fb.pixelBytes converted) mem)
    (Nat.sub_le _ _) ?_ ?_).trans ?_
  · rw [Set.Ico_self, Set.empty_prod, paint_empty]
  · intro col hlo _ hcol
    rw [fbWritePixelAt_eq hs hcol hrow, paint_paint]
    congr 1
    ext p
    simp only [Set.mem_union, Set.mem_singleton_iff, Set.mem_prod, Set.mem_Ico, Prod.ext_iff]
    omega
  · congr 2
    ext p
    simp only [Set.mem_Ico]
    omega

/-- both loops -/
theorem fillRows_eq (hs : fb.Screen) {xstop ystop converted : UInt32} :
    forUp ystop fb.height (fun row mem =>
        forUp xstop fb.width (fun col mem => fb.fbWritePixelAt (row * fb.pitch + col * fb.bytesPerPixel) converted mem)
          fb.width.toNat x mem) fb.height.toNat y mem =
      fb.paint (Set.Ico (x.toNat : ℤ) (min xstop.toNat fb.width.toNat : ℕ) ×ˢ
        Set.Ico (y.toNat : ℤ) (min ystop.toNat fb.height.toNat : ℕ)) (fb.pixelBytes converted) mem := by
  refine (forUp_eq (fun n => fb.paint (Set.Ico (x.toNat : ℤ) (min xstop.toNat fb.width.toNat : ℕ) ×ˢ
    Set.Ico (y.toNat : ℤ) n) (fb.pixelBytes converted) mem) (Nat.sub_le _ _) ?_ ?_).trans ?_
  · rw [Set.Ico_self, Set.prod_empty, paint_empty]
  · intro row hlo _ hrow
    rw [fillRow_eq hs hrow, paint_paint]
    congr 1
    ext p
    simp only [Set.mem_union, Set.mem_singleton_iff, Set.mem_prod, Set.mem_Ico]
    omega
  · congr 2
    ext p
    simp only [Set.mem_Ico]
    omega

/-- **`fb_fillrect` paints the part of the rectangle that is on the screen.** Its far edges wrap around like `uint32_t`. -/
theorem fbFillrect_eq (hs : fb.Screen) :
    fb.fbFillrect x y w h color mem =
      fb.paint ((Set.Ico (x.toNat : ℤ) (x + w).toNat ×ˢ Set.Ico (y.toNat : ℤ) (y + h).toNat) ∩ fb.screen)
        (fb.pixelBytes (fb.convertColor color)) mem := by
  rw [fbFillrect, fillRows_eq hs]
  congr 1
  ext p
  simp only [screen, Set.mem_inter_iff, Set.mem_prod, Set.mem_Ico]
  omega

/-! ## Changed pixels -/

/-- **A painting changes its region.** -/
theorem changed_paint (hs : fb.Screen) (hregion : region ⊆ fb.screen) : fb.changed (fb.paint region value) = region := by
  ext p
  constructor
  · rintro ⟨mem, k, rfl, hk⟩
    by_contra hout
    exact hk (if_neg hout)
  · intro hp
    obtain ⟨⟨hx, hx'⟩, hy, hy'⟩ := hregion hp
    obtain ⟨col, hcol⟩ := Int.eq_ofNat_of_zero_le hx
    obtain ⟨row, hrow⟩ := Int.eq_ofNat_of_zero_le hy
    -- the first byte of the pixel, in a buffer that has another value there
    have hpixel : fb.pixelOf ((row * fb.width.toNat + col) * fb.bytesPerPixel.toNat) = p := by
      have hlt : col < fb.width.toNat := by omega
      rw [(pixelOf_eq_iff hs.depth hlt row _).2 ⟨le_rfl, Nat.lt_add_of_pos_right hs.depth⟩]
      exact Prod.ext hcol.symm hrow.symm
    refine ⟨fun k => value.getD (k % fb.bytesPerPixel.toNat) 0 + 1, _, hpixel, ?_⟩
    rw [paint, if_pos (hpixel.symm ▸ hp)]
    intro heq
    exact absurd (left_eq_add.1 heq) (by decide)

end FbInfo

end GannetOS.Ui
