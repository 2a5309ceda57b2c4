import Firefly.Graphics.Backend

/-!
# Firefly.Graphics.Backends

The backends with a frame buffer of three bytes for each pixel by columns (`ram`) or by rows
(`color8bit`), and of two bytes for each pixel (`color16bit`). The two color backends go through the
pixels of the clipped area in the same loops, over functions that read and write one pixel; `ram` walks
down each column with pointers.

* `ram_draws`, `color8bit_draws`, `color16bit_draws`: each draws what `marks` would mark.
* `drawing_clipped`: what drawing changes, under every clipping area.
-/

namespace Firefly
namespace Graphics

open Accesses

abbrev Frame := List UInt8

/-! ## `ram` -/

def ramGetPixel (graphics : GraphicsState Frame) (x y : Int) : Int := (x * graphics.height + y) * 3

def ramWriteBackground (graphics : GraphicsState Frame) : Option Frame :=
  let background := graphics.background
  (forInt 0 graphics.width (fun _ state => forInt 0 graphics.height (fun _ (data, frame) => do
    let frame ← writeAll frame data [background.r, background.g, background.b]
    some (data + 3, frame)) state) (0, graphics.buffer)).map Prod.snd

/-- `(uint8_t)((s * sa + *dst * da) >> 8)` -/
def ramBlend (s sa da : UInt32) (d : UInt8) : UInt8 := ((s * sa + d.toUInt32 * da) >>> 8).toUInt8

def ramWriteArea (graphics : GraphicsState Frame) (unclippedArea : Area) : Option Frame :=
  let area := areaIntersection unclippedArea graphics.clipping
  let src := graphics.foreground.argb
  let sa := (src >>> 24) &&& 0xff
  let sr := (src >>> 16) &&& 0xff
  let sg := (src >>> 8) &&& 0xff
  let sb := src &&& 0xff
  let da := 0xff - sa
  let xEnd := area.x + area.width
  let yEnd := area.y + area.height
  forInt area.x xEnd (fun cx frame =>
    let dst := ramGetPixel graphics cx area.y
    (forInt area.y yEnd (fun _ (dst, frame) => do
      let frame ← modifyAll frame dst [ramBlend sr sa da, ramBlend sg sa da, ramBlend sb sa da]
      some (dst + 3, frame)) (dst, frame)).map Prod.snd) graphics.buffer

def ramWriteImage (graphics : GraphicsState Frame) (x y : Int) (image : Image) : Option Frame :=
  let dstArea := areaIntersection (imageArea x y image) graphics.clipping
  let sx := dstArea.x - x
  let sy := dstArea.y - y
  let dx := x + sx
  let dy := y + sy
  forInt 0 dstArea.width (fun cx frame =>
    let src := imageGetPixel image (sx + cx) sy
    let dst := ramGetPixel graphics (dx + cx) dy
    (forInt 0 dstArea.height (fun _ (src, dst, frame) => do
      let r ← read image.data src
      let frame ← write frame dst r
      let g ← read image.data (src + 1)
      let frame ← write frame (dst + 1) g
      let b ← read image.data (src + 2)
      let frame ← write frame (dst + 2) b
      some (src + 3, dst + 3, frame)) (src, dst, frame)).map fun state => state.2.2) graphics.buffer

/-- `(int)(scale * (float)a + 0.5f)` with the scale `255 / max`. The rounded quotient is never near a half,
so that the float and the exact value have the same integer. -/
def ramAlpha (max a : Nat) : Int := (510 * a + max) / (2 * max)

/-- `ramBlend` in `int` -/
def ramBlendInt (s : UInt8) (sa : Int) (d : UInt8) : UInt8 :=
  UInt8.ofInt ((s.toNat * sa + d.toNat * (0xff - sa)) >>> (8 : Nat))

def ramWriteBitmap (graphics : GraphicsState Frame) (rx ry : Int) (bitmap : Bitmap) : Option Frame :=
  let x := rx - bitmap.origin.x
  let y := ry - bitmap.origin.y
  let dstArea := areaIntersection ⟨x, y, bitmap.width, bitmap.height⟩ graphics.clipping
  let sx := dstArea.x - x
  let sy := dstArea.y - y
  let dx := x + sx
  let dy := y + sy
  let src := graphics.foreground
  let max := (1 <<< bitmap.depth) - 1
  forInt 0 dstArea.width (fun cx frame =>
    let dst := ramGetPixel graphics (dx + cx) dy
    (forInt 0 dstArea.height (fun cy (dst, frame) => do
      let a ← bitmapGetPixel bitmap (sx + cx) (sy + cy)
      let sa := ramAlpha max a
      let frame ← modifyAll frame dst [ramBlendInt src.r sa, ramBlendInt src.g sa, ramBlendInt src.b sa]
      some (dst + 3, frame)) (dst, frame)).map Prod.snd) graphics.buffer

def ram : Backend Frame where
  writeBackground := ramWriteBackground
  writeArea := ramWriteArea
  writeImage := ramWriteImage
  writeBitmap := ramWriteBitmap

/-! ## The color backends -/

/-- The functions of a backend that write and read one pixel. -/
structure PixelFunctions where
  setPixel : GraphicsState Frame → Frame → Int → Int → Color → Option Frame
  getPixel : GraphicsState Frame → Frame → Int → Int → Option Color

/-- `(s * alpha + d * (max - alpha)) / max` in `uint32_t` -/
def blend (max s alpha : UInt32) (d : UInt8) : UInt8 :=
  ((s * alpha + d.toUInt32 * (max - alpha)) / max).toUInt8

/-- The loops of the functions that fill an area with one color. -/
def fillArea {α : Type} (setPixel : GraphicsState Frame → Frame → Int → Int → α → Option Frame) (color : α)
    (graphics : GraphicsState Frame) (unclippedArea : Area) : Option Frame :=
  let area := areaIntersection unclippedArea graphics.clipping
  forInt 0 area.height (fun cy frame => forInt 0 area.width (fun cx frame =>
    setPixel graphics frame (area.x + cx) (area.y + cy) color) frame) graphics.buffer

namespace PixelFunctions

variable (functions : PixelFunctions)

def writeArea (graphics : GraphicsState Frame) (unclippedArea : Area) : Option Frame :=
  fillArea functions.setPixel graphics.foreground graphics unclippedArea

def writeImage (graphics : GraphicsState Frame) (x y : Int) (image : Image) : Option Frame :=
  let dstArea := areaIntersection (imageArea x y image) graphics.clipping
  let dx := dstArea.x
  let dy := dstArea.y
  let sx := dx - x
  let sy := dy - y
  let max : UInt32 := (1 <<< (8 : UInt32)) - 1
  forInt 0 dstArea.height (fun cy frame => forInt 0 dstArea.width (fun cx frame => do
    let src := imageGetPixelArgb image (sx + cx) (sy + cy)
    let alpha ← read image.data src
    let sr ← read image.data (src + 1)
    let sg ← read image.data (src + 2)
    let sb ← read image.data (src + 3)
    let color ← functions.getPixel graphics frame (dx + cx) (dy + cy)
    let r := blend max sr.toUInt32 alpha.toUInt32 color.r
    let g := blend max sg.toUInt32 alpha.toUInt32 color.g
    let b := blend max sb.toUInt32 alpha.toUInt32 color.b
    functions.setPixel graphics frame (dx + cx) (dy + cy) ⟨b, g, r, 0⟩) frame) graphics.buffer

def writeBitmap (graphics : GraphicsState Frame) (rx ry : Int) (bitmap : Bitmap) : Option Frame :=
  let x := rx - bitmap.origin.x
  let y := ry - bitmap.origin.y
  let dstArea := areaIntersection ⟨x, y, bitmap.width, bitmap.height⟩ graphics.clipping
  let dx := dstArea.x
  let dy := dstArea.y
  let sx := dx - x
  let sy := dy - y
  let foreground := graphics.foreground
  let max : UInt32 := (1 <<< UInt32.ofNat bitmap.depth) - 1
  forInt 0 dstArea.height (fun cy frame => forInt 0 dstArea.width (fun cx frame => do
    let alpha ← bitmapGetPixel bitmap (sx + cx) (sy + cy)
    let color ← functions.getPixel graphics frame (dx + cx) (dy + cy)
    let r := blend max foreground.r.toUInt32 (UInt32.ofNat alpha) color.r
    let g := blend max foreground.g.toUInt32 (UInt32.ofNat alpha) color.g
    let b := blend max foreground.b.toUInt32 (UInt32.ofNat alpha) color.b
    functions.setPixel graphics frame (dx + cx) (dy + cy) ⟨b, g, r, 0⟩) frame) graphics.buffer

end PixelFunctions

/-- A value in a variable of type `uint32_t` -/
def uint32 (n : Int) : Int := n % 2 ^ 32

def color8bitSetPixel (graphics : GraphicsState Frame) (frame : Frame) (x y : Int) (color : Color) :
    Option Frame := do
  let index := uint32 (3 * (y * graphics.width + x))
  let frame ← write frame index color.r
  let frame ← write frame (uint32 (index + 1)) color.g
  write frame (uint32 (index + 2)) color.b

def color8bitGetPixel (graphics : GraphicsState Frame) (frame : Frame) (x y : Int) : Option Color := do
  let index := uint32 (3 * (y * graphics.width + x))
  let r ← read frame index
  let g ← read frame (uint32 (index + 1))
  let b ← read frame (uint32 (index + 2))
  some ⟨b, g, r, 0⟩

def color8bitFunctions : PixelFunctions := ⟨color8bitSetPixel, color8bitGetPixel⟩

def color8bitWriteBackground (graphics : GraphicsState Frame) : Option Frame :=
  let color := graphics.background
  (forInt 0 (graphics.width * graphics.height) (fun _ (data, frame) => do
    let frame ← writeAll frame data [color.r, color.g, color.b]
    some (data + 3, frame)) ((0 : Int), graphics.buffer)).map Prod.snd

def color8bitWriteArea := color8bitFunctions.writeArea

def color8bitWriteImage := color8bitFunctions.writeImage

def color8bitWriteBitmap := color8bitFunctions.writeBitmap

def color8bit : Backend Frame where
  writeBackground := color8bitWriteBackground
  writeArea := color8bitWriteArea
  writeImage := color8bitWriteImage
  writeBitmap := color8bitWriteBitmap

/-- The word of `fd_graphics_color_16bit_rgb_t` with the three components. -/
def color16bitWord (color : Color) : UInt16 :=
  (color.b >>> 3).toUInt16 ||| (color.g >>> 3).toUInt16 <<< 6 ||| (color.r >>> 3).toUInt16 <<< 11

def color16bitSetPixel (graphics : GraphicsState Frame) (frame : Frame) (x y : Int) (color : Color) :
    Option Frame := do
  let index := uint32 (2 * (y * graphics.width + x))
  let word := color16bitWord color
  let frame ← write frame index (word >>> 8).toUInt8
  write frame (uint32 (index + 1)) word.toUInt8

def color16bitGetPixel (graphics : GraphicsState Frame) (frame : Frame) (x y : Int) : Option Color := do
  let index := uint32 (2 * (y * graphics.width + x))
  let b1 ← read frame index
  let b0 ← read frame (uint32 (index + 1))
  let word := b1.toUInt16 <<< 8 ||| b0.toUInt16
  some ⟨(word &&& 0b11111).toUInt8 <<< 3, (word >>> 6 &&& 0b11111).toUInt8 <<< 3, (word >>> 11).toUInt8 <<< 3, 0⟩

def color16bitFunctions : PixelFunctions := ⟨color16bitSetPixel, color16bitGetPixel⟩

def color16bitWriteBackground (graphics : GraphicsState Frame) : Option Frame :=
  let word := color16bitWord graphics.background
  let b0 := word.toUInt8
  let b1 := (word >>> 8).toUInt8
  (forInt 0 (graphics.width * graphics.height) (fun _ (data, frame) => do
    let frame ← writeAll frame data [b0, b1]
    some (data + 2, frame)) ((0 : Int), graphics.buffer)).map Prod.snd

def color16bitWriteArea := color16bitFunctions.writeArea

def color16bitWriteImage := color16bitFunctions.writeImage

def color16bitWriteBitmap := color16bitFunctions.writeBitmap

def color16bit : Backend Frame where
  writeBackground := color16bitWriteBackground
  writeArea := color16bitWriteArea
  writeImage := color16bitWriteImage
  writeBitmap := color16bitWriteBitmap

/-! ## The places of the pixels -/

theorem rank_lt {n m i j : Int} (hi : 0 ≤ i) (hin : i < n) (hj : 0 ≤ j) (hjm : j < m) :
    0 ≤ i * m + j ∧ i * m + j < n * m := by
  have hstart : 0 ≤ i * m := Int.mul_nonneg hi (by omega)
  have hend : (i + 1) * m ≤ n * m := Int.mul_le_mul_of_nonneg_right (by omega) (by omega)
  rw [Int.add_mul, Int.one_mul] at hend
  omega

theorem rank_inj {m i j i' j' : Int} (hj : 0 ≤ j) (hjm : j < m) (hj' : 0 ≤ j') (hjm' : j' < m)
    (h : i * m + j = i' * m + j') : i = i' ∧ j = j' := by
  have hrem : j = j' := by
    calc j = (i * m + j) % m := by rw [Int.add_comm, Int.add_mul_emod_self_right, Int.emod_eq_of_lt hj hjm]
      _ = (i' * m + j') % m := by rw [h]
      _ = j' := by rw [Int.add_comm, Int.add_mul_emod_self_right, Int.emod_eq_of_lt hj' hjm']
  subst hrem
  exact ⟨Int.eq_of_mul_eq_mul_right (by omega : m ≠ 0) (by omega), rfl⟩

theorem three_pos : (0 : Int) < 3 := by omega

theorem two_pos : (0 : Int) < 2 := by omega

/-- Column by column. -/
def ramFormat : Format where
  bytes := 3
  imageBytes := 3
  number _ h x y := x * h + y
  positive := three_pos
  number_lt hx hxw hy hyh := rank_lt hx hxw hy hyh
  number_inj _ _ hy hyh _ _ hy' hyh' h := rank_inj hy hyh hy' hyh' h

/-- Row by row. -/
def rowFormat (bytes : Int) (h : 0 < bytes) : Format where
  bytes := bytes
  imageBytes := 4
  number w _ x y := y * w + x
  positive := h
  number_lt := by
    intro w h x y hx hxw hy hyh
    rw [Int.mul_comm w h]
    exact rank_lt hy hyh hx hxw
  number_inj hx hxw _ _ hx' hxw' _ _ h := (rank_inj hx hxw hx' hxw' h).symm

def color8bitFormat : Format := rowFormat 3 three_pos

def color16bitFormat : Format := rowFormat 2 two_pos

section

variable {format : Format} {graphics : GraphicsState Frame} {region : Set (Int × Int)} {frame : Frame}

/-- The bytes of a pixel of the screen are bytes of the frame buffer. -/
theorem Format.Fits.bytes_lt (hfits : format.Fits graphics) {x y : Int} (hp : (x, y) ∈ points (screenArea graphics)) :
    0 ≤ format.bytes * format.number graphics.width graphics.height x y ∧
      format.bytes * format.number graphics.width graphics.height x y + format.bytes ≤
        graphics.buffer.length := by
  have hpos := format.positive
  obtain ⟨⟨hx, hxw⟩, hy, hyh⟩ := mem_screenArea.mp hp
  have hnumber := format.number_lt hx hxw hy hyh
  have hend : format.bytes * (format.number graphics.width graphics.height x y + 1) ≤
      format.bytes * (graphics.width * graphics.height) :=
    Int.mul_le_mul_of_nonneg_left (by omega) (by omega)
  rw [Int.mul_add, Int.mul_one] at hend
  rw [hfits.length]
  exact ⟨Int.mul_nonneg (by omega) hnumber.1, hend⟩

/-- What is needed to access a byte of a pixel of the region: it is a byte of the region, and in bounds. -/
theorem Format.Fits.access (hfits : format.Fits graphics) (hregion : region ⊆ points (screenArea graphics))
    (honly : Only (format.bytesOf graphics region) graphics.buffer frame) {x y i : Int} (hp : (x, y) ∈ region)
    (hi : format.bytes * format.number graphics.width graphics.height x y ≤ i)
    (hi' : i < format.bytes * format.number graphics.width graphics.height x y + format.bytes) :
    format.bytesOf graphics region i ∧ 0 ≤ i ∧ i < frame.length := by
  have hbounds := hfits.bytes_lt (hregion hp)
  have hlen := honly.length
  exact ⟨⟨(x, y), hp, hi, hi'⟩, by omega, by omega⟩

/-- The bytes of a pixel of the region can be rewritten. -/
theorem Format.Fits.modifyAll_total (hfits : format.Fits graphics)
    (hregion : region ⊆ points (screenArea graphics))
    (honly : Only (format.bytesOf graphics region) graphics.buffer frame) {x y : Int} (hp : (x, y) ∈ region)
    (fs : List (UInt8 → UInt8)) (hfs : fs.length = format.bytes) :
    ∃ frame', modifyAll frame (format.bytes * format.number graphics.width graphics.height x y) fs =
        some frame' ∧ Only (format.bytesOf graphics region) graphics.buffer frame' := by
  have hbounds := hfits.bytes_lt (hregion hp)
  have hlen := honly.length
  have hend : format.bytes * format.number graphics.width graphics.height x y + fs.length ≤ frame.length := by
    omega
  obtain ⟨frame', hframe', honly'⟩ := Accesses.modifyAll_total (S := format.bytesOf graphics region) fs
    (fun j hj hj' => (hfits.access hregion honly hp hj (by omega)).1) hbounds.1 hend
  exact ⟨frame', hframe', honly.trans honly'⟩

theorem Format.Fits.write_total (hfits : format.Fits graphics)
    (hregion : region ⊆ points (screenArea graphics))
    (honly : Only (format.bytesOf graphics region) graphics.buffer frame) {x y i : Int} (hp : (x, y) ∈ region)
    (hi : format.bytes * format.number graphics.width graphics.height x y ≤ i)
    (hi' : i < format.bytes * format.number graphics.width graphics.height x y + format.bytes) (b : UInt8) :
    ∃ frame', write frame i b = some frame' ∧ Only (format.bytesOf graphics region) graphics.buffer frame' := by
  obtain ⟨hmem, h0, hlt⟩ := hfits.access hregion honly hp hi hi'
  obtain ⟨frame', hframe', honly'⟩ := Accesses.write_total hmem h0 hlt b
  exact ⟨frame', hframe', honly.trans honly'⟩

end

/-- A point of an area is some steps away from its corner. -/
theorem mem_points_add {a : Area} {cx cy : Int} (hx : 0 ≤ cx) (hx' : cx < a.width) (hy : 0 ≤ cy)
    (hy' : cy < a.height) : (a.x + cx, a.y + cy) ∈ points a := by
  rw [mem_points]
  dsimp only
  omega

theorem intersection_subset {a b c : Area} (h : points b ⊆ points c) :
    points (areaIntersection a b) ⊆ points c := by
  rw [points_intersection]
  exact Set.inter_subset_right.trans h

/-- The place in what is drawn of a point of the clipped area. -/
theorem source_bounds {a b : Area} {cx cy : Int} (hx : 0 ≤ cx) (hx' : cx < (areaIntersection a b).width)
    (hy : 0 ≤ cy) (hy' : cy < (areaIntersection a b).height) :
    (0 ≤ (areaIntersection a b).x - a.x + cx ∧ (areaIntersection a b).x - a.x + cx < a.width) ∧
      0 ≤ (areaIntersection a b).y - a.y + cy ∧ (areaIntersection a b).y - a.y + cy < a.height := by
  have hmem : ((areaIntersection a b).x + cx, (areaIntersection a b).y + cy) ∈ points a := by
    have hboth := mem_points_add hx hx' hy hy'
    rw [points_intersection] at hboth
    exact hboth.1
  have hsource := mem_points.mp hmem
  dsimp only at hsource
  omega

/-! ## `ram` draws -/

section

variable {graphics : GraphicsState Frame}

theorem ramGetPixel_eq (x y : Int) :
    ramGetPixel graphics x y = ramFormat.bytes * ramFormat.number graphics.width graphics.height x y :=
  Int.mul_comm _ _

theorem ramGetPixel_succ (x y : Int) : ramGetPixel graphics x y + 3 = ramGetPixel graphics x (y + 1) := by
  unfold ramGetPixel
  omega

theorem imageGetPixel_succ (image : Image) (x y : Int) :
    imageGetPixel image x y + 3 = imageGetPixel image x (y + 1) := by
  unfold imageGetPixel
  omega

theorem ram_write (hfits : ramFormat.Fits graphics) {region : Set (Int × Int)}
    (hregion : region ⊆ points (screenArea graphics)) {frame : Frame}
    (honly : Only (ramFormat.bytesOf graphics region) graphics.buffer frame) {x y : Int} (hp : (x, y) ∈ region)
    (j : Int) (hj : 0 ≤ j) (hj' : j < 3) (b : UInt8) :
    ∃ frame', write frame (ramGetPixel graphics x y + j) b = some frame' ∧
      Only (ramFormat.bytesOf graphics region) graphics.buffer frame' := by
  rw [ramGetPixel_eq]
  exact hfits.write_total hregion honly hp (by omega) (Int.add_lt_add_left hj' _) b

/-- One pixel of a column. -/
theorem ram_modifyAll (hfits : ramFormat.Fits graphics) {region : Set (Int × Int)}
    (hregion : region ⊆ points (screenArea graphics)) {frame : Frame}
    (honly : Only (ramFormat.bytesOf graphics region) graphics.buffer frame) {x y : Int} (hp : (x, y) ∈ region)
    (fs : List (UInt8 → UInt8)) (hfs : fs.length = (3 : Int)) :
    ∃ frame', ((modifyAll frame (ramGetPixel graphics x y) fs).bind fun frame =>
        some (ramGetPixel graphics x y + 3, frame)) = some (ramGetPixel graphics x (y + 1), frame') ∧
      Only (ramFormat.bytesOf graphics region) graphics.buffer frame' := by
  obtain ⟨frame', hframe', honly'⟩ := hfits.modifyAll_total hregion honly hp fs hfs
  refine ⟨frame', ?_, honly'⟩
  rw [ramGetPixel_eq, hframe', ← ramGetPixel_eq, Option.bind_some, ramGetPixel_succ]

theorem ramWriteArea_only (hfits : ramFormat.Fits graphics)
    (hclip : points graphics.clipping ⊆ points (screenArea graphics)) (area : Area) :
    ∃ frame, ramWriteArea graphics area = some frame ∧
      Only (ramFormat.bytesOf graphics (points (areaIntersection area graphics.clipping)))
        graphics.buffer frame := by
  have hregion := intersection_subset (a := area) hclip
  unfold ramWriteArea
  refine forInt_keeps (Only.refl _ _) fun cx frame hcx hcx' honly => ?_
  refine forInt_walk (fun cy frame => (ramGetPixel graphics cx cy, frame)) (fun _ _ => rfl) honly ?_
  intro cy frame hcy hcy' honly
  exact ram_modifyAll hfits hregion honly (mem_points.mpr ⟨⟨hcx, hcx'⟩, hcy, hcy'⟩) _ rfl

theorem ramWriteImage_only (hfits : ramFormat.Fits graphics)
    (hclip : points graphics.clipping ⊆ points (screenArea graphics)) (x y : Int) {image : Image}
    (himage : ramFormat.Holds image) :
    ∃ frame, ramWriteImage graphics x y image = some frame ∧
      Only (ramFormat.bytesOf graphics (points (areaIntersection (imageArea x y image) graphics.clipping)))
        graphics.buffer frame := by
  have hregion := intersection_subset (a := imageArea x y image) hclip
  unfold ramWriteImage
  extract_lets dstArea sx sy dx dy
  have hdx : dx = dstArea.x := by omega
  have hdy : dy = dstArea.y := by omega
  refine forInt_keeps (Only.refl _ _) fun cx frame hcx hcx' honly => ?_
  have hstart : (imageGetPixel image (sx + cx) sy, ramGetPixel graphics (dx + cx) dy, frame) =
      (imageGetPixel image (sx + cx) (sy + 0), ramGetPixel graphics (dx + cx) (dy + 0), frame) := by
    rw [Int.add_zero, Int.add_zero]
  simp only [hstart]
  refine forInt_walk (fun cy frame =>
    (imageGetPixel image (sx + cx) (sy + cy), ramGetPixel graphics (dx + cx) (dy + cy), frame))
    (fun _ _ => rfl) honly ?_
  intro cy frame hcy hcy' honly
  have hp : (dx + cx, dy + cy) ∈ points dstArea := by
    rw [hdx, hdy]
    exact mem_points_add hcx hcx' hcy hcy'
  obtain ⟨⟨hsx, hsx'⟩, hsy, hsy'⟩ := source_bounds (a := imageArea x y image) hcx hcx' hcy hcy'
  have hsrc : 0 ≤ (sx + cx) * image.height + (sy + cy) ∧
      (sx + cx) * image.height + (sy + cy) < image.width * image.height := rank_lt hsx hsx' hsy hsy'
  have hdata : 3 * (image.width * image.height) ≤ image.data.length := himage
  have hread : ∀ j : Int, 0 ≤ j → j < 3 →
      ∃ b, read image.data (imageGetPixel image (sx + cx) (sy + cy) + j) = some b := by
    intro j hj hj'
    exact read_total (by unfold imageGetPixel; omega) (by unfold imageGetPixel; omega)
  obtain ⟨r, hr⟩ := hread 0 (by omega) (by omega)
  obtain ⟨g, hg⟩ := hread 1 (by omega) (by omega)
  obtain ⟨b, hb⟩ := hread 2 (by omega) (by omega)
  obtain ⟨frame₁, hframe₁, honly₁⟩ := ram_write hfits hregion honly hp 0 (by omega) (by omega) r
  obtain ⟨frame₂, hframe₂, honly₂⟩ := ram_write hfits hregion honly₁ hp 1 (by omega) (by omega) g
  obtain ⟨frame₃, hframe₃, honly₃⟩ := ram_write hfits hregion honly₂ hp 2 (by omega) (by omega) b
  rw [Int.add_zero] at hr hframe₁
  refine ⟨frame₃, ?_, honly₃⟩
  simp only [Option.bind_eq_bind, hr, hg, hb, hframe₁, hframe₂, hframe₃, Option.bind_some,
    imageGetPixel_succ, ramGetPixel_succ, Int.add_assoc]

theorem ramWriteBitmap_only (hfits : ramFormat.Fits graphics)
    (hclip : points graphics.clipping ⊆ points (screenArea graphics)) (x y : Int) {bitmap : Bitmap}
    (hbitmap : bitmap.Valid) :
    ∃ frame, ramWriteBitmap graphics x y bitmap = some frame ∧
      Only (ramFormat.bytesOf graphics (points (areaIntersection (bitmapArea x y bitmap) graphics.clipping)))
        graphics.buffer frame := by
  have hregion := intersection_subset (a := bitmapArea x y bitmap) hclip
  unfold ramWriteBitmap
  extract_lets bx byy dstArea sx sy dx dy src max
  have hdx : dx = dstArea.x := by omega
  have hdy : dy = dstArea.y := by omega
  refine forInt_keeps (Only.refl _ _) fun cx frame hcx hcx' honly => ?_
  have hstart : (ramGetPixel graphics (dx + cx) dy, frame) = (ramGetPixel graphics (dx + cx) (dy + 0), frame) := by
    rw [Int.add_zero]
  simp only [hstart]
  refine forInt_walk (fun cy frame => (ramGetPixel graphics (dx + cx) (dy + cy), frame))
    (fun _ _ => rfl) honly ?_
  intro cy frame hcy hcy' honly
  have hp : (dx + cx, dy + cy) ∈ points dstArea := by
    rw [hdx, hdy]
    exact mem_points_add hcx hcx' hcy hcy'
  obtain ⟨⟨hsx, hsx'⟩, hsy, hsy'⟩ := source_bounds (a := bitmapArea x y bitmap) hcx hcx' hcy hcy'
  obtain ⟨a, ha⟩ : ∃ a, bitmapGetPixel bitmap (sx + cx) (sy + cy) = some a :=
    bitmapGetPixel_total hbitmap hsx hsx' hsy hsy'
  simp only [ha, Option.bind_eq_bind, Option.bind_some, ← Int.add_assoc]
  exact ram_modifyAll hfits hregion honly hp _ rfl

theorem ram_draws : Draws ramFormat ram where
  area _ area hfits hclip := ramWriteArea_only hfits hclip area
  image _ x y _ hfits hclip himage := ramWriteImage_only hfits hclip x y himage
  bitmap _ x y _ hfits hclip hbitmap := ramWriteBitmap_only hfits hclip x y hbitmap

end

/-! ## The color backends draw -/

/-- The functions access the bytes of their pixel, all in bounds, and `setPixel` changes no others. -/
structure PixelFunctions.Local (format : Format) (functions : PixelFunctions) : Prop where
  imageBytes : format.imageBytes = 4
  set : ∀ {graphics region frame x y} (color : Color), format.Fits graphics →
    region ⊆ points (screenArea graphics) →
    Only (format.bytesOf graphics region) graphics.buffer frame → (x, y) ∈ region →
    ∃ frame', functions.setPixel graphics frame x y color = some frame' ∧
      Only (format.bytesOf graphics region) graphics.buffer frame'
  get : ∀ {graphics region frame x y}, format.Fits graphics → region ⊆ points (screenArea graphics) →
    Only (format.bytesOf graphics region) graphics.buffer frame → (x, y) ∈ region →
    ∃ color, functions.getPixel graphics frame x y = some color

section

variable {format : Format} {functions : PixelFunctions} {graphics : GraphicsState Frame}

/-- The loops of the color backends: what the body does to one pixel of the area. -/
theorem rows_only {area : Area} {S : Int → Prop} {body : Int → Int → Frame → Option Frame}
    (hbody : ∀ cx cy frame, 0 ≤ cx → cx < area.width → 0 ≤ cy → cy < area.height →
      Only S graphics.buffer frame → ∃ frame', body cy cx frame = some frame' ∧ Only S graphics.buffer frame') :
    ∃ frame, forInt 0 area.height (fun cy frame => forInt 0 area.width (body cy) frame) graphics.buffer =
      some frame ∧ Only S graphics.buffer frame := by
  refine forInt_keeps (Only.refl _ _) fun cy frame hcy hcy' honly => ?_
  refine forInt_keeps honly fun cx frame hcx hcx' honly => ?_
  exact hbody cx cy frame hcx hcx' hcy hcy' honly

theorem PixelFunctions.Local.writeArea_only (h : functions.Local format) (hfits : format.Fits graphics)
    (hclip : points graphics.clipping ⊆ points (screenArea graphics)) (area : Area) :
    ∃ frame, functions.writeArea graphics area = some frame ∧
      Only (format.bytesOf graphics (points (areaIntersection area graphics.clipping)))
        graphics.buffer frame := by
  refine rows_only fun cx cy frame hcx hcx' hcy hcy' honly => ?_
  exact h.set _ hfits (intersection_subset hclip) honly (mem_points_add hcx hcx' hcy hcy')

theorem PixelFunctions.Local.writeImage_only (h : functions.Local format) (hfits : format.Fits graphics)
    (hclip : points graphics.clipping ⊆ points (screenArea graphics)) (x y : Int) {image : Image}
    (himage : format.Holds image) :
    ∃ frame, functions.writeImage graphics x y image = some frame ∧
      Only (format.bytesOf graphics (points (areaIntersection (imageArea x y image) graphics.clipping)))
        graphics.buffer frame := by
  refine rows_only fun cx cy frame hcx hcx' hcy hcy' honly => ?_
  have hp := mem_points_add hcx hcx' hcy hcy'
  obtain ⟨⟨hsx, hsx'⟩, hsy, hsy'⟩ := source_bounds (a := imageArea x y image) hcx hcx' hcy hcy'
  obtain ⟨hsrc, hsrc'⟩ := rank_lt hsy hsy' hsx hsx'
  have hdata : 4 * (image.width * image.height) ≤ image.data.length := by
    rw [← h.imageBytes]
    exact himage
  rw [Int.mul_comm image.width] at hdata
  have hread : ∀ j : Int, 0 ≤ j → j < 4 → ∃ b, read image.data
      (imageGetPixelArgb image ((areaIntersection (imageArea x y image) graphics.clipping).x - x + cx)
        ((areaIntersection (imageArea x y image) graphics.clipping).y - y + cy) + j) = some b := by
    intro j hj hj'
    simp only [imageArea] at hsrc hsrc'
    exact read_total (by simp only [imageGetPixelArgb, imageArea]; omega)
      (by simp only [imageGetPixelArgb, imageArea]; omega)
  obtain ⟨alpha, halpha⟩ := hread 0 (by omega) (by omega)
  obtain ⟨r, hr⟩ := hread 1 (by omega) (by omega)
  obtain ⟨g, hg⟩ := hread 2 (by omega) (by omega)
  obtain ⟨b, hb⟩ := hread 3 (by omega) (by omega)
  obtain ⟨color, hcolor⟩ := h.get hfits (intersection_subset hclip) honly hp
  rw [Int.add_zero] at halpha
  simp only [halpha, hr, hg, hb, hcolor, Option.bind_eq_bind, Option.bind_some]
  exact h.set _ hfits (intersection_subset hclip) honly hp

theorem PixelFunctions.Local.writeBitmap_only (h : functions.Local format) (hfits : format.Fits graphics)
    (hclip : points graphics.clipping ⊆ points (screenArea graphics)) (x y : Int) {bitmap : Bitmap}
    (hbitmap : bitmap.Valid) :
    ∃ frame, functions.writeBitmap graphics x y bitmap = some frame ∧
      Only (format.bytesOf graphics (points (areaIntersection (bitmapArea x y bitmap) graphics.clipping)))
        graphics.buffer frame := by
  refine rows_only fun cx cy frame hcx hcx' hcy hcy' honly => ?_
  have hp := mem_points_add hcx hcx' hcy hcy'
  obtain ⟨⟨hsx, hsx'⟩, hsy, hsy'⟩ := source_bounds (a := bitmapArea x y bitmap) hcx hcx' hcy hcy'
  obtain ⟨alpha, halpha⟩ := bitmapGetPixel_total hbitmap hsx hsx' hsy hsy'
  obtain ⟨color, hcolor⟩ := h.get hfits (intersection_subset hclip) honly hp
  simp only [bitmapArea] at halpha hcolor
  simp only [halpha, hcolor, Option.bind_eq_bind, Option.bind_some]
  exact h.set _ hfits (intersection_subset hclip) honly hp

/-- The offsets of the bytes of a pixel of the screen do not overflow. -/
theorem uint32_place (hfits : format.Fits graphics) {x y : Int} (hp : (x, y) ∈ points (screenArea graphics))
    {i : Int} (hi : format.bytes * format.number graphics.width graphics.height x y ≤ i)
    (hi' : i < format.bytes * format.number graphics.width graphics.height x y + format.bytes) :
    uint32 i = i := by
  have hbounds := hfits.bytes_lt hp
  have hsmall := hfits.small
  exact Int.emod_eq_of_lt (by omega) (by omega)

section

variable {region : Set (Int × Int)} {frame : Frame} {x y : Int} {bytes : Int} {h : 0 < bytes}

theorem uint32_row_add (hfits : (rowFormat bytes h).Fits graphics) (hp : (x, y) ∈ points (screenArea graphics))
    (j : Int) (hj : 0 ≤ j) (hj' : j < bytes) :
    uint32 (bytes * (y * graphics.width + x) + j) = bytes * (y * graphics.width + x) + j :=
  uint32_place hfits hp (Int.le_add_of_nonneg_right hj) (Int.add_lt_add_left hj' _)

/-- The first offset is that of the byte `0`. -/
theorem uint32_row (hfits : (rowFormat bytes h).Fits graphics) (hp : (x, y) ∈ points (screenArea graphics)) :
    uint32 (bytes * (y * graphics.width + x)) = bytes * (y * graphics.width + x) :=
  uint32_place hfits hp (Int.le_refl _) (Int.lt_add_of_pos_right _ h)

/-- One byte of a pixel is written, at an offset in `uint32_t`. -/
theorem row_write (hfits : (rowFormat bytes h).Fits graphics) (hregion : region ⊆ points (screenArea graphics))
    (honly : Only ((rowFormat bytes h).bytesOf graphics region) graphics.buffer frame) (hp : (x, y) ∈ region)
    (j : Int) (hj : 0 ≤ j) (hj' : j < bytes) (b : UInt8) :
    ∃ frame', write frame (uint32 (bytes * (y * graphics.width + x) + j)) b = some frame' ∧
      Only ((rowFormat bytes h).bytesOf graphics region) graphics.buffer frame' := by
  rw [uint32_row_add hfits (hregion hp) j hj hj']
  exact hfits.write_total hregion honly hp (Int.le_add_of_nonneg_right hj) (Int.add_lt_add_left hj' _) b

theorem row_read (hfits : (rowFormat bytes h).Fits graphics) (hregion : region ⊆ points (screenArea graphics))
    (honly : Only ((rowFormat bytes h).bytesOf graphics region) graphics.buffer frame) (hp : (x, y) ∈ region)
    (j : Int) (hj : 0 ≤ j) (hj' : j < bytes) :
    ∃ b, read frame (uint32 (bytes * (y * graphics.width + x) + j)) = some b := by
  obtain ⟨_, h0, hlt⟩ := hfits.access hregion honly hp
    (i := bytes * (y * graphics.width + x) + j) (Int.le_add_of_nonneg_right hj) (Int.add_lt_add_left hj' _)
  rw [uint32_row_add hfits (hregion hp) j hj hj']
  exact read_total h0 hlt

end

theorem color8bit_local : color8bitFunctions.Local color8bitFormat where
  imageBytes := rfl
  set := by
    intro graphics region frame x y color hfits hregion honly hp
    obtain ⟨frame₁, hframe₁, honly₁⟩ := row_write hfits hregion honly hp 0 (by omega) (by omega) color.r
    obtain ⟨frame₂, hframe₂, honly₂⟩ := row_write hfits hregion honly₁ hp 1 (by omega) (by omega) color.g
    obtain ⟨frame₃, hframe₃, honly₃⟩ := row_write hfits hregion honly₂ hp 2 (by omega) (by omega) color.b
    rw [Int.add_zero, uint32_row hfits (hregion hp)] at hframe₁
    refine ⟨frame₃, ?_, honly₃⟩
    simp only [color8bitFunctions, color8bitSetPixel, hframe₁, uint32_row hfits (hregion hp), hframe₂,
      hframe₃, Option.bind_eq_bind, Option.bind_some]
  get := by
    intro graphics region frame x y hfits hregion honly hp
    obtain ⟨r, hr⟩ := row_read hfits hregion honly hp 0 (by omega) (by omega)
    obtain ⟨g, hg⟩ := row_read hfits hregion honly hp 1 (by omega) (by omega)
    obtain ⟨b, hb⟩ := row_read hfits hregion honly hp 2 (by omega) (by omega)
    rw [Int.add_zero, uint32_row hfits (hregion hp)] at hr
    refine ⟨⟨b, g, r, 0⟩, ?_⟩
    simp only [color8bitFunctions, color8bitGetPixel, hr, uint32_row hfits (hregion hp), hg, hb,
      Option.bind_eq_bind, Option.bind_some]

theorem color16bit_local : color16bitFunctions.Local color16bitFormat where
  imageBytes := rfl
  set := by
    intro graphics region frame x y color hfits hregion honly hp
    obtain ⟨frame₁, hframe₁, honly₁⟩ := row_write hfits hregion honly hp 0 (by omega) (by omega)
      (color16bitWord color >>> 8).toUInt8
    obtain ⟨frame₂, hframe₂, honly₂⟩ := row_write hfits hregion honly₁ hp 1 (by omega) (by omega)
      (color16bitWord color).toUInt8
    rw [Int.add_zero, uint32_row hfits (hregion hp)] at hframe₁
    refine ⟨frame₂, ?_, honly₂⟩
    simp only [color16bitFunctions, color16bitSetPixel, hframe₁, uint32_row hfits (hregion hp), hframe₂,
      Option.bind_eq_bind, Option.bind_some]
  get := by
    intro graphics region frame x y hfits hregion honly hp
    obtain ⟨b1, hb1⟩ := row_read hfits hregion honly hp 0 (by omega) (by omega)
    obtain ⟨b0, hb0⟩ := row_read hfits hregion honly hp 1 (by omega) (by omega)
    rw [Int.add_zero, uint32_row hfits (hregion hp)] at hb1
    simp only [color16bitFunctions, color16bitGetPixel, hb1, uint32_row hfits (hregion hp), hb0,
      Option.bind_eq_bind, Option.bind_some, Option.some.injEq, exists_eq']

theorem PixelFunctions.Local.draws (h : functions.Local format)
    (background : GraphicsState Frame → Option Frame) :
    Draws format ⟨background, functions.writeArea, functions.writeImage, functions.writeBitmap⟩ where
  area _ area hfits hclip := h.writeArea_only hfits hclip area
  image _ x y _ hfits hclip himage := h.writeImage_only hfits hclip x y himage
  bitmap _ x y _ hfits hclip hbitmap := h.writeBitmap_only hfits hclip x y hbitmap

theorem color8bit_draws : Draws color8bitFormat color8bit := color8bit_local.draws _

theorem color16bit_draws : Draws color16bitFormat color16bit := color16bit_local.draws _

end

/-- The backends with their formats. -/
inductive Supported : Format → Backend Frame → Prop where
  | ram : Supported ramFormat ram
  | color8bit : Supported color8bitFormat color8bit
  | color16bit : Supported color16bitFormat color16bit

theorem Supported.draws {format : Format} {backend : Backend Frame} (h : Supported format backend) :
    Draws format backend := by
  cases h with
  | ram => exact ram_draws
  | color8bit => exact color8bit_draws
  | color16bit => exact color16bit_draws

theorem drawing_clipped {format : Format} {backend : Backend Frame} (h : Supported format backend)
    (graphics : GraphicsState Frame) (hfits : format.Fits graphics) (clipping : Area) :
    areaContains (screenArea graphics) (setClipping graphics clipping).clipping = true ∧
    (∀ area, ∃ frame,
      writeArea backend (setClipping graphics clipping) area =
        some ((setClipping graphics clipping).withBuffer frame) ∧
      Only (format.bytesOf graphics (points area ∩ (points (screenArea graphics) ∩ points clipping)))
        graphics.buffer frame) ∧
    (∀ x y image, format.Holds image → ∃ frame,
      writeImage backend (setClipping graphics clipping) x y image =
        some ((setClipping graphics clipping).withBuffer frame) ∧
      Only (format.bytesOf graphics
        (points (imageArea x y image) ∩ (points (screenArea graphics) ∩ points clipping)))
        graphics.buffer frame) ∧
    ∀ x y (bitmap : Bitmap), bitmap.Valid → ∃ frame,
      writeBitmap backend (setClipping graphics clipping) x y bitmap =
        some ((setClipping graphics clipping).withBuffer frame) ∧
      Only (format.bytesOf graphics
        (points (bitmapArea x y bitmap) ∩ (points (screenArea graphics) ∩ points clipping)))
        graphics.buffer frame := by
  have hfits' : format.Fits (setClipping graphics clipping) := ⟨hfits.width, hfits.height, hfits.length, hfits.small⟩
  have hclip := setClipping_subset graphics clipping
  rw [← points_setClipping]
  refine ⟨screenArea_contains_clipping graphics hfits.width hfits.height clipping, ?_, ?_, ?_⟩
  · exact fun area => writeArea_only h.draws hfits' hclip area
  · exact fun x y image himage => writeImage_only h.draws hfits' hclip x y himage
  · exact fun x y bitmap hbitmap => writeBitmap_only h.draws hfits' hclip x y hbitmap

/-- A screen of two pixels, each in three bytes. -/
def twoPixels : GraphicsState Frame := ⟨2, 1, List.replicate 6 0, ⟨0, 0, 2, 1⟩, emptyFont, white, black⟩

/-- An area over both pixels, with the right one in the clipping area only. -/
theorem drawing_clipped_right :
    ∃ frame, writeArea ram (setClipping twoPixels ⟨1, -3, 9, 9⟩) ⟨0, 0, 2, 1⟩ =
        some ((setClipping twoPixels ⟨1, -3, 9, 9⟩).withBuffer frame) ∧
      Only (ramFormat.bytesOf twoPixels
        (points ⟨0, 0, 2, 1⟩ ∩ (points (screenArea twoPixels) ∩ points ⟨1, -3, 9, 9⟩))) twoPixels.buffer frame :=
  (drawing_clipped .ram twoPixels ⟨by decide, by decide, rfl, by decide⟩ ⟨1, -3, 9, 9⟩).2.1 ⟨0, 0, 2, 1⟩

example : (writeArea ram (setClipping twoPixels ⟨1, -3, 9, 9⟩) ⟨0, 0, 2, 1⟩).map GraphicsState.buffer =
    some [0, 0, 0, 254, 254, 254] := rfl

end Graphics
end Firefly
