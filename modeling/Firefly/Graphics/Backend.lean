import Firefly.Lib.Accesses
import Firefly.Graphics.Area

/-!
# Firefly.Graphics.Backend

Bitmaps, images, fonts and the drawing functions of `fd_graphics_t` over its backend, a record of
functions that write to a buffer. An access outside of a frame buffer or of the pixels that are drawn
ends the run with `none`. A failed assertion is counted elsewhere, and the function returns.

What a backend is for is the backend `marks`, whose buffer collects the areas that are drawn to. A
backend with a frame buffer `Draws` when it changes only bytes of pixels that `marks` would mark.

* `bitmapGetPixel_total`: the pixels of a bitmap are inside its data.
* `points_setClipping`: the clipping area is inside the screen.
-/

namespace Firefly
namespace Graphics

open Accesses

structure Point where
  x : Int
  y : Int
deriving DecidableEq, Repr

structure Bitmap where
  width : Int
  height : Int
  depth : Nat
  origin : Point
  data : List UInt8
deriving DecidableEq, Repr

structure Image where
  width : Int
  height : Int
  origin : Point
  data : List UInt8
deriving DecidableEq, Repr

structure Glyph where
  character : Int
  advance : Int
  bitmap : Bitmap
deriving DecidableEq, Repr

structure Font where
  advance : Int
  glyphs : List Glyph
deriving DecidableEq, Repr

/-- The bytes of `fd_graphics_color_t`. -/
structure Color where
  b : UInt8
  g : UInt8
  r : UInt8
  a : UInt8
deriving DecidableEq, Repr

/-- The word that the four bytes are. -/
def Color.argb (color : Color) : UInt32 :=
  color.a.toUInt32 <<< 24 ||| color.r.toUInt32 <<< 16 ||| color.g.toUInt32 <<< 8 ||| color.b.toUInt32

def black : Color := ⟨0, 0, 0, 0xff⟩

def white : Color := ⟨0xff, 0xff, 0xff, 0xff⟩

structure GraphicsState (β : Type) where
  width : Int
  height : Int
  buffer : β
  clipping : Area
  font : Font
  foreground : Color
  background : Color

/-- `fd_graphics_backend_t`: what each function leaves in the buffer. -/
structure Backend (β : Type) where
  writeBackground : GraphicsState β → Option β
  writeArea : GraphicsState β → Area → Option β
  writeImage : GraphicsState β → Int → Int → Image → Option β
  writeBitmap : GraphicsState β → Int → Int → Bitmap → Option β

variable {β : Type}

/-- The offset of a pixel in the data of an image with three bytes for each pixel. -/
def imageGetPixel (image : Image) (x y : Int) : Int := (x * image.height + y) * 3

def imageGetPixelArgb (image : Image) (x y : Int) : Int := (y * image.width + x) * 4

def Bitmap.stride (bitmap : Bitmap) : Int := (bitmap.width * bitmap.depth + 7).tdiv 8

/-- A shift by a negative count is not defined. -/
def bitmapGetPixel (bitmap : Bitmap) (x y : Int) : Option Nat := do
  let mask := (0b1111111100000000 >>> bitmap.depth) &&& 0b11111111
  let index := y * bitmap.stride + (x * bitmap.depth).tdiv 8
  let shift := ((x * bitmap.depth).tmod 8).toNat
  let byte ← read bitmap.data index
  if bitmap.depth + shift ≤ 8 then
    some ((byte.toNat &&& (mask >>> shift)) >>> (8 - bitmap.depth - shift))
  else none

def fontGetGlyph (font : Font) (character : Int) : Option Glyph :=
  font.glyphs.find? fun glyph => glyph.character == character

/-- The area that a bitmap is drawn to. -/
def bitmapArea (x y : Int) (bitmap : Bitmap) : Area :=
  ⟨x - bitmap.origin.x, y - bitmap.origin.y, bitmap.width, bitmap.height⟩

def imageArea (x y : Int) (image : Image) : Area := ⟨x, y, image.width, image.height⟩

def screenArea (graphics : GraphicsState β) : Area := ⟨0, 0, graphics.width, graphics.height⟩

def emptyFont : Font := ⟨0, []⟩

def reset (graphics : GraphicsState β) : GraphicsState β :=
  { graphics with
    clipping := screenArea graphics
    font := emptyFont
    background := black
    foreground := white }

def setClipping (graphics : GraphicsState β) (area : Area) : GraphicsState β :=
  { graphics with clipping := areaIntersection (screenArea graphics) area }

def removeClipping (graphics : GraphicsState β) : GraphicsState β := { graphics with clipping := screenArea graphics }

def setFont (graphics : GraphicsState β) (font : Font) : GraphicsState β := { graphics with font := font }

def setBackground (graphics : GraphicsState β) (color : Color) : GraphicsState β :=
  { graphics with background := color }

def setForeground (graphics : GraphicsState β) (color : Color) : GraphicsState β :=
  { graphics with foreground := color }

/-- The check that the drawing functions begin with. -/
def offScreen (graphics : GraphicsState β) (area : Area) : Bool :=
  area.x < 0 || area.y < 0 || area.x + area.width > graphics.width || area.y + area.height > graphics.height

def GraphicsState.withBuffer (graphics : GraphicsState β) (buffer : β) : GraphicsState β :=
  { graphics with buffer := buffer }

def writeBackground (backend : Backend β) (graphics : GraphicsState β) : Option (GraphicsState β) :=
  (backend.writeBackground graphics).map graphics.withBuffer

def writeArea (backend : Backend β) (graphics : GraphicsState β) (area : Area) : Option (GraphicsState β) :=
  if offScreen graphics area then some graphics
  else (backend.writeArea graphics area).map graphics.withBuffer

def writeImage (backend : Backend β) (graphics : GraphicsState β) (x y : Int) (image : Image) :
    Option (GraphicsState β) :=
  if offScreen graphics (imageArea x y image) then some graphics
  else (backend.writeImage graphics x y image).map graphics.withBuffer

def writeBitmap (backend : Backend β) (graphics : GraphicsState β) (x y : Int) (bitmap : Bitmap) :
    Option (GraphicsState β) :=
  if offScreen graphics (bitmapArea x y bitmap) then some graphics
  else (backend.writeBitmap graphics x y bitmap).map graphics.withBuffer

/-- The backend that collects the areas that are drawn to. -/
def marks : Backend (List Area) where
  writeBackground graphics := some (graphics.buffer ++ [screenArea graphics])
  writeArea graphics area := some (graphics.buffer ++ [areaIntersection area graphics.clipping])
  writeImage graphics x y image :=
    some (graphics.buffer ++ [areaIntersection (imageArea x y image) graphics.clipping])
  writeBitmap graphics x y bitmap :=
    some (graphics.buffer ++ [areaIntersection (bitmapArea x y bitmap) graphics.clipping])

/-- The pixels in the areas that `marks` has collected. -/
def marked (areas : List Area) : Set (Int × Int) := { p | ∃ a ∈ areas, p ∈ points a }

/-- What of an area is drawn to. -/
def drawnAreas (graphics : GraphicsState β) (area : Area) : List Area :=
  if offScreen graphics area then [] else [areaIntersection area graphics.clipping]

/-- Where the pixels are in a frame buffer: each pixel of a screen has a number of its own, and `bytes`
bytes at that place. An image has `imageBytes` bytes for each pixel. -/
structure Format where
  bytes : Int
  imageBytes : Int
  number : Int → Int → Int → Int → Int
  positive : 0 < bytes
  number_lt : ∀ {w h x y}, 0 ≤ x → x < w → 0 ≤ y → y < h → 0 ≤ number w h x y ∧ number w h x y < w * h
  number_inj : ∀ {w h x y x' y'}, 0 ≤ x → x < w → 0 ≤ y → y < h → 0 ≤ x' → x' < w → 0 ≤ y' → y' < h →
    number w h x y = number w h x' y' → x = x' ∧ y = y'

/-- The bytes of a set of pixels. -/
def Format.bytesOf (format : Format) (graphics : GraphicsState β) (region : Set (Int × Int)) (i : Int) : Prop :=
  ∃ p ∈ region,
    format.bytes * format.number graphics.width graphics.height p.1 p.2 ≤ i ∧
      i < format.bytes * format.number graphics.width graphics.height p.1 p.2 + format.bytes

/-- The frame buffer has the size of the screen, and its offsets are 32-bit numbers. -/
structure Format.Fits (format : Format) (graphics : GraphicsState (List UInt8)) : Prop where
  width : 0 ≤ graphics.width
  height : 0 ≤ graphics.height
  length : (graphics.buffer.length : Int) = format.bytes * (graphics.width * graphics.height)
  small : graphics.buffer.length ≤ 2 ^ 32

/-- The data has all pixels of the image, in the format that the backend reads. -/
def Format.Holds (format : Format) (image : Image) : Prop :=
  format.imageBytes * (image.width * image.height) ≤ image.data.length

/-- The data has all pixels of the bitmap, in a depth that divides a byte. -/
structure Bitmap.Valid (bitmap : Bitmap) : Prop where
  depth : bitmap.depth = 1 ∨ bitmap.depth = 2 ∨ bitmap.depth = 4 ∨ bitmap.depth = 8
  data : bitmap.stride * bitmap.height ≤ bitmap.data.length

/-- The backend changes only bytes of pixels in the drawn area that are inside the clipping area, and all
its accesses are in bounds. -/
structure Draws (format : Format) (backend : Backend (List UInt8)) : Prop where
  area : ∀ graphics area, format.Fits graphics → points graphics.clipping ⊆ points (screenArea graphics) →
    ∃ frame, backend.writeArea graphics area = some frame ∧
      Only (format.bytesOf graphics (points (areaIntersection area graphics.clipping))) graphics.buffer frame
  image : ∀ graphics x y image, format.Fits graphics → points graphics.clipping ⊆ points (screenArea graphics) →
    format.Holds image →
    ∃ frame, backend.writeImage graphics x y image = some frame ∧
      Only (format.bytesOf graphics (points (areaIntersection (imageArea x y image) graphics.clipping)))
        graphics.buffer frame
  bitmap : ∀ graphics x y bitmap, format.Fits graphics →
    points graphics.clipping ⊆ points (screenArea graphics) → bitmap.Valid →
    ∃ frame, backend.writeBitmap graphics x y bitmap = some frame ∧
      Only (format.bytesOf graphics (points (areaIntersection (bitmapArea x y bitmap) graphics.clipping)))
        graphics.buffer frame

theorem bitmapGetPixel_total {bitmap : Bitmap} (h : bitmap.Valid) {x y : Int} (hx : 0 ≤ x)
    (hxw : x < bitmap.width) (hy : 0 ≤ y) (hyh : y < bitmap.height) :
    ∃ value, bitmapGetPixel bitmap x y = some value := by
  have hdepth := h.depth
  have hdata := h.data
  have hxd : 0 ≤ x * (bitmap.depth : Int) := Int.mul_nonneg hx (Int.natCast_nonneg _)
  have hwd' : 0 ≤ bitmap.width * (bitmap.depth : Int) := Int.mul_nonneg (by omega) (Int.natCast_nonneg _)
  have hwd : 0 ≤ bitmap.width * (bitmap.depth : Int) + 7 := by omega
  -- the byte of the pixel is in its row, and the pixel does not go over the end of the byte
  have hrow : (x * (bitmap.depth : Int)).tdiv 8 < bitmap.stride ∧
      bitmap.depth + ((x * (bitmap.depth : Int)).tmod 8).toNat ≤ 8 := by
    rw [Bitmap.stride, Int.tdiv_eq_ediv_of_nonneg hxd, Int.tdiv_eq_ediv_of_nonneg hwd,
      Int.tmod_eq_emod_of_nonneg hxd]
    rcases hdepth with hd | hd | hd | hd <;> rw [hd] <;> omega
  have hrow' : 0 ≤ (x * (bitmap.depth : Int)).tdiv 8 := Int.tdiv_nonneg hxd (by omega)
  have hstart : 0 ≤ y * bitmap.stride := Int.mul_nonneg hy (by omega)
  have hend : (y + 1) * bitmap.stride ≤ bitmap.height * bitmap.stride :=
    Int.mul_le_mul_of_nonneg_right (by omega) (by omega)
  rw [Int.add_mul, Int.one_mul, Int.mul_comm bitmap.height] at hend
  obtain ⟨byte, hbyte⟩ : ∃ byte,
      read bitmap.data (y * bitmap.stride + (x * (bitmap.depth : Int)).tdiv 8) = some byte :=
    read_total (by omega) (by omega)
  simp [bitmapGetPixel, hbyte, hrow.2]

theorem mem_screenArea {graphics : GraphicsState β} {x y : Int} :
    (x, y) ∈ points (screenArea graphics) ↔
      (0 ≤ x ∧ x < graphics.width) ∧ 0 ≤ y ∧ y < graphics.height := by
  simp [mem_points, screenArea]

theorem points_setClipping (graphics : GraphicsState β) (area : Area) :
    points (setClipping graphics area).clipping = points (screenArea graphics) ∩ points area :=
  points_intersection _ _

/-- The clipping area is inside the screen. -/
theorem screenArea_contains_clipping (graphics : GraphicsState β) (hw : 0 ≤ graphics.width)
    (hh : 0 ≤ graphics.height) (area : Area) :
    areaContains (screenArea graphics) (setClipping graphics area).clipping = true := by
  rw [areaContains_eq_true]
  unfold setClipping areaIntersection
  dsimp only
  split <;> simp only [screenArea, areaEmpty] <;> omega

theorem setClipping_subset (graphics : GraphicsState β) (area : Area) :
    points (setClipping graphics area).clipping ⊆ points (screenArea graphics) := by
  rw [points_setClipping]
  exact Set.inter_subset_left

theorem marks_call (graphics : GraphicsState (List Area)) (area : Area) :
    (if offScreen graphics area then some graphics
      else (some (graphics.buffer ++ [areaIntersection area graphics.clipping])).map graphics.withBuffer) =
      some (graphics.withBuffer (graphics.buffer ++ drawnAreas graphics area)) := by
  unfold drawnAreas
  split
  · rw [List.append_nil]
    rfl
  · rfl

theorem writeBitmap_marks (graphics : GraphicsState (List Area)) (x y : Int) (bitmap : Bitmap) :
    writeBitmap marks graphics x y bitmap =
      some (graphics.withBuffer (graphics.buffer ++ drawnAreas graphics (bitmapArea x y bitmap))) :=
  marks_call graphics _

/-- What is drawn of an area is inside it and inside the clipping area. -/
theorem marked_drawnAreas (graphics : GraphicsState β) (area : Area) :
    marked (drawnAreas graphics area) ⊆ points area ∩ points graphics.clipping := by
  rintro p ⟨a, ha, hp⟩
  unfold drawnAreas at ha
  split at ha
  · cases ha
  · rw [List.mem_singleton.mp ha, points_intersection] at hp
    exact hp

section

variable {format : Format} {backend : Backend (List UInt8)} {graphics : GraphicsState (List UInt8)}

/-- What a drawing function leaves, from what the function of the backend does. -/
theorem only_of_call {area : Area} {result : Option (List UInt8)}
    (h : ∃ frame, result = some frame ∧
      Only (format.bytesOf graphics (points (areaIntersection area graphics.clipping))) graphics.buffer frame) :
    ∃ frame, (if offScreen graphics area then some graphics else result.map graphics.withBuffer) =
        some (graphics.withBuffer frame) ∧
      Only (format.bytesOf graphics (points area ∩ points graphics.clipping)) graphics.buffer frame := by
  obtain ⟨frame, rfl, honly⟩ := h
  rw [points_intersection] at honly
  split
  · exact ⟨graphics.buffer, rfl, Only.refl _ _⟩
  · exact ⟨frame, rfl, honly⟩

theorem writeArea_only (h : Draws format backend) (hfits : format.Fits graphics)
    (hclip : points graphics.clipping ⊆ points (screenArea graphics)) (area : Area) :
    ∃ frame, writeArea backend graphics area = some (graphics.withBuffer frame) ∧
      Only (format.bytesOf graphics (points area ∩ points graphics.clipping)) graphics.buffer frame :=
  only_of_call (h.area graphics area hfits hclip)

theorem writeImage_only (h : Draws format backend) (hfits : format.Fits graphics)
    (hclip : points graphics.clipping ⊆ points (screenArea graphics)) (x y : Int) {image : Image}
    (himage : format.Holds image) :
    ∃ frame, writeImage backend graphics x y image = some (graphics.withBuffer frame) ∧
      Only (format.bytesOf graphics (points (imageArea x y image) ∩ points graphics.clipping))
        graphics.buffer frame :=
  only_of_call (h.image graphics x y image hfits hclip himage)

theorem writeBitmap_only (h : Draws format backend) (hfits : format.Fits graphics)
    (hclip : points graphics.clipping ⊆ points (screenArea graphics)) (x y : Int) {bitmap : Bitmap}
    (hbitmap : bitmap.Valid) :
    ∃ frame, writeBitmap backend graphics x y bitmap = some (graphics.withBuffer frame) ∧
      Only (format.bytesOf graphics (points (bitmapArea x y bitmap) ∩ points graphics.clipping))
        graphics.buffer frame :=
  only_of_call (h.bitmap graphics x y bitmap hfits hclip hbitmap)

/-- A state with a frame buffer next to one of `marks`: since the frame buffer was `start`, only bytes of
marked pixels were changed. -/
structure Follows (format : Format) (start : List UInt8) (graphics : GraphicsState (List UInt8))
    (shadow : GraphicsState (List Area)) : Prop where
  fits : format.Fits graphics
  clip : points graphics.clipping ⊆ points (screenArea graphics)
  width : shadow.width = graphics.width
  height : shadow.height = graphics.height
  clipping : shadow.clipping = graphics.clipping
  font : shadow.font = graphics.font
  only : Only (format.bytesOf graphics (marked shadow.buffer)) start graphics.buffer

theorem marked_append (areas : List Area) (a : Area) : marked (areas ++ [a]) = marked areas ∪ points a := by
  ext p
  simp [marked, or_and_right, exists_or]

theorem Format.bytesOf_mono {region region' : Set (Int × Int)} (h : region ⊆ region') {i : Int}
    (hi : format.bytesOf graphics region i) : format.bytesOf graphics region' i := by
  obtain ⟨p, hp, hle, hlt⟩ := hi
  exact ⟨p, h hp, hle, hlt⟩

theorem Follows.start (hfits : format.Fits graphics)
    (hclip : points graphics.clipping ⊆ points (screenArea graphics)) :
    Follows format graphics.buffer graphics
      ⟨graphics.width, graphics.height, [], graphics.clipping, graphics.font, graphics.foreground,
        graphics.background⟩ :=
  ⟨hfits, hclip, rfl, rfl, rfl, rfl, Only.refl _ _⟩

variable {start : List UInt8} {shadow : GraphicsState (List Area)}

/-- The state after a call: the same but for the buffers. -/
theorem Follows.withBuffer (h : Follows format start graphics shadow) {frame : List UInt8} {areas : List Area}
    (honly : Only (format.bytesOf graphics (marked areas)) start frame) :
    Follows format start (graphics.withBuffer frame) (shadow.withBuffer areas) where
  fits := by
    have hlen : frame.length = graphics.buffer.length := honly.length.trans h.only.length.symm
    exact ⟨h.fits.width, h.fits.height, (congrArg Nat.cast hlen).trans h.fits.length, hlen.trans_le h.fits.small⟩
  clip := h.clip
  width := h.width
  height := h.height
  clipping := h.clipping
  font := h.font
  only := honly

/-- What the frame buffer shows of a run that stays inside a region. -/
theorem Follows.only_of_marked (h : Follows format start graphics shadow)
    {graphics₀ : GraphicsState (List UInt8)} (hw : graphics₀.width = shadow.width)
    (hh : graphics₀.height = shadow.height) {region : Set (Int × Int)} (hmarked : marked shadow.buffer ⊆ region) :
    Only (format.bytesOf graphics₀ region) start graphics.buffer := by
  refine h.only.mono fun i hi => ?_
  obtain ⟨p, hp, hplace⟩ := hi
  refine ⟨p, hmarked hp, ?_⟩
  rwa [hw, hh, h.width, h.height]

/-- A drawing function on both states. -/
theorem Follows.call (h : Follows format start graphics shadow) {area : Area} {result : Option (List UInt8)}
    (hresult : ∃ frame, result = some frame ∧
      Only (format.bytesOf graphics (points (areaIntersection area graphics.clipping))) graphics.buffer frame) :
    ∃ graphics' shadow',
      (if offScreen graphics area then some graphics else result.map graphics.withBuffer) = some graphics' ∧
      (if offScreen shadow area then some shadow
        else (some (shadow.buffer ++ [areaIntersection area shadow.clipping])).map shadow.withBuffer) =
        some shadow' ∧
      Follows format start graphics' shadow' := by
  obtain ⟨frame, rfl, honly⟩ := hresult
  have hoff : offScreen shadow area = offScreen graphics area := by
    rw [offScreen, offScreen, h.width, h.height]
  rw [hoff]
  split
  · exact ⟨graphics, shadow, rfl, rfl, h⟩
  · refine ⟨_, _, rfl, rfl, h.withBuffer ?_⟩
    rw [marked_append, h.clipping]
    exact (h.only.mono fun i => format.bytesOf_mono Set.subset_union_left).trans
      (honly.mono fun i => format.bytesOf_mono Set.subset_union_right)

theorem Follows.writeBitmap (h : Follows format start graphics shadow) (hdraws : Draws format backend) (x y : Int)
    {bitmap : Bitmap} (hbitmap : bitmap.Valid) :
    ∃ graphics' shadow', writeBitmap backend graphics x y bitmap = some graphics' ∧
      writeBitmap marks shadow x y bitmap = some shadow' ∧ Follows format start graphics' shadow' :=
  h.call (hdraws.bitmap graphics x y bitmap h.fits h.clip hbitmap)

theorem Follows.writeImage (h : Follows format start graphics shadow) (hdraws : Draws format backend) (x y : Int)
    {image : Image} (himage : format.Holds image) :
    ∃ graphics' shadow', writeImage backend graphics x y image = some graphics' ∧
      writeImage marks shadow x y image = some shadow' ∧ Follows format start graphics' shadow' :=
  h.call (hdraws.image graphics x y image h.fits h.clip himage)

end

end Graphics
end Firefly
