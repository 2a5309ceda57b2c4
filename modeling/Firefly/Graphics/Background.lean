import Firefly.Lib.Painting
import Firefly.Graphics.Backends

/-!
# Firefly.Graphics.Background

The `gray4bit` backend, with two pixels in each byte from the last to the first, and the background fill
of three backends next to the fill of the whole screen as an area.

* `gray4bit_fill`, `row_fill`: what the fill of the screen leaves.
* `background_is_area_fill`: the background of `color8bit` is always that; that of `color16bit` has the
  bytes of each word in the other order, and `gray4bit` fills as many bytes as a `size_t` has.
-/

namespace Firefly
namespace Graphics

open Accesses

/-! ## `gray4bit` -/

def gray4bitRgbTo4bitGray (r g b : UInt32) : UInt32 := ((r + g + b) / 3) >>> 4

def gray4bitColorTo4bitGray (color : Color) : UInt32 :=
  gray4bitRgbTo4bitGray color.r.toUInt32 color.g.toUInt32 color.b.toUInt32

def gray4bitSetPixel (graphics : GraphicsState Frame) (frame : Frame) (lx ly : Int) (gray : UInt32) :
    Option Frame := do
  let x := graphics.width - lx - 1
  let y := graphics.height - ly - 1
  let span := uint32 (graphics.width.tdiv 2)
  let index := uint32 (y * span + x.tdiv 2)
  let byte ← read frame index
  let byte := byte.toUInt32
  let byte : UInt32 := if x % 2 = 1 then (byte &&& (0xf0 : UInt32)) ||| gray else (byte &&& (0x0f : UInt32)) ||| (gray <<< 4)
  write frame index byte.toUInt8

/-- The byte with the gray in both of its pixels. -/
def gray4bitByte (gray : UInt32) : UInt8 := ((gray <<< 4) ||| gray).toUInt8

/-- `sizeofSize` is `sizeof(frame_buffer_size)`, the size of a `size_t`. -/
def gray4bitWriteBackground (sizeofSize : Nat) (graphics : GraphicsState Frame) : Option Frame :=
  fill graphics.buffer 0 sizeofSize (gray4bitByte (gray4bitColorTo4bitGray graphics.background))

def gray4bitWriteArea (graphics : GraphicsState Frame) (unclippedArea : Area) : Option Frame :=
  fillArea gray4bitSetPixel (gray4bitColorTo4bitGray graphics.foreground) graphics unclippedArea

def gray4bitWriteImage (graphics : GraphicsState Frame) (x y : Int) (image : Image) : Option Frame :=
  let dstArea := areaIntersection (imageArea x y image) graphics.clipping
  let dx := dstArea.x
  let dy := dstArea.y
  let sx := dx - x
  let sy := dy - y
  forInt 0 dstArea.height (fun cy frame => forInt 0 dstArea.width (fun cx frame => do
    let src := imageGetPixel image (sx + cx) (sy + cy)
    let r ← read image.data src
    let g ← read image.data (src + 1)
    let b ← read image.data (src + 2)
    let gray := gray4bitRgbTo4bitGray r.toUInt32 g.toUInt32 b.toUInt32
    gray4bitSetPixel graphics frame (dx + cx) (dy + cy) gray) frame) graphics.buffer

def gray4bitWriteBitmap (graphics : GraphicsState Frame) (rx ry : Int) (bitmap : Bitmap) : Option Frame :=
  let x := rx - bitmap.origin.x
  let y := ry - bitmap.origin.y
  let dstArea := areaIntersection ⟨x, y, bitmap.width, bitmap.height⟩ graphics.clipping
  let dx := dstArea.x
  let dy := dstArea.y
  let sx := dx - x
  let sy := dy - y
  let foreground := graphics.foreground
  let background := graphics.background
  let max : UInt32 := (1 <<< UInt32.ofNat bitmap.depth) - 1
  forInt 0 dstArea.height (fun cy frame => forInt 0 dstArea.width (fun cx frame => do
    let alpha ← bitmapGetPixel bitmap (sx + cx) (sy + cy)
    let mix := fun (f s : UInt8) =>
      (f.toUInt32 * UInt32.ofNat alpha + s.toUInt32 * (max - UInt32.ofNat alpha)) / max
    let r := mix foreground.r background.r
    let g := mix foreground.g background.g
    let b := mix foreground.b background.b
    let gray := gray4bitRgbTo4bitGray r g b
    gray4bitSetPixel graphics frame (dx + cx) (dy + cy) gray) frame) graphics.buffer

def gray4bit (sizeofSize : Nat) : Backend Frame where
  writeBackground := gray4bitWriteBackground sizeofSize
  writeArea := gray4bitWriteArea
  writeImage := gray4bitWriteImage
  writeBitmap := gray4bitWriteBitmap

/-! ## The two ways to fill the screen -/

/-- `fd_graphics_write_background` with the background color. -/
def backgroundFrame (backend : Backend Frame) (graphics : GraphicsState Frame) (color : Color) : Option Frame :=
  (writeBackground backend (setBackground graphics color)).map GraphicsState.buffer

/-- `fd_graphics_write_area` of the whole screen with the foreground color, without clipping. -/
def areaFrame (backend : Backend Frame) (graphics : GraphicsState Frame) (color : Color) : Option Frame :=
  (writeArea backend (setForeground (removeClipping graphics) color) (screenArea graphics)).map
    GraphicsState.buffer

/-- Both fills stay in the frame buffer and leave it the same. -/
def SameFill (backend : Backend Frame) (graphics : GraphicsState Frame) (color : Color) : Prop :=
  ∃ frame, backgroundFrame backend graphics color = some frame ∧ areaFrame backend graphics color = some frame

section

variable {graphics : GraphicsState Frame} {frame : Frame} {color : Color}

theorem areaIntersection_self (graphics : GraphicsState Frame) (hw : 0 ≤ graphics.width)
    (hh : 0 ≤ graphics.height) :
    areaIntersection (screenArea graphics) (screenArea graphics) = screenArea graphics := by
  have hw' : max 0 0 ≤ min (0 + graphics.width) (0 + graphics.width) := by omega
  have hh' : max 0 0 ≤ min (0 + graphics.height) (0 + graphics.height) := by omega
  simp [areaIntersection, screenArea, hw, hh]

/-- The screen is not off the screen, so that the fill of the screen is that of the backend. -/
theorem areaFrame_eq (backend : Backend Frame) (graphics : GraphicsState Frame) (color : Color) :
    areaFrame backend graphics color =
      backend.writeArea (setForeground (removeClipping graphics) color) (screenArea graphics) := by
  have hon : offScreen (setForeground (removeClipping graphics) color) (screenArea graphics) = false := by
    simp [offScreen, screenArea, setForeground, removeClipping]
  rw [areaFrame, writeArea, hon]
  cases backend.writeArea (setForeground (removeClipping graphics) color) (screenArea graphics) <;> rfl

theorem backgroundFrame_eq (backend : Backend Frame) (graphics : GraphicsState Frame) (color : Color) :
    backgroundFrame backend graphics color = backend.writeBackground (setBackground graphics color) := by
  rw [backgroundFrame, writeBackground]
  cases backend.writeBackground (setBackground graphics color) <;> rfl

/-- The loops over the whole screen reach the goal where a pixel does. -/
theorem fillArea_toward {α κ β : Type} {setPixel : GraphicsState Frame → Frame → Int → Int → α → Option Frame}
    {value : α} {look : Frame → κ → β} {goal : κ → β} (T : Int → Int → κ → Prop) (hw : 0 ≤ graphics.width)
    (hh : 0 ≤ graphics.height) (hclip : graphics.clipping = screenArea graphics)
    (hset : ∀ x y (frame : Frame), 0 ≤ x → x < graphics.width → 0 ≤ y → y < graphics.height →
      frame.length = graphics.buffer.length →
      ∃ frame', setPixel graphics frame x y value = some frame' ∧ frame'.length = graphics.buffer.length ∧
        Toward look goal (T x y) frame frame') :
    ∃ frame, fillArea setPixel value graphics (screenArea graphics) = some frame ∧
      frame.length = graphics.buffer.length ∧
      Toward look goal (fun k => ∃ y, 0 ≤ y ∧ y < graphics.height ∧ ∃ x, 0 ≤ x ∧ x < graphics.width ∧ T x y k)
        graphics.buffer frame := by
  rw [fillArea, hclip, areaIntersection_self graphics hw hh]
  refine forInt_toward (P := fun frame : Frame => frame.length = graphics.buffer.length) _ rfl ?_
  intro y frame hy hy' hlen
  refine forInt_toward (P := fun frame : Frame => frame.length = graphics.buffer.length) _ hlen ?_
  intro x frame hx hx' hlen
  have hzero : (screenArea graphics).x + x = x ∧ (screenArea graphics).y + y = y :=
    ⟨Int.zero_add x, Int.zero_add y⟩
  rw [hzero.1, hzero.2]
  exact hset x y frame hx hx' hy hy' hlen

/-! ## Two or three bytes for each pixel -/

theorem rank_surj {n m r : Int} (h : 0 ≤ r) (h' : r < n * m) (hm : 0 ≤ m) :
    ∃ i, 0 ≤ i ∧ i < n ∧ ∃ j, 0 ≤ j ∧ j < m ∧ r = i * m + j := by
  have hpos : 0 < m := by
    rcases Int.lt_or_eq_of_le hm with hpos | rfl
    · exact hpos
    · rw [Int.mul_zero] at h'
      omega
  refine ⟨r / m, Int.ediv_nonneg h hm, Int.ediv_lt_of_lt_mul hpos h', r % m, Int.emod_nonneg r (by omega),
    Int.emod_lt_of_pos r hpos, ?_⟩
  rw [Int.mul_comm, Int.mul_ediv_add_emod]

/-- The frame buffer in which every pixel has the bytes `bytes`. -/
def repeated (bytes : List UInt8) (size : Nat) (i : Nat) : Option UInt8 :=
  if i < size then bytes[i % bytes.length]? else none

theorem repeated_place {bytes : List UInt8} {size : Nat} {n : Int} (hn : 0 ≤ n)
    (hsize : bytes.length * n + bytes.length ≤ size) (j : Nat) (hj : j < bytes.length) :
    repeated bytes size ((bytes.length * n).toNat + j) = bytes[j]? := by
  obtain ⟨k, rfl⟩ := Int.eq_ofNat_of_zero_le hn
  have hplace : ((bytes.length : Int) * (k : Int)).toNat = bytes.length * k := by
    rw [← Int.natCast_mul, Int.toNat_natCast]
  have hsize' : bytes.length * k + bytes.length ≤ size := by exact_mod_cast hsize
  rw [repeated, hplace, if_pos (by omega), Nat.mul_add_mod, Nat.mod_eq_of_lt hj]

/-- The background: the pixels one after the other. -/
theorem background_loop {bytes : List UInt8} {count : Int} (hcount : 0 ≤ count)
    (hlen : (frame.length : Int) = bytes.length * count) :
    ∃ frame', (forInt 0 count (fun _ (data, frame) => do
        let frame ← writeAll frame data bytes
        some (data + (bytes.length : Int), frame)) ((0 : Int), frame)).map Prod.snd = some frame' ∧
      frame'.length = frame.length ∧
      Toward (fun bs k => bs[k]?) (repeated bytes frame.length) (fun k => k < frame.length) frame frame' := by
  obtain ⟨state, hstate, -, hlen', htoward⟩ : ∃ state, forInt 0 count (fun _ (state : Int × Frame) => do
        let frame ← writeAll state.2 state.1 bytes
        some (state.1 + (bytes.length : Int), frame)) ((0 : Int), frame) = some state ∧
      state.1 = bytes.length * count ∧ state.2.length = frame.length ∧
      Toward (fun bs k => bs[k]?) (repeated bytes frame.length) (fun k => (k : Int) < bytes.length * count)
        frame state.2 := by
    refine forInt_invariant (fun i (state : Int × Frame) => state.1 = bytes.length * i ∧
      state.2.length = frame.length ∧
      Toward (fun bs k => bs[k]?) (repeated bytes frame.length) (fun k => (k : Int) < bytes.length * i)
        frame state.2) hcount ?_ ?_
    · refine ⟨(Int.mul_zero _).symm, rfl, (Toward.refl _ _ _).mono fun k hk => ?_⟩
      rw [Int.mul_zero] at hk
      omega
    · rintro i ⟨data, frame'⟩ hi hi' ⟨rfl, hlen', htoward⟩
      have hend : (bytes.length : Int) * (i + 1) ≤ bytes.length * count :=
        Int.mul_le_mul_of_nonneg_left (by omega) (by omega)
      rw [Int.mul_add, Int.mul_one] at hend
      have hstart : 0 ≤ (bytes.length : Int) * i := Int.mul_nonneg (by omega) hi
      dsimp only at hlen'
      obtain ⟨frame'', hwrite, hlen'', htoward'⟩ := writeAll_toward bytes hstart
        (show (bytes.length : Int) * i + bytes.length ≤ frame'.length by omega)
        (fun j hj => repeated_place hi (show _ ≤ (frame.length : Int) by omega) j hj)
      refine ⟨(bytes.length * i + bytes.length, frame''), ?_, ?_, hlen''.trans hlen',
        (htoward.trans htoward').mono ?_⟩
      · rw [hwrite, Option.bind_eq_bind, Option.bind_some]
      · rw [Int.mul_add, Int.mul_one]
      · intro k hk
        rw [Int.mul_add, Int.mul_one] at hk
        omega
  refine ⟨state.2, by rw [hstate, Option.map_some], hlen', htoward.mono ?_⟩
  intro k hk
  omega

/-- The fill of the screen: each pixel at the place of its row and column. -/
theorem row_fill {α : Type} {setPixel : GraphicsState Frame → Frame → Int → Int → α → Option Frame} {value : α}
    {bytes : List UInt8} (hw : 0 ≤ graphics.width) (hh : 0 ≤ graphics.height)
    (hclip : graphics.clipping = screenArea graphics)
    (hlen : (graphics.buffer.length : Int) = bytes.length * (graphics.width * graphics.height))
    (hset : ∀ x y frame, (x, y) ∈ points (screenArea graphics) →
      setPixel graphics frame x y value = writeAll frame (bytes.length * (y * graphics.width + x)) bytes) :
    ∃ frame, fillArea setPixel value graphics (screenArea graphics) = some frame ∧
      frame.length = graphics.buffer.length ∧
      Toward (fun bs k => bs[k]?) (repeated bytes graphics.buffer.length) (fun k => k < graphics.buffer.length)
        graphics.buffer frame := by
  have hpixel : ∀ x y (frame : Frame), 0 ≤ x → x < graphics.width → 0 ≤ y → y < graphics.height →
      frame.length = graphics.buffer.length →
      ∃ frame', setPixel graphics frame x y value = some frame' ∧ frame'.length = graphics.buffer.length ∧
        Toward (fun bs k => bs[k]?) (repeated bytes graphics.buffer.length)
          (fun k : Nat => bytes.length * (y * graphics.width + x) ≤ k ∧
            (k : Int) < bytes.length * (y * graphics.width + x) + bytes.length) frame frame' := by
    intro x y frame hx hx' hy hy' hframe
    obtain ⟨hrank, hrank'⟩ := rank_lt hy hy' hx hx'
    have hend : (bytes.length : Int) * (y * graphics.width + x + 1) ≤
        bytes.length * (graphics.height * graphics.width) := Int.mul_le_mul_of_nonneg_left (by omega) (by omega)
    rw [Int.mul_add, Int.mul_one, Int.mul_comm graphics.height, ← hlen] at hend
    have hstart : 0 ≤ (bytes.length : Int) * (y * graphics.width + x) := Int.mul_nonneg (by omega) hrank
    obtain ⟨frame', hwrite, hlen', htoward⟩ := writeAll_toward bytes hstart
      (show (bytes.length : Int) * (y * graphics.width + x) + bytes.length ≤ frame.length by omega)
      (repeated_place hrank hend)
    rw [hset x y frame (mem_screenArea.mpr ⟨⟨hx, hx'⟩, hy, hy'⟩)]
    exact ⟨frame', hwrite, by omega, htoward.mono fun k hk => by omega⟩
  obtain ⟨frame, hfill, hlen', htoward⟩ := fillArea_toward _ hw hh hclip hpixel
  refine ⟨frame, hfill, hlen', htoward.mono fun k hk => ?_⟩
  -- the pixel that the byte belongs to
  have hpos : 0 < (bytes.length : Int) := by
    rcases Nat.eq_zero_or_pos bytes.length with hzero | hpos
    · rw [show (bytes.length : Int) = 0 by omega, Int.zero_mul] at hlen
      omega
    · omega
  obtain ⟨n, hn, hn', j, hj, hj', hkj⟩ := rank_surj (n := graphics.width * graphics.height) (m := bytes.length)
    (r := k) (by omega) (by rw [Int.mul_comm, ← hlen]; omega) (by omega)
  rw [Int.mul_comm] at hn'
  obtain ⟨y, hy, hy', x, hx, hx', rfl⟩ := rank_surj hn hn' hw
  rw [Int.mul_comm _ (bytes.length : Int)] at hkj
  exact ⟨y, hy, hy', x, hx, hx', by omega, by omega⟩

/-- The two fills of a color backend write pixel after pixel, each with bytes of its own. -/
structure Fills (functions : PixelFunctions) (backend : Backend Frame) (graphics : GraphicsState Frame)
    (color : Color) (areaBytes backgroundBytes : List UInt8) : Prop where
  size : areaBytes.length = backgroundBytes.length
  positive : 0 < areaBytes.length
  length : (graphics.buffer.length : Int) = areaBytes.length * (graphics.width * graphics.height)
  area : backend.writeArea = functions.writeArea
  background : backend.writeBackground (setBackground graphics color) =
    (forInt 0 (graphics.width * graphics.height) (fun _ (data, frame) => do
      let frame ← writeAll frame data backgroundBytes
      some (data + (backgroundBytes.length : Int), frame)) ((0 : Int), graphics.buffer)).map Prod.snd
  set : ∀ x y frame, (x, y) ∈ points (screenArea graphics) →
    functions.setPixel (setForeground (removeClipping graphics) color) frame x y color =
      writeAll frame (areaBytes.length * (y * graphics.width + x)) areaBytes

variable {functions : PixelFunctions} {backend : Backend Frame} {areaBytes backgroundBytes : List UInt8}

theorem Fills.reach (h : Fills functions backend graphics color areaBytes backgroundBytes)
    (hw : 0 ≤ graphics.width) (hh : 0 ≤ graphics.height) :
    ∃ frame frame', backgroundFrame backend graphics color = some frame ∧
      areaFrame backend graphics color = some frame' ∧ frame.length = graphics.buffer.length ∧
      frame'.length = graphics.buffer.length ∧
      Toward (fun bs k => bs[k]?) (repeated backgroundBytes graphics.buffer.length)
        (fun k => k < graphics.buffer.length) graphics.buffer frame ∧
      Toward (fun bs k => bs[k]?) (repeated areaBytes graphics.buffer.length)
        (fun k => k < graphics.buffer.length) graphics.buffer frame' := by
  obtain ⟨frame, hframe, hlen₁, htoward₁⟩ := background_loop (Int.mul_nonneg hw hh)
    (show (graphics.buffer.length : Int) = backgroundBytes.length * _ by rw [← h.size, h.length])
  obtain ⟨frame', hframe', hlen₂, htoward₂⟩ := @row_fill
    (setForeground (removeClipping graphics) color) _ _ _ areaBytes hw hh rfl h.length h.set
  refine ⟨frame, frame', ?_, ?_, hlen₁, hlen₂, htoward₁, htoward₂⟩
  · rw [backgroundFrame_eq, h.background, hframe]
  · rw [areaFrame_eq, h.area]
    exact hframe'

/-- The fills are the same exactly when the bytes are, or when there is no pixel. -/
theorem Fills.sameFill_iff (h : Fills functions backend graphics color areaBytes backgroundBytes)
    (hw : 0 ≤ graphics.width) (hh : 0 ≤ graphics.height) :
    SameFill backend graphics color ↔
      graphics.width = 0 ∨ graphics.height = 0 ∨ areaBytes = backgroundBytes := by
  have hsize := h.size
  have hpos := h.positive
  have hlen := h.length
  obtain ⟨frame, frame', hframe, hframe', hlen₁, hlen₂, htoward₁, htoward₂⟩ := h.reach hw hh
  have hsame : SameFill backend graphics color ↔ frame = frame' := by
    constructor
    · rintro ⟨f, hf, hf'⟩
      rw [hframe] at hf
      rw [hframe'] at hf'
      rw [Option.some.inj hf, Option.some.inj hf']
    · rintro rfl
      exact ⟨frame, hframe, hframe'⟩
  rw [hsame]
  constructor
  · rintro rfl
    by_contra hne
    simp only [not_or] at hne
    have hpixels : 0 < graphics.width * graphics.height := Int.mul_pos (by omega) (by omega)
    have hroom : (areaBytes.length : Int) * 1 ≤ areaBytes.length * (graphics.width * graphics.height) :=
      Int.mul_le_mul_of_nonneg_left (by omega) (by omega)
    -- the first pixel has the bytes of both
    refine hne.2.2 (List.ext_getElem? fun j => ?_)
    rcases Nat.lt_or_ge j areaBytes.length with hj | hj
    · have harea := htoward₂.reached j (by omega)
      have hback := htoward₁.reached j (by omega)
      rw [repeated, if_pos (by omega), Nat.mod_eq_of_lt (by omega)] at harea hback
      rw [← harea, ← hback]
    · rw [List.getElem?_eq_none hj, List.getElem?_eq_none (by omega)]
  · rintro (hzero | hzero | hbytes)
    · rw [hzero, Int.zero_mul, Int.mul_zero] at hlen
      rw [List.eq_nil_of_length_eq_zero (by omega : frame.length = 0),
        List.eq_nil_of_length_eq_zero (by omega : frame'.length = 0)]
    · rw [hzero, Int.mul_zero, Int.mul_zero] at hlen
      rw [List.eq_nil_of_length_eq_zero (by omega : frame.length = 0),
        List.eq_nil_of_length_eq_zero (by omega : frame'.length = 0)]
    · rw [← hbytes] at htoward₁
      exact eq_of_toward htoward₁ htoward₂ (by omega) (fun k hk => by omega) (fun k hk => by omega)

theorem color8bit_fills (hfits : color8bitFormat.Fits graphics) (color : Color) :
    Fills color8bitFunctions color8bit graphics color [color.r, color.g, color.b] [color.r, color.g, color.b] where
  size := rfl
  positive := Nat.succ_pos 2
  length := hfits.length
  area := rfl
  background := rfl
  set := by
    intro x y frame hp
    have hone := uint32_row_add hfits hp 1 (by omega) (by omega)
    have htwo := uint32_row_add hfits hp 2 (by omega) (by omega)
    simp only [color8bitFunctions, color8bitSetPixel, setForeground, removeClipping, uint32_row hfits hp, hone,
      htwo, Option.bind_eq_bind]
    simp [writeAll, Int.add_assoc]

theorem color16bit_fills (hfits : color16bitFormat.Fits graphics) (color : Color) :
    Fills color16bitFunctions color16bit graphics color
      [(color16bitWord color >>> 8).toUInt8, (color16bitWord color).toUInt8]
      [(color16bitWord color).toUInt8, (color16bitWord color >>> 8).toUInt8] where
  size := rfl
  positive := Nat.succ_pos 1
  length := hfits.length
  area := rfl
  background := rfl
  set := by
    intro x y frame hp
    have hone := uint32_row_add hfits hp 1 (by omega) (by omega)
    simp only [color16bitFunctions, color16bitSetPixel, setForeground, removeClipping, uint32_row hfits hp, hone,
      Option.bind_eq_bind]
    simp [writeAll]

/-! ## Two pixels for each byte -/

/-- The pixel `k` of the frame buffer of `gray4bit`. -/
def nibble (frame : Frame) (k : Nat) : Option Nat :=
  (frame[k / 2]?).map fun byte => if k % 2 = 1 then byte.toNat % 16 else byte.toNat / 16

theorem gray_lt (color : Color) : (gray4bitColorTo4bitGray color).toNat < 16 := by
  have hr := color.r.toNat_lt
  have hg := color.g.toNat_lt
  have hb := color.b.toNat_lt
  simp only [gray4bitColorTo4bitGray, gray4bitRgbTo4bitGray, UInt32.toNat_shiftRight, UInt32.toNat_div,
    UInt32.toNat_add, UInt8.toNat_toUInt32, UInt32.reduceToNat, Nat.shiftRight_eq_div_pow, Nat.reduceMod,
    Nat.reducePow]
  omega

theorem and_high (n : Nat) (h : n < 256) : n &&& 0xf0 = 2 ^ 4 * (n / 16) := by
  have hall : ∀ n < 256, n &&& 0xf0 = 2 ^ 4 * (n / 16) := by decide +kernel
  exact hall n h

theorem toNat_shift {gray : UInt32} (h : gray.toNat < 16) : (gray <<< 4).toNat = 2 ^ 4 * gray.toNat := by
  simp only [UInt32.toNat_shiftLeft, UInt32.reduceToNat, Nat.shiftLeft_eq, Nat.reduceMod, Nat.reducePow]
  omega

theorem toNat_low (byte : UInt8) {gray : UInt32} (h : gray.toNat < 16) :
    ((byte.toUInt32 &&& (0xf0 : UInt32)) ||| gray).toUInt8.toNat = 16 * (byte.toNat / 16) + gray.toNat := by
  have hbyte := byte.toNat_lt
  rw [UInt32.toNat_toUInt8, UInt32.toNat_or, UInt32.toNat_and, UInt8.toNat_toUInt32]
  rw [show (0xf0 : UInt32).toNat = 0xf0 from rfl, and_high _ hbyte, ← Nat.two_pow_add_eq_or_of_lt h]
  omega

theorem toNat_high (byte : UInt8) {gray : UInt32} (h : gray.toNat < 16) :
    ((byte.toUInt32 &&& (0x0f : UInt32)) ||| (gray <<< 4)).toUInt8.toNat = 16 * gray.toNat + byte.toNat % 16 := by
  have hmask : byte.toNat &&& 0xf = byte.toNat % 2 ^ 4 := Nat.and_two_pow_sub_one_eq_mod byte.toNat 4
  rw [UInt32.toNat_toUInt8, UInt32.toNat_or, UInt32.toNat_and, UInt8.toNat_toUInt32, toNat_shift h]
  rw [show (0x0f : UInt32).toNat = 0xf from rfl, hmask, Nat.or_comm,
    ← Nat.two_pow_add_eq_or_of_lt (Nat.mod_lt _ (by omega))]
  omega

theorem gray4bitByte_toNat {gray : UInt32} (h : gray.toNat < 16) :
    (gray4bitByte gray).toNat = 16 * gray.toNat + gray.toNat := by
  rw [gray4bitByte, UInt32.toNat_toUInt8, UInt32.toNat_or, toNat_shift h, ← Nat.two_pow_add_eq_or_of_lt h]
  omega

/-- Frame buffers of two pixels for each byte, with offsets that do not overflow. -/
structure GrayFits (graphics : GraphicsState Frame) (half : Int) : Prop where
  width : graphics.width = 2 * half
  nonneg : 0 ≤ half
  height : 0 ≤ graphics.height
  length : (graphics.buffer.length : Int) = half * graphics.height
  small : graphics.buffer.length ≤ 2 ^ 32

/-- A byte with another pixel set, seen from the pixel `k` of the frame buffer. -/
theorem nibble_toward {i : Nat} {byte byte' : UInt8} {gray : Nat} {parity : Nat} (hparity : parity < 2)
    (hbyte : frame[i]? = some byte)
    (hset : byte'.toNat = if parity = 1 then 16 * (byte.toNat / 16) + gray else 16 * gray + byte.toNat % 16)
    (hgray : gray < 16) :
    Toward nibble (fun k => if k < 2 * frame.length then some gray else none) (fun k => k = 2 * i + parity)
      frame (frame.set i byte') := by
  have hi : i < frame.length := (List.getElem?_eq_some_iff.mp hbyte).1
  have hb := byte.toNat_lt
  constructor
  · rintro k rfl
    rw [nibble, show (2 * i + parity) / 2 = i by omega, show (2 * i + parity) % 2 = parity by omega,
      List.getElem?_set_self hi, Option.map_some,
      if_pos (show 2 * i + parity < 2 * frame.length by omega), Option.some.injEq]
    split at hset <;> split <;> omega
  · intro k
    by_cases hk : k / 2 = i
    · rw [nibble, nibble, hk, List.getElem?_set_self hi, hbyte, if_pos (show k < 2 * frame.length by omega), Option.map_some,
        Option.map_some, Option.some.injEq, Option.some.injEq]
      split at hset <;> split <;> omega
    · exact .inr (by rw [nibble, nibble, List.getElem?_set_ne (Ne.symm hk)])

/-- Which byte of the frame buffer the pixel in row `y` and column `x` from the end is in. -/
theorem gray4bit_index {half : Int} (h : GrayFits graphics half) {x y : Int} (hx : 0 ≤ x)
    (hx' : x < graphics.width) (hy : 0 ≤ y) (hy' : y < graphics.height) :
    uint32 (y * uint32 (graphics.width.tdiv 2) + x.tdiv 2) = y * half + x / 2 ∧
      0 ≤ y * half + x / 2 ∧ y * half + x / 2 < graphics.buffer.length := by
  have hwidth := h.width
  have hnonneg := h.nonneg
  have hsmall := h.small
  have hrank := rank_lt (n := graphics.height) (m := half) (i := y) (j := x / 2) hy hy' (by omega) (by omega)
  rw [Int.mul_comm graphics.height, ← h.length] at hrank
  refine ⟨?_, hrank⟩
  rw [Int.tdiv_eq_ediv_of_nonneg hx, Int.tdiv_eq_ediv_of_nonneg (by omega), show graphics.width / 2 = half by omega]
  calc uint32 (y * uint32 half + x / 2) = (y * half + x / 2) % 2 ^ 32 := by
        rw [uint32, uint32, Int.add_emod, Int.mul_emod, Int.emod_emod, ← Int.mul_emod, ← Int.add_emod]
    _ = y * half + x / 2 := Int.emod_eq_of_lt hrank.1 (by omega)

theorem gray4bitSetPixel_toward {half : Int} (h : GrayFits graphics half) {lx ly : Int} {gray : UInt32}
    (hgray : gray.toNat < 16) (hlx : 0 ≤ lx) (hlx' : lx < graphics.width) (hly : 0 ≤ ly)
    (hly' : ly < graphics.height) (hframe : frame.length = graphics.buffer.length) :
    ∃ frame', gray4bitSetPixel graphics frame lx ly gray = some frame' ∧
      frame'.length = graphics.buffer.length ∧
      Toward nibble (fun k => if k < 2 * graphics.buffer.length then some gray.toNat else none)
        (fun k => (k : Int) = 2 * ((graphics.height - ly - 1) * half) + (graphics.width - lx - 1)) frame frame' := by
  obtain ⟨hindex, hpos, hlt⟩ := gray4bit_index h (x := graphics.width - lx - 1) (y := graphics.height - ly - 1)
    (by omega) (by omega) (by omega) (by omega)
  obtain ⟨i, hi⟩ := Int.eq_ofNat_of_zero_le hpos
  rw [hi] at hindex hlt
  obtain ⟨byte, hread⟩ := read_total (Int.natCast_nonneg i) (show (i : Int) < frame.length by omega)
  have hbyte : frame[i]? = some byte := by rw [← read_natCast, hread]
  have hwrite : ∀ byte', write frame i byte' = some (frame.set i byte') := write_natCast (by omega)
  rw [← hframe]
  -- an odd column is in the low half of the byte
  rcases Int.emod_two_eq (graphics.width - lx - 1) with heven | hodd
  · refine ⟨_, ?_, List.length_set, (nibble_toward (show 0 < 2 by omega) hbyte (toNat_high byte hgray)
      hgray).mono ?_⟩
    · simp only [gray4bitSetPixel, hindex, hread, Option.bind_eq_bind, Option.bind_some, heven, hwrite]
      simp
    · intro k hk
      omega
  · refine ⟨_, ?_, List.length_set, (nibble_toward (show 1 < 2 by omega) hbyte (toNat_low byte hgray)
      hgray).mono ?_⟩
    · simp only [gray4bitSetPixel, hindex, hread, Option.bind_eq_bind, Option.bind_some, hodd, hwrite, if_true]
    · intro k hk
      omega

/-- The fill of the screen leaves the byte with the gray in both pixels everywhere. -/
theorem gray4bit_fill {half : Int} (h : GrayFits graphics half) (hclip : graphics.clipping = screenArea graphics)
    {gray : UInt32} (hgray : gray.toNat < 16) :
    fillArea gray4bitSetPixel gray graphics (screenArea graphics) =
      some (List.replicate graphics.buffer.length (gray4bitByte gray)) := by
  have hwidth := h.width
  have hnonneg := h.nonneg
  obtain ⟨frame, hfill, hlen, htoward⟩ := fillArea_toward _ (by omega) h.height hclip
    fun x y frame hx hx' hy hy' hframe => gray4bitSetPixel_toward h hgray hx hx' hy hy' hframe
  have hnibble : ∀ k, k < 2 * graphics.buffer.length → nibble frame k = some gray.toNat := by
    intro k hk
    refine (htoward.reached k ?_).trans (if_pos hk)
    have hbytes := h.length
    rw [Int.mul_comm] at hbytes
    obtain ⟨y, hy, hy', x, hx, hx', hrank⟩ := rank_surj (n := graphics.height) (m := half) (r := ((k / 2 : Nat) : Int))
      (by omega) (by omega) hnonneg
    refine ⟨graphics.height - 1 - y, by omega, by omega, graphics.width - 1 - (2 * x + k % 2), by omega, by omega, ?_⟩
    rw [show graphics.height - (graphics.height - 1 - y) - 1 = y by omega]
    omega
  rw [hfill, Option.some.injEq, List.eq_replicate_iff]
  refine ⟨hlen, fun byte hbyte => ?_⟩
  obtain ⟨i, hi, rfl⟩ := List.getElem_of_mem hbyte
  -- both pixels of the byte
  have hhigh := hnibble (2 * i) (by omega)
  have hlow := hnibble (2 * i + 1) (by omega)
  rw [nibble, show (2 * i + 1) / 2 = i by omega, List.getElem?_eq_getElem hi, Option.map_some,
    if_pos (by omega), Option.some.injEq] at hlow
  rw [nibble, show 2 * i / 2 = i by omega, List.getElem?_eq_getElem hi, Option.map_some,
    if_neg (by omega), Option.some.injEq] at hhigh
  apply UInt8.toNat_inj.mp
  rw [gray4bitByte_toNat hgray]
  omega

theorem gray4bit_sameFill_iff {half : Int} (h : GrayFits graphics half) (sizeofSize : Nat) (color : Color) :
    SameFill (gray4bit sizeofSize) graphics color ↔
      sizeofSize ≤ graphics.buffer.length ∧
        ∀ byte ∈ graphics.buffer.drop sizeofSize, byte = gray4bitByte (gray4bitColorTo4bitGray color) := by
  have harea : areaFrame (gray4bit sizeofSize) graphics color =
      some (List.replicate graphics.buffer.length (gray4bitByte (gray4bitColorTo4bitGray color))) := by
    rw [areaFrame_eq]
    exact @gray4bit_fill (setForeground (removeClipping graphics) color) _
      ⟨h.width, h.nonneg, h.height, h.length, h.small⟩ rfl _ (gray_lt color)
  have hback : backgroundFrame (gray4bit sizeofSize) graphics color =
      fill graphics.buffer 0 sizeofSize (gray4bitByte (gray4bitColorTo4bitGray color)) := backgroundFrame_eq _ _ _
  rw [SameFill, harea, hback]
  rcases Nat.lt_or_ge graphics.buffer.length sizeofSize with hlt | hle
  · -- the fill goes past the end of the frame buffer
    rw [fill_eq_none hlt]
    constructor
    · rintro ⟨frame, hnone, -⟩
      exact absurd hnone (by simp)
    · rintro ⟨hle, -⟩
      omega
  · have hrest : (∀ byte ∈ graphics.buffer.drop sizeofSize, byte = gray4bitByte (gray4bitColorTo4bitGray color)) ↔
        graphics.buffer.drop sizeofSize = List.replicate (graphics.buffer.length - sizeofSize)
          (gray4bitByte (gray4bitColorTo4bitGray color)) := by
      rw [List.eq_replicate_iff, List.length_drop]
      simp
    rw [fill_eq hle, hrest]
    constructor
    · rintro ⟨frame, hframe, hframe'⟩
      have hsame := (Option.some.inj hframe).trans (Option.some.inj hframe').symm
      refine ⟨hle, ?_⟩
      have hdrop := congrArg (List.drop sizeofSize) hsame
      rwa [List.drop_left' List.length_replicate, List.drop_replicate] at hdrop
    · rintro ⟨-, hdrop⟩
      refine ⟨_, rfl, ?_⟩
      rw [hdrop, List.replicate_append_replicate, Nat.add_sub_cancel' hle]

end

/-- The screen sizes and frame buffers of the claim: for each backend, the condition under which the two
fills are the same. -/
theorem background_is_area_fill (graphics : GraphicsState Frame) (color : Color) :
    (color8bitFormat.Fits graphics → SameFill color8bit graphics color) ∧
    (color16bitFormat.Fits graphics →
      (SameFill color16bit graphics color ↔ graphics.width = 0 ∨ graphics.height = 0 ∨
        (color16bitWord color >>> 8).toUInt8 = (color16bitWord color).toUInt8)) ∧
    ∀ half sizeofSize, GrayFits graphics half →
      (SameFill (gray4bit sizeofSize) graphics color ↔ sizeofSize ≤ graphics.buffer.length ∧
        ∀ byte ∈ graphics.buffer.drop sizeofSize, byte = gray4bitByte (gray4bitColorTo4bitGray color)) := by
  refine ⟨?_, ?_, fun half sizeofSize h => gray4bit_sameFill_iff h sizeofSize color⟩
  · intro hfits
    exact ((color8bit_fills hfits color).sameFill_iff hfits.width hfits.height).mpr (.inr (.inr rfl))
  · intro hfits
    rw [(color16bit_fills hfits color).sameFill_iff hfits.width hfits.height]
    simp only [List.cons.injEq, and_true]
    constructor
    · rintro (hw | hh | ⟨hbytes, -⟩)
      · exact .inl hw
      · exact .inr (.inl hh)
      · exact .inr (.inr hbytes)
    · rintro (hw | hh | hbytes)
      · exact .inl hw
      · exact .inr (.inl hh)
      · exact .inr (.inr ⟨hbytes, hbytes.symm⟩)

def red : Color := ⟨0, 0, 0xff, 0xff⟩

/-- A screen of two by one pixels in four bytes, and one of four by four pixels in eight. -/
def twoWords : GraphicsState Frame := ⟨2, 1, [0, 0, 0, 0], ⟨0, 0, 2, 1⟩, emptyFont, white, black⟩

def eightBytes : GraphicsState Frame := ⟨4, 4, [0, 0, 0, 0, 0, 0, 0, 0], ⟨0, 0, 4, 4⟩, emptyFont, white, black⟩

/-- The red background of `color16bit` has the bytes `00 f8`, the red area `f8 00`; the white background of
`gray4bit` ends after four bytes. -/
theorem background_differs :
    (color16bitFormat.Fits twoWords ∧ ¬ SameFill color16bit twoWords red) ∧
    GrayFits eightBytes 2 ∧ ¬ SameFill (gray4bit 4) eightBytes white := by
  have hwords : backgroundFrame color16bit twoWords red ≠ areaFrame color16bit twoWords red := by decide
  have hbytes : backgroundFrame (gray4bit 4) eightBytes white ≠ areaFrame (gray4bit 4) eightBytes white := by decide
  refine ⟨⟨⟨by decide, by decide, rfl, by decide⟩, ?_⟩, ⟨rfl, by decide, by decide, rfl, by decide⟩, ?_⟩
  · rintro ⟨frame, hframe, hframe'⟩
    exact hwords (hframe.trans hframe'.symm)
  · rintro ⟨frame, hframe, hframe'⟩
    exact hbytes (hframe.trans hframe'.symm)

/-- A white background in the frame buffer that is white after the first four bytes. -/
theorem background_is_area_fill_white :
    SameFill (gray4bit 4) { eightBytes with buffer := [0, 0, 0, 0, 0xff, 0xff, 0xff, 0xff] } white :=
  ((background_is_area_fill { eightBytes with buffer := [0, 0, 0, 0, 0xff, 0xff, 0xff, 0xff] } white).2.2 2 4
    ⟨rfl, by decide, by decide, rfl, by decide⟩).mpr ⟨by decide, fun byte hbyte =>
      (List.eq_of_mem_replicate (show byte ∈ List.replicate 4 0xff from hbyte)).trans (by decide)⟩

end Graphics
end Firefly
