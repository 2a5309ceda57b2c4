import Mathlib.Tactic.ByContra
import Firefly.Graphics.Strings

/-!
# Firefly.Graphics.Drawings

The text, icon and image drawing classes, and the canvas that renders drawings inside a changed area. A
view holds its content by value: whoever changes the content of a string, a font, a bitmap or an image
counts its revision up. The font that the layout of a text leaves in the graphics is set again before
it is read.

* `Reached.laid`: after an update the area and the origin are those of the view.
* `canvasRender_marks`: a drawing that stays inside its area can be skipped when the area misses the change.
* `drawings_stay_inside`: texts and icons always do; an image does exactly when it is drawn at its area.
-/

namespace Firefly
namespace Graphics

open Accesses

inductive Alignment where
  | origin
  | min
  | max
  | center
deriving DecidableEq, Repr

structure Alignments where
  x : Alignment
  y : Alignment
deriving DecidableEq, Repr

structure StringResource where
  revision : UInt32
  string : List UInt8
deriving DecidableEq

structure FontResource where
  revision : UInt32
  font : Font
deriving DecidableEq

structure BitmapResource where
  revision : UInt32
  bitmap : Bitmap
deriving DecidableEq

structure ImageResource where
  revision : UInt32
  image : Image
deriving DecidableEq

structure TextView where
  visible : Bool
  location : Point
  alignments : Alignments
  string : StringResource
  font : FontResource
  color : Color
deriving DecidableEq

structure IconView where
  visible : Bool
  location : Point
  alignments : Alignments
  bitmap : BitmapResource
  color : Color
deriving DecidableEq

structure ImageView where
  visible : Bool
  location : Point
  alignments : Alignments
  image : ImageResource
deriving DecidableEq

structure Drawing (V : Type) where
  view : V
  previousView : V
  area : Area
  origin : Point

/-- The `switch` over the alignment of one axis. -/
def align (alignment : Alignment) (location start size : Int) : Int :=
  match alignment with
  | .origin => location
  | .min => location - start
  | .max => location - (start + size)
  | .center => location - (start + size.tdiv 2)

/-- The area and the origin of a drawing whose content has the bounds `area`, drawn at `offset`. -/
def place (area : Area) (location : Point) (alignments : Alignments) (offset : Point) : Area × Point :=
  let x := align alignments.x location.x area.x area.width
  let y := align alignments.y location.y area.y area.height
  (area.translate x y, ⟨x + offset.x, y + offset.y⟩)

/-- The area and the origin that `fd_drawing_text_layout` sets. -/
def textLayout (view : TextView) : Area × Point :=
  if !view.visible then (areaEmpty, view.location)
  else
    let metrics := getStringMetricsLength view.font.font view.string.string
    place metrics.bounds view.location view.alignments ⟨0, 0⟩

def iconLayout (view : IconView) : Area × Point :=
  if !view.visible then (areaEmpty, view.location)
  else
    let bitmap := view.bitmap.bitmap
    place ⟨0, 0, bitmap.width, bitmap.height⟩ view.location view.alignments bitmap.origin

def imageLayout (view : ImageView) : Area × Point :=
  if !view.visible then (areaEmpty, view.location)
  else
    let image := view.image.image
    place ⟨0, 0, image.width, image.height⟩ view.location view.alignments image.origin

/-- The update of the three classes: the drawing, and the change that is added to the canvas. -/
def updateWith {V : Type} [DecidableEq V] (layout : V → Area × Point) (isOpaque : Area → Area → Bool)
    (drawing : Drawing V) : Drawing V × Option (Area × Bool) :=
  if drawing.previousView = drawing.view then (drawing, none)
  else
    let oldArea := drawing.area
    let (newArea, origin) := layout drawing.view
    (⟨drawing.view, drawing.view, newArea, origin⟩, some (areaUnion oldArea newArea, isOpaque newArea oldArea))

def textUpdate : Drawing TextView → Drawing TextView × Option (Area × Bool) :=
  updateWith textLayout fun _ _ => false

def iconUpdate : Drawing IconView → Drawing IconView × Option (Area × Bool) :=
  updateWith iconLayout areaContains

def imageUpdate : Drawing ImageView → Drawing ImageView × Option (Area × Bool) :=
  updateWith imageLayout areaContains

section

variable {β : Type} (backend : Backend β) (graphics : GraphicsState β)

def textRender (drawing : Drawing TextView) : Option (GraphicsState β) :=
  let view := drawing.previousView
  if !view.visible then some graphics
  else
    writeStringLength backend (setForeground (setFont graphics view.font.font) view.color) drawing.origin.x
      drawing.origin.y view.string.string

def iconRender (drawing : Drawing IconView) : Option (GraphicsState β) :=
  let view := drawing.previousView
  if !view.visible then some graphics
  else
    writeBitmap backend (setForeground graphics view.color) drawing.origin.x drawing.origin.y view.bitmap.bitmap

def imageRender (drawing : Drawing ImageView) : Option (GraphicsState β) :=
  let view := drawing.previousView
  if !view.visible then some graphics
  else writeImage backend graphics drawing.origin.x drawing.origin.y view.image.image

end

/-- `fd_drawing_class_t`. The area that `get_area` reports is `area`. -/
structure DrawingClass (V : Type) where
  update : Drawing V → Drawing V × Option (Area × Bool)
  render : {β : Type} → Backend β → GraphicsState β → Drawing V → Option (GraphicsState β)

def textClass : DrawingClass TextView := ⟨textUpdate, textRender⟩

def iconClass : DrawingClass IconView := ⟨iconUpdate, iconRender⟩

def imageClass : DrawingClass ImageView := ⟨imageUpdate, imageRender⟩

/-- A drawing of any class. -/
structure AnyDrawing where
  {V : Type}
  cls : DrawingClass V
  object : Drawing V

/-- The drawings that a program can have: at first nothing visible was laid out; then views change, and
drawings are updated. -/
inductive Reached {V : Type} (visible : V → Bool) (cls : DrawingClass V) : Drawing V → Prop where
  | start {drawing : Drawing V} : visible drawing.previousView = false → Reached visible cls drawing
  | view {drawing : Drawing V} (view : V) : Reached visible cls drawing →
      Reached visible cls { drawing with view := view }
  | update {drawing : Drawing V} : Reached visible cls drawing → Reached visible cls (cls.update drawing).1

/-- What the drawing draws on a screen is inside its area, under every clipping. -/
def StaysInside {V : Type} (cls : DrawingClass V) (width height : Int) (drawing : Drawing V) : Prop :=
  ∀ graphics : GraphicsState (List Area), graphics.width = width → graphics.height = height →
    ∃ graphics' areas, cls.render marks graphics drawing = some graphics' ∧
      graphics'.buffer = graphics.buffer ++ areas ∧ marked areas ⊆ points drawing.area

section

variable {V : Type} [DecidableEq V] {visible : V → Bool} {layout : V → Area × Point}
  {isOpaque : Area → Area → Bool} {drawing : Drawing V}

end

/-- The same screen and the same clipping. -/
structure SameView (g g' : GraphicsState (List Area)) : Prop where
  width : g.width = g'.width
  height : g.height = g'.height
  clipping : g.clipping = g'.clipping

theorem SameView.refl (g : GraphicsState (List Area)) : SameView g g := ⟨rfl, rfl, rfl⟩

theorem SameView.symm {g g' : GraphicsState (List Area)} (h : SameView g g') : SameView g' g :=
  ⟨h.width.symm, h.height.symm, h.clipping.symm⟩

theorem SameView.trans {g g' g'' : GraphicsState (List Area)} (h : SameView g g') (h' : SameView g' g'') :
    SameView g g'' :=
  ⟨h.width.trans h'.width, h.height.trans h'.height, h.clipping.trans h'.clipping⟩

/-- What `marks` collects for a drawing: the areas depend on the screen and the clipping alone. -/
structure Renders {V : Type} (cls : DrawingClass V) (drawing : Drawing V)
    (areas : GraphicsState (List Area) → List Area) : Prop where
  render : ∀ g, ∃ g', cls.render marks g drawing = some g' ∧ g'.buffer = g.buffer ++ areas g ∧ SameView g' g
  same : ∀ g g', SameView g g' → areas g = areas g'
  clip : ∀ g, marked (areas g) ⊆ points g.clipping

theorem Renders.staysInside_iff {V : Type} {cls : DrawingClass V} {drawing : Drawing V}
    {areas : GraphicsState (List Area) → List Area} (h : Renders cls drawing areas) (width height : Int) :
    StaysInside cls width height drawing ↔
      ∀ g, g.width = width → g.height = height → marked (areas g) ⊆ points drawing.area := by
  constructor
  · intro hinside g hw hh
    obtain ⟨g', areas', hrender, hbuffer, hsub⟩ := hinside g hw hh
    obtain ⟨g'', hrender', hbuffer', -⟩ := h.render g
    obtain rfl : g' = g'' := Option.some.inj (hrender.symm.trans hrender')
    rw [hbuffer'] at hbuffer
    rwa [List.append_cancel_left hbuffer]
  · intro hsub g hw hh
    obtain ⟨g', hrender, hbuffer, -⟩ := h.render g
    exact ⟨g', areas g, hrender, hbuffer, hsub g hw hh⟩

/-- The drawing stays inside its area, and `marks` can follow it. -/
def AnyDrawing.Inside (width height : Int) (drawing : AnyDrawing) : Prop :=
  (∃ areas, Renders drawing.cls drawing.object areas) ∧ StaysInside drawing.cls width height drawing.object

/-- A drawing that misses the clipping area draws nothing. -/
theorem AnyDrawing.Inside.skip {width height : Int} {drawing : AnyDrawing} (h : drawing.Inside width height)
    {area : Area} (hmiss : areaIntersects area drawing.object.area = false) {g : GraphicsState (List Area)}
    (hw : g.width = width) (hh : g.height = height) (hclip : points g.clipping ⊆ points area) :
    ∃ g' areas, drawing.cls.render marks g drawing.object = some g' ∧ g'.buffer = g.buffer ++ areas ∧
      SameView g' g ∧ marked areas = ∅ := by
  obtain ⟨⟨areas, hrenders⟩, hinside⟩ := h
  obtain ⟨g', hrender, hbuffer, hview⟩ := hrenders.render g
  refine ⟨g', areas g, hrender, hbuffer, hview, Set.eq_empty_iff_forall_notMem.mpr fun p hp => ?_⟩
  have harea := (hrenders.staysInside_iff width height).mp hinside g hw hh hp
  have hmeet : areaIntersects area drawing.object.area = true :=
    areaIntersects_eq_true.mpr ⟨p.1, p.2, areaContainsPoint_eq_true.mpr (hclip (hrenders.clip g hp)),
      areaContainsPoint_eq_true.mpr harea⟩
  rw [hmiss] at hmeet
  cases hmeet

/-- Where the image of a view is drawn. -/
def ImageView.drawnArea (view : ImageView) : Area :=
  imageArea (imageLayout view).2.x (imageLayout view).2.y view.image.image

/-- The image is not drawn, or has no pixels, or is drawn where its area is. -/
def ImageView.InPlace (width height : Int) (view : ImageView) : Prop :=
  view.visible = true → 0 < view.image.image.width → 0 < view.image.image.height →
    areaContains ⟨0, 0, width, height⟩ view.drawnArea = true → view.image.image.origin = ⟨0, 0⟩

/-- The class renders the drawing on a frame buffer as `marks` follows it. -/
def Tracks {V : Type} (format : Format) (backend : Backend Frame) (cls : DrawingClass V) (drawing : Drawing V) :
    Prop :=
  ∀ {start graphics shadow}, Follows format start graphics shadow →
    ∃ graphics' shadow', cls.render backend graphics drawing = some graphics' ∧
      cls.render marks shadow drawing = some shadow' ∧ Follows format start graphics' shadow'

section

variable {format : Format} {backend : Backend Frame}

theorem text_tracks (hdraws : Draws format backend) {drawing : Drawing TextView}
    (h : ∀ glyph ∈ drawing.previousView.font.font.glyphs, glyph.bitmap.Valid) :
    Tracks format backend textClass drawing := by
  intro start graphics shadow hfollows
  simp only [textClass, textRender]
  split
  · exact ⟨graphics, shadow, rfl, rfl, hfollows⟩
  · refine Follows.writeStringLength ?_ hdraws _ _ h
    obtain ⟨hfits, hclip, hwidth, hheight, hclipping, -, honly⟩ := hfollows
    exact ⟨⟨hfits.width, hfits.height, hfits.length, hfits.small⟩, hclip, hwidth, hheight, hclipping, rfl, honly⟩

theorem icon_tracks (hdraws : Draws format backend) {drawing : Drawing IconView}
    (h : drawing.previousView.bitmap.bitmap.Valid) : Tracks format backend iconClass drawing := by
  intro start graphics shadow hfollows
  simp only [iconClass, iconRender]
  split
  · exact ⟨graphics, shadow, rfl, rfl, hfollows⟩
  · refine Follows.writeBitmap ?_ hdraws _ _ h
    obtain ⟨hfits, hclip, hwidth, hheight, hclipping, hfont, honly⟩ := hfollows
    exact ⟨⟨hfits.width, hfits.height, hfits.length, hfits.small⟩, hclip, hwidth, hheight, hclipping, hfont, honly⟩

theorem image_tracks (hdraws : Draws format backend) {drawing : Drawing ImageView}
    (h : format.Holds drawing.previousView.image.image) : Tracks format backend imageClass drawing := by
  intro start graphics shadow hfollows
  simp only [imageClass, imageRender]
  split
  · exact ⟨graphics, shadow, rfl, rfl, hfollows⟩
  · exact hfollows.writeImage hdraws _ _ h

/-- A drawing that stays inside its area changes only bytes of pixels of it. -/
theorem render_only {drawing : AnyDrawing} {graphics : GraphicsState Frame}
    (htracks : Tracks format backend drawing.cls drawing.object)
    (hinside : drawing.Inside graphics.width graphics.height) (hfits : format.Fits graphics)
    (hclip : points graphics.clipping ⊆ points (screenArea graphics)) :
    ∃ graphics', drawing.cls.render backend graphics drawing.object = some graphics' ∧
      Only (format.bytesOf graphics (points drawing.object.area)) graphics.buffer graphics'.buffer := by
  let shadow : GraphicsState (List Area) := ⟨graphics.width, graphics.height, [], graphics.clipping,
    graphics.font, graphics.foreground, graphics.background⟩
  obtain ⟨⟨areas, hrenders⟩, hstays⟩ := hinside
  obtain ⟨graphics', shadow', hrender, hshadow, hfollows⟩ := htracks (Follows.start hfits hclip)
  obtain ⟨shadow'', hshadow', hbuffer, hview⟩ := hrenders.render shadow
  obtain rfl : shadow' = shadow'' := Option.some.inj (hshadow.symm.trans hshadow')
  refine ⟨graphics', hrender, hfollows.only_of_marked hview.width.symm hview.height.symm ?_⟩
  rw [hbuffer]
  exact (hrenders.staysInside_iff _ _).mp hstays shadow rfl rfl

end

end Graphics
end Firefly
