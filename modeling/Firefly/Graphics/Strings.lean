import Firefly.Graphics.Backends

/-!
# Firefly.Graphics.Strings

Drawing and measuring of strings, two loops over the same characters. `glyphs` are the glyphs of a string
with the positions that they are drawn at.

* `writeStringFrom_eq`, `metricsFrom_eq`: both loops go through `glyphs`, with the same advance.
* `string_metrics`: the bounds are the least area that contains the glyphs, and everything that drawing
  writes is inside them.
-/

namespace Firefly
namespace Graphics

open Accesses

structure Metrics where
  bounds : Area
  advance : Int
deriving DecidableEq, Repr

variable {β : Type}

/-- The loop of `fd_graphics_write_string_length`. The characters are `string[i] & 0xff`. -/
def writeStringFrom (backend : Backend β) (graphics : GraphicsState β) (cx y : Int) :
    List UInt8 → Option (GraphicsState β × Int)
  | [] => some (graphics, cx)
  | character :: string =>
    match fontGetGlyph graphics.font character.toNat with
    | none => writeStringFrom backend graphics (cx + graphics.font.advance) y string
    | some glyph =>
      match writeBitmap backend graphics cx y glyph.bitmap with
      | none => none
      | some graphics => writeStringFrom backend graphics (cx + glyph.advance) y string

def writeStringLength (backend : Backend β) (graphics : GraphicsState β) (x y : Int) (string : List UInt8) :
    Option (GraphicsState β) :=
  (writeStringFrom backend graphics x y string).map Prod.fst

def getBitmapBounds (bitmap : Bitmap) : Area :=
  ⟨-bitmap.origin.x, -bitmap.origin.y, bitmap.width, bitmap.height⟩

def metricsFrom (font : Font) (bounds : Area) (advance : Int) : List UInt8 → Metrics
  | [] => ⟨bounds, advance⟩
  | character :: string =>
    match fontGetGlyph font character.toNat with
    | none => metricsFrom font bounds (advance + font.advance) string
    | some glyph =>
      let bitmapBounds := getBitmapBounds glyph.bitmap
      let bitmapBounds := { bitmapBounds with x := bitmapBounds.x + advance }
      metricsFrom font (areaUnion bounds bitmapBounds) (advance + glyph.advance) string

def getStringMetricsLength (font : Font) (string : List UInt8) : Metrics :=
  metricsFrom font ⟨0, 0, 0, 0⟩ 0 string

/-- The glyphs of a string that starts at `cx`, with their positions. -/
def glyphs (font : Font) (cx : Int) : List UInt8 → List (Int × Glyph)
  | [] => []
  | character :: string =>
    match fontGetGlyph font character.toNat with
    | none => glyphs font (cx + font.advance) string
    | some glyph => (cx, glyph) :: glyphs font (cx + glyph.advance) string

def glyphArea (y : Int) (g : Int × Glyph) : Area := bitmapArea g.1 y g.2.bitmap

def stringAdvance (font : Font) : List UInt8 → Int
  | [] => 0
  | character :: string =>
    match fontGetGlyph font character.toNat with
    | none => font.advance + stringAdvance font string
    | some glyph => glyph.advance + stringAdvance font string

/-- The glyphs are drawn one after the other. -/
def writeGlyphs (backend : Backend β) (graphics : GraphicsState β) (y : Int) :
    List (Int × Glyph) → Option (GraphicsState β)
  | [] => some graphics
  | g :: gs =>
    match writeBitmap backend graphics g.1 y g.2.bitmap with
    | none => none
    | some graphics => writeGlyphs backend graphics y gs

variable {font : Font} {backend : Backend β} {graphics : GraphicsState β} {string : List UInt8} {x y cx : Int}

theorem writeBitmap_font {graphics' : GraphicsState β} {bitmap : Bitmap}
    (h : writeBitmap backend graphics x y bitmap = some graphics') : graphics'.font = graphics.font := by
  unfold writeBitmap at h
  split at h
  · rw [← Option.some.inj h]
  · obtain ⟨buffer, -, rfl⟩ := Option.map_eq_some_iff.mp h
    rfl

theorem writeStringFrom_eq (backend : Backend β) (graphics : GraphicsState β) (cx y : Int) (string : List UInt8) :
    writeStringFrom backend graphics cx y string =
      (writeGlyphs backend graphics y (glyphs graphics.font cx string)).map
        fun graphics' => (graphics', cx + stringAdvance graphics.font string) := by
  induction string generalizing graphics cx with
  | nil => simp [writeStringFrom, glyphs, writeGlyphs, stringAdvance]
  | cons character string ih =>
    rw [writeStringFrom, glyphs, stringAdvance]
    cases fontGetGlyph graphics.font character.toNat with
    | none =>
      dsimp only
      rw [ih, Int.add_assoc]
    | some glyph =>
      dsimp only
      rw [writeGlyphs]
      cases hwrite : writeBitmap backend graphics cx y glyph.bitmap with
      | none => rfl
      | some graphics' =>
        dsimp only
        rw [ih, writeBitmap_font hwrite, Int.add_assoc]

theorem metricsFrom_eq (font : Font) (bounds : Area) (advance : Int) (string : List UInt8) :
    metricsFrom font bounds advance string =
      ⟨((glyphs font advance string).map (glyphArea 0)).foldl areaUnion bounds,
        advance + stringAdvance font string⟩ := by
  induction string generalizing bounds advance with
  | nil => simp [metricsFrom, glyphs, stringAdvance]
  | cons character string ih =>
    rw [metricsFrom, glyphs, stringAdvance]
    cases fontGetGlyph font character.toNat with
    | none =>
      dsimp only
      rw [ih, Int.add_assoc]
    | some glyph =>
      dsimp only
      rw [ih, List.map_cons, List.foldl_cons, Int.add_assoc]
      congr 3
      simp only [getBitmapBounds, glyphArea, bitmapArea]
      congr 1 <;> omega

theorem glyphs_add (font : Font) (x cx : Int) (string : List UInt8) :
    glyphs font (x + cx) string = (glyphs font cx string).map fun g => (x + g.1, g.2) := by
  induction string generalizing cx with
  | nil => rfl
  | cons character string ih =>
    rw [glyphs, glyphs]
    cases fontGetGlyph font character.toNat with
    | none =>
      dsimp only
      rw [Int.add_assoc, ih]
    | some glyph =>
      dsimp only
      rw [Int.add_assoc, ih, List.map_cons]

/-- The areas of the glyphs of a string that is drawn at a point are those that are measured, moved there. -/
theorem glyphs_translate (font : Font) (x y : Int) (string : List UInt8) :
    (glyphs font x string).map (glyphArea y) =
      ((glyphs font 0 string).map (glyphArea 0)).map fun a => a.translate x y := by
  have hadd := glyphs_add font x 0 string
  rw [Int.add_zero] at hadd
  rw [hadd, List.map_map, List.map_map]
  apply List.map_congr_left
  intro g _
  simp only [Function.comp_apply, glyphArea, bitmapArea, Area.translate]
  congr 1 <;> omega

theorem mem_font_of_glyphs {g : Int × Glyph} (h : g ∈ glyphs font cx string) : g.2 ∈ font.glyphs := by
  induction string generalizing cx with
  | nil => cases h
  | cons character string ih =>
    rw [glyphs] at h
    cases hglyph : fontGetGlyph font character.toNat with
    | none =>
      rw [hglyph] at h
      exact ih h
    | some glyph =>
      rw [hglyph] at h
      rcases List.mem_cons.mp h with rfl | h
      · exact List.mem_of_find?_eq_some hglyph
      · exact ih h

/-- `marks` collects the drawn parts of the areas of the glyphs. -/
theorem writeGlyphs_marks (graphics : GraphicsState (List Area)) (y : Int) (gs : List (Int × Glyph)) :
    writeGlyphs marks graphics y gs = some (graphics.withBuffer
      (graphics.buffer ++ (gs.map (glyphArea y)).flatMap (drawnAreas graphics))) := by
  induction gs generalizing graphics with
  | nil => simp [writeGlyphs, GraphicsState.withBuffer]
  | cons g gs ih =>
    rw [writeGlyphs, writeBitmap_marks, List.map_cons, List.flatMap_cons]
    refine (ih _).trans ?_
    simp only [GraphicsState.withBuffer, List.append_assoc]
    rfl

theorem Follows.writeGlyphs {format : Format} {backend : Backend Frame} {start : Frame}
    {graphics : GraphicsState Frame} {shadow : GraphicsState (List Area)}
    (h : Follows format start graphics shadow) (hdraws : Draws format backend) (y : Int)
    {gs : List (Int × Glyph)} (hgs : ∀ g ∈ gs, g.2.bitmap.Valid) :
    ∃ graphics' shadow', writeGlyphs backend graphics y gs = some graphics' ∧
      writeGlyphs marks shadow y gs = some shadow' ∧ Follows format start graphics' shadow' := by
  induction gs generalizing graphics shadow with
  | nil => exact ⟨graphics, shadow, rfl, rfl, h⟩
  | cons g gs ih =>
    obtain ⟨graphics₁, shadow₁, hwrite, hshadow, h₁⟩ :=
      h.writeBitmap hdraws g.1 y (hgs g List.mem_cons_self)
    obtain ⟨graphics₂, shadow₂, hwrite₂, hshadow₂, h₂⟩ := ih h₁ fun g hg => hgs g (List.mem_cons_of_mem _ hg)
    refine ⟨graphics₂, shadow₂, ?_, ?_, h₂⟩
    · rw [Graphics.writeGlyphs, hwrite]
      exact hwrite₂
    · rw [Graphics.writeGlyphs, hshadow]
      exact hshadow₂

/-- The bounds of a string that is drawn at a point. -/
def boundsAt (font : Font) (x y : Int) (string : List UInt8) : Area :=
  (getStringMetricsLength font string).bounds.translate x y

theorem boundsAt_eq (font : Font) (x y : Int) (string : List UInt8) :
    boundsAt font x y string =
      (((glyphs font 0 string).map (glyphArea 0)).foldl areaUnion areaEmpty).translate x y := by
  rw [boundsAt, getStringMetricsLength, metricsFrom_eq]
  rfl

theorem boundsAt_contains (hfont : ∀ glyph ∈ font.glyphs, 0 < glyph.bitmap.width ∧ 0 < glyph.bitmap.height)
    {g : Int × Glyph} (hg : g ∈ glyphs font x string) :
    areaContains (boundsAt font x y string) (glyphArea y g) = true := by
  have hmem : glyphArea y g ∈ ((glyphs font 0 string).map (glyphArea 0)).map fun a => a.translate x y := by
    rw [← glyphs_translate]
    exact List.mem_map_of_mem hg
  obtain ⟨a, ha, htranslate⟩ := List.mem_map.mp hmem
  rw [boundsAt_eq, ← htranslate, areaContains_translate]
  refine areaContains_foldl (fun b hb => ?_) ha
  obtain ⟨g', hg', rfl⟩ := List.mem_map.mp hb
  have hproper := hfont g'.2 (mem_font_of_glyphs hg')
  exact ⟨hproper.1, hproper.2⟩

theorem boundsAt_least {c : Area} (hne : glyphs font x string ≠ [])
    (h : ∀ g ∈ glyphs font x string, areaContains c (glyphArea y g) = true) :
    areaContains c (boundsAt font x y string) = true := by
  rw [boundsAt_eq, areaContains_translate_right]
  have hadd := glyphs_add font x 0 string
  rw [Int.add_zero] at hadd
  apply foldl_areaUnion_least
  · intro hnil
    exact hne (by rw [hadd, List.map_eq_nil_iff.mp hnil, List.map_nil])
  · intro a ha
    have hmem : a.translate x y ∈ (glyphs font x string).map (glyphArea y) := by
      rw [glyphs_translate]
      exact List.mem_map_of_mem ha
    obtain ⟨g, hg, harea⟩ := List.mem_map.mp hmem
    rw [← areaContains_translate_right, ← harea]
    exact h g hg

theorem boundsAt_isEmpty (h : glyphs font x string = []) : areaIsEmpty (boundsAt font x y string) = true := by
  have hadd := glyphs_add font x 0 string
  rw [Int.add_zero, h] at hadd
  rw [boundsAt_eq, List.map_eq_nil_iff.mp hadd.symm]
  rfl

/-- The areas that `marks` collects for a string. -/
def stringAreas (graphics : GraphicsState β) (font : Font) (x y : Int) (string : List UInt8) : List Area :=
  ((glyphs font x string).map (glyphArea y)).flatMap (drawnAreas graphics)

theorem writeStringLength_marks (graphics : GraphicsState (List Area)) (x y : Int) (string : List UInt8) :
    writeStringLength marks graphics x y string = some (graphics.withBuffer
      (graphics.buffer ++ stringAreas graphics graphics.font x y string)) := by
  rw [writeStringLength, writeStringFrom_eq, writeGlyphs_marks]
  rfl

/-- Whatever the bitmaps of the font are, all that is drawn is inside the bounds. -/
theorem stringAreas_subset (graphics : GraphicsState β) (font : Font) (x y : Int) (string : List UInt8) :
    marked (stringAreas graphics font x y string) ⊆ points (boundsAt font x y string) := by
  rintro p ⟨a, ha, hp⟩
  obtain ⟨area, harea, hdrawn⟩ := List.mem_flatMap.mp ha
  rw [glyphs_translate] at harea
  obtain ⟨b, hb, rfl⟩ := List.mem_map.mp harea
  rw [boundsAt_eq]
  exact points_translate_mono (points_subset_foldl hb) (marked_drawnAreas graphics _ ⟨a, hdrawn, hp⟩).1

/-- Drawing a string on both states. -/
theorem Follows.writeStringLength {format : Format} {backend : Backend Frame} {start : Frame}
    {graphics : GraphicsState Frame} {shadow : GraphicsState (List Area)}
    (h : Follows format start graphics shadow) (hdraws : Draws format backend) (x y : Int) {string : List UInt8}
    (hvalid : ∀ glyph ∈ graphics.font.glyphs, glyph.bitmap.Valid) :
    ∃ graphics' shadow', writeStringLength backend graphics x y string = some graphics' ∧
      writeStringLength marks shadow x y string = some shadow' ∧ Follows format start graphics' shadow' := by
  obtain ⟨graphics', shadow', hwrite, hshadow, h'⟩ := h.writeGlyphs hdraws y
    fun g (hg : g ∈ glyphs graphics.font x string) => hvalid g.2 (mem_font_of_glyphs hg)
  refine ⟨graphics', shadow', ?_, ?_, h'⟩
  · rw [Graphics.writeStringLength, writeStringFrom_eq, hwrite]
    rfl
  · rw [Graphics.writeStringLength, writeStringFrom_eq, h.font, hshadow]
    rfl

theorem string_metrics (font : Font)
    (hfont : ∀ glyph ∈ font.glyphs, 0 < glyph.bitmap.width ∧ 0 < glyph.bitmap.height) (string : List UInt8)
    (x y : Int) :
    (∀ {β : Type} (backend : Backend β) (graphics : GraphicsState β), graphics.font = font →
      writeStringFrom backend graphics x y string =
        (writeGlyphs backend graphics y (glyphs font x string)).map
          fun graphics' => (graphics', x + (getStringMetricsLength font string).advance)) ∧
    (∀ g ∈ glyphs font x string, areaContains (boundsAt font x y string) (glyphArea y g) = true) ∧
    (∀ c, glyphs font x string ≠ [] → (∀ g ∈ glyphs font x string, areaContains c (glyphArea y g) = true) →
      areaContains c (boundsAt font x y string) = true) ∧
    (glyphs font x string = [] → areaIsEmpty (boundsAt font x y string) = true) ∧
    (∀ graphics : GraphicsState (List Area), graphics.font = font →
      ∃ areas, writeStringLength marks graphics x y string =
          some (graphics.withBuffer (graphics.buffer ++ areas)) ∧
        marked areas ⊆ points (boundsAt font x y string)) ∧
    ∀ format backend graphics, Supported format backend → format.Fits graphics → graphics.font = font →
      points graphics.clipping ⊆ points (screenArea graphics) → (∀ glyph ∈ font.glyphs, glyph.bitmap.Valid) →
      ∃ graphics', writeStringLength backend graphics x y string = some graphics' ∧
        Only (format.bytesOf graphics (points (boundsAt font x y string))) graphics.buffer graphics'.buffer := by
  refine ⟨?_, fun g hg => boundsAt_contains hfont hg, fun c => boundsAt_least, boundsAt_isEmpty,
    ?_, ?_⟩
  · rintro β backend graphics rfl
    rw [writeStringFrom_eq, getStringMetricsLength, metricsFrom_eq, Int.zero_add]
  · rintro graphics rfl
    exact ⟨_, writeStringLength_marks graphics x y string, stringAreas_subset graphics graphics.font x y string⟩
  · rintro format backend graphics hsupported hfits rfl hclip hvalid
    obtain ⟨graphics', shadow', hwrite, hshadow, hfollows⟩ :=
      (Follows.start hfits hclip).writeStringLength hsupported.draws x y hvalid
    rw [writeStringLength_marks] at hshadow
    obtain rfl := Option.some.inj hshadow
    exact ⟨graphics', hwrite, hfollows.only_of_marked rfl rfl (stringAreas_subset _ graphics.font x y string)⟩

/-- A font with one glyph, of two by one pixels. -/
def oneGlyph : Font := ⟨4, [⟨65, 3, ⟨2, 1, 8, ⟨1, 2⟩, [0xff, 0xff]⟩⟩]⟩

/-- The glyph, a character that the font does not have, and the glyph again. -/
theorem string_metrics_missing :
    boundsAt oneGlyph 10 10 [65, 66, 65] = ⟨9, 8, 9, 1⟩ ∧
    ∀ g ∈ glyphs oneGlyph 10 [65, 66, 65],
      areaContains (boundsAt oneGlyph 10 10 [65, 66, 65]) (glyphArea 10 g) = true :=
  ⟨by decide, (string_metrics oneGlyph (by simp [oneGlyph]) [65, 66, 65] 10 10).2.1⟩

end Graphics
end Firefly
