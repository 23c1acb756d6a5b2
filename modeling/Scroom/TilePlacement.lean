import Scroom.Pixels
import Scroom.Redraw

/-! Where the pixels of a tile are drawn in the window, and the labels with their values. The arithmetic on
`double` is exact, also where the result becomes an `int`. -/
namespace Scroom

open Buffer

variable {n : ℕ}

/-- `to<int>()`, for values that fit. -/
def Rectangle.trunc (r : Rectangle ℚ) : Rectangle ℤ :=
  ⟨⟨MachineInt.trunc r.getLeft,MachineInt.trunc r.getWidth⟩,⟨MachineInt.trunc r.getTop,MachineInt.trunc r.getHeight⟩⟩

namespace CommonOperations
open TiledBitmap

/-- A surface painted at an origin, after scaling, inside a clip. -/
structure Painting where
  clip : Rectangle ℚ
  scale : ℚ
  origin : Point ℚ

/-- Where a point of the surface comes in the window. -/
def Painting.place (p : Painting) (q : Point ℚ) : Point ℚ := (p.origin+q).mul p.scale

/-- For a tile with a cached surface. -/
def draw (tileArea viewArea : Rectangle ℚ) (zoom : ℤ) : Option Painting := do
  if 0 < zoom then
    let multiplier ← oneShiftedLeft zoom.toNat
    return ⟨viewArea,multiplier,viewArea.getTopLeft.div multiplier-tileArea.getTopLeft⟩
  else
    let divider ← oneShiftedLeft (-zoom).toNat
    return ⟨viewArea,1,viewArea.getTopLeft-tileArea.getTopLeft.div divider⟩

/-- The scale at which `cacheZoom` paints the tile onto the cached surface. -/
def cacheScale (zoom : ℤ) : Option ℚ :=
  if 0 ≤ zoom then some 1 else (oneShiftedLeft (-zoom).toNat).map fun divider => 1/divider

/-- The arguments of `drawPixelValue`. The colour is missing if the colormap does not have it. -/
structure Label where
  x : ℤ
  y : ℤ
  size : ℤ
  value : ℕ
  bgColor : Option Color

/-- The label shows a pixel of a tile, in the place where the pixel begins. -/
structure Label.Shows (label : Label) (place : Point ℚ → Point ℚ) (pixel : ℕ → ℕ → ℕ) (row col : ℕ) : Prop where
  value : label.value = pixel row col
  size : label.size = 2^5
  x : label.x = MachineInt.trunc (place ⟨col,row⟩).x
  y : label.y = MachineInt.trunc (place ⟨col,row⟩).y

/-- Every label shows a pixel of the tile, and every pixel that is partly inside the area has a label. -/
structure ShowPixels (labels : List Label) (tileArea : Rectangle ℚ) (place : Point ℚ → Point ℚ)
    (pixel : ℕ → ℕ → ℕ) : Prop where
  each : ∀ label ∈ labels, ∃ row < height, ∃ col < width, label.Shows place pixel row col
  all : ∀ q, tileArea.contains q → ∃ label ∈ labels, ∃ row col : ℕ, ⌊q.y⌋ = row ∧ ⌊q.x⌋ = col ∧
    label.Shows place pixel row col

/-- The loops that draw the values of pixels. `turns` is the order in which they go through the columns and rows,
`sample` reads a pixel, given the top left of the area. -/
def drawPixelValues (turns : ℕ → ℕ → List (ℕ × ℕ)) (sample : Point ℤ → ℕ → ℕ → Option ℕ) (bgColor : ℕ → Option Color)
    (tileArea viewArea : Rectangle ℚ) (zoom : ℤ) : Option (List Label) :=
  if zoom = 5 then
    let multiplier := 2^5
    let tileAreaInt := tileArea.roundOutward.trunc
    let offset := Point.ofInt tileAreaInt.getTopLeft-tileArea.getTopLeft
    let viewArea := viewArea.add (offset.mul multiplier)
    (turns tileAreaInt.getWidth.toNat tileAreaInt.getHeight.toNat).mapM fun (x,y) => do
      let value ← sample tileAreaInt.getTopLeft x y
      return ⟨MachineInt.trunc (viewArea.getLeft+multiplier*x),MachineInt.trunc (viewArea.getTop+multiplier*y),2^5,
        value,bgColor value⟩
  else some []

def rowByRow (width height : ℕ) : List (ℕ × ℕ) :=
  (List.range height).flatMap fun y => (List.range width).map fun x => (x,y)

def columnByColumn (width height : ℕ) : List (ℕ × ℕ) :=
  (List.range width).flatMap fun x => (List.range height).map fun y => (x,y)

/-- A sample of a row that is read with an iterator. -/
def iterateSample (stride bps : ℕ) (tile : Buffer n) (topLeft : Point ℤ) (x y : ℕ) : Option ℕ := do
  let data ← ((topLeft.y+y)*stride).toNat?
  let current := SampleIterator.next^[x] (.create .uint8 data (← topLeft.x.toNat?) bps)
  current.get tile

end CommonOperations

open CommonOperations

def Operations1bpp.drawPixelValues (colormap : Colormap) (tile : Buffer n) :
    Rectangle ℚ → Rectangle ℚ → ℤ → Option (List Label) :=
  let stride := width/8
  CommonOperations.drawPixelValues rowByRow (iterateSample stride 1 tile) (colormap[·]?)

def Operations8bpp.drawPixelValues (colormap : Colormap) (tile : Buffer n) :
    Rectangle ℚ → Rectangle ℚ → ℤ → Option (List Label) :=
  let stride := width
  CommonOperations.drawPixelValues columnByColumn
    (fun topLeft x y => do byteAt tile (← ((topLeft.y+y)*stride+topLeft.x+x).toNat?))
    fun value => do
      let c1 ← colormap[0]?
      let c2 ← colormap[1]?
      return Color.mix c2 c1 (1*value/255)

def Operations.drawPixelValues (colormap : Colormap) (bpp : ℕ) (tile : Buffer n) :
    Rectangle ℚ → Rectangle ℚ → ℤ → Option (List Label) :=
  let stride := width/pixelsPerByte bpp
  CommonOperations.drawPixelValues rowByRow (iterateSample stride bpp tile) (colormap[·]?)

def LayerOperations.drawPixelValues (tile : Buffer n) (tileArea viewArea : Rectangle ℚ) (zoom : ℤ) :
    LayerOperations → Option (List Label)
  | operations1bpp colormap => Operations1bpp.drawPixelValues colormap tile tileArea viewArea zoom
  | operations8bpp colormap => Operations8bpp.drawPixelValues colormap tile tileArea viewArea zoom
  | operations colormap bpp => Operations.drawPixelValues colormap bpp tile tileArea viewArea zoom
  | operationsColormapped colormap bpp => Operations.drawPixelValues colormap bpp tile tileArea viewArea zoom
  | _ => some []

/-- `draw` has the loops that label the pixels. -/
def LayerOperations.DrawsLabels : LayerOperations → Prop
  | operations1bpp _ => True
  | operations8bpp _ => True
  | operations _ _ => True
  | _ => False

namespace TiledBitmap

variable {Lo : Type}

/-- The position of a point of a tile in its layer. -/
def TileDraw.pointAt (t : TileDraw) (q : Point ℚ) : Point ℚ := Point.ofInt (tileAreaForIndex ⟨t.i,t.j⟩).getTopLeft+q

/-- Where a point of the layer belongs in the window. -/
def Drawing.windowPoint (d : Drawing Lo) (pixelSize : ℚ) (p : Point ℚ) : Point ℚ :=
  (p-d.scaledRequestedPresentationArea.getTopLeft).mul pixelSize

/-- A tile is painted where it belongs, in the part of the window that shows it. -/
structure Placed (d : Drawing Lo) (pixelSize : ℚ) (t : TileDraw) : Prop where
  clip : t.viewAreaRect =
    (t.visibleTileArea.sub d.scaledRequestedPresentationArea.getTopLeft).mul pixelSize
  place : ∃ painting scale, CommonOperations.draw t.tileAreaRect t.viewAreaRect d.zoom = some painting ∧
    cacheScale d.zoom = some scale ∧ painting.clip = t.viewAreaRect ∧
      ∀ q, painting.place (q.mul scale) = d.windowPoint pixelSize (t.pointAt q)

/-- The area does not begin beyond the right or the lower edge of the layer. -/
def Drawing.BeginsBefore (d : Drawing Lo) : Prop :=
  d.scaledRequestedPresentationArea.getLeft ≤ (max 0 d.layer.width : ℤ) ∧
    d.scaledRequestedPresentationArea.getTop ≤ (max 0 d.layer.height : ℤ)

/-- The tiles paint a point they share in one place, and the one ends in the window where its neighbour begins. -/
structure Joined (d : Drawing Lo) (t t' : TileDraw) : Prop where
  point : ∀ painting painting' scale q q', cacheScale d.zoom = some scale →
    CommonOperations.draw t.tileAreaRect t.viewAreaRect d.zoom = some painting →
    CommonOperations.draw t'.tileAreaRect t'.viewAreaRect d.zoom = some painting' →
      t.pointAt q = t'.pointAt q' → painting.place (q.mul scale) = painting'.place (q'.mul scale)
  right : t'.i = t.i+1 → 0 < t.visibleTileArea.getWidth → 0 < t'.visibleTileArea.getWidth →
    t.viewAreaRect.getRight = t'.viewAreaRect.getLeft
  below : t'.j = t.j+1 → 0 < t.visibleTileArea.getHeight → 0 < t'.visibleTileArea.getHeight →
    t.viewAreaRect.getBottom = t'.viewAreaRect.getTop

end TiledBitmap

namespace Segment
variable {s t b c : Segment ℚ}

theorem size_intersection (s t : Segment ℚ) : 0 ≤ (s.intersection t).size := by
  unfold intersection
  dsimp only
  split
  · rename_i h
    rw [make_of_nonneg h]
    exact h
  · exact le_rfl

theorem start_before (hs : 0 ≤ s.size) (hb : b.start ≤ 0) (h : s.start ≤ b.getEnd) :
    (s.before (s.intersection b).getEnd).start = s.start := by
  have hkeep : s.start ≤ (s.intersection b).getEnd := by
    unfold intersection
    dsimp only
    split
    · rename_i hnew
      rw [make_of_nonneg hnew]
      exact le_of_le_of_eq (le_min (le_add_of_nonneg_right hs) h) (add_sub_cancel _ _).symm
    · rename_i hnew
      by_contra hpos
      have hpos : 0 < s.start := by simpa [empty,getEnd] using hpos
      refine hnew (sub_nonneg.mpr (max_le ?_ ?_))
      · exact le_min (le_add_of_nonneg_right hs) h
      · exact (hb.trans hpos.le).trans (le_min (le_add_of_nonneg_right hs) h)
  unfold before
  rw [if_neg (not_lt.mpr hkeep)]
  split
  · rw [make_of_nonneg (sub_nonneg.mpr hkeep)]
  · rfl

theorem before_eq_empty (hb : 0 ≤ b.getEnd) (h : b.getEnd < s.start) :
    s.before (s.intersection b).getEnd = empty := by
  have hnone : s.intersection b = empty := by
    unfold intersection
    dsimp only
    rw [if_neg]
    rw [not_le,sub_neg]
    exact (min_le_right _ _).trans_lt (h.trans_le (le_max_left _ _))
  rw [hnone,before,if_pos]
  simpa [empty,getEnd] using hb.trans_lt h

theorem intersection_empty (s : Segment ℚ) : s.intersection empty = empty := by
  have h0 : (empty : Segment ℚ).getEnd = 0 := add_zero 0
  unfold intersection
  dsimp only
  split
  · rename_i h
    rw [make_of_nonneg h]
    have hl : (0:ℚ) ≤ max s.start 0 := le_max_right _ _
    have hr : min s.getEnd 0 ≤ (0:ℚ) := min_le_right _ _
    rw [h0] at h ⊢
    simp only [empty] at h ⊢
    have hstart : max s.start 0 = 0 := by linarith
    have hstop : min s.getEnd 0 = 0 := by linarith
    rw [hstart,hstop,sub_zero]
  · rfl

/-- A part of a tile, or nothing at all. -/
def InTile (s : Segment ℚ) : Prop :=
  0 ≤ s.size ∧ ((0 ≤ s.start ∧ s.getEnd ≤ width) ∨ ∃ a : ℤ, s = ⟨a,0⟩)

theorem inTile_visible (a : ℤ) (c : Segment ℚ) : (((⟨a,width⟩ : Segment ℚ).intersection c).sub a).InTile := by
  refine ⟨size_intersection _ _,?_⟩
  unfold intersection
  dsimp only
  split
  · rename_i h
    rw [make_of_nonneg h]
    refine Or.inl ⟨sub_nonneg.mpr (le_max_left _ _),?_⟩
    have hend : min (a+width : ℚ) c.getEnd ≤ a+width := min_le_left _ _
    simp only [getEnd,sub] at hend ⊢
    linarith
  · exact Or.inr ⟨-a,by simp [empty,sub]⟩

theorem trunc_roundOutward (h : 0 ≤ s.size) : MachineInt.trunc s.roundOutward.start = ⌊s.start⌋ ∧
    MachineInt.trunc s.roundOutward.size = ⌈s.getEnd⌉-⌊s.start⌋ := by
  obtain ⟨hstart,hend⟩ := roundOutward_edges (s := s) (le_add_of_nonneg_right h)
  have hsize : s.roundOutward.size = ((⌈s.getEnd⌉-⌊s.start⌋ : ℤ) : ℚ) := by
    rw [Int.cast_sub,← hstart,← hend]
    exact (add_sub_cancel_left _ _).symm
  rw [hstart,hsize,MachineInt.trunc_intCast,MachineInt.trunc_intCast]
  exact ⟨rfl,rfl⟩

theorem turn_inside {x : ℕ} (h : s.InTile) (hx : x < (MachineInt.trunc s.roundOutward.size).toNat) :
    0 ≤ ⌊s.start⌋ ∧ ∃ col < width, ⌊s.start⌋+x = (col:ℤ) := by
  rw [(trunc_roundOutward h.1).2] at hx
  rcases h.2 with ⟨hl,hr⟩ | ⟨a,rfl⟩
  · have hfloor := Int.floor_nonneg.mpr hl
    have hceil : ⌈s.getEnd⌉ ≤ width := Int.ceil_le.mpr (by exact_mod_cast hr)
    exact ⟨hfloor,(⌊s.start⌋+x).toNat,by omega,by omega⟩
  · -- an empty part has no pixels
    simp [getEnd] at hx

theorem exists_turn {p : ℚ} (h : 0 ≤ s.size) (hp : s.contains p) :
    ∃ x < (MachineInt.trunc s.roundOutward.size).toNat, ⌊s.start⌋+(x:ℤ) = ⌊p⌋ := by
  have hl : ⌊s.start⌋ ≤ ⌊p⌋ := Int.floor_le_floor hp.1
  have hr : ⌊p⌋ < ⌈s.getEnd⌉ := Int.floor_lt.mpr (hp.2.trans_le (Int.le_ceil _))
  rw [(trunc_roundOutward h).2]
  exact ⟨(⌊p⌋-⌊s.start⌋).toNat,by omega,by omega⟩

theorem no_turns (a : ℤ) : (MachineInt.trunc (⟨a,0⟩ : Segment ℚ).roundOutward.size).toNat = 0 := by
  rw [(trunc_roundOutward le_rfl).2]
  simp [getEnd]

theorem intersection_of_pos (h : 0 < (s.intersection c).size) :
    s.intersection c = ⟨max s.start c.start,min s.getEnd c.getEnd-max s.start c.start⟩ ∧
      max s.start c.start < min s.getEnd c.getEnd := by
  unfold intersection at h ⊢
  dsimp only at h ⊢
  split at h
  · rename_i hnew
    rw [if_pos hnew]
    rw [make_of_nonneg hnew] at h ⊢
    exact ⟨rfl,sub_pos.mp h⟩
  · exact absurd h (lt_irrefl _)

theorem visible_meet (hst : s.getEnd = t.start) (hs : 0 < (s.intersection c).size)
    (ht : 0 < (t.intersection c).size) : (s.intersection c).getEnd = (t.intersection c).start := by
  obtain ⟨hs,hs'⟩ := intersection_of_pos hs
  obtain ⟨ht,ht'⟩ := intersection_of_pos ht
  have hbegin : c.start ≤ t.start := by
    rw [← hst]
    exact (le_max_right _ _).trans (hs'.le.trans (min_le_left _ _))
  have hstop : s.getEnd ≤ c.getEnd := by
    rw [hst]
    exact (le_max_left _ _).trans (ht'.le.trans (min_le_right _ _))
  calc (s.intersection c).getEnd = min s.getEnd c.getEnd := by rw [hs]; exact add_sub_cancel _ _
    _ = s.getEnd := min_eq_left hstop
    _ = t.start := hst
    _ = (t.intersection c).start := by rw [ht]; exact (max_eq_left hbegin).symm

end Segment

namespace CommonOperations

theorem toNat?_eq {a : ℤ} {k : ℕ} (h : a = k) : a.toNat? = some k := Int.mem_toNat?.mpr h

theorem iterateSample_eq {bpp s c stride : ℕ} {topLeft : Point ℤ} {x y row col : ℕ} (tile : Tile bpp)
    (hs : s*bpp = 8*Base.uint8.size) (hb : 0 < bpp) (hc : s*c = width) (hstride : 8*stride = bpp*width)
    (hleft : 0 ≤ topLeft.x) (hrow : row < height) (hcol : col < width) (hy : topLeft.y+y = row)
    (hx : topLeft.x+x = col) : iterateSample stride bpp tile topLeft x y =
      some (field tile (bpp*(width*row+SampleIterator.mirror s col)) bpp) := by
  obtain ⟨left,hl⟩ := Int.eq_ofNat_of_zero_le hleft
  have hsum : left+x = col := by omega
  have hdata : ((topLeft.y+y)*(stride:ℤ)).toNat? = some (row*stride) := toNat?_eq (by rw [hy]; push_cast; ring)
  have hsamples : 8*Base.uint8.size/bpp = s := by rw [← hs,Nat.mul_div_cancel _ hb]
  simp only [iterateSample,hdata,toNat?_eq hl,Option.bind_eq_bind,Option.bind_some]
  rw [SampleIterator.iterate_next_create (by rw [hsamples]; exact SampleIterator.samples_pos hs),hsum]
  refine read_row tile hrow hcol hs hb hc ?_
  calc 8*(row*stride) = row*(8*stride) := by ring
    _ = bpp*(width*row) := by rw [hstride]; ring

theorem byteSample_eq {topLeft : Point ℤ} {x y row col : ℕ} (tile : Tile 8) (hrow : row < height) (hcol : col < width)
    (hy : topLeft.y+y = row) (hx : topLeft.x+x = col) :
    (do byteAt tile (← ((topLeft.y+y)*(width:ℤ)+topLeft.x+x).toNat?)) = some (field tile (8*(width*row+col)) 8) := by
  have hat : (topLeft.y+y)*(width:ℤ)+topLeft.x+x = (width*row+col : ℕ) := by
    rw [add_assoc,hy,hx,mul_comm]
    push_cast
    rfl
  simp only [toNat?_eq hat,Option.bind_eq_bind,Option.bind_some]
  exact byteAt_field (by simp only [width,height] at *; omega)

theorem mem_rowByRow (w h x y : ℕ) : (x,y) ∈ rowByRow w h ↔ x < w ∧ y < h := by
  simp [rowByRow,and_comm]

theorem mem_columnByColumn (w h x y : ℕ) : (x,y) ∈ columnByColumn w h ↔ x < w ∧ y < h := by
  simp [columnByColumn]

/-- The label that a turn of the loops draws. -/
def turnLabel (bgColor : ℕ → Option Color) (tileArea viewArea : Rectangle ℚ) (pixel : ℕ → ℕ → ℕ) (p : ℕ × ℕ) : Label :=
  let value := pixel (⌊tileArea.getTop⌋+(p.2:ℤ)).toNat (⌊tileArea.getLeft⌋+(p.1:ℤ)).toNat
  ⟨MachineInt.trunc (viewArea.getLeft+(⌊tileArea.getLeft⌋-tileArea.getLeft)*2^5+2^5*p.1),
    MachineInt.trunc (viewArea.getTop+(⌊tileArea.getTop⌋-tileArea.getTop)*2^5+2^5*p.2),2^5,value,bgColor value⟩

section Labels
variable {turns : ℕ → ℕ → List (ℕ × ℕ)} {sample : Point ℤ → ℕ → ℕ → Option ℕ} {bgColor : ℕ → Option Color}
  {tileArea viewArea : Rectangle ℚ} {pixel : ℕ → ℕ → ℕ} {x y row col : ℕ}

theorem turnLabel_shows (hy : ⌊tileArea.getTop⌋+(y:ℤ) = row) (hx : ⌊tileArea.getLeft⌋+(x:ℤ) = col) :
    (turnLabel bgColor tileArea viewArea pixel (x,y)).Shows
      (fun q => viewArea.getTopLeft+(q-tileArea.getTopLeft).mul (2^5)) pixel row col := by
  have hy' : (⌊tileArea.getTop⌋:ℚ)+y = row := by exact_mod_cast hy
  have hx' : (⌊tileArea.getLeft⌋:ℚ)+x = col := by exact_mod_cast hx
  refine ⟨by simp only [turnLabel,hy,hx,Int.toNat_natCast],rfl,?_,?_⟩
  · simp only [turnLabel,Point.add_x,Point.mul,Point.sub_x,Rectangle.getTopLeft,← hx']
    congr 1
    ring
  · simp only [turnLabel,Point.add_y,Point.mul,Point.sub_y,Rectangle.getTopLeft,← hy']
    congr 1
    ring

theorem exists_pixel (hx : tileArea.horizontally.InTile) (hy : tileArea.vertically.InTile)
    (hturn : x < tileArea.roundOutward.trunc.getWidth.toNat ∧ y < tileArea.roundOutward.trunc.getHeight.toNat) :
    0 ≤ ⌊tileArea.getLeft⌋ ∧ ∃ row < height, ∃ col < width, ⌊tileArea.getTop⌋+(y:ℤ) = row ∧
      ⌊tileArea.getLeft⌋+(x:ℤ) = col := by
  obtain ⟨hl,col,hcol,hxc⟩ := Segment.turn_inside hx hturn.1
  obtain ⟨-,row,hrow,hyr⟩ := Segment.turn_inside hy hturn.2
  exact ⟨hl,row,hrow,col,hcol,hyr,hxc⟩

theorem drawPixelValues_eq (hturns : ∀ w h x y, (x,y) ∈ turns w h ↔ x < w ∧ y < h)
    (hsample : ∀ row < height, ∀ col < width, ∀ (topLeft : Point ℤ) (x y : ℕ), 0 ≤ topLeft.x →
      topLeft.y+y = row → topLeft.x+x = col → sample topLeft x y = some (pixel row col))
    (hx : tileArea.horizontally.InTile) (hy : tileArea.vertically.InTile) :
    drawPixelValues turns sample bgColor tileArea viewArea 5 =
      some ((turns tileArea.roundOutward.trunc.getWidth.toNat tileArea.roundOutward.trunc.getHeight.toNat).map
        (turnLabel bgColor tileArea viewArea pixel)) := by
  have hleft : tileArea.roundOutward.trunc.getLeft = ⌊tileArea.getLeft⌋ := (Segment.trunc_roundOutward hx.1).1
  have htop : tileArea.roundOutward.trunc.getTop = ⌊tileArea.getTop⌋ := (Segment.trunc_roundOutward hy.1).1
  rw [drawPixelValues,if_pos rfl]
  refine Loops.mapM_eq_some_map ?_
  rintro ⟨x,y⟩ hm
  obtain ⟨hl,row,hrow,col,hcol,hyr,hxc⟩ := exists_pixel hx hy ((hturns _ _ _ _).mp hm)
  have hread : sample tileArea.roundOutward.trunc.getTopLeft x y = some (pixel row col) :=
    hsample row hrow col hcol _ x y (hl.trans_eq hleft.symm) ((congrArg (·+(y:ℤ)) htop).trans hyr)
      ((congrArg (·+(x:ℤ)) hleft).trans hxc)
  simp only [hread,Option.bind_eq_bind,Option.bind_some,turnLabel,hyr,hxc,Int.toNat_natCast]
  rw [← hleft,← htop]
  rfl

theorem drawPixelValues_showPixels (hturns : ∀ w h x y, (x,y) ∈ turns w h ↔ x < w ∧ y < h)
    (hsample : ∀ row < height, ∀ col < width, ∀ (topLeft : Point ℤ) (x y : ℕ), 0 ≤ topLeft.x →
      topLeft.y+y = row → topLeft.x+x = col → sample topLeft x y = some (pixel row col))
    (hx : tileArea.horizontally.InTile) (hy : tileArea.vertically.InTile) :
    ∃ labels, drawPixelValues turns sample bgColor tileArea viewArea 5 = some labels ∧
      ShowPixels labels tileArea (fun q => viewArea.getTopLeft+(q-tileArea.getTopLeft).mul (2^5)) pixel := by
  refine ⟨_,drawPixelValues_eq hturns hsample hx hy,fun label hlabel => ?_,fun q hq => ?_⟩
  · obtain ⟨⟨x,y⟩,hm,rfl⟩ := List.mem_map.mp hlabel
    obtain ⟨-,row,hrow,col,hcol,hyr,hxc⟩ := exists_pixel hx hy ((hturns _ _ _ _).mp hm)
    exact ⟨row,hrow,col,hcol,turnLabel_shows hyr hxc⟩
  · obtain ⟨x,hxw,hxq⟩ := Segment.exists_turn hx.1 hq.1
    obtain ⟨y,hyh,hyq⟩ := Segment.exists_turn hy.1 hq.2
    obtain ⟨-,row,-,col,-,hyr,hxc⟩ := exists_pixel hx hy ⟨hxw,hyh⟩
    refine ⟨_,List.mem_map_of_mem ((hturns _ _ _ _).mpr ⟨hxw,hyh⟩),row,col,?_,?_,turnLabel_shows hyr hxc⟩
    · exact hyq.symm.trans hyr
    · exact hxq.symm.trans hxc

end Labels

theorem drawPixelValues_empty {turns : ℕ → ℕ → List (ℕ × ℕ)} {sample : Point ℤ → ℕ → ℕ → Option ℕ}
    {bgColor : ℕ → Option Color} {tileArea : Rectangle ℚ} (viewArea : Rectangle ℚ) (zoom : ℤ)
    (hturns : ∀ w h x y, (x,y) ∈ turns w h ↔ x < w ∧ y < h)
    (h : (∃ a : ℤ, tileArea.horizontally = ⟨a,0⟩) ∨ ∃ a : ℤ, tileArea.vertically = ⟨a,0⟩) :
    drawPixelValues turns sample bgColor tileArea viewArea zoom = some [] := by
  have hnone : turns tileArea.roundOutward.trunc.getWidth.toNat tileArea.roundOutward.trunc.getHeight.toNat = [] := by
    refine List.eq_nil_iff_forall_not_mem.mpr ?_
    rintro ⟨x,y⟩ hm
    obtain ⟨hx,hy⟩ := (hturns _ _ _ _).mp hm
    rcases h with ⟨a,ha⟩ | ⟨a,ha⟩
    · have hw : tileArea.roundOutward.trunc.getWidth.toNat = 0 := by
        refine (congrArg (fun s : Segment ℚ => (MachineInt.trunc s.roundOutward.size).toNat) ha).trans ?_
        exact Segment.no_turns a
      omega
    · have hh : tileArea.roundOutward.trunc.getHeight.toNat = 0 := by
        refine (congrArg (fun s : Segment ℚ => (MachineInt.trunc s.roundOutward.size).toNat) ha).trans ?_
        exact Segment.no_turns a
      omega
  rw [drawPixelValues]
  split
  · dsimp only
    rw [hnone]
    rfl
  · rfl

end CommonOperations

theorem LayerOperations.drawPixelValues_empty (lo : LayerOperations) (tile : Buffer n) {tileArea : Rectangle ℚ}
    (viewArea : Rectangle ℚ) (zoom : ℤ)
    (h : (∃ a : ℤ, tileArea.horizontally = ⟨a,0⟩) ∨ ∃ a : ℤ, tileArea.vertically = ⟨a,0⟩) :
    lo.drawPixelValues tile tileArea viewArea zoom = some [] := by
  cases lo with
  | operations1bpp _ =>
    exact CommonOperations.drawPixelValues_empty viewArea zoom mem_rowByRow h
  | operations8bpp _ =>
    simp only [drawPixelValues,Operations8bpp.drawPixelValues]
    exact CommonOperations.drawPixelValues_empty viewArea zoom mem_columnByColumn h
  | operations _ _ =>
    exact CommonOperations.drawPixelValues_empty viewArea zoom mem_rowByRow h
  | operationsColormapped _ _ =>
    exact CommonOperations.drawPixelValues_empty viewArea zoom mem_rowByRow h
  | _ => rfl

theorem LayerOperations.drawPixelValues_showPixels {lo : LayerOperations} (hl : lo.DrawsLabels) (hb : lo.IndexBits)
    (hn : n = width*height*lo.getBpp/8) (tile : Buffer n) {tileArea : Rectangle ℚ} (viewArea : Rectangle ℚ)
    (hx : tileArea.horizontally.InTile) (hy : tileArea.vertically.InTile) :
    ∃ labels, lo.drawPixelValues tile tileArea viewArea 5 = some labels ∧ ShowPixels labels tileArea
      (fun q => viewArea.getTopLeft+(q-tileArea.getTopLeft).mul (2^5)) fun row col => lo.pixel tile row col := by
  subst hn
  cases lo with
  | operations1bpp colormap =>
    refine drawPixelValues_showPixels mem_rowByRow ?_ hx hy
    intro row hrow col hcol topLeft x y hleft hyr hxc
    have hc : 8*512 = width := by decide
    have hstride : 8*(width/8) = 1*width := by decide
    exact iterateSample_eq (s := 8) tile rfl Nat.one_pos hc hstride hleft hrow hcol hyr hxc
  | operations8bpp colormap =>
    simp only [drawPixelValues,Operations8bpp.drawPixelValues]
    refine drawPixelValues_showPixels mem_columnByColumn ?_ hx hy
    intro row hrow col hcol topLeft x y hleft hyr hxc
    simp only [pixel,pixelsPerWord,mirror_one]
    exact byteSample_eq tile hrow hcol hyr hxc
  | operations colormap bpp =>
    have hbpp : bpp ∈ [1,2,4,8] := hb
    have hc := Operations.pixelsPerByte_stride hbpp
    have hstride : 8*(width/Operations.pixelsPerByte bpp) = bpp*width := by
      simpa only [Nat.one_mul,Nat.mul_one] using Operations.row_stride hbpp 1
    refine drawPixelValues_showPixels mem_rowByRow ?_ hx hy
    intro row hrow col hcol topLeft x y hleft hyr hxc
    exact iterateSample_eq tile (Operations.pixelsPerByte_mul hbpp) (bpp_pos hbpp) hc hstride hleft hrow hcol hyr hxc
  | _ => exact hl.elim

namespace TiledBitmap

theorem oneShiftedLeft_ne_zero {n : ℕ} {m : ℤ} (h : oneShiftedLeft n = some m) : m ≠ 0 := by
  by_cases hn : n ≤ 30
  · rw [oneShiftedLeft_small hn] at h
    obtain rfl := Option.some.inj h
    positivity
  · have hn' : n < 32 := by
      by_contra hc
      simp [oneShiftedLeft,hc] at h
    obtain rfl : n = 31 := by omega
    obtain rfl : -2^31 = m := Option.some.inj ((by decide : oneShiftedLeft 31 = some (-2^31)).symm.trans h)
    decide

theorem multiplier_of_pixelSize {zoom : ℤ} {s : ℚ} (hz : 0 < zoom) (hs : pixelSizeFromZoom zoom = some s) :
    ∃ m : ℤ, oneShiftedLeft zoom.toNat = some m ∧ (m:ℚ) ≠ 0 ∧ m = s := by
  cases hm : oneShiftedLeft zoom.toNat with
  | none => simp [pixelSizeFromZoom,hz.le,hm] at hs
  | some m =>
    refine ⟨m,rfl,by exact_mod_cast oneShiftedLeft_ne_zero hm,?_⟩
    simpa [pixelSizeFromZoom,hz.le,hm] using hs

theorem divider_of_pixelSize {zoom : ℤ} {s : ℚ} (hz : zoom ≤ 0) (hs : pixelSizeFromZoom zoom = some s) :
    ∃ m : ℤ, oneShiftedLeft (-zoom).toNat = some m ∧ 1/(m:ℚ) = s ∧ cacheScale zoom = some s := by
  rcases hz.eq_or_lt with rfl | hneg
  · have h1 : oneShiftedLeft 0 = some 1 := by decide
    obtain rfl : 1 = s := by simpa [pixelSizeFromZoom,h1] using hs
    exact ⟨1,h1,by norm_num,if_pos le_rfl⟩
  · cases hm : oneShiftedLeft (-zoom).toNat with
    | none => simp [pixelSizeFromZoom,not_le.mpr hneg,hm] at hs
    | some m =>
      have hm' : 1/(m:ℚ) = s := by simpa [pixelSizeFromZoom,not_le.mpr hneg,hm] using hs
      exact ⟨m,rfl,hm',by simpa [cacheScale,not_le.mpr hneg,hm] using hm'⟩

theorem draw_place {zoom : ℤ} {s : ℚ} (hs : pixelSizeFromZoom zoom = some s) (tileArea viewArea : Rectangle ℚ) :
    ∃ painting scale, CommonOperations.draw tileArea viewArea zoom = some painting ∧
      cacheScale zoom = some scale ∧ painting.clip = viewArea ∧
        ∀ q, painting.place (q.mul scale) = viewArea.getTopLeft+(q-tileArea.getTopLeft).mul s := by
  by_cases hz : 0 < zoom
  · obtain ⟨m,hm,hm0,rfl⟩ := multiplier_of_pixelSize hz hs
    refine ⟨⟨viewArea,m,viewArea.getTopLeft.div m-tileArea.getTopLeft⟩,1,?_,if_pos hz.le,rfl,fun q => ?_⟩
    · simp only [CommonOperations.draw,if_pos hz,hm,Option.bind_eq_bind,Option.bind_some]
      rfl
    · ext
      · simp only [Painting.place,Point.mul,Point.add_x,Point.sub_x,Point.div]
        field_simp
        ring
      · simp only [Painting.place,Point.mul,Point.add_y,Point.sub_y,Point.div]
        field_simp
        ring
  · obtain ⟨m,hm,rfl,hscale⟩ := divider_of_pixelSize (not_lt.mp hz) hs
    refine ⟨⟨viewArea,1,viewArea.getTopLeft-tileArea.getTopLeft.div m⟩,1/(m:ℚ),?_,hscale,rfl,fun q => ?_⟩
    · simp only [CommonOperations.draw,if_neg hz,hm,Option.bind_eq_bind,Option.bind_some]
      rfl
    · ext
      · simp only [Painting.place,Point.mul,Point.add_x,Point.sub_x,Point.div]
        ring
      · simp only [Painting.place,Point.mul,Point.add_y,Point.sub_y,Point.div]
        ring

section Placement
variable {Lo : Type} {layerNr : ℕ} {layer : Layer} {lo : Lo} {zoom : ℤ} {area : Rectangle ℚ} {s : ℚ} {t t' : TileDraw}

theorem exists_tileDraw (ht : t ∈ (drawing layerNr layer lo zoom area s).draws) :
    ∃ i j, t = tileDraw layer (clip area (area.intersection (layerRect layer))) s i j := by
  obtain ⟨i,j,-,-,rfl⟩ := mem_drawTiles.mp ht
  exact ⟨i,j,rfl⟩

theorem tileArea_segments (i j : ℤ) : (Rectangle.ofInt (tileAreaForIndex ⟨i,j⟩) : Rectangle ℚ) =
    ⟨⟨(i*tileSize : ℤ),width⟩,⟨(j*tileSize : ℤ),width⟩⟩ := by
  simp [Rectangle.ofInt,tileAreaForIndex,Rectangle.mul,Segment.ofInt,Segment.mul,tileSize,width]

theorem tileDraw_visible (clipped : Rectangle ℚ) (i j : ℤ) : (tileDraw layer clipped s i j).visibleTileArea =
    ⟨(⟨(i*tileSize : ℤ),width⟩ : Segment ℚ).intersection clipped.horizontally,
      (⟨(j*tileSize : ℤ),width⟩ : Segment ℚ).intersection clipped.vertically⟩ := by
  simp only [tileDraw,tileArea_segments]
  rfl

theorem edge_window {u v : Segment ℚ} {c s : ℚ} (h : u.getEnd = v.start) :
    ((u.sub c).mul s).getEnd = ((v.sub c).mul s).start := by
  simp only [Segment.getEnd,Segment.mul,Segment.sub] at h ⊢
  rw [← h]
  ring

theorem tiles_meet (i : ℤ) : Segment.getEnd (⟨(i*tileSize : ℤ),width⟩ : Segment ℚ) =
    (⟨((i+1)*tileSize : ℤ),width⟩ : Segment ℚ).start := by
  simp only [Segment.getEnd,tileSize,width]
  push_cast
  ring

theorem tileDraw_inTile (clipped : Rectangle ℚ) (i j : ℤ) :
    (tileDraw layer clipped s i j).tileAreaRect.horizontally.InTile ∧
      (tileDraw layer clipped s i j).tileAreaRect.vertically.InTile := by
  simp only [tileDraw,tileArea_segments]
  exact ⟨Segment.inTile_visible _ _,Segment.inTile_visible _ _⟩

theorem windowPoint_eq (ht : t ∈ (drawing layerNr layer lo zoom area s).draws)
    (hclip : (clip area (area.intersection (layerRect layer))).getTopLeft = area.getTopLeft) (q : Point ℚ) :
    t.viewAreaRect.getTopLeft+(q-t.tileAreaRect.getTopLeft).mul s =
      (drawing layerNr layer lo zoom area s).windowPoint s (t.pointAt q) := by
  obtain ⟨i,j,rfl⟩ := exists_tileDraw ht
  have hcorner : (Rectangle.ofInt (tileAreaForIndex ⟨i,j⟩) : Rectangle ℚ).getTopLeft =
      Point.ofInt (tileAreaForIndex ⟨i,j⟩).getTopLeft := rfl
  simp only [tileDraw,hclip,hcorner]
  ext
  · change (_-area.getLeft)*s+(q.x-(_-_))*s = (_+q.x-area.getLeft)*s
    ring
  · change (_-area.getTop)*s+(q.y-(_-_))*s = (_+q.y-area.getTop)*s
    ring

theorem placed_of_clip (hs : pixelSizeFromZoom zoom = some s) (ht : t ∈ (drawing layerNr layer lo zoom area s).draws)
    (hclip : (clip area (area.intersection (layerRect layer))).getTopLeft = area.getTopLeft) :
    Placed (drawing layerNr layer lo zoom area s) s t := by
  obtain ⟨painting,scale,hdraw,hscale,hpc,hplace⟩ := draw_place hs t.tileAreaRect t.viewAreaRect
  refine ⟨?_,painting,scale,hdraw,hscale,hpc,fun q => (hplace q).trans (windowPoint_eq ht hclip q)⟩
  obtain ⟨i,j,rfl⟩ := exists_tileDraw ht
  simp only [tileDraw,hclip]
  rfl

theorem layer_around (n : ℤ) : (Segment.ofInt (.make 0 n) : Segment ℚ).start ≤ 0 ∧
    (Segment.ofInt (.make 0 n) : Segment ℚ).getEnd = (max 0 n : ℤ) := by
  by_cases hn : n < 0
  · simp only [Segment.make,if_pos hn,Segment.ofInt,Segment.getEnd,max_eq_left hn.le]
    push_cast
    exact ⟨by simpa using hn.le,by ring⟩
  · have hn : 0 ≤ n := not_lt.mp hn
    simp [Segment.make_of_nonneg hn,Segment.ofInt,Segment.getEnd,max_eq_right hn]

theorem clip_topLeft (harea : 0 ≤ area.getWidth ∧ 0 ≤ area.getHeight)
    (hb : (drawing layerNr layer lo zoom area s).BeginsBefore) :
    (clip area (area.intersection (layerRect layer))).getTopLeft = area.getTopLeft := by
  ext
  · exact Segment.start_before harea.1 (layer_around layer.width).1 (hb.1.trans_eq (layer_around layer.width).2.symm)
  · exact Segment.start_before harea.2 (layer_around layer.height).1 (hb.2.trans_eq (layer_around layer.height).2.symm)

theorem clip_empty (hb : ¬ (drawing layerNr layer lo zoom area s).BeginsBefore) :
    (clip area (area.intersection (layerRect layer))).horizontally = .empty ∨
      (clip area (area.intersection (layerRect layer))).vertically = .empty := by
  have hnonneg : ∀ n : ℤ, 0 ≤ (Segment.ofInt (.make 0 n) : Segment ℚ).getEnd := by
    intro n
    rw [(layer_around n).2]
    exact_mod_cast le_max_left 0 n
  rcases not_and_or.mp hb with hx | hy
  · rw [not_le] at hx
    exact Or.inl (Segment.before_eq_empty (hnonneg layer.width) ((layer_around layer.width).2.trans_lt hx))
  · rw [not_le] at hy
    exact Or.inr (Segment.before_eq_empty (hnonneg layer.height) ((layer_around layer.height).2.trans_lt hy))

theorem nothing_shown (ht : t ∈ (drawing layerNr layer lo zoom area s).draws)
    (hb : ¬ (drawing layerNr layer lo zoom area s).BeginsBefore) :
    (t.viewAreaRect.getWidth = 0 ∧ ∃ a : ℤ, t.tileAreaRect.horizontally = ⟨a,0⟩) ∨
      (t.viewAreaRect.getHeight = 0 ∧ ∃ a : ℤ, t.tileAreaRect.vertically = ⟨a,0⟩) := by
  obtain ⟨i,j,rfl⟩ := exists_tileDraw ht
  have hempty := clip_empty hb
  generalize clip area (area.intersection (layerRect layer)) = clipped at hempty ⊢
  rcases hempty with hx | hy
  · have hvis : (tileDraw layer clipped s i j).visibleTileArea.horizontally = .empty := by
      rw [tileDraw_visible,hx]
      exact Segment.intersection_empty _
    refine Or.inl ⟨(congrArg (fun u : Segment ℚ => u.size*s) hvis).trans (zero_mul s),-(i*tileSize),?_⟩
    refine (congrArg (fun u : Segment ℚ => u.sub _) hvis).trans ?_
    simp [tileArea_segments,Segment.sub,Segment.empty,Rectangle.getTopLeft,Rectangle.getLeft]
  · have hvis : (tileDraw layer clipped s i j).visibleTileArea.vertically = .empty := by
      rw [tileDraw_visible,hy]
      exact Segment.intersection_empty _
    refine Or.inr ⟨(congrArg (fun u : Segment ℚ => u.size*s) hvis).trans (zero_mul s),-(j*tileSize),?_⟩
    refine (congrArg (fun u : Segment ℚ => u.sub _) hvis).trans ?_
    simp [tileArea_segments,Segment.sub,Segment.empty,Rectangle.getTopLeft,Rectangle.getTop]

theorem joined (ht : t ∈ (drawing layerNr layer lo zoom area s).draws)
    (ht' : t' ∈ (drawing layerNr layer lo zoom area s).draws)
    (hp : Placed (drawing layerNr layer lo zoom area s) s t)
    (hp' : Placed (drawing layerNr layer lo zoom area s) s t') :
    Joined (drawing layerNr layer lo zoom area s) t t' := by
  refine ⟨?_,?_,?_⟩
  · intro painting painting' scale q q' hscale hdraw hdraw' hq
    obtain ⟨p,c,hpd,hc,-,hplace⟩ := hp.place
    obtain ⟨p',c',hpd',hc',-,hplace'⟩ := hp'.place
    obtain rfl := Option.some.inj (hdraw.symm.trans hpd)
    obtain rfl := Option.some.inj (hdraw'.symm.trans hpd')
    obtain rfl := Option.some.inj (hscale.symm.trans hc)
    obtain rfl := Option.some.inj (hc.symm.trans hc')
    rw [hplace,hplace',hq]
  · intro hi hv hv'
    rw [hp.clip,hp'.clip]
    obtain ⟨i,j,rfl⟩ := exists_tileDraw ht
    obtain ⟨i',j',rfl⟩ := exists_tileDraw ht'
    obtain rfl : i' = i+1 := hi
    simp only [tileDraw_visible,Rectangle.getWidth] at hv hv' ⊢
    have hmeet := Segment.visible_meet (tiles_meet i) hv hv'
    exact edge_window hmeet
  · intro hj hv hv'
    rw [hp.clip,hp'.clip]
    obtain ⟨i,j,rfl⟩ := exists_tileDraw ht
    obtain ⟨i',j',rfl⟩ := exists_tileDraw ht'
    obtain rfl : j' = j+1 := hj
    simp only [tileDraw_visible,Rectangle.getHeight] at hv hv' ⊢
    have hmeet := Segment.visible_meet (tiles_meet j) hv hv'
    exact edge_window hmeet

theorem labels_shown {lo : LayerOperations} (hs : pixelSizeFromZoom zoom = some s)
    (ht : t ∈ (drawing layerNr layer lo zoom area s).draws)
    (hclip : (clip area (area.intersection (layerRect layer))).getTopLeft = area.getTopLeft) (h5 : zoom = 5)
    (hl : lo.DrawsLabels) (hbits : lo.IndexBits) (hbpp : layer.bpp = lo.getBpp) (tile : Tile layer.bpp.toNat) :
    ∃ labels, lo.drawPixelValues tile t.tileAreaRect t.viewAreaRect zoom = some labels ∧
      ShowPixels labels t.tileAreaRect (fun q => (drawing layerNr layer lo zoom area s).windowPoint s (t.pointAt q))
        fun row col => lo.pixel tile row col := by
  subst h5
  obtain rfl : s = 2^5 := by
    rw [pixelSizeFromZoom_small (by decide) (by decide)] at hs
    exact (Option.some.inj hs).symm
  obtain ⟨hx,hy⟩ : t.tileAreaRect.horizontally.InTile ∧ t.tileAreaRect.vertically.InTile := by
    obtain ⟨i,j,rfl⟩ := exists_tileDraw ht
    exact tileDraw_inTile _ i j
  have hn : width*height*layer.bpp.toNat/8 = width*height*lo.getBpp/8 := by rw [hbpp,Int.toNat_natCast]
  obtain ⟨labels,hdraw,hshow⟩ := lo.drawPixelValues_showPixels hl hbits hn tile t.viewAreaRect hx hy
  rw [funext (windowPoint_eq ht hclip)] at hshow
  exact ⟨labels,hdraw,hshow⟩

theorem make_sizes (x y u v : ℚ) (k : ℕ) : 0 ≤ ((Rectangle.make x y u v).div (8^k)).getWidth ∧
    0 ≤ ((Rectangle.make x y u v).div (8^k)).getHeight := by
  have hsize : ∀ a b : ℚ, 0 ≤ ((Segment.make a b).div (8^k)).size := by
    intro a b
    refine div_nonneg ?_ (by positivity)
    unfold Segment.make
    split
    · rename_i hb
      exact (neg_pos.mpr hb).le
    · rename_i hb
      exact not_lt.mp hb
  exact ⟨hsize x u,hsize y v⟩

end Placement

/-- In every drawing of an area that does not begin beyond the layer, the tiles are where they belong and so are
the labels. Of other areas nothing is shown. -/
theorem tiles_placed (w h : ℤ) (ls : List LayerOperations) (tb : TiledBitmap LayerOperations)
    (ht : create (fun lo => lo.getBpp) w h ls = some tb) (x y u v : ℚ) (zoom : ℤ) (d : Drawing LayerOperations)
    (hd : redraw tb (.make x y u v) zoom = some d) : ∃ pixelSize, pixelSizeFromZoom d.zoom = some pixelSize ∧
      (d.BeginsBefore → (∀ t ∈ d.draws, Placed d pixelSize t) ∧ (∀ t ∈ d.draws, ∀ t' ∈ d.draws, Joined d t t') ∧
        (d.zoom = 5 → d.layerOperations.DrawsLabels → d.layerOperations.IndexBits → ∀ t ∈ d.draws,
          ∀ tile : Tile d.layer.bpp.toNat, ∃ labels,
            d.layerOperations.drawPixelValues tile t.tileAreaRect t.viewAreaRect d.zoom = some labels ∧
              ShowPixels labels t.tileAreaRect (fun q => d.windowPoint pixelSize (t.pointAt q))
                fun row col => d.layerOperations.pixel tile row col)) ∧
      (¬ d.BeginsBefore → ∀ t ∈ d.draws, (t.viewAreaRect.getWidth = 0 ∨ t.viewAreaRect.getHeight = 0) ∧
        ∀ tile : Tile d.layer.bpp.toNat,
          d.layerOperations.drawPixelValues tile t.tileAreaRect t.viewAreaRect d.zoom = some []) := by
  obtain ⟨hwired,-,rfl,hls,bottom,hb,-,-⟩ := wired_of_create ht
  have hsize := (List.getElem?_eq_some_iff.mp hb).1
  obtain ⟨layer,hlayer⟩ : ∃ layer, tb.layers[layersSkipped tb.layers.length zoom]? = some layer :=
    ⟨_,List.getElem?_eq_getElem (layersSkipped_lt hsize zoom)⟩
  obtain ⟨lo,hlo,hbpp⟩ := hwired.bpp _ _ hlayer
  rw [min_comm] at hlo
  obtain ⟨-,-,s,hs,rfl⟩ := (redraw_eq_some rfl hlayer hlo).mp hd
  refine ⟨s,hs,fun hb => ?_,fun hb t ht => ?_⟩
  · have hclip := clip_topLeft (make_sizes x y u v _) hb
    refine ⟨fun t ht => placed_of_clip hs ht hclip,fun t ht t' ht' => ?_,fun h5 hl hbits t ht tile => ?_⟩
    · exact joined ht ht' (placed_of_clip hs ht hclip) (placed_of_clip hs ht' hclip)
    · exact labels_shown hs ht hclip h5 hl hbits hbpp tile
  · have hnone := nothing_shown ht hb
    refine ⟨hnone.imp And.left And.left,fun tile => ?_⟩
    exact LayerOperations.drawPixelValues_empty _ tile _ _ (hnone.imp And.right And.right)

theorem tiles_placed_halfPixel : ∃ tb d,
    create (fun lo : LayerOperations => (lo.getBpp:ℤ)) 5000 100 [.operations8bpp []] = some tb ∧
    redraw tb (.make (1/2) (1/4) 20 10) 5 = some d ∧ (∃ t, t ∈ d.draws) ∧ ∃ pixelSize,
      pixelSizeFromZoom d.zoom = some pixelSize ∧ (∀ t ∈ d.draws, Placed d pixelSize t) ∧
        ∀ t ∈ d.draws, ∀ tile : Tile d.layer.bpp.toNat, ∃ labels,
          d.layerOperations.drawPixelValues tile t.tileAreaRect t.viewAreaRect d.zoom = some labels ∧
            ShowPixels labels t.tileAreaRect (fun q => d.windowPoint pixelSize (t.pointAt q))
              fun row col => d.layerOperations.pixel tile row col := by
  obtain ⟨tb,bottom,ht,-,-,hls,hb,hw,hh⟩ := create_wired (fun lo : LayerOperations => (lo.getBpp:ℤ)) (w := 5000)
    (h := 100) (show [LayerOperations.operations8bpp []][0]? = some (.operations8bpp []) from rfl) (by decide)
    (by decide)
  have hlo : tb.ls[min (tb.ls.length-1) 0]? = some (.operations8bpp []) := by simp [hls]
  have hk : layersSkipped tb.layers.length 5 = 0 := by simp [layersSkipped]
  have hd : redraw tb (.make (1/2) (1/4) 20 10) 5 = some (drawing 0 bottom (.operations8bpp []) (5+3*(0:ℕ))
      ((Rectangle.make (1/2) (1/4) 20 10).div (8^0)) 32) := (redraw_eq_some hk hb hlo).mpr
    ⟨⟨by rw [hw]; decide,by rw [hh]; decide⟩,⟨by decide +kernel,by decide +kernel,by decide +kernel,by decide +kernel⟩,
      32,pixelSizeFromZoom_small (by decide) (by decide),rfl⟩
  refine ⟨tb,_,ht,hd,⟨_,mem_drawTiles.mpr ⟨0,0,by decide +kernel,by decide +kernel,rfl⟩⟩,?_⟩
  obtain ⟨s,hs,hbefore,-⟩ := tiles_placed 5000 100 [.operations8bpp []] tb ht (1/2) (1/4) 20 10 5 _ hd
  have hbegin : ((Rectangle.make (1/2) (1/4) 20 10 : Rectangle ℚ).div (8^0)).getLeft ≤ (max 0 5000 : ℤ) ∧
      ((Rectangle.make (1/2) (1/4) 20 10 : Rectangle ℚ).div (8^0)).getTop ≤ (max 0 100 : ℤ) := by decide +kernel
  rw [← hw,← hh] at hbegin
  obtain ⟨hplaced,-,hlabels⟩ := hbefore hbegin
  exact ⟨s,hs,hplaced,hlabels rfl trivial trivial⟩

/-- An area that begins beyond the layer: the tile at the origin is visited, and its corner would come in the corner
of the window. -/
theorem beyond_misplaced : ¬ ∀ (w h : ℤ) (ls : List LayerOperations) (tb : TiledBitmap LayerOperations),
    create (fun lo => lo.getBpp) w h ls = some tb → ∀ (x y u v : ℚ) (zoom : ℤ) (d : Drawing LayerOperations),
      redraw tb (.make x y u v) zoom = some d → ∃ pixelSize, pixelSizeFromZoom d.zoom = some pixelSize ∧
        ∀ t ∈ d.draws, ∃ painting scale, CommonOperations.draw t.tileAreaRect t.viewAreaRect d.zoom = some painting ∧
          cacheScale d.zoom = some scale ∧
            ∀ q, painting.place (q.mul scale) = d.windowPoint pixelSize (t.pointAt q) := by
  intro hall
  obtain ⟨tb,bottom,ht,-,-,hls,hb,hw,hh⟩ := create_wired (fun lo : LayerOperations => (lo.getBpp:ℤ)) (w := 100)
    (h := 100) (show [LayerOperations.operations8bpp []][0]? = some (.operations8bpp []) from rfl) (by decide)
    (by decide)
  have hlo : tb.ls[min (tb.ls.length-1) 0]? = some (.operations8bpp []) := by simp [hls]
  have hk : layersSkipped tb.layers.length 1 = 0 := by simp [layersSkipped]
  have hsize : pixelSizeFromZoom (1+3*(0:ℕ)) = some 2 := pixelSizeFromZoom_small (by decide) (by decide)
  have hd : redraw tb (.make 200 0 100 50) 1 = some (drawing 0 bottom (.operations8bpp []) (1+3*(0:ℕ))
      ((Rectangle.make 200 0 100 50).div (8^0)) 2) := (redraw_eq_some hk hb hlo).mpr
    ⟨⟨by rw [hw]; decide,by rw [hh]; decide⟩,⟨by decide +kernel,by decide +kernel,by decide +kernel,by decide +kernel⟩,
      2,hsize,rfl⟩
  obtain ⟨s,hs,hplaced⟩ := hall 100 100 _ tb ht 200 0 100 50 1 _ hd
  obtain ⟨painting,scale,hdraw,hscale,hplace⟩ :=
    hplaced _ (mem_drawTiles.mpr ⟨0,0,by decide +kernel,by decide +kernel,rfl⟩)
  obtain ⟨painting',scale',hdraw',hscale',-,hplace'⟩ := draw_place hs _ _
  obtain rfl := Option.some.inj (hdraw'.symm.trans hdraw)
  obtain rfl := Option.some.inj (hscale'.symm.trans hscale)
  have hx := congrArg Point.x ((hplace' ⟨0,0⟩).symm.trans (hplace ⟨0,0⟩))
  obtain rfl := Option.some.inj (hs.symm.trans hsize)
  simp only [drawing,Drawing.windowPoint,layerRect,hw,hh,tileDraw,TileDraw.pointAt] at hx
  revert hx
  decide +kernel

end TiledBitmap

end Scroom
