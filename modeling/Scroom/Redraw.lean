import Mathlib.Data.Int.Range
import Scroom.Pyramid

/-! Drawing the part of a bitmap that a view asks for: which layer is used, which tiles are
visited, and where they are drawn. -/
namespace Scroom
namespace TiledBitmap

variable {Lo : Type}

/-- `1 << n` for an `int`; shifting into the sign bit gives the lowest `int`. -/
def oneShiftedLeft (n : ℕ) : Option ℤ := if n < 32 then some (MachineInt.wrap (2^n)) else none

def pixelSizeFromZoom (zoom : ℤ) : Option ℚ :=
  if 0 ≤ zoom then (oneShiftedLeft zoom.toNat).map fun n => 1*n
  else (oneShiftedLeft (-zoom).toNat).map fun n => 1/n

/-- The loop that selects the layer: the number of the layer, the zoom and the area to draw
it with. -/
def selectLayer (size layerNr : ℕ) (zoom : ℤ) (area : Rectangle ℚ) : ℕ × ℤ × Rectangle ℚ :=
  if zoom ≤ -3 ∧ layerNr < size-1 then selectLayer size (layerNr+1) (zoom+3) (area.div 8)
  else (layerNr,zoom,area)
termination_by size-layerNr

/-- The arithmetic on `int` is exact here, for the tiles that `redraw` visits. -/
def tileAreaForIndex (tileIndex : Point ℤ) : Rectangle ℤ :=
  Rectangle.mul ⟨⟨0+tileIndex.x,1⟩,⟨0+tileIndex.y,1⟩⟩ tileSize

/-- One turn of the drawing loop: the tile, and the areas that are passed to `draw`. -/
structure TileDraw where
  i : ℤ
  j : ℤ
  tile : CompressedTile
  visibleTileArea : Rectangle ℚ
  tileAreaRect : Rectangle ℚ
  viewAreaRect : Rectangle ℚ

def tileDraw (layer : Layer) (clippedRequestedPresentationArea : Rectangle ℚ) (pixelSize : ℚ) (i j : ℤ) :
    TileDraw :=
  let tileArea := Rectangle.ofInt (tileAreaForIndex ⟨i,j⟩)
  let visibleTileArea := tileArea.intersection clippedRequestedPresentationArea
  ⟨i,j,layer.getTile i j,visibleTileArea,visibleTileArea.sub tileArea.getTopLeft,
    (visibleTileArea.sub clippedRequestedPresentationArea.getTopLeft).mul pixelSize⟩

/-- What `redraw` settles on before it draws, and what it draws. -/
structure Drawing (Lo : Type) where
  layerNr : ℕ
  zoom : ℤ
  scaledRequestedPresentationArea : Rectangle ℚ
  layer : Layer
  layerOperations : Lo
  actualPresentationArea : Rectangle ℤ
  draws : List TileDraw

/-- The part of the requested area above and to the left of where the bitmap ends. -/
def clip (area valid : Rectangle ℚ) : Rectangle ℚ := (area.above valid.getBottom).leftOf valid.getRight

def redraw (tb : TiledBitmap Lo) (presentationArea : Rectangle ℚ) (zoom : ℤ) : Option (Drawing Lo) := do
  let (layerNr,zoom,area) := selectLayer tb.layers.length 0 zoom presentationArea
  let layer ← tb.layers[layerNr]?
  let layerOperations ← tb.ls[min (tb.ls.length-1) layerNr]?
  let actualPresentationArea ← layer.getRect
  let validPresentationArea := area.intersection (.ofInt actualPresentationArea)
  let left ← MachineInt.toInt area.getLeft
  let top ← MachineInt.toInt area.getTop
  let right ← MachineInt.toInt area.getRight
  let bottom ← MachineInt.toInt area.getBottom
  let imin := max 0 (left.tdiv tileSize)
  let imax := (← MachineInt.checked (right+(tileSize-1))).tdiv tileSize
  let jmin := max 0 (top.tdiv tileSize)
  let jmax := (← MachineInt.checked (bottom+(tileSize-1))).tdiv tileSize
  let pixelSize ← pixelSizeFromZoom zoom
  let draws := (Int.range imin imax).flatMap fun i => (Int.range jmin jmax).map fun j =>
    tileDraw layer (clip area validPresentationArea) pixelSize i j
  return ⟨layerNr,zoom,area,layer,layerOperations,actualPresentationArea,draws⟩

/-- The drawing shows what was asked for: it uses an existing layer at the requested scale,
and every visible point of the bitmap is drawn with exactly one of the tiles visited. -/
structure Shows (tb : TiledBitmap Lo) (presentationArea : Rectangle ℚ) (zoom : ℤ) (d : Drawing Lo) :
    Prop where
  layer : tb.layers[d.layerNr]? = some d.layer
  scale : ∃ s t, pixelSizeFromZoom d.zoom = some s ∧ pixelSizeFromZoom zoom = some t ∧
    d.scaledRequestedPresentationArea.mul s = presentationArea.mul t
  once : (d.draws.map fun t => (t.i,t.j)).Nodup
  drawn : ∀ p, d.scaledRequestedPresentationArea.contains p →
    (Rectangle.ofInt d.actualPresentationArea).contains p →
      ∃! t, t ∈ d.draws ∧ t.visibleTileArea.contains p

/-- The number of layers that a zoom level skips, in a stack of `size` layers. -/
def layersSkipped (size : ℕ) (zoom : ℤ) : ℕ := min (-zoom/3).toNat (size-1)

theorem selectLayer_eq (size layerNr : ℕ) (zoom : ℤ) (area : Rectangle ℚ) :
    selectLayer size layerNr zoom area =
      (layerNr+layersSkipped (size-layerNr) zoom,zoom+3*layersSkipped (size-layerNr) zoom,
        area.div (8^layersSkipped (size-layerNr) zoom)) := by
  fun_induction selectLayer size layerNr zoom area with
  | case1 layerNr zoom area h ih =>
    have hs : layersSkipped (size-layerNr) zoom = layersSkipped (size-(layerNr+1)) (zoom+3)+1 := by
      simp only [layersSkipped]
      omega
    rw [ih,hs,Rectangle.div_twice,pow_succ']
    push_cast
    refine Prod.ext (by dsimp only; omega) (Prod.ext (by dsimp only; ring) rfl)
  | case2 layerNr zoom area h =>
    have hs : layersSkipped (size-layerNr) zoom = 0 := by
      simp only [layersSkipped]
      omega
    simp [hs,Rectangle.div,Segment.div]

theorem oneShiftedLeft_small {n : ℕ} (h : n ≤ 30) : oneShiftedLeft n = some (2^n) := by
  have hp : (2:ℤ)^n ≤ 2^30 := pow_le_pow_right₀ (by norm_num) h
  have hp' : (0:ℤ) < 2^n := by positivity
  rw [oneShiftedLeft,if_pos (by omega),MachineInt.wrap_of_mem]
  · simp only [MachineInt.intMin]
    omega
  · simp only [MachineInt.intMax]
    omega

theorem pixelSizeFromZoom_small {zoom : ℤ} (hl : -30 ≤ zoom) (hr : zoom ≤ 30) :
    pixelSizeFromZoom zoom = some (2^zoom) := by
  by_cases h : 0 ≤ zoom
  · rw [pixelSizeFromZoom,if_pos h,oneShiftedLeft_small (by omega)]
    obtain ⟨n,rfl⟩ := Int.eq_ofNat_of_zero_le h
    simp
  · rw [pixelSizeFromZoom,if_neg h,oneShiftedLeft_small (by omega)]
    obtain ⟨n,hn⟩ := Int.eq_ofNat_of_zero_le (show 0 ≤ -zoom by omega)
    obtain rfl : zoom = -n := by omega
    simp

theorem pixelSizeFromZoom_sign : pixelSizeFromZoom 31 = some (-2^31) ∧
    pixelSizeFromZoom (-31) = some (-(1/2^31)) := by
  have h : oneShiftedLeft (31:ℤ).toNat = some (-2^31) := by decide
  constructor
  · norm_num [pixelSizeFromZoom,h]
  · norm_num [pixelSizeFromZoom,h]

theorem pixelSizeFromZoom_isSome {zoom : ℤ} :
    (∃ s, pixelSizeFromZoom zoom = some s) ↔ -31 ≤ zoom ∧ zoom ≤ 31 := by
  by_cases h : 0 ≤ zoom
  · rw [pixelSizeFromZoom,if_pos h,oneShiftedLeft]
    split <;> simp <;> omega
  · rw [pixelSizeFromZoom,if_neg h,oneShiftedLeft]
    split <;> simp <;> omega

/-- When the area and zoom of the chosen layer describe the requested rectangle. -/
def ScaleDefined (size : ℕ) (presentationArea : Rectangle ℚ) (zoom : ℤ) : Prop :=
  (-30 ≤ zoom ∧ zoom ≤ 31) ∨ (zoom = -31 ∧ (size = 1 ∨ presentationArea = ⟨⟨0,0⟩,⟨0,0⟩⟩))

theorem mul_left_injective_iff {r : Rectangle ℚ} {a b : ℚ} (h : a ≠ b) :
    r.mul a = r.mul b ↔ r = ⟨⟨0,0⟩,⟨0,0⟩⟩ := by
  obtain ⟨⟨x,w⟩,y,z⟩ := r
  simp [Rectangle.mul,Segment.mul,h]

theorem scale_iff {size : ℕ} (hsize : 0 < size) (area : Rectangle ℚ) (zoom : ℤ) :
    (∃ s t, pixelSizeFromZoom (zoom+3*layersSkipped size zoom) = some s ∧
      pixelSizeFromZoom zoom = some t ∧ (area.div (8^layersSkipped size zoom)).mul s = area.mul t) ↔
      ScaleDefined size area zoom := by
  simp only [Rectangle.mul_of_div]
  constructor
  · rintro ⟨s,t,hs,ht,he⟩
    obtain ⟨hl,hr⟩ := pixelSizeFromZoom_isSome.mp ⟨t,ht⟩
    by_cases hz : zoom = -31
    · subst hz
      obtain rfl : -(1/2^31) = t := Option.some.inj (pixelSizeFromZoom_sign.2.symm.trans ht)
      refine Or.inr ⟨rfl,?_⟩
      by_cases hk : layersSkipped size (-31) = 0
      · simp only [layersSkipped] at hk
        omega
      · have hb : layersSkipped size (-31) ≤ 10 := Nat.min_le_left _ _
        rw [pixelSizeFromZoom_small (by omega) (by omega)] at hs
        obtain rfl := Option.some.inj hs
        refine Or.inr ((mul_left_injective_iff (ne_of_gt ?_)).mp he)
        exact (by norm_num : -(1/2^31 : ℚ) < 0).trans (by positivity)
    · exact Or.inl ⟨by omega,hr⟩
  · intro h
    by_cases hk : layersSkipped size zoom = 0
    · have hz : -31 ≤ zoom ∧ zoom ≤ 31 := by
        rcases h with h | ⟨rfl,-⟩ <;> omega
      obtain ⟨s,hs⟩ := pixelSizeFromZoom_isSome.mpr hz
      exact ⟨s,s,by simpa [hk] using hs,hs,by simp [hk]⟩
    · have hb : 3*(layersSkipped size zoom : ℤ) ≤ -zoom := by
        simp only [layersSkipped] at hk ⊢
        omega
      rcases h with ⟨hl,hr⟩ | ⟨rfl,h⟩
      · refine ⟨_,_,pixelSizeFromZoom_small (by omega) (by omega),pixelSizeFromZoom_small hl (by omega),?_⟩
        congr 1
        rw [zpow_add₀ (by norm_num),zpow_mul]
        norm_num
      · have harea : area = ⟨⟨0,0⟩,⟨0,0⟩⟩ := by
          refine h.resolve_left fun h1 => hk ?_
          simp [layersSkipped,h1]
        refine ⟨_,_,pixelSizeFromZoom_small (by omega) (by omega),pixelSizeFromZoom_sign.2,?_⟩
        simp [harea,Rectangle.mul,Segment.mul]

/-- One axis of the bitmap: its last visible line of tiles is missed, because the end of the
area lies just beyond the boundary of a tile and is truncated to it. -/
def Gap (s : Segment ℚ) (size : ℤ) : Prop :=
  tileSize ∣ ⌊s.getEnd⌋ ∧ (⌊s.getEnd⌋:ℚ) < s.getEnd ∧ ⌊s.getEnd⌋ < size

def lineOf (x : ℚ) : ℤ := ⌊x⌋/tileSize

theorem lineOf_eq_iff {x : ℚ} {i : ℤ} :
    lineOf x = i ↔ (tileSize*i : ℚ) ≤ x ∧ x < tileSize*i+tileSize := by
  have hl : (tileSize*i : ℚ) ≤ x ↔ tileSize*i ≤ ⌊x⌋ := by rw [Int.le_floor]; push_cast; rfl
  have hr : x < (tileSize*i+tileSize : ℚ) ↔ ⌊x⌋ < tileSize*i+tileSize := by rw [Int.floor_lt]; push_cast; rfl
  rw [hl,hr]
  simp only [lineOf,tileSize]
  omega

theorem nonneg_of_lineOf {x : ℚ} (h : 0 ≤ lineOf x) : 0 ≤ x := by
  have hx : 0 ≤ ⌊x⌋ := by
    simp only [lineOf,tileSize] at h
    omega
  exact Int.floor_nonneg.mp hx

theorem line_visited_iff {s : Segment ℚ} {x : ℚ} (hx : 0 ≤ x) (hs : s.contains x) :
    (max 0 ((MachineInt.trunc s.start).tdiv tileSize) ≤ lineOf x ∧
      lineOf x < (MachineInt.trunc s.getEnd+(tileSize-1)).tdiv tileSize) ↔
      tileSize*lineOf x ≠ ⌊s.getEnd⌋ := by
  have hend : 0 ≤ s.getEnd := hx.trans hs.2.le
  have hxe : ⌊x⌋ ≤ ⌊s.getEnd⌋ := Int.floor_le_floor hs.2.le
  have hx0 : 0 ≤ ⌊x⌋ := Int.floor_nonneg.mpr hx
  have hstart : MachineInt.trunc s.start ≤ ⌊x⌋ := by
    by_cases h : 0 ≤ s.start
    · rw [MachineInt.trunc_of_nonneg h]
      exact Int.floor_le_floor hs.1
    · exact (MachineInt.trunc_nonpos (not_le.mp h).le).trans hx0
  have htd := MachineInt.tdiv_le (MachineInt.trunc s.start) (show 0 < tileSize by decide)
  have hte : (⌊s.getEnd⌋+(tileSize-1)).tdiv tileSize = (⌊s.getEnd⌋+(tileSize-1))/tileSize :=
    Int.tdiv_eq_ediv_of_nonneg (by simp only [tileSize]; omega)
  rw [MachineInt.trunc_of_nonneg hend,hte]
  simp only [lineOf,tileSize] at *
  omega

/-- On an axis with something visible, every visible coordinate is on a visited line unless
there is a gap. -/
theorem forall_visited_iff {s : Segment ℚ} {size : ℤ} {x₀ : ℚ} (hx₀ : s.contains x₀)
    (h0 : 0 ≤ x₀) (hsize : x₀ < size) :
    (∀ x, s.contains x → 0 ≤ x → x < size → tileSize*lineOf x ≠ ⌊s.getEnd⌋) ↔ ¬ Gap s size := by
  have hend : 0 ≤ s.getEnd := h0.trans hx₀.2.le
  constructor
  · rintro h ⟨hd,hf,hs⟩
    have hfs : (⌊s.getEnd⌋:ℚ) < size := by exact_mod_cast hs
    have hf0 : (0:ℚ) ≤ ⌊s.getEnd⌋ := by exact_mod_cast Int.floor_nonneg.mpr hend
    refine h (max x₀ ⌊s.getEnd⌋) ⟨hx₀.1.trans (le_max_left _ _),max_lt hx₀.2 hf⟩
      (h0.trans (le_max_left _ _)) (max_lt hsize hfs) ?_
    have hm : ⌊max x₀ (⌊s.getEnd⌋:ℚ)⌋ = ⌊s.getEnd⌋ := by
      refine Int.floor_eq_iff.mpr ⟨le_max_right _ _,max_lt ?_ (lt_add_one _)⟩
      exact hx₀.2.trans (Int.lt_floor_add_one _)
    rw [lineOf,hm]
    exact Int.mul_ediv_cancel' hd
  · rintro hg x hs hx hxs he
    have hle : ⌊s.getEnd⌋ ≤ ⌊x⌋ := by
      rw [← he,lineOf]
      exact Int.mul_ediv_self_le (by decide)
    have hfx : (⌊s.getEnd⌋:ℚ) ≤ x := Int.le_floor.mp hle
    refine hg ⟨⟨_,he.symm⟩,hfx.trans_lt hs.2,?_⟩
    exact_mod_cast hfx.trans_lt hxs

theorem tileArea_contains {i j : ℤ} {p : Point ℚ} :
    (Rectangle.ofInt (tileAreaForIndex ⟨i,j⟩)).contains p ↔ lineOf p.x = i ∧ lineOf p.y = j := by
  rw [lineOf_eq_iff,lineOf_eq_iff]
  simp only [Rectangle.ofInt,Segment.ofInt,tileAreaForIndex,Rectangle.mul,Segment.mul,
    Rectangle.contains,Segment.contains]
  push_cast
  simp only [zero_add,one_mul,mul_comm (tileSize:ℚ)]

theorem clip_contains {area rect : Rectangle ℚ} {p : Point ℚ} (ha : area.contains p)
    (hr : rect.contains p) : (clip area (area.intersection rect)).contains p := by
  rw [clip,Rectangle.contains_leftOf,Rectangle.contains_above]
  have hx := Segment.getEnd_intersection ha.1 hr.1
  have hy := Segment.getEnd_intersection ha.2 hr.2
  refine ⟨⟨ha,?_⟩,?_⟩
  · exact (lt_min ha.2.2 hr.2.2).trans_eq hy.symm
  · exact (lt_min ha.1.2 hr.1.2).trans_eq hx.symm

/-- The loops of `redraw` over given ranges of tiles. -/
def drawTiles (layer : Layer) (clipped : Rectangle ℚ) (pixelSize : ℚ) (imin imax jmin jmax : ℤ) :
    List TileDraw :=
  (Int.range imin imax).flatMap fun i => (Int.range jmin jmax).map fun j =>
    tileDraw layer clipped pixelSize i j

section DrawTiles
variable {layer : Layer} {clipped : Rectangle ℚ} {pixelSize : ℚ} {imin imax jmin jmax : ℤ}

theorem mem_drawTiles {t : TileDraw} : t ∈ drawTiles layer clipped pixelSize imin imax jmin jmax ↔
    ∃ i j, (imin ≤ i ∧ i < imax) ∧ (jmin ≤ j ∧ j < jmax) ∧ t = tileDraw layer clipped pixelSize i j := by
  simp only [drawTiles,List.mem_flatMap,List.mem_map,Int.mem_range_iff]
  constructor
  · rintro ⟨i,hi,j,hj,rfl⟩
    exact ⟨i,j,hi,hj,rfl⟩
  · rintro ⟨i,j,hi,hj,rfl⟩
    exact ⟨i,hi,j,hj,rfl⟩

theorem nodup_range (m n : ℤ) : (Int.range m n).Nodup :=
  List.nodup_range.map fun a b h => by simpa using h

theorem nodup_drawTiles :
    ((drawTiles layer clipped pixelSize imin imax jmin jmax).map fun t => (t.i,t.j)).Nodup := by
  simp only [drawTiles,List.map_flatMap,List.map_map]
  refine List.nodup_flatMap.mpr ⟨fun i _ => (nodup_range _ _).map fun a b h => congrArg Prod.snd h,?_⟩
  refine (nodup_range _ _).imp fun h => ?_
  simp only [Function.onFun,List.disjoint_left,List.mem_map]
  rintro p ⟨j,_,rfl⟩ ⟨j',_,he⟩
  exact h (congrArg Prod.fst he).symm

theorem drawn_once_iff {p : Point ℚ} (hp : clipped.contains p) :
    (∃! t, t ∈ drawTiles layer clipped pixelSize imin imax jmin jmax ∧ t.visibleTileArea.contains p) ↔
      (imin ≤ lineOf p.x ∧ lineOf p.x < imax) ∧ (jmin ≤ lineOf p.y ∧ lineOf p.y < jmax) := by
  have hc : ∀ i j, (tileDraw layer clipped pixelSize i j).visibleTileArea.contains p ↔
      lineOf p.x = i ∧ lineOf p.y = j := by
    intro i j
    simp only [tileDraw,Rectangle.contains_intersection,tileArea_contains,hp,and_true]
  constructor
  · rintro ⟨t,⟨ht,hv⟩,-⟩
    obtain ⟨i,j,hi,hj,rfl⟩ := mem_drawTiles.mp ht
    obtain ⟨rfl,rfl⟩ := (hc i j).mp hv
    exact ⟨hi,hj⟩
  · rintro ⟨hi,hj⟩
    refine ⟨_,⟨mem_drawTiles.mpr ⟨_,_,hi,hj,rfl⟩,(hc _ _).mpr ⟨rfl,rfl⟩⟩,?_⟩
    rintro t ⟨ht,hv⟩
    obtain ⟨i,j,-,-,rfl⟩ := mem_drawTiles.mp ht
    obtain ⟨rfl,rfl⟩ := (hc i j).mp hv
    rfl

end DrawTiles

/-- The edges of an area can be converted to `int` and rounded up to tiles. -/
structure EdgesFit (area : Rectangle ℚ) : Prop where
  left : MachineInt.intMin ≤ MachineInt.trunc area.getLeft ∧ MachineInt.trunc area.getLeft ≤ MachineInt.intMax
  top : MachineInt.intMin ≤ MachineInt.trunc area.getTop ∧ MachineInt.trunc area.getTop ≤ MachineInt.intMax
  right : MachineInt.intMin ≤ MachineInt.trunc area.getRight ∧
    MachineInt.trunc area.getRight+(tileSize-1) ≤ MachineInt.intMax
  bottom : MachineInt.intMin ≤ MachineInt.trunc area.getBottom ∧
    MachineInt.trunc area.getBottom+(tileSize-1) ≤ MachineInt.intMax

/-- The rectangle of a layer, normalised. -/
def layerRect (layer : Layer) : Rectangle ℚ := .ofInt ⟨.make 0 layer.width,.make 0 layer.height⟩

/-- When `redraw` shows what it was asked for: the scale, the rectangle of the layer and the
edges of the area can be computed, and there is no gap where something is visible. -/
structure Drawable (tb : TiledBitmap Lo) (presentationArea : Rectangle ℚ) (zoom : ℤ) (layer : Layer)
    (area : Rectangle ℚ) : Prop where
  scale : ScaleDefined tb.layers.length presentationArea zoom
  width : MachineInt.intMin < layer.width
  height : MachineInt.intMin < layer.height
  edges : EdgesFit area
  gaps : (∃ p, area.contains p ∧ (layerRect layer).contains p) →
    0 ≤ layer.width ∧ 0 ≤ layer.height ∧
      ¬ Gap area.horizontally layer.width ∧ ¬ Gap area.vertically layer.height

theorem getRect_eq_some {layer : Layer} {r : Rectangle ℤ} : layer.getRect = some r ↔
    (MachineInt.intMin < layer.width ∧ MachineInt.intMin < layer.height) ∧
      ⟨.make 0 layer.width,.make 0 layer.height⟩ = r := by
  have h : ∀ n : ℤ, (n < 0 ∧ MachineInt.intMax < -n) ↔ ¬ MachineInt.intMin < n := by
    simp only [MachineInt.intMin,MachineInt.intMax]
    omega
  by_cases hw : MachineInt.intMin < layer.width
  · by_cases hh : MachineInt.intMin < layer.height
    · simp [Layer.getRect,Rectangle.makeInt,Segment.makeInt,h,hw,hh]
    · simp [Layer.getRect,Rectangle.makeInt,Segment.makeInt,h,hw,hh]
  · simp [Layer.getRect,Rectangle.makeInt,Segment.makeInt,h,hw]

def drawing (layerNr : ℕ) (layer : Layer) (lo : Lo) (zoom : ℤ) (area : Rectangle ℚ) (pixelSize : ℚ) :
    Drawing Lo :=
  ⟨layerNr,zoom,area,layer,lo,⟨.make 0 layer.width,.make 0 layer.height⟩,
    drawTiles layer (clip area (area.intersection (layerRect layer))) pixelSize
      (max 0 ((MachineInt.trunc area.getLeft).tdiv tileSize))
      ((MachineInt.trunc area.getRight+(tileSize-1)).tdiv tileSize)
      (max 0 ((MachineInt.trunc area.getTop).tdiv tileSize))
      ((MachineInt.trunc area.getBottom+(tileSize-1)).tdiv tileSize)⟩

/-- What `redraw` computes, when nothing it computes is undefined. -/
theorem redraw_eq_some {tb : TiledBitmap Lo} {pa : Rectangle ℚ} {zoom : ℤ} {k : ℕ} {layer : Layer}
    {lo : Lo} {d : Drawing Lo} (hk : layersSkipped tb.layers.length zoom = k)
    (hlayer : tb.layers[k]? = some layer) (hlo : tb.ls[min (tb.ls.length-1) k]? = some lo) :
    redraw tb pa zoom = some d ↔
      (MachineInt.intMin < layer.width ∧ MachineInt.intMin < layer.height) ∧ EdgesFit (pa.div (8^k)) ∧
      ∃ s, pixelSizeFromZoom (zoom+3*k) = some s ∧
        drawing k layer lo (zoom+3*k) (pa.div (8^k)) s = d := by
  have hs : selectLayer tb.layers.length 0 zoom pa = (k,zoom+3*k,pa.div (8^k)) := by
    rw [selectLayer_eq]
    simp [hk]
  simp only [redraw,hs,hlayer,hlo,Option.bind_eq_bind,Option.bind_some,Option.bind_eq_some_iff,
    getRect_eq_some,MachineInt.toInt,MachineInt.checked_eq_some,Option.pure_def,Option.some.injEq]
  constructor
  · rintro ⟨_,⟨hr,rfl⟩,_,⟨hl,rfl⟩,_,⟨ht,rfl⟩,_,⟨hr',rfl⟩,_,⟨hb,rfl⟩,_,⟨hi,rfl⟩,_,⟨hj,rfl⟩,s,hps,rfl⟩
    exact ⟨hr,⟨hl,ht,⟨hr'.1,hi.2⟩,⟨hb.1,hj.2⟩⟩,s,hps,rfl⟩
  · rintro ⟨hr,⟨hl,ht,hr',hb⟩,s,hps,rfl⟩
    have ht0 : 0 ≤ tileSize-1 := by decide
    exact ⟨_,⟨hr,rfl⟩,_,⟨hl,rfl⟩,_,⟨ht,rfl⟩,_,⟨⟨hr'.1,by omega⟩,rfl⟩,_,⟨⟨hb.1,by omega⟩,rfl⟩,
      _,⟨⟨by omega,hr'.2⟩,rfl⟩,_,⟨⟨by omega,hb.2⟩,rfl⟩,s,hps,rfl⟩

theorem make_contains {n : ℤ} {x : ℚ} (h : (Segment.ofInt (.make 0 n) : Segment ℚ).contains x) :
    0 ≤ x ↔ 0 ≤ n := by
  by_cases hn : n < 0
  · simp only [Segment.make,if_pos hn,Segment.ofInt,Segment.contains] at h
    push_cast at h
    have hx : x < 0 := by linarith [h.2]
    exact iff_of_false (not_le.mpr hx) (not_le.mpr hn)
  · rw [Segment.make_of_nonneg (not_lt.mp hn)] at h
    exact iff_of_true (by simpa [Segment.ofInt] using h.1) (not_lt.mp hn)

theorem make_contains_iff {n : ℤ} {x : ℚ} (hn : 0 ≤ n) :
    (Segment.ofInt (.make 0 n) : Segment ℚ).contains x ↔ 0 ≤ x ∧ x < n := by
  rw [Segment.make_of_nonneg hn]
  simp [Segment.ofInt,Segment.contains]

/-- Every visible point is drawn once exactly when no axis has a gap. -/
theorem drawing_drawn_iff {k : ℕ} {layer : Layer} {lo : Lo} {zoom : ℤ} {area : Rectangle ℚ} {s : ℚ} :
    (∀ p, area.contains p → (layerRect layer).contains p →
      ∃! t, t ∈ (drawing k layer lo zoom area s).draws ∧ t.visibleTileArea.contains p) ↔
    ((∃ p, area.contains p ∧ (layerRect layer).contains p) →
      0 ≤ layer.width ∧ 0 ≤ layer.height ∧
        ¬ Gap area.horizontally layer.width ∧ ¬ Gap area.vertically layer.height) := by
  constructor
  · rintro h ⟨p,hp,hr⟩
    have hall : ∀ q, area.contains q → (layerRect layer).contains q → 0 ≤ q.x ∧ 0 ≤ q.y ∧
        (tileSize*lineOf q.x ≠ ⌊area.horizontally.getEnd⌋) ∧
        (tileSize*lineOf q.y ≠ ⌊area.vertically.getEnd⌋) := by
      intro q hq hqr
      obtain ⟨hi,hj⟩ := (drawn_once_iff (clip_contains hq hqr)).mp (h q hq hqr)
      have hx0 : 0 ≤ q.x := nonneg_of_lineOf ((le_max_left _ _).trans hi.1)
      have hy0 : 0 ≤ q.y := nonneg_of_lineOf ((le_max_left _ _).trans hj.1)
      exact ⟨hx0,hy0,(line_visited_iff hx0 hq.1).mp hi,(line_visited_iff hy0 hq.2).mp hj⟩
    obtain ⟨hx0,hy0,-,-⟩ := hall p hp hr
    have hw : 0 ≤ layer.width := (make_contains hr.1).mp hx0
    have hh : 0 ≤ layer.height := (make_contains hr.2).mp hy0
    refine ⟨hw,hh,(forall_visited_iff hp.1 hx0 ((make_contains_iff hw).mp hr.1).2).mp fun x hx h0 hlt => ?_,
      (forall_visited_iff hp.2 hy0 ((make_contains_iff hh).mp hr.2).2).mp fun y hy h0 hlt => ?_⟩
    · exact (hall ⟨x,p.y⟩ ⟨hx,hp.2⟩ ⟨(make_contains_iff hw).mpr ⟨h0,hlt⟩,hr.2⟩).2.2.1
    · exact (hall ⟨p.x,y⟩ ⟨hp.1,hy⟩ ⟨hr.1,(make_contains_iff hh).mpr ⟨h0,hlt⟩⟩).2.2.2
  · intro h p hp hr
    obtain ⟨hw,hh,hgx,hgy⟩ := h ⟨p,hp,hr⟩
    obtain ⟨hx0,hxw⟩ := (make_contains_iff hw).mp hr.1
    obtain ⟨hy0,hyh⟩ := (make_contains_iff hh).mp hr.2
    refine (drawn_once_iff (clip_contains hp hr)).mpr ⟨?_,?_⟩
    · exact (line_visited_iff hx0 hp.1).mpr ((forall_visited_iff hp.1 hx0 hxw).mpr hgx _ hp.1 hx0 hxw)
    · exact (line_visited_iff hy0 hp.2).mpr ((forall_visited_iff hp.2 hy0 hyh).mpr hgy _ hp.2 hy0 hyh)

theorem exists_shows_iff {tb : TiledBitmap Lo} {pa : Rectangle ℚ} {zoom : ℤ} {k : ℕ} {layer : Layer}
    {lo : Lo} (hk : layersSkipped tb.layers.length zoom = k) (hlayer : tb.layers[k]? = some layer)
    (hlo : tb.ls[min (tb.ls.length-1) k]? = some lo) :
    (∃ d, redraw tb pa zoom = some d ∧ Shows tb pa zoom d) ↔
      Drawable tb pa zoom layer (pa.div (8^k)) := by
  have hsize : 0 < tb.layers.length := by
    have h := (List.getElem?_eq_some_iff.mp hlayer).1
    omega
  have hscale := scale_iff hsize pa zoom
  rw [hk] at hscale
  constructor
  · rintro ⟨d,hd,hs⟩
    obtain ⟨hr,he,s,hps,rfl⟩ := (redraw_eq_some hk hlayer hlo).mp hd
    exact ⟨hscale.mp hs.scale,hr.1,hr.2,he,drawing_drawn_iff.mp hs.drawn⟩
  · intro h
    obtain ⟨s,t,hs,ht,he⟩ := hscale.mpr h.scale
    refine ⟨_,(redraw_eq_some hk hlayer hlo).mpr ⟨⟨h.width,h.height⟩,h.edges,s,hs,rfl⟩,?_⟩
    exact ⟨hlayer,⟨s,t,hs,ht,he⟩,nodup_drawTiles,drawing_drawn_iff.mpr h.gaps⟩

theorem layersSkipped_lt {size : ℕ} (h : 0 < size) (zoom : ℤ) : layersSkipped size zoom < size := by
  simp only [layersSkipped]
  omega

/-- On every stack that construction builds, `redraw` shows what it was asked for exactly
when the layer that the zoom selects can be drawn. -/
theorem redraw_shows_iff (getBpp : Lo → ℤ) (w h : ℤ) (ls : List Lo) (tb : TiledBitmap Lo)
    (ht : create getBpp w h ls = some tb) (pa : Rectangle ℚ) (zoom : ℤ) :
    (∃ d, redraw tb pa zoom = some d ∧ Shows tb pa zoom d) ↔
      ∃ layer, tb.layers[layersSkipped tb.layers.length zoom]? = some layer ∧
        Drawable tb pa zoom layer (pa.div (8^layersSkipped tb.layers.length zoom)) := by
  obtain ⟨-,-,rfl,hls,bottom,hb,-,-⟩ := wired_of_create ht
  have hsize := (List.getElem?_eq_some_iff.mp hb).1
  have hlayer := List.getElem?_eq_getElem (layersSkipped_lt hsize zoom)
  have hlo := List.getElem?_eq_getElem
    (show min (tb.ls.length-1) (layersSkipped tb.layers.length zoom) < tb.ls.length by omega)
  rw [exists_shows_iff rfl hlayer hlo]
  constructor
  · exact fun hd => ⟨_,hlayer,hd⟩
  · rintro ⟨layer,hl,hd⟩
    rwa [Option.some.inj (hlayer.symm.trans hl)]

/-- A view that ends half a pixel beyond the first tile, at the zoom where a pixel of the
bitmap covers two pixels of the screen. -/
def halfPixelArea : Rectangle ℚ := ⟨⟨0,8193/2⟩,⟨0,10⟩⟩

theorem redraw_shows_iff_halfPixel : ∃ tb, create id 5000 100 [(8:ℤ)] = some tb ∧
    ((∃ d, redraw tb halfPixelArea 1 = some d ∧ Shows tb halfPixelArea 1 d) ↔
      ∃ layer, tb.layers[layersSkipped tb.layers.length 1]? = some layer ∧
        Drawable tb halfPixelArea 1 layer (halfPixelArea.div (8^layersSkipped tb.layers.length 1))) := by
  obtain ⟨tb,-,ht,-⟩ := create_wired id (w := 5000) (h := 100)
    (show [(8:ℤ)][0]? = some 8 from rfl) (by decide) (by decide)
  exact ⟨tb,ht,redraw_shows_iff id 5000 100 [8] tb ht halfPixelArea 1⟩

/-- The second tile is not drawn, although it is visible in the last half pixel. -/
theorem halfPixel_missed : ¬ ∀ tb, create id 5000 100 [(8:ℤ)] = some tb →
    ∃ d, redraw tb halfPixelArea 1 = some d ∧ Shows tb halfPixelArea 1 d := by
  intro h
  obtain ⟨tb,bottom,ht,-,-,hls,hb,hw,hh⟩ := create_wired id (w := 5000) (h := 100)
    (show [(8:ℤ)][0]? = some 8 from rfl) (by decide) (by decide)
  have hlo : tb.ls[min (tb.ls.length-1) 0]? = some 8 := by simp [hls]
  have hk : layersSkipped tb.layers.length 1 = 0 := by simp [layersSkipped]
  have hd := ((exists_shows_iff hk hb hlo).mp (h tb ht)).gaps
  have harea : halfPixelArea.div (8^0) = halfPixelArea := by simp [Rectangle.div,Segment.div]
  rw [harea,layerRect,hw,hh] at hd
  obtain ⟨-,-,hgap,-⟩ := hd ⟨⟨0,0⟩,by decide +kernel,by decide +kernel⟩
  have hf : ⌊halfPixelArea.horizontally.getEnd⌋ = 4096 := by
    rw [Int.floor_eq_iff]
    norm_num [halfPixelArea,Segment.getEnd]
  refine hgap ⟨?_,?_,?_⟩
  · rw [hf]
    decide
  · rw [hf]
    norm_num [halfPixelArea,Segment.getEnd]
  · rw [hf]
    decide

end TiledBitmap
end Scroom
