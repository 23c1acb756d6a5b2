import Scroom.Mipmap
import Scroom.TilePlacement

/-! From the lines of a file to the window: what `redraw` paints at a point is the pixel of the layer's picture that
lies there. -/
namespace Scroom
namespace TiledBitmap

/-- The tile paints the pixel at a point of the layer in its place in the window, with the colour that it has in a
picture. The tile's data is in `data`. -/
structure PaintsPixel (d : Drawing LayerOperations) (data : CompressedTile → Option Cascade.Data) (pixelSize : ℚ)
    (picture : ℕ → ℕ → ℕ) (p : Point ℚ) (t : TileDraw) : Prop where
  visible : t.visibleTileArea.contains p
  colour : ∃ tile : Tile d.layerOperations.getBpp, data t.tile = some (some ⟨_,tile⟩) ∧
    ∃ (row col : ℕ) (q : Point ℚ), row < height ∧ col < width ∧ ⌊q.y⌋ = row ∧ ⌊q.x⌋ = col ∧
      d.layerOperations.cachePixel tile row col = d.layerOperations.draw (picture ⌊p.y⌋.toNat ⌊p.x⌋.toNat) ∧
      ∃ painting scale, CommonOperations.draw t.tileAreaRect t.viewAreaRect d.zoom = some painting ∧
        CommonOperations.cacheScale d.zoom = some scale ∧
          painting.place (q.mul scale) = d.windowPoint pixelSize p

theorem coordinate_split {x : ℚ} {size : ℤ} (h0 : 0 ≤ x) (hsize : x < size) :
    0 ≤ lineOf x ∧ lineOf x < (size+(tileSize-1)).tdiv tileSize ∧ ∃ c : ℕ, c < 4096 ∧
      ⌊x-(tileSize*lineOf x : ℤ)⌋ = c ∧ ⌊x⌋.toNat = 4096*(lineOf x).toNat+c := by
  have hx : 0 ≤ ⌊x⌋ := Int.floor_nonneg.mpr h0
  have hlt : ⌊x⌋ < size := Int.floor_lt.mpr hsize
  rw [Int.tdiv_eq_ediv_of_nonneg (by simp only [tileSize]; omega)]
  simp only [lineOf,tileSize]
  refine ⟨by omega,by omega,(⌊x⌋%4096).toNat,by omega,?_,by omega⟩
  rw [Int.floor_sub_intCast]
  omega

theorem pointAt_split (layer : Layer) (clipped : Rectangle ℚ) (s : ℚ) (i j : ℤ) (p : Point ℚ) :
    (tileDraw layer clipped s i j).pointAt ⟨p.x-(tileSize*i : ℤ),p.y-(tileSize*j : ℤ)⟩ = p := by
  ext
  · change (((0+i)*tileSize : ℤ) : ℚ)+(p.x-(tileSize*i : ℤ)) = p.x
    push_cast
    ring
  · change (((0+j)*tileSize : ℤ) : ℚ)+(p.y-(tileSize*j : ℤ)) = p.y
    push_cast
    ring

end TiledBitmap

namespace Tiff
open TiledBitmap

variable {tags : Tags} {w h : UInt32} {readScanline : ℕ → ℕ → UInt8} {bmd : BitmapMetaData} {ls : LayerSpec}
  {tb : TiledBitmap LayerOperations} {c : Cascade.Config Cascade.Data}

/-- The window shows the file: of an area that is drawn without gaps, every point that lies in the layer is painted by
one tile, which paints there the pixel of the layer's picture. -/
theorem Shown.window_shows (hs : Shown tags w h readScanline bmd ls tb c) {lo : LayerOperations}
    (hlo : ls[0]? = some lo) (x y u v : ℚ) (zoom : ℤ) (d : Drawing LayerOperations)
    (hd : redraw tb (.make x y u v) zoom = some d) (hshows : Shows tb (.make x y u v) zoom d) :
    ∃ picture pixelSize, Cascade.Mipmap ls tb.layers.length (filePixel lo (scanlineSize .contiguous w.toNat
      bmd.samplesPerPixel bmd.bitsPerSample) h.toNat readScanline) picture ∧
      pixelSizeFromZoom d.zoom = some pixelSize ∧ ∀ p, d.scaledRequestedPresentationArea.contains p →
        (Rectangle.ofInt d.actualPresentationArea).contains p →
          ∃! t, t ∈ d.draws ∧ PaintsPixel d c.data pixelSize (picture d.layerNr) p t := by
  obtain ⟨picture,hmip,htiles⟩ := hs.exists_mipmap hlo
  have hchain := hs.chain
  obtain ⟨hwired,-,rfl,hls,bottom,hb,-,-⟩ := wired_of_create hs.layers
  have hsize := (List.getElem?_eq_some_iff.mp hb).1
  obtain ⟨layer,hlayer⟩ : ∃ layer, tb.layers[layersSkipped tb.layers.length zoom]? = some layer :=
    ⟨_,List.getElem?_eq_getElem (layersSkipped_lt hsize zoom)⟩
  obtain ⟨next,hnext,hbpp⟩ := hwired.bpp _ _ hlayer
  have hnext' := hnext
  rw [min_comm] at hnext'
  obtain ⟨-,-,s,hs',rfl⟩ := (redraw_eq_some rfl hlayer hnext').mp hd
  have hindex : next.IndexBits := (hchain.follows hnext (List.getElem?_eq_getElem
    (i := min (layersSkipped tb.layers.length zoom+1) (tb.ls.length-1)) (by omega))).indexBits.1
  refine ⟨picture,s,hmip,hs',fun p hp hr => ?_⟩
  obtain ⟨t,⟨ht,hv⟩,hone⟩ := hshows.drawn p hp hr
  refine ⟨t,⟨ht,hv,?_⟩,fun t' ht' => hone t' ⟨ht'.1,ht'.2.visible⟩⟩
  -- the point lies in the layer, which begins before the area ends
  obtain ⟨i,j,hi,hj,he⟩ := mem_drawTiles.mp ht
  obtain ⟨rfl,rfl⟩ : lineOf p.x = i ∧ lineOf p.y = j := by
    rw [he] at hv
    exact tileArea_contains.mp (Rectangle.contains_intersection.mp hv).1
  have hx0 : 0 ≤ p.x := nonneg_of_lineOf ((le_max_left _ _).trans hi.1)
  have hy0 : 0 ≤ p.y := nonneg_of_lineOf ((le_max_left _ _).trans hj.1)
  have hx := (make_contains_iff ((make_contains hr.1).mp hx0)).mp hr.1
  have hy := (make_contains_iff ((make_contains hr.2).mp hy0)).mp hr.2
  have hbegins : (drawing (layersSkipped tb.layers.length zoom) layer next
      (zoom+3*layersSkipped tb.layers.length zoom)
        ((Rectangle.make x y u v).div (8^layersSkipped tb.layers.length zoom)) s).BeginsBefore := by
    refine ⟨hp.1.1.trans (hx.2.le.trans ?_),hp.2.1.trans (hy.2.le.trans ?_)⟩
    · exact_mod_cast le_max_right 0 layer.width
    · exact_mod_cast le_max_right 0 layer.height
  have hplaced := placed_of_clip hs' ht (clip_topLeft (make_sizes x y u v _) hbegins)
  -- where the point lies in the tile
  obtain ⟨hi0,hi1,col,hcol,hqx,hxn⟩ := coordinate_split hx0 hx.2
  obtain ⟨hj0,hj1,row,hrow,hqy,hyn⟩ := coordinate_split hy0 hy.2
  obtain ⟨tile,htile,hpixel⟩ := htiles _ layer next hlayer hnext (lineOf p.x).toNat
    (by rw [Layer.horTileCount]; omega) (lineOf p.y).toNat (by rw [Layer.verTileCount]; omega)
  have hget : layer.getTile (lineOf p.x) (lineOf p.y) = layer.tileAt (lineOf p.x).toNat (lineOf p.y).toNat := by
    rw [← Layer.getTile_of_lt (by rw [Layer.horTileCount]; omega) (by rw [Layer.verTileCount]; omega),
      Int.toNat_of_nonneg hi0,Int.toNat_of_nonneg hj0]
  obtain ⟨painting,scale,hdraw,hscale,-,hplace⟩ := hplaced.place
  refine ⟨tile,by rw [he]; exact (congrArg c.data hget).trans htile,row,col,
    ⟨p.x-(tileSize*lineOf p.x : ℤ),p.y-(tileSize*lineOf p.y : ℤ)⟩,hrow,hcol,hqy,hqx,?_,painting,scale,hdraw,hscale,?_⟩
  · change next.cachePixel tile row col = next.draw (picture _ ⌊p.y⌋.toNat ⌊p.x⌋.toNat)
    rw [LayerOperations.cachePixel_eq hindex rfl tile hrow hcol,hpixel row hrow col hcol,hxn,hyn]
    rfl
  · rw [hplace,he,pointAt_split]

theorem Shown.window_shows_threeTiles :
    let lo := LayerOperations.operations8bpp (.createDefault 2)
    ∃ (tb : TiledBitmap LayerOperations) (c : Cascade.Config Cascade.Data) (picture : ℕ → ℕ → ℕ → ℕ)
      (d : Drawing LayerOperations), create Cascade.getBpp 8200 1 [lo] = some tb ∧
      Cascade.Mipmap [lo] tb.layers.length (filePixel lo 8200 1 fun l b => .ofNat (l+b)) picture ∧
      redraw tb (.make 0 0 20 1) 0 = some d ∧ ∃ pixelSize t, t ∈ d.draws ∧
        PaintsPixel d c.data pixelSize (picture d.layerNr) ⟨7,1/2⟩ t := by
  intro lo
  obtain ⟨c,hs⟩ := shown_threeTiles
  let tb := (create Cascade.getBpp 8200 1 [lo]).get (by decide +kernel)
  have hlayer : tb.layers[0]? = some (tb.layers[0]?.get (by decide +kernel)) := (Option.some_get _).symm
  have hls : tb.ls = [lo] := (wired_of_create (Option.some_get _).symm).2.2.1
  have hlo : tb.ls[min (tb.ls.length-1) 0]? = some lo := by simp [hls]
  have hk : layersSkipped tb.layers.length 0 = 0 := by decide +kernel
  have harea : ((Rectangle.make 0 0 20 1 : Rectangle ℚ).div (8^0)).contains ⟨7,1/2⟩ :=
    ⟨by decide +kernel,by decide +kernel⟩
  have hrect : (layerRect (tb.layers[0]?.get (by decide +kernel))).contains ⟨7,1/2⟩ :=
    ⟨by decide +kernel,by decide +kernel⟩
  have hdrawn : ∃ d, redraw tb (.make 0 0 20 1) 0 = some d ∧ Shows tb (.make 0 0 20 1) 0 d :=
    (exists_shows_iff hk hlayer hlo).mpr ⟨Or.inl (by decide),by decide +kernel,by decide +kernel,
      ⟨by decide +kernel,by decide +kernel,by decide +kernel,by decide +kernel⟩,fun _ =>
      ⟨by decide +kernel,by decide +kernel,fun h => absurd h.2.1 (by decide +kernel),
        fun h => absurd h.2.1 (by decide +kernel)⟩⟩
  obtain ⟨d,hd,hshows⟩ := hdrawn
  obtain ⟨picture,pixelSize,hmip,-,hp⟩ := Shown.window_shows hs rfl 0 0 20 1 0 d hd hshows
  obtain ⟨-,-,s,-,rfl⟩ := (redraw_eq_some hk hlayer hlo).mp hd
  obtain ⟨t,⟨ht,hpaint⟩,-⟩ := hp ⟨7,1/2⟩ harea hrect
  exact ⟨tb,c,picture,_,(Option.some_get _).symm,hmip,hd,pixelSize,t,ht,hpaint⟩

end Tiff
end Scroom
