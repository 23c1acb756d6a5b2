import Scroom.Tiff
import Scroom.Layer

/-! Filling the tiles of a layer from the lines of a TIFF file. -/
namespace Scroom
namespace Tiff

variable {n m : ℕ}

inductive PlanarConfig
  | contiguous | separate
  deriving DecidableEq

/-- `TIFFScanlineSize` -/
def scanlineSize (planar : PlanarConfig) (width spp bps : ℕ) : ℕ :=
  match planar with
  | .contiguous => (width*spp*bps+7)/8
  | .separate => (width*bps+7)/8

/-- A value of type `size_t`. -/
def sizeT (x : ℤ) : ℕ := (x%2^64).toNat

/-- `memcpy` into the data of a tile. -/
def memcpyTile (tiles : List (Buffer n)) (tile d : ℕ) (row : Buffer m) (s k : ℕ) : Option (List (Buffer n)) := do
  let t ← tiles[tile]?
  let t ← Buffer.copy t d row s k
  return tiles.set tile t

/-- One turn of the loop over the lines; the pointers in `dataPtr` advance by `tileStride`. -/
def fillLine (tileStride firstTile i : ℕ) (row : Buffer m) (tiles : List (Buffer n)) :
    Option (List (Buffer n)) := do
  let tileCount : ℤ := tiles.length
  let tiles ← (List.range (sizeT (tileCount-1))).foldlM (fun tiles tile =>
    memcpyTile tiles tile (i*tileStride) row ((firstTile+tile)*tileStride) tileStride) tiles
  let start := sizeT (firstTile+tileCount-1)*tileStride
  memcpyTile tiles (sizeT (tileCount-1)) (i*tileStride) row start (sizeT (m-start))

def fillTiles (bmd : BitmapMetaData) (scanLineSize : ℕ) (readScanline : ℕ → ℕ → UInt8)
    (startLine lineCount tileWidth firstTile : ℕ) (tiles : List (Buffer n)) : Option (List (Buffer n)) :=
  let tileStride := tileWidth*bmd.samplesPerPixel*bmd.bitsPerSample%2^32/8
  (List.range lineCount).foldlM (fun tiles i =>
    let row : Buffer scanLineSize := Vector.ofFn fun b => readScanline (startLine+i) b
    fillLine tileStride firstTile i row tiles) tiles

/-- The part of `DataFetcher::operator()` that fills a row of tiles. -/
def fetchRow (bmd : BitmapMetaData) (layer : Layer) (scanLineSize : ℕ) (readScanline : ℕ → ℕ → UInt8)
    (currentRow : ℕ) (tiles : List (Buffer n)) : Option (List (Buffer n)) :=
  let lineCount := min tileSize (layer.height-currentRow*tileSize)
  fillTiles bmd scanLineSize readScanline (currentRow*width) (sizeT lineCount) width 0 tiles

def tileByte (tiles : List (Buffer n)) (tile o : ℕ) : Option UInt8 := (tiles[tile]?).bind fun t => t[o]?

theorem sizeT_of_nonneg {x : ℤ} (hl : 0 ≤ x) (hr : x < 2^64) : sizeT x = x.toNat := by
  rw [sizeT,Int.emod_eq_of_lt hl hr]

theorem memcpyTile_isSome {tiles : List (Buffer n)} {tile d s k : ℕ} {row : Buffer m} :
    (memcpyTile tiles tile d row s k).isSome ↔ tile < tiles.length ∧ s+k ≤ m ∧ d+k ≤ n := by
  unfold memcpyTile
  by_cases ht : tile < tiles.length
  · rw [List.getElem?_eq_getElem ht]
    have hcopy : (Buffer.copy tiles[tile] d row s k).isSome ↔ s+k ≤ m ∧ d+k ≤ n := Buffer.copy_isSome
    rw [← hcopy]
    cases hc : Buffer.copy tiles[tile] d row s k <;> simp [hc,ht]
  · rw [List.getElem?_eq_none (Nat.le_of_not_lt ht)]
    simp [ht]

theorem length_memcpyTile {tiles tiles' : List (Buffer n)} {tile d s k : ℕ} {row : Buffer m}
    (h : memcpyTile tiles tile d row s k = some tiles') : tiles'.length = tiles.length := by
  unfold memcpyTile at h
  simp only [Option.bind_eq_bind,Option.bind_eq_some_iff,Option.pure_def,Option.some.injEq] at h
  obtain ⟨t,-,t',-,h⟩ := h
  rw [← h,List.length_set]

theorem tileByte_memcpyTile {tiles tiles' : List (Buffer n)} {tile d s k : ℕ} {row : Buffer m}
    (h : memcpyTile tiles tile d row s k = some tiles') (c o : ℕ) :
    tileByte tiles' c o =
      if c = tile ∧ d ≤ o ∧ o < d+k then row[s+(o-d)]? else tileByte tiles c o := by
  unfold memcpyTile at h
  simp only [Option.bind_eq_bind,Option.bind_eq_some_iff,Option.pure_def,Option.some.injEq] at h
  obtain ⟨t,ht,t',hcopy,rfl⟩ := h
  by_cases hc : c = tile
  · subst hc
    have hlt := (List.getElem?_eq_some_iff.mp ht).1
    rw [tileByte,tileByte,List.getElem?_set_self hlt,ht,Option.bind_some,Option.bind_some,
      Buffer.getElem?_copy hcopy]
    simp
  · simp [tileByte,hc,Ne.symm hc]

/-- The line `row` is in the lines `i` of the tiles; `tiles` is what was there before. -/
def LineAt (tileStride i : ℕ) (row : Buffer m) (tiles : List (Buffer n)) (c o : ℕ) : Option UInt8 :=
  if i*tileStride ≤ o ∧ o < (i+1)*tileStride ∧ c*tileStride+(o-i*tileStride) < m then
    row[c*tileStride+(o-i*tileStride)]?
  else tileByte tiles c o

/-- The first `count` lines of the tiles hold the scanlines from `first` on. -/
def RowAt (tileStride m first : ℕ) (readScanline : ℕ → ℕ → UInt8) (count : ℕ) (tiles : List (Buffer n))
    (c o : ℕ) : Option UInt8 :=
  if o < count*tileStride ∧ c*tileStride+o%tileStride < m then
    some (readScanline (first+o/tileStride) (c*tileStride+o%tileStride))
  else tileByte tiles c o

theorem lineAt_succ {tileStride m first i c o : ℕ} (hs : 0 < tileStride)
    (readScanline : ℕ → ℕ → UInt8) {tiles filled : List (Buffer n)}
    (hbytes : tileByte filled c o = RowAt tileStride m first readScanline i tiles c o) :
    LineAt tileStride i (Vector.ofFn fun b : Fin m => readScanline (first+i) b) filled c o =
      RowAt tileStride m first readScanline (i+1) tiles c o := by
  rw [LineAt,hbytes,RowAt,RowAt]
  by_cases hi : i*tileStride ≤ o ∧ o < (i+1)*tileStride
  · have hdiv : o/tileStride = i := (Nat.div_eq_iff hs).mpr (by rw [Nat.succ_mul] at hi; omega)
    have hmod : o%tileStride = o-i*tileStride := by
      have h := Nat.div_add_mod o tileStride
      rw [hdiv,Nat.mul_comm] at h
      omega
    rw [hmod,hdiv,if_neg (by omega : ¬ (o < i*tileStride ∧ _))]
    by_cases hm : c*tileStride+(o-i*tileStride) < m
    · rw [if_pos ⟨hi.1,hi.2,hm⟩,if_pos ⟨hi.2,hm⟩]
      simp [hm]
    · rw [if_neg (by tauto),if_neg (by tauto)]
  · rw [if_neg (by tauto)]
    refine if_congr (and_congr_left fun _ => ?_) rfl rfl
    rw [Nat.succ_mul] at hi ⊢
    omega

/-- A line fits when every tile but the last takes its whole part of it, and the last one the
remainder. -/
theorem fillLine_fills {tileStride i : ℕ} (row : Buffer m) {tiles : List (Buffer n)}
    (h : 0 < tiles.length) (hl : tiles.length < 2^32) (hm : m < 2^64)
    (hs : (tiles.length-1)*tileStride ≤ m) (hr : m ≤ tiles.length*tileStride) (hn : (i+1)*tileStride ≤ n) :
    ∃ tiles', fillLine tileStride 0 i row tiles = some tiles' ∧ tiles'.length = tiles.length ∧
      ∀ c < tiles.length, ∀ o, tileByte tiles' c o = LineAt tileStride i row tiles c o := by
  have hcount : sizeT (tiles.length-1) = tiles.length-1 := by
    rw [sizeT_of_nonneg (by omega) (by omega)]
    omega
  rw [Nat.succ_mul] at hn
  have hloop : ∃ filled, (List.range (tiles.length-1)).foldlM (fun tiles tile =>
      memcpyTile tiles tile (i*tileStride) row ((0+tile)*tileStride) tileStride) tiles = some filled ∧
      filled.length = tiles.length ∧ ∀ c o, tileByte filled c o =
        if c < tiles.length-1 then LineAt tileStride i row tiles c o else tileByte tiles c o := by
    apply Loops.foldlM_range (I := fun k (filled : List (Buffer n)) => filled.length = tiles.length ∧
      ∀ c o, tileByte filled c o = if c < k then LineAt tileStride i row tiles c o else tileByte tiles c o)
    · exact ⟨rfl,by simp⟩
    · intro tile htile filled ⟨hfilled,hbytes⟩
      have hend : (tile+1)*tileStride ≤ (tiles.length-1)*tileStride := Nat.mul_le_mul_right _ htile
      rw [Nat.succ_mul] at hend
      obtain ⟨filled',hf⟩ := Option.isSome_iff_exists.mp (memcpyTile_isSome.mpr
        ⟨by omega,by rw [Nat.zero_add]; omega,hn⟩ : (memcpyTile filled tile (i*tileStride) row
          ((0+tile)*tileStride) tileStride).isSome)
      refine ⟨filled',hf,(length_memcpyTile hf).trans hfilled,fun c o => ?_⟩
      rw [tileByte_memcpyTile hf,hbytes,Nat.zero_add]
      rcases lt_trichotomy c tile with hc | rfl | hc
      · rw [if_neg (by omega),if_pos hc,if_pos (by omega)]
      · rw [if_neg (lt_irrefl c),if_pos (Nat.lt_succ_self c),LineAt,Nat.succ_mul]
        exact if_congr (by omega) rfl rfl
      · rw [if_neg (by omega),if_neg (by omega),if_neg (by omega)]
  obtain ⟨filled,hf,hlen,hbytes⟩ := hloop
  have hstart : sizeT (((0:ℕ):ℤ)+tiles.length-1) = tiles.length-1 := by
    rw [← hcount]
    congr 1
    omega
  have hrest : sizeT (m-((tiles.length-1)*tileStride : ℕ)) = m-(tiles.length-1)*tileStride := by
    rw [sizeT_of_nonneg (by omega) (by omega)]
    omega
  have hle : m-(tiles.length-1)*tileStride ≤ tileStride := by
    have hsucc : tiles.length*tileStride = (tiles.length-1)*tileStride+tileStride := by
      rw [← Nat.succ_mul]
      congr 1
      omega
    omega
  obtain ⟨tiles',ht⟩ := Option.isSome_iff_exists.mp (memcpyTile_isSome.mpr
    ⟨by omega,by omega,by omega⟩ : (memcpyTile filled (tiles.length-1) (i*tileStride) row
      ((tiles.length-1)*tileStride) (m-(tiles.length-1)*tileStride)).isSome)
  refine ⟨tiles',?_,(length_memcpyTile ht).trans hlen,fun c hc o => ?_⟩
  · simp only [fillLine,hcount,hf,hstart,hrest,Option.bind_eq_bind,Option.bind_some,ht]
  · rw [tileByte_memcpyTile ht,hbytes]
    by_cases hlast : c = tiles.length-1
    · rw [if_neg (by omega : ¬ c < tiles.length-1),hlast,LineAt,Nat.succ_mul]
      exact if_congr (by omega) rfl rfl
    · rw [if_neg (by omega),if_pos (by omega)]

/-- Conversely, there has to be a last tile, and its part has to start inside the line. -/
theorem fillLine_fits {tileStride i : ℕ} {row : Buffer m} {tiles : List (Buffer n)}
    (hl : tiles.length < 2^32) (h : (fillLine tileStride 0 i row tiles).isSome) :
    0 < tiles.length ∧ (tiles.length-1)*tileStride ≤ m := by
  obtain ⟨tiles',h⟩ := Option.isSome_iff_exists.mp h
  simp only [fillLine,Option.bind_eq_bind,Option.bind_eq_some_iff] at h
  obtain ⟨filled,hf,ht⟩ := h
  have hlen : filled.length = tiles.length :=
    Loops.foldlM_preserves (I := fun (filled : List (Buffer n)) => filled.length = tiles.length)
      (fun _ _ _ hstep hI => (length_memcpyTile hstep).trans hI) hf rfl
  have hfits := memcpyTile_isSome.mp (Option.isSome_iff_exists.mpr ⟨tiles',ht⟩)
  rw [hlen] at hfits
  have hpos : 0 < tiles.length := by omega
  have hcount : sizeT (((0:ℕ):ℤ)+tiles.length-1) = tiles.length-1 := by
    rw [sizeT_of_nonneg (by omega) (by omega)]
    omega
  rw [hcount] at hfits
  refine ⟨hpos,?_⟩
  by_contra hn
  have hwrap : sizeT (m-((tiles.length-1)*tileStride : ℕ)) = 2^64+m-(tiles.length-1)*tileStride := by
    rw [sizeT,← Int.add_emod_right,Int.emod_eq_of_lt (by omega) (by omega)]
    omega
  rw [hwrap] at hfits
  omega

theorem scanline_bounds {planar : PlanarConfig} {w spp : ℕ} (hw : 1 ≤ w) (hspp : 1 ≤ spp)
    (hplanar : planar = .contiguous ∨ spp = 1 ∨ w ≤ 4096) (bps : ℕ) :
    ((w+4095)/4096-1)*(512*(spp*bps)) ≤ scanlineSize planar w spp bps ∧
      scanlineSize planar w spp bps ≤ (w+4095)/4096*(512*(spp*bps)) := by
  generalize hc : (w+4095)/4096 = c
  have hl := Nat.mul_le_mul_right (spp*bps) (show (c-1)*4096 ≤ w by omega)
  have hr := Nat.mul_le_mul_right (spp*bps) (show w ≤ c*4096 by omega)
  have hl' : (c-1)*4096*(spp*bps) = 8*((c-1)*(512*(spp*bps))) := by ring
  have hr' : c*4096*(spp*bps) = 8*(c*(512*(spp*bps))) := by ring
  have hwhole : (c-1)*(512*(spp*bps)) ≤ (w*(spp*bps)+7)/8 ∧
      (w*(spp*bps)+7)/8 ≤ c*(512*(spp*bps)) := by omega
  cases planar with
  | contiguous =>
    rw [scanlineSize,Nat.mul_assoc]
    exact hwhole
  | separate =>
    rcases hplanar with hplanar | hplanar | hplanar
    · cases hplanar
    · rw [hplanar,Nat.one_mul] at hwhole
      rw [scanlineSize,hplanar,Nat.one_mul]
      exact hwhole
    · have hone : c = 1 := by omega
      have hle : w*bps ≤ 4096*(spp*bps) := by
        calc w*bps ≤ 4096*bps := Nat.mul_le_mul_right _ hplanar
          _ ≤ 4096*(spp*bps) := Nat.mul_le_mul_left _ (Nat.le_mul_of_pos_left _ hspp)
      rw [scanlineSize,hone]
      omega

theorem scanline_short {w spp bps : ℕ} (hw : 4096 < w) (hspp : 3 ≤ spp) (hbps : 1 ≤ bps) :
    scanlineSize .separate w spp bps < ((w+4095)/4096-1)*(512*(spp*bps)) := by
  generalize hc : (w+4095)/4096 = c
  have hr := Nat.mul_le_mul_right bps (show w ≤ c*4096 by omega)
  have hle : (c+1)*(512*bps) ≤ (c-1)*(512*(spp*bps)) := by
    calc (c+1)*(512*bps) ≤ (c-1)*3*(512*bps) := Nat.mul_le_mul_right _ (by omega)
      _ = (c-1)*(512*(3*bps)) := by ring
      _ ≤ (c-1)*(512*(spp*bps)) :=
        Nat.mul_le_mul_left _ (Nat.mul_le_mul_left _ (Nat.mul_le_mul_right _ hspp))
  have hsplit : (c+1)*(512*bps) = c*(512*bps)+512*bps := Nat.succ_mul _ _
  have hr' : c*4096*bps = 8*(c*(512*bps)) := by ring
  rw [scanlineSize]
  omega

section FetchRow
variable {bmd : BitmapMetaData} {layer : Layer} {planar : PlanarConfig} {readScanline : ℕ → ℕ → UInt8} {w h : ℕ}

theorem tileStride_eq {spp bps : ℕ} (hb : spp*bps ≤ 32) : width*spp*bps%2^32/8 = 512*(spp*bps) := by
  rw [Nat.mul_assoc]
  simp only [width]
  omega

theorem horTileCount_eq (hw : layer.width = w) : layer.horTileCount.toNat = (w+4095)/4096 := by
  rw [Layer.horTileCount,hw,tileSize,Int.tdiv_eq_ediv_of_nonneg (by omega)]
  omega

theorem verTileCount_eq (hh : layer.height = h) : layer.verTileCount.toNat = (h+4095)/4096 := by
  rw [Layer.verTileCount,hh,tileSize,Int.tdiv_eq_ediv_of_nonneg (by omega)]
  omega

theorem lineCount_eq (hh : layer.height = h) (row : ℕ) (hrow : row < max 1 layer.verTileCount.toNat) :
    sizeT (min tileSize (layer.height-row*tileSize)) = min 4096 (h-row*4096) := by
  have hle := layer.height_le
  rw [verTileCount_eq hh] at hrow
  simp only [tileSize,MachineInt.intMax,hh] at *
  rw [sizeT_of_nonneg (by omega) (by omega)]
  omega

theorem fetchRow_fills (hspp : 1 ≤ bmd.samplesPerPixel) (hbps : 1 ≤ bmd.bitsPerSample)
    (hb : bmd.samplesPerPixel*bmd.bitsPerSample ≤ 32) (hw : layer.width = w) (hh : layer.height = h)
    (hpos : 1 ≤ w ∨ h = 0)
    (hplanar : planar = .contiguous ∨ bmd.samplesPerPixel = 1 ∨ w ≤ 4096 ∨ h = 0) {row : ℕ}
    (hrow : row < max 1 layer.verTileCount.toNat)
    {tiles : List (Tile (bmd.bitsPerSample*bmd.samplesPerPixel))}
    (htiles : tiles.length = layer.horTileCount.toNat) :
    ∃ filled, fetchRow bmd layer (scanlineSize planar w bmd.samplesPerPixel bmd.bitsPerSample) readScanline
      row tiles = some filled ∧ filled.length = tiles.length ∧ ∀ c < tiles.length, ∀ o,
        tileByte filled c o = RowAt (512*(bmd.samplesPerPixel*bmd.bitsPerSample))
          (scanlineSize planar w bmd.samplesPerPixel bmd.bitsPerSample) (row*4096) readScanline
          (min 4096 (h-row*4096)) tiles c o := by
  rw [horTileCount_eq hw] at htiles
  have hlines := lineCount_eq hh row hrow
  simp only [fetchRow,fillTiles,hlines,tileStride_eq hb]
  have hstride : 0 < 512*(bmd.samplesPerPixel*bmd.bitsPerSample) :=
    Nat.mul_pos (by decide) (Nat.mul_pos hspp hbps)
  by_cases hz : h = 0
  · have hnone : min 4096 (h-row*4096) = 0 := by omega
    rw [hnone]
    exact ⟨tiles,rfl,rfl,fun c _ o => by simp [RowAt]⟩
  · have hw1 := hpos.resolve_right hz
    have hbounds := scanline_bounds hw1 hspp (by tauto) bmd.bitsPerSample
    have hwidth := layer.width_le
    simp only [hw,tileSize,MachineInt.intMax] at hwidth
    have hb' := Nat.mul_le_mul_left ((w+4095)/4096) (Nat.mul_le_mul_left 512 hb)
    have hm : scanlineSize planar w bmd.samplesPerPixel bmd.bitsPerSample < 2^64 := by omega
    apply Loops.foldlM_range (I := fun i (filled : List (Tile _)) => filled.length = tiles.length ∧
      ∀ c < tiles.length, ∀ o, tileByte filled c o = RowAt (512*(bmd.samplesPerPixel*bmd.bitsPerSample))
        (scanlineSize planar w bmd.samplesPerPixel bmd.bitsPerSample) (row*4096) readScanline i tiles c o)
    · exact ⟨rfl,fun c _ o => by simp [RowAt]⟩
    · rintro i hi filled ⟨hfilled,hbytes⟩
      rw [← htiles,← hfilled] at hbounds
      have hn : (i+1)*(512*(bmd.samplesPerPixel*bmd.bitsPerSample)) ≤
          width*height*(bmd.bitsPerSample*bmd.samplesPerPixel)/8 := by
        have hle := Nat.mul_le_mul_right (512*(bmd.samplesPerPixel*bmd.bitsPerSample)) (show i+1 ≤ 4096 by omega)
        rw [Nat.mul_comm bmd.bitsPerSample]
        simp only [width,height]
        omega
      obtain ⟨filled',hf,hlen,hline⟩ := fillLine_fills (i := i)
        (Vector.ofFn fun b => readScanline (row*width+i) b) (by omega) (by omega) hm hbounds.1 hbounds.2 hn
      refine ⟨filled',hf,hlen.trans hfilled,fun c hc o => ?_⟩
      rw [hline c (by omega)]
      exact lineAt_succ hstride readScanline (hbytes c hc o)

/-- What filling the first row says about the scanlines. -/
theorem fetchRow_fits (hb : bmd.samplesPerPixel*bmd.bitsPerSample ≤ 32) (hw : layer.width = w)
    (hh : layer.height = h) (hpos : h ≠ 0)
    {tiles : List (Tile (bmd.bitsPerSample*bmd.samplesPerPixel))}
    (htiles : tiles.length = layer.horTileCount.toNat)
    (hsome : (fetchRow bmd layer (scanlineSize planar w bmd.samplesPerPixel bmd.bitsPerSample) readScanline
      0 tiles).isSome) : 1 ≤ w ∧ ((w+4095)/4096-1)*(512*(bmd.samplesPerPixel*bmd.bitsPerSample)) ≤
        scanlineSize planar w bmd.samplesPerPixel bmd.bitsPerSample := by
  rw [horTileCount_eq hw] at htiles
  have hlines := lineCount_eq hh 0 (by omega)
  simp only [fetchRow,fillTiles,hlines,tileStride_eq hb] at hsome
  obtain ⟨c,hc⟩ : ∃ c, min 4096 (h-0*4096) = c+1 := ⟨min 4096 (h-0*4096)-1,by omega⟩
  obtain ⟨filled,hf⟩ := Option.isSome_iff_exists.mp hsome
  rw [hc,List.range_succ_eq_map,List.foldlM_cons,Option.bind_eq_bind,Option.bind_eq_some_iff] at hf
  obtain ⟨first,hfirst,-⟩ := hf
  have hwidth := layer.width_le
  simp only [hw,tileSize,MachineInt.intMax] at hwidth
  have hfits := fillLine_fits (by omega) (Option.isSome_iff_exists.mpr ⟨first,hfirst⟩)
  rw [htiles] at hfits
  exact ⟨by omega,hfits.2⟩

end FetchRow

theorem wrap_cases (w : UInt32) : ((w.toNat:ℤ) ≤ MachineInt.intMax ∧ MachineInt.wrap w.toNat = w.toNat) ∨
    (MachineInt.intMax < (w.toNat:ℤ) ∧ MachineInt.wrap w.toNat = w.toNat-2^32) := by
  have hw : (w.toNat:ℤ) < 2^32 := by exact_mod_cast w.toNat_lt
  by_cases h : (w.toNat:ℤ) ≤ MachineInt.intMax
  · refine Or.inl ⟨h,MachineInt.wrap_of_mem ?_ h⟩
    simp only [MachineInt.intMin]
    omega
  · exact Or.inr ⟨not_le.mp h,MachineInt.wrap_of_large (not_le.mp h) hw⟩

theorem makeInt_wrap (w : UInt32) :
    ((Segment.makeInt 0 (MachineInt.wrap w.toNat)).isSome ↔ w.toNat ≠ 2^31) ∧
    ∀ s, Segment.makeInt 0 (MachineInt.wrap w.toNat) = some s →
      (s.size = w.toNat ↔ (w.toNat:ℤ) ≤ MachineInt.intMax) := by
  have hmax : MachineInt.intMax = 2147483647 := rfl
  have hw32 : (w.toNat:ℤ) < 2^32 := by exact_mod_cast w.toNat_lt
  unfold Segment.makeInt
  rcases wrap_cases w with ⟨hw,he⟩ | ⟨hw,he⟩ <;> rw [he]
  · rw [if_neg (by omega),Segment.make_of_nonneg (by omega)]
    refine ⟨iff_of_true rfl (by omega),fun s hs => ?_⟩
    cases hs
    exact iff_of_true rfl hw
  · by_cases h31 : w.toNat = 2^31
    · rw [if_pos (by omega)]
      exact ⟨iff_of_false (by simp) (by omega),fun s hs => by cases hs⟩
    · rw [if_neg (by omega),Segment.make,if_pos (by omega)]
      refine ⟨iff_of_true rfl h31,fun s hs => ?_⟩
      cases hs
      exact iff_of_false (by dsimp only; omega) (by omega)

/-- The header is rejected, or the rectangle has the size of the image, the layer has the tile
counts that belong to it, and filling any of its rows stays inside the scanline and the tiles. -/
def FillsSafely (tags : Tags) (planar : PlanarConfig) (readScanline : ℕ → ℕ → UInt8) : Prop :=
  openTiff tags = some none ∨ ∃ bmd w h layer, openTiff tags = some (some bmd) ∧
    tags.imageWidth = some w ∧ tags.imageLength = some h ∧
    bmd.rect.getWidth = w.toNat ∧ bmd.rect.getHeight = h.toNat ∧
    Layer.create 0 bmd.rect.getWidth bmd.rect.getHeight (bmd.bitsPerSample*bmd.samplesPerPixel : ℕ) = some layer ∧
    layer.horTileCount.toNat = (w.toNat+4095)/4096 ∧ layer.verTileCount.toNat = (h.toNat+4095)/4096 ∧
    ∀ row < max 1 layer.verTileCount.toNat, ∀ tiles : List (Tile (bmd.bitsPerSample*bmd.samplesPerPixel)),
      tiles.length = layer.horTileCount.toNat →
        (fetchRow bmd layer (scanlineSize planar w.toNat bmd.samplesPerPixel bmd.bitsPerSample) readScanline
          row tiles).isSome

/-- The images that fit: no size is normalised or overflows, an image with lines has columns,
and the samples of an image that is wider than a tile are together. -/
def Fits (tags : Tags) (planar : PlanarConfig) : Prop :=
  ∀ w h photometric, Described tags w h photometric → w.toNat ≠ 2^31 ∧ h.toNat ≠ 2^31 ∧
    (SupportedSamples tags → w.toNat+4095 < 2^31 ∧ h.toNat+4095 < 2^31 ∧ (1 ≤ w.toNat ∨ h.toNat = 0) ∧
      (planar = .contiguous ∨ tags.spp = 1 ∨ w.toNat ≤ 4096 ∨ h.toNat = 0))

variable {tags : Tags}

theorem samples_bounds (h : SupportedSamples tags) : 1 ≤ tags.spp ∧ 1 ≤ tags.bps ∧ tags.spp*tags.bps ≤ 32 ∧
    (tags.spp = 1 ∨ 3 ≤ tags.spp) := by
  have hb := h.1
  simp only [List.mem_cons,List.not_mem_nil,or_false] at hb
  rcases h.2 with hspp | hspp | ⟨hspp,-⟩ <;> rw [hspp] <;> omega

theorem makeInt_eq_some {x y w h : ℤ} {rect : Rectangle ℤ} : Rectangle.makeInt x y w h = some rect ↔
    Segment.makeInt x w = some rect.horizontally ∧ Segment.makeInt y h = some rect.vertically := by
  unfold Rectangle.makeInt
  cases Segment.makeInt x w <;> cases Segment.makeInt y h <;> cases rect <;> simp

theorem accepted_fits {planar : PlanarConfig} {readScanline : ℕ → ℕ → UInt8} {w h : UInt32}
    {photometric : UInt16} (hd : Described tags w h photometric) (hs : SupportedSamples tags)
    (hsafe : FillsSafely tags planar readScanline) (hne : openTiff tags ≠ some none) :
    w.toNat+4095 < 2^31 ∧ h.toNat+4095 < 2^31 ∧ (1 ≤ w.toNat ∨ h.toNat = 0) ∧
      (planar = .contiguous ∨ tags.spp = 1 ∨ w.toNat ≤ 4096 ∨ h.toNat = 0) := by
  obtain ⟨bmd,w',h',layer,ho,hw',hh',hwidth,hheight,hlayer,-,-,hrows⟩ := hsafe.resolve_left hne
  obtain rfl : w' = w := Option.some.inj (hw'.symm.trans hd.width_eq)
  obtain rfl : h' = h := Option.some.inj (hh'.symm.trans hd.height_eq)
  obtain ⟨-,_,_,_,_,_,-,-,-,hbmd⟩ := openTiff_accepted ho
  have hspp : bmd.samplesPerPixel = tags.spp := by rw [hbmd]
  have hbps : bmd.bitsPerSample = tags.bps := by rw [hbmd]
  obtain ⟨hspp1,hbps1,hb,hspp3⟩ := samples_bounds hs
  rw [← hspp,← hbps] at hb
  obtain ⟨-,hlw,hlh,-⟩ := Layer.create_eq_some.mp hlayer
  rw [hwidth] at hlw
  rw [hheight] at hlh
  have hwle := layer.width_le
  have hhle := layer.height_le
  simp only [hlw,hlh,tileSize,MachineInt.intMax] at hwle hhle
  by_cases hz : h'.toNat = 0
  · exact ⟨by omega,by omega,Or.inr hz,by simp [hz]⟩
  · have hfirst := hrows 0 (by omega)
      (List.replicate layer.horTileCount.toNat (Vector.replicate _ 0)) List.length_replicate
    have hrow := fetchRow_fits hb hlw hlh hz List.length_replicate hfirst
    refine ⟨by omega,by omega,Or.inl hrow.1,?_⟩
    by_contra hn
    simp only [not_or] at hn
    obtain ⟨hplanar,hspp',hw4096,-⟩ := hn
    have hseparate : planar = .separate := by
      cases planar with
      | contiguous => exact absurd rfl hplanar
      | separate => rfl
    rw [hseparate,hspp,hbps] at hrow
    have hshort := scanline_short (by omega : 4096 < w'.toNat) (hspp3.resolve_left hspp') hbps1
    omega

/-- The condition is exact, for every header, either planar configuration and every content. -/
theorem fillsSafely_iff (tags : Tags) (planar : PlanarConfig) (readScanline : ℕ → ℕ → UInt8) :
    FillsSafely tags planar readScanline ↔ Fits tags planar := by
  constructor
  · intro hsafe w h photometric hd
    obtain ⟨colormapHelper,hc⟩ := Option.isSome_iff_exists.mp (colormapHelperFor_isSome.mpr hd.known)
    have hopen := openTiff_described hd hc
    cases hr : Rectangle.makeInt 0 0 (MachineInt.wrap w.toNat) (MachineInt.wrap h.toNat) with
    | none =>
      rw [hr,Option.map_none] at hopen
      rcases hsafe with hsafe | ⟨bmd,w,h,layer,hsafe,-⟩ <;> rw [hopen] at hsafe <;> cases hsafe
    | some rect =>
      rw [hr,Option.map_some] at hopen
      have hrect := makeInt_eq_some.mp hr
      refine ⟨(makeInt_wrap w).1.mp (by rw [hrect.1]; rfl),(makeInt_wrap h).1.mp (by rw [hrect.2]; rfl),
        fun hs => accepted_fits hd hs hsafe ?_⟩
      rw [hopen,if_pos hs]
      simp
  · intro hfits
    by_cases hdesc : ∃ w h photometric, Described tags w h photometric
    · obtain ⟨w,h,photometric,hd⟩ := hdesc
      obtain ⟨hw31,hh31,hsup⟩ := hfits w h photometric hd
      obtain ⟨colormapHelper,hc⟩ := Option.isSome_iff_exists.mp (colormapHelperFor_isSome.mpr hd.known)
      have hopen := openTiff_described hd hc
      obtain ⟨sw,hsw⟩ := Option.isSome_iff_exists.mp ((makeInt_wrap w).1.mpr hw31)
      obtain ⟨sh,hsh⟩ := Option.isSome_iff_exists.mp ((makeInt_wrap h).1.mpr hh31)
      have hrect : Rectangle.makeInt 0 0 (MachineInt.wrap w.toNat) (MachineInt.wrap h.toNat) = some ⟨sw,sh⟩ :=
        makeInt_eq_some.mpr ⟨hsw,hsh⟩
      rw [hrect,Option.map_some] at hopen
      by_cases hs : SupportedSamples tags
      · obtain ⟨hwlt,hhlt,hpos,hplanar⟩ := hsup hs
        rw [if_pos hs] at hopen
        have hsize : sw.size = w.toNat := ((makeInt_wrap w).2 sw hsw).mpr (by simp only [MachineInt.intMax]; omega)
        have hsize' : sh.size = h.toNat := ((makeInt_wrap h).2 sh hsh).mpr (by simp only [MachineInt.intMax]; omega)
        obtain ⟨hspp1,hbps1,hb,-⟩ := samples_bounds hs
        obtain ⟨layer,hlayer⟩ := Option.isSome_iff_exists.mp (Layer.create_isSome.mpr
          ⟨by rw [hsize]; simp only [tileSize,MachineInt.intMax]; omega,
            by rw [hsize']; simp only [tileSize,MachineInt.intMax]; omega⟩ :
          (Layer.create 0 sw.size sh.size (tags.bps*tags.spp : ℕ)).isSome)
        obtain ⟨-,hlw,hlh,-⟩ := Layer.create_eq_some.mp hlayer
        rw [hsize] at hlw
        rw [hsize'] at hlh
        refine Or.inr ⟨_,w,h,layer,hopen,hd.width_eq,hd.height_eq,hsize,hsize',hlayer,
          horTileCount_eq hlw,verTileCount_eq hlh,fun row hrow tiles htiles => ?_⟩
        obtain ⟨filled,hf,-⟩ := fetchRow_fills hspp1 hbps1 hb hlw hlh hpos hplanar hrow htiles
        exact Option.isSome_iff_exists.mpr ⟨filled,hf⟩
      · rw [if_neg hs] at hopen
        exact Or.inl hopen
    · exact Or.inl (openTiff_undescribed fun w h photometric hd => hdesc ⟨w,h,photometric,hd⟩)

/-- A width tag just below `2^32`: the rectangle is normalised to 100 columns, which is one
tile, and its part of a line has 4294967196 bytes. -/
theorem hugeWidth_overruns : ¬ ∀ tags planar readScanline, FillsSafely tags planar readScanline := by
  intro h
  have hsafe := h ⟨some 1,some 8,some 4294967196,some 100,some photometricMinIsBlack,none⟩ .contiguous fun _ _ => 0
  have hfits := accepted_fits ⟨rfl,rfl,rfl,by decide⟩ (by decide +kernel) hsafe (by decide +kernel)
  exact absurd hfits.1 (by decide)

/-! ### Where the bytes of the scanlines go -/

/-- The number of bytes that a line of a tile takes. -/
def tileStride (bmd : BitmapMetaData) : ℕ := 4096*bmd.samplesPerPixel*bmd.bitsPerSample/8

/-- Byte `b` of scanline `l` has its place in byte `o` of tile `c` of its row. -/
def PlacedAt (bmd : BitmapMetaData) (l b c o : ℕ) : Prop :=
  c = b/tileStride bmd ∧ o = l%4096*tileStride bmd+b%tileStride bmd

/-- The tiles of row `row` hold the bytes of their scanlines, and zero elsewhere. -/
structure HoldsLines (bmd : BitmapMetaData) (size height row : ℕ) (readScanline : ℕ → ℕ → UInt8)
    (tiles : List (Buffer n)) : Prop where
  placed : ∀ l < height, l/4096 = row → ∀ b < size, ∀ c o, PlacedAt bmd l b c o →
    tileByte tiles c o = some (readScanline l b)
  zero : ∀ c < tiles.length, ∀ o < n,
    (∀ l < height, l/4096 = row → ∀ b < size, ¬ PlacedAt bmd l b c o) → tileByte tiles c o = some 0

theorem tileStride_def (bmd : BitmapMetaData) :
    tileStride bmd = 512*(bmd.samplesPerPixel*bmd.bitsPerSample) := by
  rw [tileStride,Nat.mul_assoc]
  omega

theorem mul_add_div_mod {q s r : ℕ} (hr : r < s) : (q*s+r)/s = q ∧ (q*s+r)%s = r := by
  rw [Nat.mul_comm,Nat.mul_add_div (by omega),Nat.div_eq_of_lt hr,Nat.mul_add_mod,Nat.mod_eq_of_lt hr]
  exact ⟨rfl,rfl⟩

theorem holdsLines_of_rowAt {bmd : BitmapMetaData} (hs : 0 < tileStride bmd) {size h row : ℕ}
    {readScanline : ℕ → ℕ → UInt8} {tiles filled : List (Buffer n)} (hlen : filled.length = tiles.length)
    (hsize : size ≤ tiles.length*tileStride bmd)
    (hzero : ∀ c < tiles.length, ∀ o < n, tileByte tiles c o = some 0)
    (hbytes : ∀ c < tiles.length, ∀ o, tileByte filled c o =
      RowAt (tileStride bmd) size (row*4096) readScanline (min 4096 (h-row*4096)) tiles c o) :
    HoldsLines bmd size h row readScanline filled where
  placed := by
    rintro l hl rfl b hb c o ⟨rfl,rfl⟩
    have hc : b/tileStride bmd < tiles.length := (Nat.div_lt_iff_lt_mul hs).mpr (by omega)
    obtain ⟨hdiv,hmod⟩ := mul_add_div_mod (q := l%4096) (Nat.mod_lt b hs)
    have hline : l%4096 < min 4096 (h-l/4096*4096) := by omega
    have ho := Nat.mul_le_mul_right (tileStride bmd) hline
    rw [Nat.succ_mul] at ho
    have hr := Nat.mod_lt b hs
    rw [hbytes _ hc,RowAt,hdiv,hmod,Nat.div_add_mod',if_pos ⟨by omega,hb⟩,Nat.div_add_mod']
  zero := by
    intro c hc o ho hn
    rw [hlen] at hc
    rw [hbytes c hc,RowAt]
    split
    case isTrue hin =>
      obtain ⟨hdiv,hmod⟩ := mul_add_div_mod (q := c) (Nat.mod_lt o hs)
      have hline : o/tileStride bmd < min 4096 (h-row*4096) := (Nat.div_lt_iff_lt_mul hs).mpr hin.1
      have hsum := Nat.div_add_mod' o (tileStride bmd)
      generalize o/tileStride bmd = q at hline hsum
      refine absurd ⟨hdiv.symm,?_⟩ (hn (row*4096+q) (by omega) (by omega) _ hin.2)
      have hl : (row*4096+q)%4096 = q := by omega
      rw [hl,hmod,hsum]
    case isFalse => exact hzero c hc o ho

/-- Loading an accepted image with contiguous samples puts every byte of every scanline into its
place in the tiles, which were initialised to zero, and no other byte changes. -/
theorem fetchRow_holdsLines (tags : Tags) (bmd : BitmapMetaData) (w h : UInt32) (layer : Layer)
    (readScanline : ℕ → ℕ → UInt8) (ho : openTiff tags = some (some bmd))
    (hw : tags.imageWidth = some w) (hh : tags.imageLength = some h)
    (hw1 : 1 ≤ w.toNat) (hh1 : 1 ≤ h.toNat) (hwi : w.toNat+4095 < 2^31) (hhi : h.toNat+4095 < 2^31)
    (hlayer : Layer.create 0 bmd.rect.getWidth bmd.rect.getHeight
      (bmd.bitsPerSample*bmd.samplesPerPixel : ℕ) = some layer) :
    (∀ l < h.toNat, l/4096 < layer.verTileCount.toNat) ∧
    ∀ row < layer.verTileCount.toNat,
      let size := scanlineSize .contiguous w.toNat bmd.samplesPerPixel bmd.bitsPerSample
      let tiles : List (Tile (bmd.bitsPerSample*bmd.samplesPerPixel)) :=
        List.replicate layer.horTileCount.toNat (Vector.replicate _ 0)
      ∃ filled, fetchRow bmd layer size readScanline row tiles = some filled ∧
        filled.length = layer.horTileCount.toNat ∧ HoldsLines bmd size h.toNat row readScanline filled := by
  obtain ⟨hs,w',h',photometric,colormapHelper,rect,hd,-,hrect,hbmd⟩ := openTiff_accepted ho
  obtain rfl : w' = w := Option.some.inj (hd.width_eq.symm.trans hw)
  obtain rfl : h' = h := Option.some.inj (hd.height_eq.symm.trans hh)
  obtain ⟨hspp,hbps,hb,-⟩ := samples_bounds hs
  rw [show tags.spp = bmd.samplesPerPixel by rw [hbmd]] at hspp hb
  rw [show tags.bps = bmd.bitsPerSample by rw [hbmd]] at hbps hb
  obtain ⟨hrw,hrh⟩ := makeInt_eq_some.mp hrect
  have hsw := ((makeInt_wrap w').2 _ hrw).mpr (by simp only [MachineInt.intMax]; omega)
  have hsh := ((makeInt_wrap h').2 _ hrh).mpr (by simp only [MachineInt.intMax]; omega)
  obtain ⟨-,hlw,hlh,-⟩ := Layer.create_eq_some.mp hlayer
  have hlw : layer.width = w'.toNat := hlw.trans (by rw [hbmd]; exact hsw)
  have hlh : layer.height = h'.toNat := hlh.trans (by rw [hbmd]; exact hsh)
  refine ⟨fun l hl => ?_,fun row hrow => ?_⟩
  · rw [verTileCount_eq hlh]
    omega
  · intro size tiles
    have htiles : tiles.length = layer.horTileCount.toNat := List.length_replicate
    obtain ⟨filled,hf,hlen,hbytes⟩ : ∃ filled, fetchRow bmd layer size readScanline row tiles = some filled ∧ _ :=
      fetchRow_fills hspp hbps hb hlw hlh (Or.inl hw1) (Or.inl rfl) (lt_max_of_lt_right hrow) htiles
    refine ⟨filled,hf,hlen.trans htiles,?_⟩
    have hsize : size ≤ _ := (scanline_bounds hw1 hspp (Or.inl rfl) bmd.bitsPerSample).2
    rw [← horTileCount_eq hlw,← htiles] at hsize
    rw [← tileStride_def] at hbytes hsize
    refine holdsLines_of_rowAt ?_ hlen hsize (fun c hc o ho => ?_) hbytes
    · rw [tileStride_def]
      exact Nat.mul_pos (by decide) (Nat.mul_pos hspp hbps)
    · rw [htiles] at hc
      simp [tileByte,tiles,hc,ho]

theorem fetchRow_holdsLines_secondTile :
    let bmd : BitmapMetaData := ⟨.greyscale,8,1,⟨⟨0,5000⟩,⟨0,10⟩⟩,some (.createDefault 2)⟩
    let layer : Layer := ⟨0,5000,10,8,by decide,by decide⟩
    let size := scanlineSize .contiguous (5000 : UInt32).toNat bmd.samplesPerPixel bmd.bitsPerSample
    let tiles : List (Tile (bmd.bitsPerSample*bmd.samplesPerPixel)) :=
      List.replicate layer.horTileCount.toNat (Vector.replicate _ 0)
    ∃ filled, fetchRow bmd layer size (fun l b => .ofNat (l+b)) 0 tiles = some filled ∧
      tileByte filled 1 (3*4096+5) = some (.ofNat 4104) := by
  intro bmd layer size tiles
  obtain ⟨filled,hf,-,hlines⟩ := (fetchRow_holdsLines
    ⟨some 1,some 8,some 5000,some 10,some photometricMinIsBlack,none⟩ bmd 5000 10 layer
    (fun l b => .ofNat (l+b)) (by decide +kernel) rfl rfl (by decide) (by decide) (by decide) (by decide) rfl).2 0
    (by decide)
  exact ⟨filled,hf,hlines.placed 3 (by decide) rfl 4101 (by decide) 1 _ ⟨by decide,by decide⟩⟩

end Tiff
end Scroom
