import Mathlib.Data.List.AList
import Scroom.Rectangle

/-! The layers of a tiled bitmap, their tiles, and the coordinators that connect the tiles
of a layer to the tiles of the layer below. -/
namespace Scroom

def tileSize : ℤ := 4096

/-- A tile is known by its layer and its place in it. -/
structure CompressedTile where
  depth : ℤ
  x : ℤ
  y : ℤ
  bpp : ℤ
  deriving DecidableEq

/-- A layer whose tile counts can be computed in `int`. The members that the constructor
computes are functions of its arguments, as nothing assigns them later. -/
structure Layer where
  depth : ℤ
  width : ℤ
  height : ℤ
  bpp : ℤ
  width_le : width+(tileSize-1) ≤ MachineInt.intMax
  height_le : height+(tileSize-1) ≤ MachineInt.intMax

namespace Layer

/-- The constructor. The sums `width + TILESIZE - 1` are taken as one value each. -/
def create (depth layerWidth layerHeight bpp : ℤ) : Option Layer :=
  if h : layerWidth+(tileSize-1) ≤ MachineInt.intMax ∧ layerHeight+(tileSize-1) ≤ MachineInt.intMax then
    some ⟨depth,layerWidth,layerHeight,bpp,h.1,h.2⟩
  else none

theorem create_eq_some {d w h b : ℤ} {l : Layer} :
    create d w h b = some l ↔ l.depth = d ∧ l.width = w ∧ l.height = h ∧ l.bpp = b := by
  cases l
  simp only [create,Option.dite_none_right_eq_some,Option.some.injEq,Layer.mk.injEq]
  constructor
  · rintro ⟨-,rfl,rfl,rfl,rfl⟩
    exact ⟨rfl,rfl,rfl,rfl⟩
  · rintro ⟨rfl,rfl,rfl,rfl⟩
    exact ⟨⟨by assumption,by assumption⟩,rfl,rfl,rfl,rfl⟩

theorem create_isSome {d w h b : ℤ} : (create d w h b).isSome ↔
    w+(tileSize-1) ≤ MachineInt.intMax ∧ h+(tileSize-1) ≤ MachineInt.intMax := by
  unfold create
  split <;> simp_all

def horTileCount (l : Layer) : ℤ := (l.width+(tileSize-1)).tdiv tileSize
def verTileCount (l : Layer) : ℤ := (l.height+(tileSize-1)).tdiv tileSize

def tileAt (l : Layer) (i j : ℕ) : CompressedTile := ⟨l.depth,i,j,l.bpp⟩

def tileLine (l : Layer) (j : ℕ) : List CompressedTile :=
  (List.range l.horTileCount.toNat).map fun i => l.tileAt i j

def tiles (l : Layer) : List (List CompressedTile) := (List.range l.verTileCount.toNat).map l.tileLine

def outOfBounds (l : Layer) : CompressedTile := ⟨l.depth,-1,-1,l.bpp⟩

def lineOutOfBounds (l : Layer) : List CompressedTile := List.replicate l.horTileCount.toNat l.outOfBounds

def getTile (l : Layer) (i j : ℤ) : CompressedTile :=
  if 0 ≤ i ∧ i < l.horTileCount ∧ 0 ≤ j ∧ j < l.verTileCount then
    (l.tiles.getD j.toNat []).getD i.toNat l.outOfBounds
  else l.outOfBounds

def getTileLine (l : Layer) (j : ℤ) : List CompressedTile :=
  if 0 ≤ j ∧ j < l.verTileCount then l.tiles.getD j.toNat [] else l.lineOutOfBounds

def getRect (l : Layer) : Option (Rectangle ℤ) := Rectangle.makeInt 0 0 l.width l.height

theorem getTileLine_of_lt {l : Layer} {j : ℕ} (hj : j < l.verTileCount.toNat) :
    l.getTileLine j = l.tileLine j := by
  have h : (j:ℤ) < l.verTileCount := by omega
  simp [getTileLine,tiles,hj,h]

theorem getTile_of_lt {l : Layer} {i j : ℕ} (hi : i < l.horTileCount.toNat)
    (hj : j < l.verTileCount.toNat) : l.getTile i j = l.tileAt i j := by
  have h : (i:ℤ) < l.horTileCount := by omega
  have hh : (j:ℤ) < l.verTileCount := by omega
  simp [getTile,tiles,tileLine,hi,hj,h,hh]

theorem tileAt_inj {l : Layer} {i j i' j' : ℕ} : l.tileAt i j = l.tileAt i' j' ↔ i = i' ∧ j = j' := by
  simp [tileAt]

@[simp] theorem length_tileLine (l : Layer) (j : ℕ) : (l.tileLine j).length = l.horTileCount.toNat := by
  simp [tileLine]

theorem mem_tiles_flatten {l : Layer} {t : CompressedTile} :
    t ∈ l.tiles.flatten ↔ ∃ i < l.horTileCount.toNat, ∃ j < l.verTileCount.toNat, t = l.tileAt i j := by
  simp only [tiles,tileLine,List.mem_flatten,List.mem_map,List.mem_range]
  constructor
  · rintro ⟨_,⟨j,hj,rfl⟩,ht⟩
    obtain ⟨i,hi,rfl⟩ := List.mem_map.mp ht
    exact ⟨i,List.mem_range.mp hi,j,hj,rfl⟩
  · rintro ⟨i,hi,j,hj,rfl⟩
    exact ⟨_,⟨j,hj,rfl⟩,List.mem_map.mpr ⟨i,List.mem_range.mpr hi,rfl⟩⟩

end Layer

/-- What collects the reduced tiles of one target tile. Two sources cannot share a place in
the map, but each of them is registered with and counted. -/
structure LayerCoordinator (Lo : Type) where
  targetTile : CompressedTile
  lo : Lo
  sourceTiles : AList fun _ : CompressedTile => ℕ × ℕ
  registrations : List CompressedTile
  unfinishedSourceTiles : ℤ

namespace LayerCoordinator

variable {Lo : Type}

def create (targetTile : CompressedTile) (lo : Lo) : LayerCoordinator Lo := ⟨targetTile,lo,∅,[],0⟩

def addSourceTile (x y : ℕ) (tile : CompressedTile) (lc : LayerCoordinator Lo) : LayerCoordinator Lo :=
  { lc with
    sourceTiles := lc.sourceTiles.insert tile (x,y)
    registrations := lc.registrations ++ [tile]
    unfinishedSourceTiles := lc.unfinishedSourceTiles+1 }

end LayerCoordinator

/-- The members of the bitmap that its construction fills in. `tileCount` is the number of tiles, which construction
does not check against the `int` that holds it: the reports of finished tiles do. -/
structure TiledBitmap (Lo : Type) where
  bitmapWidth : ℤ
  bitmapHeight : ℤ
  ls : List Lo
  layers : List Layer
  coordinators : List (LayerCoordinator Lo)
  tileCount : ℤ

namespace TiledBitmap

variable {Lo : Type}

/-- The local variables of `connect`. The row `coordinators_` points into the list
`coordinators`, so it holds places of that list. -/
structure Wiring (Lo : Type) where
  coordinators : List (LayerCoordinator Lo)
  row : List ℕ

/-- A new line of target tiles. -/
def newLine (prevLo : Lo) (tileLine : List CompressedTile) (w : Wiring Lo) : Wiring Lo :=
  tileLine.foldl
    (fun w z => ⟨w.coordinators ++ [LayerCoordinator.create z prevLo],w.row ++ [w.coordinators.length]⟩)
    ⟨w.coordinators,[]⟩

/-- The body of the inner loop; reading past the end of the row is undefined. -/
def connectTile (prevLayer : Layer) (j : ℕ) (w : Wiring Lo) (i : ℕ) : Option (Wiring Lo) :=
  (w.row[i/8]?).map fun lc =>
    { w with coordinators :=
        w.coordinators.modify lc (LayerCoordinator.addSourceTile (i%8) (j%8) (prevLayer.getTile i j)) }

/-- The body of the outer loop. -/
def connectLine (layer prevLayer : Layer) (prevLo : Lo) (w : Wiring Lo) (j : ℕ) : Option (Wiring Lo) :=
  let w := if j%8 = 0 then newLine prevLo (layer.getTileLine ((j/8 : ℕ) : ℤ)) w else w
  (List.range prevLayer.horTileCount.toNat).foldlM (connectTile prevLayer j) w

def connect (layer prevLayer : Layer) (prevLo : Lo) (coordinators : List (LayerCoordinator Lo)) :
    Option (List (LayerCoordinator Lo)) :=
  ((List.range prevLayer.verTileCount.toNat).foldlM (connectLine layer prevLayer prevLo)
    ⟨coordinators,[]⟩).map Wiring.coordinators

/-- Register the bitmap with every tile of a layer, which counts them by `tileCreated`,
and add the layer to the stack. -/
def addLayer (layer : Layer) (tb : TiledBitmap Lo) : TiledBitmap Lo :=
  { tb with
    layers := tb.layers ++ [layer]
    tileCount := layer.tiles.flatten.foldl (fun n _ => n+1) tb.tileCount }

variable (getBpp : Lo → ℤ)

/-- The loop of `initialize`. At its head `lo` and `prevLo` are the same operations. -/
def initializeLoop (tb : TiledBitmap Lo) (prevLayer : Layer) (prevLo : Lo) (width height : ℤ) (i : ℕ) :
    Option (TiledBitmap Lo) :=
  if tileSize/4 < max width height then do
    let lo := tb.ls.getD i prevLo
    let layer ← Layer.create i width height (getBpp lo)
    let tb := addLayer layer tb
    let coordinators ← connect layer prevLayer prevLo tb.coordinators
    initializeLoop { tb with coordinators := coordinators } layer lo ((width+7).tdiv 8) ((height+7).tdiv 8) (i+1)
  else some tb
termination_by (max width height).toNat
decreasing_by
  simp only [tileSize] at *
  have hw := MachineInt.tdiv_le (width+7) (show (0:ℤ) < 8 by decide)
  have hh := MachineInt.tdiv_le (height+7) (show (0:ℤ) < 8 by decide)
  omega

/-- The constructor followed by `initialize()`. An empty `LayerSpec` has no first element. -/
def create (bitmapWidth bitmapHeight : ℤ) (ls : List Lo) : Option (TiledBitmap Lo) := do
  let lo ← ls[0]?
  let bottom ← Layer.create 0 bitmapWidth bitmapHeight (getBpp lo)
  initializeLoop getBpp (addLayer bottom ⟨bitmapWidth,bitmapHeight,ls,[],[],0⟩) bottom lo
    ((bitmapWidth+7).tdiv 8) ((bitmapHeight+7).tdiv 8) 1

end TiledBitmap
end Scroom
