import Scroom.Layer
import Scroom.PixelSums

/-! The averages that the pipette shows: the sums over the tiles that an area covers, divided by the number of
its pixels. -/
namespace Scroom

/-- Two boxes share a point, which may lie on their borders. -/
def Rectangle.Meets (r s : Rectangle ℚ) : Prop :=
  ∃ p : Point ℚ, r.getLeft ≤ p.x ∧ p.x ≤ r.getRight ∧ s.getLeft ≤ p.x ∧ p.x ≤ s.getRight ∧
    r.getTop ≤ p.y ∧ p.y ≤ r.getBottom ∧ s.getTop ≤ p.y ∧ p.y ≤ s.getBottom

def sumPipetteColors (lhs rhs : PipetteColor) : Option PipetteColor :=
  if lhs = [] then some rhs
  else (List.range rhs.length).mapM fun i => do
    let r ← rhs[i]?
    let l ← lhs[i]?
    return (r.1,r.2+l.2)

def dividePipetteColors (elements : PipetteColor) (divisor : ℤ) : PipetteColor :=
  elements.map fun elem => (elem.1,elem.2/divisor)

/-- A bitmap whose base tiles are loaded: the bottom layer and what the tiles hold. -/
structure TiledBitmapPresentation (pipetteLayerOperation : PipetteLayerOperations) where
  bottomLayer : Layer
  contents : CompressedTile → pipetteLayerOperation.BaseTile
  width_nonneg : 0 ≤ bottomLayer.width
  height_nonneg : 0 ≤ bottomLayer.height

namespace TiledBitmapPresentation

variable {ops : PipetteLayerOperations}

def getRect (b : TiledBitmapPresentation ops) : Rectangle ℤ := .make 0 0 b.bottomLayer.width b.bottomLayer.height

/-- The body of the loops over the tiles. -/
def addTile (b : TiledBitmapPresentation ops) (intArea : Rectangle ℤ) (pipetteColors : PipetteColor) (x y : ℤ) :
    Option PipetteColor := do
  let tile := b.contents (b.bottomLayer.getTile x y)
  let left ← MachineInt.checked (x*tileSize)
  let top ← MachineInt.checked (y*tileSize)
  let tile_rectangle ← Rectangle.makeInt left top width height
  let inter_rect ← tile_rectangle.intersectionInt intArea
  sumPipetteColors pipetteColors (← ops.sumPixelValues (inter_rect.sub ⟨left,top⟩) tile)

def getPixelAverages (b : TiledBitmapPresentation ops) (area : Rectangle ℚ) : Option PipetteColor := do
  let intArea ← (area.intersection (.ofInt b.getRect)).roundOutward.toInt
  let totalPixels ← MachineInt.checked (intArea.getWidth*intArea.getHeight)
  if totalPixels = 0 then return []
  let right ← MachineInt.checked intArea.getRight
  let bottom ← MachineInt.checked intArea.getBottom
  let tile_pos_x_start := intArea.getLeft.tdiv tileSize
  let tile_pos_y_start := intArea.getTop.tdiv tileSize
  let tile_pos_x_end := (right-1).tdiv tileSize
  let tile_pos_y_end := (bottom-1).tdiv tileSize
  let pipetteColors ← (List.range (tile_pos_x_end+1-tile_pos_x_start).toNat).foldlM (fun colors (i : ℕ) =>
    (List.range (tile_pos_y_end+1-tile_pos_y_start).toNat).foldlM (fun colors (j : ℕ) =>
      b.addTile intArea colors (tile_pos_x_start+i) (tile_pos_y_start+j)) colors) []
  return dividePipetteColors pipetteColors totalPixels

/-- The pixels of the area, clipped to the bitmap and then rounded outward. -/
def pixels (b : TiledBitmapPresentation ops) (area : Rectangle ℚ) : Finset (ℕ × ℕ) :=
  (Finset.range b.bottomLayer.width.toNat ×ˢ Finset.range b.bottomLayer.height.toNat).filter fun p =>
    (area.intersection (.ofInt b.getRect)).roundOutward.contains ⟨p.1,p.2⟩

def pixelValue (b : TiledBitmapPresentation ops) (c : ℕ) (p : ℕ × ℕ) : ℕ :=
  ops.channelValue (b.contents (b.bottomLayer.tileAt (p.1/width) (p.2/height))) (p.2%height) (p.1%width) c

/-- The exact averages, and no values where there are no pixels. -/
def averages (b : TiledBitmapPresentation ops) (area : Rectangle ℚ) : PipetteColor :=
  if b.pixels area = ∅ then []
  else ops.names.zip ((List.range ops.names.length).map fun c =>
    (∑ p ∈ b.pixels area, (b.pixelValue c p : ℚ))/(b.pixels area).card)

end TiledBitmapPresentation

section Segments

/-- A clipped and rounded segment has natural bounds, and is empty unless the segments met. -/
theorem Segment.clip_eq (s : Segment ℚ) {w : ℤ} (hw : 0 ≤ w) : ∃ l r : ℕ, l ≤ r ∧ (r:ℤ) ≤ w ∧
    (s.intersection ⟨0,w⟩).roundOutward = ⟨(l:ℚ),((r-l : ℕ) : ℚ)⟩ ∧
    (l < r → ∃ x : ℚ, s.start ≤ x ∧ x ≤ s.getEnd ∧ 0 ≤ x ∧ x ≤ w) := by
  have hround : ∀ t : Segment ℚ, 0 ≤ t.size → t.roundOutward = ⟨⌊t.start⌋,⌈t.getEnd⌉-⌊t.start⌋⟩ := by
    intro t ht
    have hle : (⌊t.start⌋:ℚ) ≤ ⌈t.getEnd⌉ := (Int.floor_le _).trans ((le_add_of_nonneg_right ht).trans (Int.le_ceil _))
    exact make_of_nonneg (sub_nonneg.mpr hle)
  have hend : (⟨0,w⟩ : Segment ℚ).getEnd = w := zero_add _
  unfold intersection
  dsimp only
  rw [hend]
  split
  · rename_i h
    have hle := sub_nonneg.mp h
    rw [make_of_nonneg h,hround _ h]
    simp only [getEnd,add_sub_cancel]
    have hl : 0 ≤ ⌊max s.start 0⌋ := Int.floor_nonneg.mpr (le_max_right _ _)
    have hlr : ⌊max s.start 0⌋ ≤ ⌈min s.getEnd (w:ℚ)⌉ := by
      exact_mod_cast (Int.floor_le _).trans (hle.trans (Int.le_ceil _))
    have hr : ⌈min s.getEnd (w:ℚ)⌉ ≤ w := Int.ceil_le.mpr (min_le_right _ _)
    obtain ⟨l,hl'⟩ := Int.eq_ofNat_of_zero_le hl
    obtain ⟨r,hr'⟩ := Int.eq_ofNat_of_zero_le (hl.trans hlr)
    change ∃ l r : ℕ, l ≤ r ∧ (r:ℤ) ≤ w ∧ (⟨⌊max s.start 0⌋,⌈min s.getEnd (w:ℚ)⌉-⌊max s.start 0⌋⟩ : Segment ℚ) = _ ∧ _
    rw [hl'] at hlr ⊢
    rw [hr'] at hlr hr ⊢
    refine ⟨l,r,by omega,hr,?_,fun _ => ?_⟩
    · rw [Nat.cast_sub (by omega)]
      simp
    · exact ⟨max s.start 0,le_max_left _ _,hle.trans (min_le_left _ _),le_max_right _ _,hle.trans (min_le_right _ _)⟩
  · refine ⟨0,0,le_rfl,by simpa using hw,?_,fun h => absurd h (lt_irrefl 0)⟩
    rw [hround _ le_rfl]
    simp [empty,getEnd]

theorem Segment.toInt_eq {l r : ℕ} (hr : (r:ℤ) ≤ MachineInt.intMax) (hlr : l ≤ r) :
    (⟨(l:ℚ),((r-l : ℕ) : ℚ)⟩ : Segment ℚ).toInt = some ⟨l,(r-l : ℕ)⟩ := by
  have hconv : ∀ m : ℕ, m ≤ r → MachineInt.toInt (m:ℚ) = some (m:ℤ) := by
    intro m hm
    rw [MachineInt.toInt,MachineInt.trunc_of_nonneg (Nat.cast_nonneg m),Int.floor_natCast]
    refine MachineInt.checked_eq_some.mpr ⟨⟨?_,by omega⟩,rfl⟩
    simp only [MachineInt.intMin]
    omega
  have hneg : ¬ (((r-l : ℕ) : ℤ) < 0 ∧ MachineInt.intMax < -((r-l : ℕ) : ℤ)) := by omega
  simp only [toInt,hconv l hlr,hconv (r-l) (Nat.sub_le _ _),Option.bind_eq_bind,Option.bind_some,makeInt,
    hneg,if_false,make_of_nonneg (Int.natCast_nonneg (r-l))]

theorem Segment.intersectionInt_tile {l r x : ℕ} (hl : l < (x+1)*4096) (hr : x*4096 < r) (hlr : l < r)
    (hmax : (r:ℤ)+(tileSize-1) ≤ MachineInt.intMax) :
    (⟨(x:ℤ)*tileSize,4096⟩ : Segment ℤ).intersectionInt ⟨l,(r-l : ℕ)⟩ =
      some ⟨(max l (x*4096) : ℕ),(min r ((x+1)*4096)-max l (x*4096) : ℕ)⟩ := by
  simp only [MachineInt.intMax,tileSize] at hmax
  have hchecked : ∀ m : ℤ, 0 ≤ m → m ≤ 2147483647 → MachineInt.checked m = some m := fun m h hm =>
    MachineInt.checked_eq_some.mpr ⟨by simp only [MachineInt.intMin,MachineInt.intMax]; omega,rfl⟩
  have hstart : max ((x:ℤ)*4096) l = (max l (x*4096) : ℕ) := by push_cast; exact max_comm _ _
  have hend : min ((x:ℤ)*4096+4096) ((l:ℤ)+(r-l : ℕ)) = (min r ((x+1)*4096) : ℕ) := by omega
  have hsize : ((min r ((x+1)*4096) : ℕ) : ℤ)-(max l (x*4096) : ℕ) =
      (min r ((x+1)*4096)-max l (x*4096) : ℕ) := by omega
  have hneg : ¬ (((min r ((x+1)*4096)-max l (x*4096) : ℕ) : ℤ) < 0 ∧
      MachineInt.intMax < -((min r ((x+1)*4096)-max l (x*4096) : ℕ) : ℤ)) := by omega
  simp only [intersectionInt,getEnd,tileSize,hchecked ((x:ℤ)*4096+4096) (by omega) (by omega),
    hchecked ((l:ℤ)+(r-l : ℕ)) (by omega) (by omega),Option.bind_eq_bind,Option.bind_some,hstart,hend,hsize,
    hchecked ((min r ((x+1)*4096)-max l (x*4096) : ℕ) : ℤ) (by omega) (by omega),
    Int.natCast_nonneg,if_true,makeInt,hneg,if_false,make_of_nonneg (Int.natCast_nonneg _)]

end Segments

theorem sum_tiles {M : Type*} [AddCommMonoid M] (f : ℕ → M) {l r : ℕ} (h : l < r) :
    ∑ i ∈ Finset.range ((r-1)/4096+1-l/4096),
        ∑ x ∈ Finset.Ico (max l ((l/4096+i)*4096)) (min r ((l/4096+i+1)*4096)), f x =
      ∑ x ∈ Finset.Ico l r, f x := by
  rw [← Finset.sum_fiberwise_of_maps_to (s := Finset.Ico l r) (g := fun x => x/4096-l/4096)
    (t := Finset.range ((r-1)/4096+1-l/4096))]
  · refine Finset.sum_congr rfl fun i hi => Finset.sum_congr (Finset.ext fun x => ?_) fun _ _ => rfl
    simp only [Finset.mem_Ico,Finset.mem_filter]
    omega
  · intro x hx
    rw [Finset.mem_Ico] at hx
    rw [Finset.mem_range]
    omega

namespace PipetteLayerOperations

variable (ops : PipetteLayerOperations)

def named (f : ℕ → ℚ) : PipetteColor := ops.names.zip ((List.range ops.names.length).map f)

/-- The sums after a number of tiles. -/
def Total (tiles : ℕ) (f : ℕ → ℚ) (colors : PipetteColor) : Prop :=
  if tiles = 0 then colors = [] ∧ f = 0 else colors = ops.named f

theorem Total.sumPipetteColors {tiles : ℕ} {f g : ℕ → ℚ} {colors : PipetteColor} (h : ops.Total tiles f colors) :
    ∃ colors', sumPipetteColors colors (ops.named g) = some colors' ∧ ops.Total (tiles+1) (f+g) colors' := by
  refine ⟨ops.named (f+g),?_,by simp [Total]⟩
  rcases Nat.eq_zero_or_pos tiles with rfl | ht
  · obtain ⟨rfl,rfl⟩ : colors = [] ∧ f = 0 := h
    simp [Scroom.sumPipetteColors]
  · rw [Total,if_neg ht.ne'] at h
    subst h
    cases ops <;> simp [Scroom.sumPipetteColors,named,names,List.range_succ,add_comm]

theorem dividePipetteColors_named (f : ℕ → ℚ) (divisor : ℤ) :
    dividePipetteColors (ops.named f) divisor = ops.named fun c => f c/divisor := by
  cases ops <;> rfl

end PipetteLayerOperations

namespace TiledBitmapPresentation

variable {ops : PipetteLayerOperations} (b : TiledBitmapPresentation ops) {l r t u : ℕ}

theorem addTile_eq {x y : ℕ} (hx : l < (x+1)*4096) (hx' : x*4096 < r) (hlr : l < r) (hr : (r:ℤ) ≤ b.bottomLayer.width)
    (hy : t < (y+1)*4096) (hy' : y*4096 < u) (htu : t < u) (hu : (u:ℤ) ≤ b.bottomLayer.height)
    (colors : PipetteColor) :
    b.addTile ⟨⟨l,(r-l : ℕ)⟩,⟨t,(u-t : ℕ)⟩⟩ colors x y = sumPipetteColors colors (ops.named fun c =>
      ∑ i ∈ Finset.Ico (max l (x*4096)) (min r ((x+1)*4096)), ∑ j ∈ Finset.Ico (max t (y*4096)) (min u ((y+1)*4096)),
        (b.pixelValue c (i,j) : ℚ)) := by
  have hwidth := b.bottomLayer.width_le
  have hheight := b.bottomLayer.height_le
  have htile : b.bottomLayer.getTile x y = b.bottomLayer.tileAt x y :=
    Layer.getTile_of_lt (by
      have h := (MachineInt.lt_tdiv_iff (n := b.bottomLayer.width) (d := tileSize) (c := x) (by decide)).mpr
        (by simp only [tileSize]; omega)
      simp only [Layer.horTileCount]
      omega) (by
      have h := (MachineInt.lt_tdiv_iff (n := b.bottomLayer.height) (d := tileSize) (c := y) (by decide)).mpr
        (by simp only [tileSize]; omega)
      simp only [Layer.verTileCount]
      omega)
  have hhor := Segment.intersectionInt_tile hx hx' hlr (by omega)
  have hver := Segment.intersectionInt_tile hy hy' htu (by omega)
  have hchecked : ∀ m : ℕ, (m:ℤ)*4096 ≤ 2147483647 → MachineInt.checked ((m:ℤ)*tileSize) = some ((m:ℤ)*tileSize) :=
    fun m hm => MachineInt.checked_eq_some.mpr
      ⟨by simp only [MachineInt.intMin,MachineInt.intMax,tileSize]; omega,rfl⟩
  simp only [MachineInt.intMax,tileSize] at hwidth hheight
  have hmake : Rectangle.makeInt ((x:ℤ)*tileSize) ((y:ℤ)*tileSize) width height =
      some ⟨⟨(x:ℤ)*tileSize,4096⟩,⟨(y:ℤ)*tileSize,4096⟩⟩ := by
    simp [Rectangle.makeInt,Segment.makeInt,Segment.make,width,height]
  have hinter : Rectangle.intersectionInt ⟨⟨(x:ℤ)*tileSize,4096⟩,⟨(y:ℤ)*tileSize,4096⟩⟩
      ⟨⟨l,(r-l : ℕ)⟩,⟨t,(u-t : ℕ)⟩⟩ = some ⟨⟨(max l (x*4096) : ℕ),(min r ((x+1)*4096)-max l (x*4096) : ℕ)⟩,
        ⟨(max t (y*4096) : ℕ),(min u ((y+1)*4096)-max t (y*4096) : ℕ)⟩⟩ := by
    simp only [Rectangle.intersectionInt,hhor,hver,Option.bind_eq_bind,Option.bind_some,Option.pure_def]
  rw [addTile,htile,hchecked x (by omega),hchecked y (by omega)]
  -- The kernel would compare the sizes of the tiles if `simp` did these steps.
  rw [Option.bind_eq_bind,Option.bind_some,Option.bind_eq_bind,Option.bind_some,hmake,Option.bind_eq_bind,
    Option.bind_some,hinter,Option.bind_some,Rectangle.sub,Segment.sub,Segment.sub]
  have hsub : ∀ m k : ℕ, ((max m (k*4096) : ℕ) : ℤ)-(k:ℤ)*tileSize = ((max m (k*4096)-k*4096 : ℕ) : ℤ) := by
    intro m k
    simp only [tileSize]
    omega
  rw [hsub,hsub,ops.sumPixelValues_eq (b.contents (b.bottomLayer.tileAt x y)) (by simp only [width]; omega)
    (by simp only [height]; omega),Option.bind_some]
  refine congrArg (fun values => sumPipetteColors colors (ops.names.zip values)) (List.map_congr_left fun c _ => ?_)
  rw [Finset.sum_comm,Finset.sum_Ico_eq_sum_range]
  push_cast
  refine Finset.sum_congr rfl fun i hi => ?_
  rw [Finset.sum_Ico_eq_sum_range]
  refine Finset.sum_congr rfl fun j hj => ?_
  rw [Finset.mem_range] at hi hj
  have hi' : (max l (x*4096)+i)/width = x ∧ (max l (x*4096)+i)%width = max l (x*4096)-x*4096+i := by
    simp only [width]
    omega
  have hj' : (max t (y*4096)+j)/height = y ∧ (max t (y*4096)+j)%height = max t (y*4096)-y*4096+j := by
    simp only [height]
    omega
  simp only [pixelValue,hi'.1,hi'.2,hj'.1,hj'.2]

theorem addTiles_eq (hlr : l < r) (hr : (r:ℤ) ≤ b.bottomLayer.width) (htu : t < u)
    (hu : (u:ℤ) ≤ b.bottomLayer.height) :
    (List.range ((r-1)/4096+1-l/4096)).foldlM (fun colors (i : ℕ) =>
      (List.range ((u-1)/4096+1-t/4096)).foldlM (fun colors (j : ℕ) =>
        b.addTile ⟨⟨l,(r-l : ℕ)⟩,⟨t,(u-t : ℕ)⟩⟩ colors ((l/4096+i : ℕ) : ℤ) ((t/4096+j : ℕ) : ℤ)) colors) [] =
      some (ops.named fun c => ∑ i ∈ Finset.Ico l r, ∑ j ∈ Finset.Ico t u, (b.pixelValue c (i,j) : ℚ)) := by
  let columns : ℕ → Finset ℕ := fun i => Finset.Ico (max l ((l/4096+i)*4096)) (min r ((l/4096+i+1)*4096))
  let rows : ℕ → Finset ℕ := fun j => Finset.Ico (max t ((t/4096+j)*4096)) (min u ((t/4096+j+1)*4096))
  let value : ℕ → ℕ → ℕ → ℚ := fun i j c => ∑ x ∈ columns i, ∑ y ∈ rows j, (b.pixelValue c (x,y) : ℚ)
  have htile : ∀ i < (r-1)/4096+1-l/4096, ∀ j < (u-1)/4096+1-t/4096, ∀ colors,
      b.addTile ⟨⟨l,(r-l : ℕ)⟩,⟨t,(u-t : ℕ)⟩⟩ colors ((l/4096+i : ℕ) : ℤ) ((t/4096+j : ℕ) : ℤ) =
        sumPipetteColors colors (ops.named (value i j)) := fun i hi j hj colors =>
    b.addTile_eq (by omega) (by omega) hlr hr (by omega) (by omega) htu hu colors
  obtain ⟨colors,hcolors,htotal⟩ := Loops.foldlM_range (n := (r-1)/4096+1-l/4096) (s := [])
    (f := fun colors (i : ℕ) => (List.range ((u-1)/4096+1-t/4096)).foldlM (fun colors (j : ℕ) =>
      b.addTile ⟨⟨l,(r-l : ℕ)⟩,⟨t,(u-t : ℕ)⟩⟩ colors ((l/4096+i : ℕ) : ℤ) ((t/4096+j : ℕ) : ℤ)) colors)
    (I := fun i => ops.Total (i*((u-1)/4096+1-t/4096))
      (∑ i' ∈ Finset.range i, ∑ j' ∈ Finset.range ((u-1)/4096+1-t/4096), value i' j'))
    (by simp [PipetteLayerOperations.Total]) fun i hi colors hcolors => by
      obtain ⟨colors',hcolors',htotal⟩ := Loops.foldlM_range (n := (u-1)/4096+1-t/4096) (s := colors)
        (f := fun colors (j : ℕ) =>
          b.addTile ⟨⟨l,(r-l : ℕ)⟩,⟨t,(u-t : ℕ)⟩⟩ colors ((l/4096+i : ℕ) : ℤ) ((t/4096+j : ℕ) : ℤ))
        (I := fun j => ops.Total (i*((u-1)/4096+1-t/4096)+j)
          (∑ i' ∈ Finset.range i, ∑ j' ∈ Finset.range ((u-1)/4096+1-t/4096), value i' j' +
            ∑ j' ∈ Finset.range j, value i j'))
        (by simpa using hcolors) fun j hj colors hcolors => by
          rw [htile i hi j hj]
          obtain ⟨colors',hsum,htotal⟩ := hcolors.sumPipetteColors ops
          exact ⟨colors',hsum,by simpa only [Finset.sum_range_succ,add_assoc] using htotal⟩
      refine ⟨colors',hcolors',?_⟩
      rw [Finset.sum_range_succ,Nat.succ_mul]
      exact htotal
  have htiles : ((r-1)/4096+1-l/4096)*((u-1)/4096+1-t/4096) ≠ 0 := by
    refine (Nat.mul_pos ?_ ?_).ne' <;> omega
  rw [PipetteLayerOperations.Total,if_neg htiles] at htotal
  rw [hcolors,htotal]
  refine congrArg (fun f => some (ops.named f)) (funext fun c => ?_)
  simp only [Finset.sum_apply,value]
  rw [← sum_tiles _ hlr]
  refine Finset.sum_congr rfl fun i _ => ?_
  rw [Finset.sum_comm]
  refine Finset.sum_congr rfl fun x _ => ?_
  exact sum_tiles (fun y => (b.pixelValue c (x,y) : ℚ)) htu

theorem clip_eq (area : Rectangle ℚ) : ∃ l r t u : ℕ, l ≤ r ∧ (r:ℤ) ≤ b.bottomLayer.width ∧ t ≤ u ∧
    (u:ℤ) ≤ b.bottomLayer.height ∧
    (area.intersection (.ofInt b.getRect)).roundOutward.toInt = some ⟨⟨l,(r-l : ℕ)⟩,⟨t,(u-t : ℕ)⟩⟩ ∧
    b.pixels area = Finset.Ico l r ×ˢ Finset.Ico t u ∧
    (l < r → t < u → area.Meets (.ofInt b.getRect)) := by
  have hwidth := b.bottomLayer.width_le
  have hheight := b.bottomLayer.height_le
  simp only [tileSize] at hwidth hheight
  obtain ⟨l,r,hlr,hr,hhor,hmeet⟩ := area.horizontally.clip_eq b.width_nonneg
  obtain ⟨t,u,htu,hu,hver,hmeet'⟩ := area.vertically.clip_eq b.height_nonneg
  have hrect : (.ofInt b.getRect : Rectangle ℚ) = ⟨⟨0,b.bottomLayer.width⟩,⟨0,b.bottomLayer.height⟩⟩ := by
    simp [getRect,Rectangle.make,Rectangle.ofInt,Segment.ofInt,Segment.make_of_nonneg b.width_nonneg,
      Segment.make_of_nonneg b.height_nonneg]
  have hclip : (area.intersection (.ofInt b.getRect)).roundOutward =
      ⟨⟨(l:ℚ),((r-l : ℕ) : ℚ)⟩,⟨(t:ℚ),((u-t : ℕ) : ℚ)⟩⟩ := by
    rw [hrect,Rectangle.roundOutward,Rectangle.intersection,hhor,hver]
  refine ⟨l,r,t,u,hlr,hr,htu,hu,?_,?_,?_⟩
  · simp only [hclip,Rectangle.toInt,Segment.toInt_eq (by omega : (r:ℤ) ≤ MachineInt.intMax) hlr,
      Segment.toInt_eq (by omega : (u:ℤ) ≤ MachineInt.intMax) htu,Option.bind_eq_bind,Option.bind_some,
      Option.pure_def]
  · have hcontains : ∀ m k x : ℕ, m ≤ k →
        ((⟨(m:ℚ),((k-m : ℕ) : ℚ)⟩ : Segment ℚ).contains (x:ℚ) ↔ x ∈ Finset.Ico m k) := by
      intro m k x hmk
      rw [Segment.contains,Nat.cast_sub hmk,add_sub_cancel,Nat.cast_le,Nat.cast_lt,Finset.mem_Ico]
    ext ⟨x,y⟩
    simp only [pixels,hclip,Rectangle.contains,hcontains l r x hlr,hcontains t u y htu,Finset.mem_filter,
      Finset.mem_product,Finset.mem_range,Finset.mem_Ico]
    omega
  · intro hl ht
    obtain ⟨x,hx⟩ := hmeet hl
    obtain ⟨y,hy⟩ := hmeet' ht
    refine ⟨⟨x,y⟩,?_⟩
    rw [hrect]
    simp only [Rectangle.getLeft,Rectangle.getRight,Rectangle.getTop,Rectangle.getBottom]
    exact ⟨hx.1,hx.2.1,hx.2.2.1,by simpa [Segment.getEnd] using hx.2.2.2,hy.1,hy.2.1,hy.2.2.1,
      by simpa [Segment.getEnd] using hy.2.2.2⟩

section Area
variable {area : Rectangle ℚ}

theorem getPixelAverages_of_empty (hint : (area.intersection (.ofInt b.getRect)).roundOutward.toInt =
    some ⟨⟨l,(r-l : ℕ)⟩,⟨t,(u-t : ℕ)⟩⟩) (h : (r-l)*(u-t) = 0) : b.getPixelAverages area = some [] := by
  have htotal : ((r-l : ℕ) : ℤ)*((u-t : ℕ) : ℤ) = 0 := by exact_mod_cast h
  have hchecked : MachineInt.checked 0 = some 0 := rfl
  simp only [getPixelAverages,hint,Rectangle.getWidth,Rectangle.getHeight,htotal,hchecked,Option.bind_eq_bind,
    Option.bind_some,if_true,Option.pure_def]

theorem getPixelAverages_eq (hint : (area.intersection (.ofInt b.getRect)).roundOutward.toInt =
    some ⟨⟨l,(r-l : ℕ)⟩,⟨t,(u-t : ℕ)⟩⟩) (hlr : l < r) (hr : (r:ℤ) ≤ b.bottomLayer.width) (htu : t < u)
    (hu : (u:ℤ) ≤ b.bottomLayer.height) (hcount : (((r-l)*(u-t) : ℕ) : ℤ) ≤ MachineInt.intMax) :
    b.getPixelAverages area = some (ops.named fun c =>
      (∑ i ∈ Finset.Ico l r, ∑ j ∈ Finset.Ico t u, (b.pixelValue c (i,j) : ℚ))/(((r-l)*(u-t) : ℕ) : ℤ)) := by
  have hwidth := b.bottomLayer.width_le
  have hheight := b.bottomLayer.height_le
  simp only [tileSize,MachineInt.intMax] at hwidth hheight
  have hchecked : ∀ m : ℕ, (m:ℤ) ≤ MachineInt.intMax → MachineInt.checked m = some (m:ℤ) := fun m hm =>
    MachineInt.checked_eq_some.mpr ⟨⟨by simp only [MachineInt.intMin]; omega,hm⟩,rfl⟩
  have htotal : ((r-l : ℕ) : ℤ)*((u-t : ℕ) : ℤ) = (((r-l)*(u-t) : ℕ) : ℤ) := by push_cast; rfl
  have hne : (((r-l)*(u-t) : ℕ) : ℤ) ≠ 0 := by
    have hpos : 0 < (r-l)*(u-t) := Nat.mul_pos (by omega) (by omega)
    omega
  have hright : (l:ℤ)+(r-l : ℕ) = (r : ℕ) := by omega
  have hbottom : (t:ℤ)+(u-t : ℕ) = (u : ℕ) := by omega
  have hdiv : ∀ m : ℕ, (m:ℤ).tdiv tileSize = (m/4096 : ℕ) := fun m => by
    rw [Int.tdiv_eq_ediv_of_nonneg (Int.natCast_nonneg m)]
    simp only [tileSize]
    omega
  have hlast : ∀ m k : ℕ, m < k → ((k:ℤ)-1).tdiv tileSize+1-(m/4096 : ℕ) = ((k-1)/4096+1-m/4096 : ℕ) := by
    intro m k hmk
    rw [show (k:ℤ)-1 = (k-1 : ℕ) by omega,hdiv]
    omega
  have htiles := b.addTiles_eq hlr hr htu hu
  rw [getPixelAverages,hint]
  simp only [Rectangle.getWidth,Rectangle.getHeight,Rectangle.getRight,Rectangle.getBottom,Rectangle.getLeft,
    Rectangle.getTop,Segment.getEnd,htotal,hchecked _ hcount,hne,if_false,hright,hbottom,
    hchecked r (by simp only [MachineInt.intMax]; omega),hchecked u (by simp only [MachineInt.intMax]; omega),
    hlast l r hlr,hlast t u htu,Int.toNat_natCast,hdiv l,hdiv t,Option.bind_eq_bind,Option.bind_some,Option.pure_def]
  simp only [← Nat.cast_add]
  rw [htiles,Option.bind_some,ops.dividePipetteColors_named]

end Area

/-- The averages are exact, and there are none for an area outside of the bitmap, if and only if an `int` can
hold the number of pixels. -/
theorem getPixelAverages_exact_iff (area : Rectangle ℚ) :
    (b.getPixelAverages area = some (b.averages area) ∧
      (¬area.Meets (.ofInt b.getRect) → b.getPixelAverages area = some [])) ↔
      ((b.pixels area).card : ℤ) ≤ MachineInt.intMax := by
  obtain ⟨l,r,t,u,hlr,hr,htu,hu,hint,hpixels,hmeets⟩ := b.clip_eq area
  have hcard : (b.pixels area).card = (r-l)*(u-t) := by
    rw [hpixels,Finset.card_product,Nat.card_Ico,Nat.card_Ico]
  constructor
  · rintro ⟨h,-⟩
    by_contra hlarge
    have hover : MachineInt.checked (((r-l : ℕ) : ℤ)*((u-t : ℕ) : ℤ)) = none := by
      rw [hcard] at hlarge
      push_cast at hlarge
      exact if_neg fun hm => hlarge hm.2
    simp only [getPixelAverages,hint,Rectangle.getWidth,Rectangle.getHeight,hover,Option.bind_eq_bind,
      Option.bind_some,Option.bind_none,reduceCtorEq] at h
  · intro hcount
    rw [hcard] at hcount
    by_cases hempty : (r-l)*(u-t) = 0
    · have hnone := b.getPixelAverages_of_empty hint hempty
      have hpixels : b.pixels area = ∅ := Finset.card_eq_zero.mp (hcard.trans hempty)
      exact ⟨by rw [hnone,averages,if_pos hpixels],fun _ => hnone⟩
    · have hlr : l < r := by
        refine Nat.lt_of_sub_ne_zero fun hz => hempty ?_
        rw [hz,Nat.zero_mul]
      have htu : t < u := by
        refine Nat.lt_of_sub_ne_zero fun hz => hempty ?_
        rw [hz,Nat.mul_zero]
      refine ⟨?_,fun h => absurd (hmeets hlr htu) h⟩
      have hne : b.pixels area ≠ ∅ := fun h => hempty (hcard.symm.trans (Finset.card_eq_zero.mpr h))
      rw [b.getPixelAverages_eq hint hlr hr htu hu hcount,averages,if_neg hne,hcard,hpixels]
      simp only [PipetteLayerOperations.named,Finset.sum_product,Int.cast_natCast]

/-- A bitmap of 65536 by 32768 pixels. -/
def large : TiledBitmapPresentation .operationsCMYK4 where
  bottomLayer := ⟨0,65536,32768,4,by decide,by decide⟩
  contents := fun _ => Vector.replicate _ 255
  width_nonneg := by decide
  height_nonneg := by decide

theorem large_notAveraged : let area : Rectangle ℚ := ⟨⟨0,65536⟩,⟨0,32768⟩⟩
    large.getPixelAverages area ≠ some (large.averages area) := by
  intro area h
  have hnone : (large.getPixelAverages area).isNone := by decide +kernel
  simp [h] at hnone

end TiledBitmapPresentation
end Scroom
