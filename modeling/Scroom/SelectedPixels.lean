import Scroom.Mipmap
import Scroom.PixelAverages
import Scroom.Tweakers

/-! From a selection in the window to the file: the pipette shows the averages of the samples in the file over the
pixels that the selection touches. -/
namespace Scroom
open Buffer

namespace Tiff

def resunitNone : UInt16 := 1

/-- The tags of the resolution are all there, or they are ignored. -/
def getAspectRatio (resolutionX resolutionY : Option ℚ) (resolutionUnit : Option UInt16) : Option (Point ℚ) := do
  let resolutionX ← resolutionX
  let resolutionY ← resolutionY
  let resolutionUnit ← resolutionUnit
  if resolutionUnit ≠ resunitNone then
    let base := max resolutionX resolutionY
    return ⟨base/resolutionX,base/resolutionY⟩
  return ⟨resolutionX,resolutionY⟩

end Tiff

/-- `dynamic_pointer_cast` -/
def pipetteLayerOperation : LayerOperations → Option PipetteLayerOperations
  | .operations24bpp => some .operations24bpp
  | .operationsCMYK32 => some .operationsCMYK32
  | .operationsCMYK16 => some .operationsCMYK16
  | .operationsCMYK8 => some .operationsCMYK8
  | .operationsCMYK4 => some .operationsCMYK4
  | _ => none

/-- The tile that the data of a loaded one is. -/
def PipetteLayerOperations.getConstTileSync (ops : PipetteLayerOperations) : Option Cascade.Data → ops.BaseTile
  | some (some ⟨n,tile⟩) => if h : n = width*height*ops.toLayerOperations.getBpp/8 then tile.cast h else .replicate _ 0
  | _ => .replicate _ 0

/-- What `open` returns for a bitmap. There is a transformation for a file with a resolution. -/
structure OpenedPresentation (ops : PipetteLayerOperations) where
  presentation : TiledBitmapPresentation ops
  transformation : Option (Point ℚ)

namespace OpenedPresentation
variable {ops : PipetteLayerOperations}

def getAspectRatio (p : OpenedPresentation ops) : Point ℚ := p.transformation.getD ⟨1,1⟩

def getRect (p : OpenedPresentation ops) : Rectangle ℚ :=
  match p.transformation with
  | none => .ofInt p.presentation.getRect
  | some aspectRatio => (Rectangle.ofInt p.presentation.getRect).mulPoint aspectRatio

def getPixelAverages (p : OpenedPresentation ops) (area : Rectangle ℚ) : Option PipetteColor :=
  match p.transformation with
  | none => p.presentation.getPixelAverages area
  | some aspectRatio => p.presentation.getPixelAverages (area.divPoint aspectRatio)

/-- What `PipetteHandler::computeValues` gives to `displayValues`. -/
def computeValues (p : OpenedPresentation ops) (sel_rect : Rectangle ℚ) : Option (Rectangle ℚ × PipetteColor) := do
  let image := p.getRect
  let rect := sel_rect.intersection image
  let colors ← p.getPixelAverages rect
  return ((rect.divPoint p.getAspectRatio).roundOutward,colors)

end OpenedPresentation

/-- The pixels of an image that a selection touches with more than its border. -/
def Selection.touched (s : Selection) (aspectRatio : Point ℚ) (w h : ℕ) : Finset (ℕ × ℕ) :=
  (Finset.range w ×ˢ Finset.range h).filter fun p =>
    (min s.start.x s.stop.x < (p.1+1)*aspectRatio.x ∧ p.1*aspectRatio.x < max s.start.x s.stop.x) ∧
      min s.start.y s.stop.y < (p.2+1)*aspectRatio.y ∧ p.2*aspectRatio.y < max s.start.y s.stop.y

namespace Segment
variable {s t : Segment ℚ} {a : ℚ}

theorem mul_div (s : Segment ℚ) (ha : a ≠ 0) : (s.mul a).div a = s := by
  simp [mul,div,ha]

theorem intersection_div (s t : Segment ℚ) (ha : 0 < a) :
    (s.intersection t).div a = (s.div a).intersection (t.div a) := by
  have hend : ∀ u : Segment ℚ, (u.div a).getEnd = u.getEnd/a := fun u => (add_div _ _ _).symm
  have hmin : min (s.getEnd/a) (t.getEnd/a) = min s.getEnd t.getEnd/a := min_div_div_right ha.le _ _
  have hmax : max (s.start/a) (t.start/a) = max s.start t.start/a := max_div_div_right ha.le _ _
  have hnonneg : 0 ≤ (min s.getEnd t.getEnd-max s.start t.start)/a ↔ 0 ≤ min s.getEnd t.getEnd-max s.start t.start :=
    ⟨fun h => by simpa [div_mul_cancel₀ _ ha.ne'] using mul_nonneg h ha.le,fun h => div_nonneg h ha.le⟩
  simp only [intersection,hend]
  change (if 0 ≤ _ then _ else _ : Segment ℚ).div a = if 0 ≤ min (s.getEnd/a) (t.getEnd/a)-max (s.start/a) (t.start/a)
    then make (max (s.start/a) (t.start/a)) (min (s.getEnd/a) (t.getEnd/a)-max (s.start/a) (t.start/a)) else empty
  rw [hmin,hmax,← sub_div]
  by_cases h : 0 ≤ min s.getEnd t.getEnd-max s.start t.start
  · rw [if_pos h,if_pos (hnonneg.mpr h),make_of_nonneg h,make_of_nonneg (hnonneg.mpr h)]
    rfl
  · rw [if_neg h,if_neg (hnonneg.not.mpr h)]
    simp [div,empty]

theorem clip_contains {w : ℕ} (h : s.start ≤ s.getEnd) (x : ℕ) :
    (s.intersection ⟨0,w⟩).roundOutward.contains (x:ℚ) ↔ x < w ∧ s.start < x+1 ∧ (x:ℚ) < s.getEnd := by
  have hend : (⟨0,w⟩ : Segment ℚ).getEnd = w := zero_add _
  have hx : (0:ℚ) ≤ x := Nat.cast_nonneg x
  by_cases hm : 0 ≤ min s.getEnd w-max s.start 0
  · have hs : s.intersection ⟨0,w⟩ = ⟨max s.start 0,min s.getEnd w-max s.start 0⟩ := by
      simp only [intersection,hend]
      rw [if_pos hm,make_of_nonneg hm]
    have hend' : (s.intersection ⟨0,w⟩).getEnd = min s.getEnd w := by
      rw [hs]
      exact add_sub_cancel _ _
    obtain ⟨hstart,hstop⟩ := roundOutward_edges (s := s.intersection ⟨0,w⟩) (by
      rw [hend',hs]
      exact sub_nonneg.mp hm)
    have hfloor : (⌊max s.start 0⌋:ℚ) ≤ x ↔ s.start < x+1 := by
      have hint : ⌊max s.start 0⌋ ≤ (x:ℤ) ↔ max s.start 0 < x+1 := by
        rw [← Int.lt_add_one_iff,Int.floor_lt]
        push_cast
        rfl
      calc (⌊max s.start 0⌋:ℚ) ≤ x ↔ ⌊max s.start 0⌋ ≤ (x:ℤ) := by exact_mod_cast Iff.rfl
        _ ↔ s.start < x+1 := by
          rw [hint,max_lt_iff]
          exact and_iff_left (by linarith)
    have hceil : (x:ℚ) < ⌈min s.getEnd w⌉ ↔ (x:ℚ) < s.getEnd ∧ x < w := by
      calc (x:ℚ) < ⌈min s.getEnd w⌉ ↔ (x:ℤ) < ⌈min s.getEnd w⌉ := by exact_mod_cast Iff.rfl
        _ ↔ (x:ℚ) < s.getEnd ∧ x < w := by
          rw [Int.lt_ceil,lt_min_iff]
          push_cast
          exact and_congr_right fun _ => by exact_mod_cast Iff.rfl
    rw [contains]
    change _ ≤ _ ∧ _ < (s.intersection ⟨0,w⟩).roundOutward.getEnd ↔ _
    rw [hstart,hstop,hend',hs,hfloor,hceil]
    tauto
  · have hs : s.intersection ⟨0,w⟩ = ⟨0,0⟩ := by
      simp only [intersection,hend]
      rw [if_neg hm]
      rfl
    rw [hs]
    refine iff_of_false (fun hc => ?_) ?_
    · simp [roundOutward,getEnd,make,contains] at hc
      linarith
    · rintro ⟨hw,h₁,h₂⟩
      refine hm ?_
      have hw' : (x:ℚ)+1 ≤ w := by exact_mod_cast hw
      rw [sub_nonneg,max_le_iff,le_min_iff,le_min_iff]
      exact ⟨⟨h,by linarith⟩,by linarith,by linarith⟩

theorem clip_snap {w : ℕ} {x y : ℚ} (ha : 0 < a) (k : ℕ) :
    ((((snap a (makeFromStartEnd x y)).intersection ((⟨0,w⟩ : Segment ℚ).mul a)).div a).roundOutward).contains (k:ℚ) ↔
      k < w ∧ min x y < (k+1)*a ∧ k*a < max x y := by
  have hle := makeFromStartEnd_le (x := x) (y := y)
  obtain ⟨hstart,hstop⟩ := snap_edges hle ha
  have hdiv : (snap a (makeFromStartEnd x y)).div a = ((makeFromStartEnd x y).div a).roundOutward := mul_div _ ha.ne'
  have hend : ((makeFromStartEnd x y).div a).getEnd = max x y/a := by
    rw [← getEnd_makeFromStartEnd]
    exact (add_div _ _ _).symm
  have hbegin : ((makeFromStartEnd x y).div a).start = min x y/a := by
    rw [← start_makeFromStartEnd]
    rfl
  have hmin : min x y/a ≤ max x y/a := div_le_div_of_nonneg_right min_le_max ha.le
  obtain ⟨h₁,h₂⟩ := roundOutward_edges (s := (makeFromStartEnd x y).div a) (by rw [hbegin,hend]; exact hmin)
  rw [hbegin] at h₁
  rw [hend] at h₂
  have hfloor : (⌊min x y/a⌋:ℚ) < k+1 ↔ min x y < (k+1)*a := by
    have hint : ⌊min x y/a⌋ < (k:ℤ)+1 ↔ min x y/a < ((k:ℤ)+1 : ℤ) := Int.floor_lt
    rw [← div_lt_iff₀ ha]
    exact_mod_cast hint
  have hceil : (k:ℚ) < ⌈max x y/a⌉ ↔ k*a < max x y := by
    have hint : (k:ℤ) < ⌈max x y/a⌉ ↔ ((k:ℤ) : ℚ) < max x y/a := Int.lt_ceil
    rw [← lt_div_iff₀ ha]
    exact_mod_cast hint
  rw [intersection_div _ _ ha,mul_div _ ha.ne',hdiv,clip_contains (by
    rw [h₁,h₂]
    exact (Int.floor_le _).trans (hmin.trans (Int.le_ceil _))),h₁,h₂,hfloor,hceil]

end Segment

namespace TiledBitmapPresentation
variable {ops : PipetteLayerOperations} (b : TiledBitmapPresentation ops)

end TiledBitmapPresentation

namespace OpenedPresentation
variable {ops : PipetteLayerOperations} (p : OpenedPresentation ops)

theorem getRect_eq : p.getRect = (Rectangle.ofInt p.presentation.getRect).mulPoint p.getAspectRatio := by
  rcases p with ⟨b,_ | a⟩
  · simp [getRect,getAspectRatio,Rectangle.mulPoint,Segment.mul]
  · rfl

theorem getPixelAverages_eq (area : Rectangle ℚ) :
    p.getPixelAverages area = p.presentation.getPixelAverages (area.divPoint p.getAspectRatio) := by
  rcases p with ⟨b,_ | a⟩
  · simp [getPixelAverages,getAspectRatio,Rectangle.divPoint,Segment.div]
  · rfl

variable {w h : ℕ} (hw : p.presentation.bottomLayer.width = w) (hh : p.presentation.bottomLayer.height = h)
include hw hh

theorem ofInt_getRect : (Rectangle.ofInt p.presentation.getRect : Rectangle ℚ) = ⟨⟨0,w⟩,⟨0,h⟩⟩ := by
  simp [TiledBitmapPresentation.getRect,Rectangle.make,Rectangle.ofInt,Segment.ofInt,hw,hh,Segment.make_of_nonneg]

variable (hx : 0 < p.getAspectRatio.x) (hy : 0 < p.getAspectRatio.y) (s : Selection)
include hx hy

theorem clip_contains (x y : ℕ) : (((TweakPixelSelection.tweak p.getAspectRatio s).toRectangle.intersection
    p.getRect).divPoint p.getAspectRatio).roundOutward.contains ⟨x,y⟩ ↔ (x,y) ∈ s.touched p.getAspectRatio w h := by
  rw [TweakPixelSelection.toRectangle_tweak hx hy,p.getRect_eq,p.ofInt_getRect hw hh]
  have hhor := Segment.clip_snap (w := w) (x := s.start.x) (y := s.stop.x) hx x
  have hver := Segment.clip_snap (w := h) (x := s.start.y) (y := s.stop.y) hy y
  rw [Segment.snap] at hhor hver
  simp only [Rectangle.contains,Rectangle.roundOutward,Rectangle.divPoint,Rectangle.intersection,Rectangle.mulPoint,
    TweakPixelSelection.tweakRectangle,Selection.toRectangle,Rectangle.makeFromStartEnd,hhor,hver]
  rw [and_and_and_comm,Selection.touched,Finset.mem_filter,Finset.mem_product,Finset.mem_range,Finset.mem_range]

end OpenedPresentation

namespace PipetteLayerOperations
variable {n : ℕ} (ops : PipetteLayerOperations)

end PipetteLayerOperations

namespace Tiff
open TiledBitmap

variable {tags : Tags} {w h : UInt32} {readScanline : ℕ → ℕ → UInt8} {bmd : BitmapMetaData} {ls : LayerSpec}
  {tb : TiledBitmap LayerOperations} {c : Cascade.Config Cascade.Data} {lo : LayerOperations}
  {ops : PipetteLayerOperations}

/-- Sample `channel` of a pixel in a file whose lines have `size` bytes. -/
def sample (ops : PipetteLayerOperations) (size : ℕ) (readScanline : ℕ → ℕ → UInt8) (channel : ℕ) (p : ℕ × ℕ) : ℕ :=
  sampleAt (8/ops.bps) ops.bps (Vector.ofFn fun b : Fin size => readScanline p.2 b) (ops.names.length*p.1+channel)

end Tiff
end Scroom
