import Scroom.Redraw
import Scroom.RulerCalculations
import Scroom.Transitions
import Scroom.Tweakers

/-! A ruler of a view, which is told what range is visible and how large it is on the screen. The arithmetic on
`double` is exact here, also for the limits of the range. -/
namespace Scroom
namespace Ruler
open RulerCalculations Transitions

inductive Orientation
  | horizontal
  | vertical
  deriving DecidableEq

structure Config where
  lowerLimit : ℚ := 0
  upperLimit : ℚ := 10
  width : ℤ
  height : ℤ
  majorInterval : ℤ := 1
  majorTickSpacing : ℤ := 0

namespace Orientation

/-- The length of a ruler with this orientation in an area of a size. -/
def along {T : Type} (o : Orientation) (size : Point T) : T :=
  match o with
  | horizontal => size.x
  | vertical => size.y

end Orientation

variable (o : Orientation)

def getDrawAreaSize (c : Config) : ℤ := o.along ⟨c.width,c.height⟩

/-- `none`, here and below, where a `require` fails, or an interval or a spacing does not fit in an `int`. -/
def updateMajorTickInterval (c : Config) : Option Config :=
  let allocatedSize : ℚ := getDrawAreaSize o c
  if c.lowerLimit < c.upperLimit ∧ 0 < allocatedSize then do
    let majorInterval ← calculateInterval c.lowerLimit c.upperLimit allocatedSize
    let majorTickSpacing ← intervalPixelSpacing majorInterval c.lowerLimit c.upperLimit allocatedSize
    return { c with majorInterval := majorInterval, majorTickSpacing := majorTickSpacing }
  else some { c with majorInterval := 10, majorTickSpacing := 10 }

/-- The constructor, with the size that the widget has. -/
def create (width height : ℤ) : Option Config :=
  updateMajorTickInterval o { width := width, height := height }

def setRange (c : Config) (lower upper : ℚ) : Option Config :=
  updateMajorTickInterval o { c with lowerLimit := lower, upperLimit := upper }

def updateAllocatedSize (c : Config) (newWidth newHeight : ℤ) : Option Config :=
  updateMajorTickInterval o { c with width := newWidth, height := newHeight }

/-- `View::updateRulers`, for the ruler with this orientation. -/
def updateRulers (c : Config) (aspectRatio : AspectRatio) (tweakedPosition : Point ℚ) (drawingAreaSize : Point ℤ)
    (zoom : ℤ) : Option Config := do
  let pixelSize ← TiledBitmap.pixelSizeFromZoom zoom
  let visible := TweakRulers.tweakRulers aspectRatio.ratio tweakedPosition drawingAreaSize pixelSize
  setRange o c (o.along visible.getTopLeft) (o.along visible.getBottomRight)

inductive Action
  | updateRulers (aspectRatio : AspectRatio) (tweakedPosition : Point ℚ) (drawingAreaSize : Point ℤ) (zoom : ℤ)
  | updateAllocatedSize (newWidth newHeight : ℤ)

def step (c : Config) : Action → Option Config
  | .updateRulers aspectRatio position size zoom => updateRulers o c aspectRatio position size zoom
  | .updateAllocatedSize newWidth newHeight => updateAllocatedSize o c newWidth newHeight

/-- A ruler of this size can show a range of this extent: either of them is empty, or the range is at least 1
and the interval of a billion is readable, and the spacing of an interval of 1 is an `int`, as it is if the size
is one. -/
def Drawable (range : ℚ) (size : ℤ) : Prop :=
  range ≤ 0 ∨ size ≤ 0 ∨ (1 ≤ range ∧ 80*range ≤ 10^9*size ∧ size < 2^31*range)

/-- The condition on a call. -/
def Allowed (c : Config) : Action → Prop
  | .updateRulers aspectRatio _ size zoom => ∃ pixelSize, TiledBitmap.pixelSizeFromZoom zoom = some pixelSize ∧
      Drawable (|((o.along size : ℤ) : ℚ)/pixelSize|/o.along aspectRatio.ratio) (getDrawAreaSize o c)
  | .updateAllocatedSize newWidth newHeight =>
      Drawable (c.upperLimit-c.lowerLimit) (o.along ⟨newWidth,newHeight⟩)

variable {o}

theorem readable_billion_iff {lower upper : ℚ} {size : ℤ} (hr : lower < upper) :
    Readable lower upper size (10^9) ↔ 80*(upper-lower) ≤ 10^9*size := by
  rw [Readable,Int.le_floor,minSpaceMajorTicks,div_mul_eq_mul_div,le_div_iff₀ (sub_pos.mpr hr)]
  rw [mul_comm (size:ℚ)]
  norm_num

theorem first_spacing_iff {lower upper : ℚ} {size : ℤ} (hr : lower < upper) :
    ⌊(size : ℚ)/(upper-lower)⌋ ≤ MachineInt.intMax ↔ size < 2^31*(upper-lower) := by
  rw [← Int.lt_add_one_iff,Int.floor_lt,div_lt_iff₀ (sub_pos.mpr hr)]
  norm_num [MachineInt.intMax]

/-- The update succeeds exactly if the range can be shown. -/
theorem updateMajorTickInterval_iff (c : Config) :
    (∃ d, updateMajorTickInterval o c = some d) ↔ Drawable (c.upperLimit-c.lowerLimit) (getDrawAreaSize o c) := by
  have hsize : 0 < ((getDrawAreaSize o c : ℤ) : ℚ) ↔ 0 < getDrawAreaSize o c := Int.cast_pos
  by_cases h : c.lowerLimit < c.upperLimit ∧ 0 < getDrawAreaSize o c
  · have hcalc := calculateInterval_isSome_iff h.1 (hsize.mpr h.2)
    have hdrawable : Drawable (c.upperLimit-c.lowerLimit) (getDrawAreaSize o c) ↔
        1 ≤ c.upperLimit-c.lowerLimit ∧ 80*(c.upperLimit-c.lowerLimit) ≤ 10^9*getDrawAreaSize o c ∧
          getDrawAreaSize o c < 2^31*(c.upperLimit-c.lowerLimit) := by
      have hpos := sub_pos.mpr h.1
      have hs := h.2
      simp only [Drawable]
      constructor
      · rintro (h | h | h)
        · linarith
        · omega
        · exact h
      · exact fun h => Or.inr (Or.inr h)
    rw [hdrawable,← readable_billion_iff h.1,← first_spacing_iff h.1,← hcalc,updateMajorTickInterval]
    simp only [hsize,h,and_self,if_true]
    constructor
    · rintro ⟨d,hd⟩
      obtain ⟨i,hi,-⟩ := Option.bind_eq_some_iff.mp hd
      exact ⟨i,hi⟩
    · rintro ⟨i,hi⟩
      obtain ⟨-,spacing,hspacing,-⟩ := calculateInterval_spacing hi
      exact ⟨_,Option.bind_eq_some_iff.mpr ⟨i,hi,Option.bind_eq_some_iff.mpr ⟨spacing,hspacing,rfl⟩⟩⟩
  · refine iff_of_true ⟨_,by rw [updateMajorTickInterval]; simp only [hsize]; exact if_neg h⟩ ?_
    rw [not_and_or,not_lt,not_lt] at h
    rcases h with h | h
    · exact Or.inl (by linarith)
    · exact Or.inr (Or.inl h)

theorem majorInterval_pos {c d : Config} (h : updateMajorTickInterval o c = some d) : 1 ≤ d.majorInterval := by
  unfold updateMajorTickInterval at h
  dsimp only at h
  split at h
  · obtain ⟨i,hi,h⟩ := Option.bind_eq_some_iff.mp h
    obtain ⟨s,-,h⟩ := Option.bind_eq_some_iff.mp h
    obtain rfl := Option.some.inj h
    exact (calculateInterval_spacing hi).1
  · obtain rfl := Option.some.inj h
    norm_num

theorem tweakRulers_extent (aspectRatio : AspectRatio) (position : Point ℚ) (size : Point ℤ) (pixelSize : ℚ) :
    let visible := TweakRulers.tweakRulers aspectRatio.ratio position size pixelSize
    o.along visible.getBottomRight-o.along visible.getTopLeft =
      |((o.along size : ℤ) : ℚ)/pixelSize|/o.along aspectRatio.ratio := by
  have hmake : ∀ p q : ℚ, (Segment.make p q).size = |q| := by
    intro p q
    rw [Segment.make]
    split
    · exact (abs_of_neg ‹_›).symm
    · exact (abs_of_nonneg (not_lt.mp ‹_›)).symm
  cases o with
  | horizontal =>
    refine (add_sub_cancel_left _ _).trans ?_
    exact congrArg (·/aspectRatio.ratio.x) (hmake _ _)
  | vertical =>
    refine (add_sub_cancel_left _ _).trans ?_
    exact congrArg (·/aspectRatio.ratio.y) (hmake _ _)

theorem step_iff (c : Config) (a : Action) : (∃ d, step o c a = some d) ↔ Allowed o c a := by
  cases a with
  | updateAllocatedSize newWidth newHeight => exact updateMajorTickInterval_iff _
  | updateRulers aspectRatio position size zoom =>
    have hset := fun s : ℚ =>
      let visible := TweakRulers.tweakRulers aspectRatio.ratio position size s
      updateMajorTickInterval_iff (o := o)
        { c with lowerLimit := o.along visible.getTopLeft, upperLimit := o.along visible.getBottomRight }
    simp only [tweakRulers_extent] at hset
    constructor
    · rintro ⟨d,hd⟩
      obtain ⟨s,hs,hd⟩ := Option.bind_eq_some_iff.mp hd
      exact ⟨s,hs,(hset s).mp ⟨d,hd⟩⟩
    · rintro ⟨s,hs,h⟩
      obtain ⟨d,hd⟩ := (hset s).mpr h
      exact ⟨d,Option.bind_eq_some_iff.mpr ⟨s,hs,hd⟩⟩

theorem step_pos {c d : Config} {a : Action} (h : step o c a = some d) : 1 ≤ d.majorInterval := by
  cases a with
  | updateAllocatedSize newWidth newHeight => exact majorInterval_pos h
  | updateRulers aspectRatio position size zoom =>
    obtain ⟨s,-,h⟩ := Option.bind_eq_some_iff.mp h
    exact majorInterval_pos h

theorem create_isSome {width height : ℤ} (hsize : o.along ⟨width,height⟩ ≤ MachineInt.intMax) :
    ∃ c, create o width height = some c := by
  refine (updateMajorTickInterval_iff _).mpr ?_
  show Drawable (10-0) (o.along ⟨width,height⟩)
  generalize o.along ⟨width,height⟩ = size at hsize
  by_cases h : size ≤ 0
  · exact Or.inr (Or.inl h)
  · have hpos : (1:ℚ) ≤ size := by exact_mod_cast not_le.mp h
    have hint : (size:ℚ) ≤ 2147483647 := by exact_mod_cast hsize
    exact Or.inr (Or.inr ⟨by norm_num,by linarith,by linarith⟩)

/-- No update of a ruler hits an assertion or leaves an interval below 1 exactly in the runs in which each call
asks for what a ruler of its size can show. The size that a ruler is made with is an `int`. -/
theorem updates_succeed_iff (o : Orientation) (width height : ℤ)
    (hsize : o.along ⟨width,height⟩ ≤ MachineInt.intMax) (as : List Action) :
    ∃ c, create o width height = some c ∧ 1 ≤ c.majorInterval ∧
      ((∃ d, run (step o) as c = some d ∧ 1 ≤ d.majorInterval) ↔ Within (step o) (Allowed o) as c) := by
  obtain ⟨c,hc⟩ := create_isSome hsize
  have hpos : 1 ≤ c.majorInterval := majorInterval_pos hc
  refine ⟨c,hc,hpos,?_⟩
  rw [← exists_run_iff_within step_iff]
  constructor
  · exact fun ⟨d,hd,_⟩ => ⟨d,hd⟩
  · rintro ⟨d,hd⟩
    have hstep : ∀ c a d, 1 ≤ c.majorInterval → step o c a = some d → 1 ≤ d.majorInterval :=
      fun _ _ _ _ h => step_pos h
    exact ⟨d,hd,run_invariant hstep hpos hd⟩

theorem create_spec {width height : ℤ} {c : Config} (h : create o width height = some c) :
    getDrawAreaSize o c = o.along ⟨width,height⟩ ∧ c.upperLimit-c.lowerLimit = 10 := by
  simp only [create,updateMajorTickInterval] at h
  split at h
  · obtain ⟨i,-,h⟩ := Option.bind_eq_some_iff.mp h
    obtain ⟨s,-,h⟩ := Option.bind_eq_some_iff.mp h
    obtain rfl := Option.some.inj h
    exact ⟨rfl,sub_zero 10⟩
  · obtain rfl := Option.some.inj h
    exact ⟨rfl,sub_zero 10⟩

/-- A ruler that becomes narrower than a tick interval of 10. -/
theorem updates_succeed_iff_shrunk : ∃ c d, create .horizontal 800 20 = some c ∧
    run (step .horizontal) [.updateAllocatedSize 60 20] c = some d ∧ 1 ≤ d.majorInterval := by
  obtain ⟨c,hc,-,hiff⟩ := updates_succeed_iff .horizontal 800 20 (by decide) [.updateAllocatedSize 60 20]
  have hallowed : Allowed .horizontal c (.updateAllocatedSize 60 20) := by
    show Drawable (c.upperLimit-c.lowerLimit) 60
    rw [(create_spec hc).2]
    exact .inr (.inr ⟨by norm_num,by norm_num,by norm_num⟩)
  obtain ⟨d,hd,hpos⟩ := hiff.mpr ⟨hallowed,fun _ _ => trivial⟩
  exact ⟨c,d,hc,hd,hpos⟩

/-- A window of 10 by 10 pixels at zoom 5 with square pixels: less than one pixel of the presentation is
visible. -/
def zoomedIn : Action := .updateRulers ⟨⟨1,1⟩,by norm_num,by norm_num⟩ ⟨0,0⟩ ⟨10,10⟩ 5

theorem zoomedIn_aborts : ∃ c, create .horizontal 10 20 = some c ∧ step .horizontal c zoomedIn = none ∧
    TweakRulers.tweakRulers ⟨1,1⟩ ⟨0,0⟩ ⟨10,10⟩ 32 = ⟨⟨0,5/16⟩,⟨0,5/16⟩⟩ ∧
    calculateInterval 0 (5/16) 10 = none := by
  obtain ⟨c,hc⟩ := create_isSome (o := .horizontal) (by decide : (10:ℤ) ≤ MachineInt.intMax)
  refine ⟨c,hc,?_,by decide +kernel,if_neg (by norm_num)⟩
  rw [← Option.not_isSome_iff_eq_none,Option.isSome_iff_exists,step_iff]
  rintro ⟨s,hs,h⟩
  obtain rfl : 32 = s := Option.some.inj ((by decide +kernel : _ = some (32:ℚ)).symm.trans hs)
  rw [(create_spec hc).1] at h
  norm_num [Drawable,Orientation.along] at h

end Ruler
end Scroom
