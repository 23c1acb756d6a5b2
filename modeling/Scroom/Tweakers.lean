import Scroom.Rectangle

/-! What a view makes of positions and selections for a presentation whose pixels are not square. The
arithmetic on `double` is exact here. -/
namespace Scroom

/-- A ratio for which pixels have an extent. -/
structure AspectRatio where
  ratio : Point ℚ
  x_pos : 0 < ratio.x
  y_pos : 0 < ratio.y

/-- `std::round`: halves are rounded away from zero. -/
def stdRound (q : ℚ) : ℤ := if 0 ≤ q then ⌊q+1/2⌋ else ⌈q-1/2⌉

def roundToMultipleOf (value factor : ℚ) : ℚ := factor*stdRound (value/factor)

/-- With the value of `pixelSizeFromZoom`, as in the next one. -/
def TweakPresentationPosition.tweakPosition (aspectRatio currentPosition : Point ℚ) (pixelSize : ℚ) : Point ℚ :=
  let factor := aspectRatio.div pixelSize
  ⟨roundToMultipleOf currentPosition.x factor.x,roundToMultipleOf currentPosition.y factor.y⟩

def TweakRulers.tweakRulers (aspectRatio currentPosition : Point ℚ) (drawingAreaSize : Point ℤ) (pixelSize : ℚ) :
    Rectangle ℚ :=
  let size := (Point.ofInt drawingAreaSize).div pixelSize
  (Rectangle.make currentPosition.x currentPosition.y size.x size.y).divPoint aspectRatio

/-- Where the user pressed the button and where the pointer is now, the source's `end`. -/
structure Selection where
  start : Point ℚ
  stop : Point ℚ
  deriving DecidableEq

inductive Corner
  | topLeft
  | topRight
  | bottomLeft
  | bottomRight
  deriving DecidableEq

def cornerGetter : Corner → Rectangle ℚ → Point ℚ
  | .topLeft => Rectangle.getTopLeft
  | .topRight => Rectangle.getTopRight
  | .bottomLeft => Rectangle.getBottomLeft
  | .bottomRight => Rectangle.getBottomRight

def findClosestCorner (p : Point ℚ) (r : Rectangle ℚ) : Corner :=
  let c := r.center
  if c.x < p.x then if c.y < p.y then .bottomRight else .topRight
  else if c.y < p.y then .bottomLeft else .topLeft

def findOpposedCorner : Corner → Corner
  | .topLeft => .bottomRight
  | .topRight => .bottomLeft
  | .bottomLeft => .topRight
  | .bottomRight => .topLeft

def Selection.toRectangle (s : Selection) : Rectangle ℚ := .makeFromStartEnd s.start s.stop

/-- `TweakSelection::tweakSelection`, where the subclass tweaks the rectangle. -/
def tweakSelection (tweak : Rectangle ℚ → Rectangle ℚ) (selection : Selection) : Selection :=
  let original := selection.toRectangle
  let tweaked := tweak original
  let startCorner := findClosestCorner selection.start original
  let endCorner := findOpposedCorner startCorner
  ⟨cornerGetter startCorner tweaked,cornerGetter endCorner tweaked⟩

namespace TweakPixelSelection

def tweakRectangle (aspectRatio : Point ℚ) (selection : Rectangle ℚ) : Rectangle ℚ :=
  (selection.divPoint aspectRatio).roundOutward.mulPoint aspectRatio

def tweak (aspectRatio : Point ℚ) : Selection → Selection := tweakSelection (tweakRectangle aspectRatio)

end TweakPixelSelection

namespace Segment
variable {s t : Segment ℚ} {a x y : ℚ}

/-- The edges are multiples of a number. -/
def OnGrid (a : ℚ) (s : Segment ℚ) : Prop := (∃ k : ℤ, s.start = k*a) ∧ ∃ k : ℤ, s.getEnd = k*a

/-- The segment between multiples of a number that a direction of a rectangle becomes. -/
def snap (a : ℚ) (s : Segment ℚ) : Segment ℚ := (s.div a).roundOutward.mul a

theorem getEnd_makeFromStartEnd : (makeFromStartEnd x y).getEnd = max x y := by
  by_cases h : y-x < 0
  · rw [makeFromStartEnd,make,if_pos h,max_eq_left (by linarith)]
    simp [getEnd]
  · rw [makeFromStartEnd,make,if_neg h,max_eq_right (by linarith)]
    simp [getEnd]

theorem start_makeFromStartEnd : (makeFromStartEnd x y).start = min x y := by
  by_cases h : y-x < 0
  · rw [makeFromStartEnd,make,if_pos h,min_eq_right (by linarith)]
    simp
  · rw [makeFromStartEnd,make,if_neg h,min_eq_left (by linarith)]

theorem eq_of_edges (h : s.start = t.start) (h' : s.getEnd = t.getEnd) : s = t := by
  obtain ⟨b,c⟩ := s
  obtain ⟨d,e⟩ := t
  simp only [getEnd] at h h'
  subst h
  rw [add_left_cancel h']

theorem center_makeFromStartEnd_lt : (makeFromStartEnd x y).center < x ↔ y < x := by
  have hcenter : (makeFromStartEnd x y).center = (min x y+max x y)/2 := by
    rw [← start_makeFromStartEnd,← getEnd_makeFromStartEnd,center,getEnd]
    ring
  rw [hcenter,min_add_max]
  constructor <;> intro h <;> linarith

theorem snap_edges (h : s.start ≤ s.getEnd) (ha : 0 < a) :
    (snap a s).start = ⌊s.start/a⌋*a ∧ (snap a s).getEnd = ⌈s.getEnd/a⌉*a := by
  have hend : (s.div a).getEnd = s.getEnd/a := (add_div _ _ _).symm
  have hle : (s.div a).start ≤ (s.div a).getEnd := by
    rw [hend]
    exact div_le_div_of_nonneg_right h ha.le
  obtain ⟨hstart,hstop⟩ := roundOutward_edges hle
  rw [hend] at hstop
  refine ⟨congrArg (·*a) hstart,?_⟩
  rw [← hstop]
  exact (add_mul _ _ _).symm

theorem snap_onGrid (h : s.start ≤ s.getEnd) (ha : 0 < a) : (snap a s).OnGrid a :=
  ⟨⟨_,(snap_edges h ha).1⟩,⟨_,(snap_edges h ha).2⟩⟩

theorem snap_contains (h : s.start ≤ s.getEnd) (ha : 0 < a) : (snap a s).containsSegment s := by
  obtain ⟨hstart,hstop⟩ := snap_edges h ha
  constructor
  · rw [hstart]
    exact (le_div_iff₀ ha).mp (Int.floor_le _)
  · rw [hstop]
    exact (div_le_iff₀ ha).mp (Int.le_ceil _)

theorem snap_least (h : s.start ≤ s.getEnd) (ha : 0 < a) (hgrid : t.OnGrid a) (ht : t.containsSegment s) :
    t.containsSegment (snap a s) := by
  obtain ⟨hstart,hstop⟩ := snap_edges h ha
  obtain ⟨⟨k,hk⟩,l,hl⟩ := hgrid
  obtain ⟨h₁,h₂⟩ := ht
  rw [hk] at h₁
  rw [hl] at h₂
  constructor
  · rw [hstart,hk]
    have hfloor : k ≤ ⌊s.start/a⌋ := Int.le_floor.mpr ((le_div_iff₀ ha).mpr h₁)
    exact mul_le_mul_of_nonneg_right (by exact_mod_cast hfloor) ha.le
  · rw [hstop,hl]
    have hceil : ⌈s.getEnd/a⌉ ≤ l := Int.ceil_le.mpr ((div_le_iff₀ ha).mpr h₂)
    exact mul_le_mul_of_nonneg_right (by exact_mod_cast hceil) ha.le

theorem snap_of_onGrid (h : s.start ≤ s.getEnd) (ha : 0 < a) (hgrid : s.OnGrid a) : snap a s = s := by
  obtain ⟨hstart,hstop⟩ := snap_edges h ha
  obtain ⟨⟨k,hk⟩,l,hl⟩ := hgrid
  refine eq_of_edges ?_ ?_
  · rw [hstart,hk,mul_div_cancel_right₀ _ ha.ne',Int.floor_intCast]
  · rw [hstop,hl,mul_div_cancel_right₀ _ ha.ne',Int.ceil_intCast]

theorem snap_snap (h : s.start ≤ s.getEnd) (ha : 0 < a) : snap a (snap a s) = snap a s := by
  obtain ⟨hstart,hstop⟩ := snap_contains h ha
  exact snap_of_onGrid (hstart.trans (h.trans hstop)) ha (snap_onGrid h ha)

end Segment

namespace Rectangle

def OnGrid (a : Point ℚ) (r : Rectangle ℚ) : Prop := r.horizontally.OnGrid a.x ∧ r.vertically.OnGrid a.y

end Rectangle

/-- One direction of a tweaked selection: which edge of the tweaked segment each end takes. -/
def orient (backward : Prop) [Decidable backward] (s : Segment ℚ) : ℚ × ℚ :=
  if backward then (s.getEnd,s.start) else (s.start,s.getEnd)

theorem tweakSelection_eq (tweak : Rectangle ℚ → Rectangle ℚ) (s : Selection) :
    let x := orient (s.stop.x < s.start.x) (tweak s.toRectangle).horizontally
    let y := orient (s.stop.y < s.start.y) (tweak s.toRectangle).vertically
    tweakSelection tweak s = ⟨⟨x.1,y.1⟩,⟨x.2,y.2⟩⟩ := by
  have hx : s.toRectangle.center.x < s.start.x ↔ s.stop.x < s.start.x := Segment.center_makeFromStartEnd_lt
  have hy : s.toRectangle.center.y < s.start.y ↔ s.stop.y < s.start.y := Segment.center_makeFromStartEnd_lt
  simp only [tweakSelection,findClosestCorner,hx,hy,orient]
  split <;> split <;> rfl

/-- What becomes of one direction of a selection that goes from `x` to `y`. -/
structure Oriented (x y : ℚ) (s : Segment ℚ) (o : ℚ × ℚ) : Prop where
  segment : Segment.makeFromStartEnd o.1 o.2 = s
  forward : x < y → o.1 < o.2
  backward : y < x → o.2 < o.1
  again : orient (o.2 < o.1) s = o

theorem orient_oriented {x y : ℚ} {s : Segment ℚ} (h : s.containsSegment (.makeFromStartEnd x y)) :
    Oriented x y s (orient (y < x) s) := by
  obtain ⟨hstart,hstop⟩ := h
  rw [Segment.start_makeFromStartEnd] at hstart
  rw [Segment.getEnd_makeFromStartEnd] at hstop
  have hmin := min_le_max (a := x) (b := y)
  have hle : s.start ≤ s.getEnd := hstart.trans (hmin.trans hstop)
  by_cases hxy : y < x
  · have hlt : s.start < s.getEnd := by
      calc s.start ≤ min x y := hstart
        _ < max x y := min_lt_max.mpr hxy.ne'
        _ ≤ s.getEnd := hstop
    rw [orient,if_pos hxy]
    refine ⟨Segment.eq_of_edges ?_ ?_,fun h => absurd h hxy.not_gt,fun _ => hlt,if_pos hlt⟩
    · rw [Segment.start_makeFromStartEnd,min_eq_right hle]
    · rw [Segment.getEnd_makeFromStartEnd,max_eq_left hle]
  · rw [orient,if_neg hxy]
    refine ⟨Segment.eq_of_edges ?_ ?_,fun h => ?_,fun h => absurd h hxy,if_neg hle.not_gt⟩
    · rw [Segment.start_makeFromStartEnd,min_eq_left hle]
    · rw [Segment.getEnd_makeFromStartEnd,max_eq_right hle]
    · calc s.start ≤ min x y := hstart
        _ < max x y := min_lt_max.mpr h.ne
        _ ≤ s.getEnd := hstop

theorem Segment.makeFromStartEnd_le {x y : ℚ} : (makeFromStartEnd x y).start ≤ (makeFromStartEnd x y).getEnd := by
  rw [start_makeFromStartEnd,getEnd_makeFromStartEnd]
  exact min_le_max

namespace TweakPixelSelection

/-- The selection `t` is the smallest one between pixels around `s`, in the same direction, and stays what
it is. -/
structure SnapsOutward (aspectRatio : Point ℚ) (s t : Selection) : Prop where
  contains : t.toRectangle.containsRectangle s.toRectangle
  onGrid : t.toRectangle.OnGrid aspectRatio
  least : ∀ r : Rectangle ℚ, r.OnGrid aspectRatio → r.containsRectangle s.toRectangle →
    r.containsRectangle t.toRectangle
  rightwards : s.start.x < s.stop.x → t.start.x < t.stop.x
  leftwards : s.stop.x < s.start.x → t.stop.x < t.start.x
  downwards : s.start.y < s.stop.y → t.start.y < t.stop.y
  upwards : s.stop.y < s.start.y → t.stop.y < t.start.y
  unchanged : tweak aspectRatio t = t

variable {a : Point ℚ}

theorem tweak_oriented (hx : 0 < a.x) (hy : 0 < a.y) (s : Selection) :
    Oriented s.start.x s.stop.x (tweakRectangle a s.toRectangle).horizontally
      ((tweak a s).start.x,(tweak a s).stop.x) ∧
    Oriented s.start.y s.stop.y (tweakRectangle a s.toRectangle).vertically
      ((tweak a s).start.y,(tweak a s).stop.y) := by
  rw [tweak,tweakSelection_eq]
  exact ⟨orient_oriented (Segment.snap_contains Segment.makeFromStartEnd_le hx),
    orient_oriented (Segment.snap_contains Segment.makeFromStartEnd_le hy)⟩

theorem toRectangle_tweak (hx : 0 < a.x) (hy : 0 < a.y) (s : Selection) :
    (tweak a s).toRectangle = tweakRectangle a s.toRectangle := by
  obtain ⟨h₁,h₂⟩ := tweak_oriented hx hy s
  exact congrArg₂ Rectangle.mk h₁.segment h₂.segment

theorem tweak_tweak (hx : 0 < a.x) (hy : 0 < a.y) (s : Selection) : tweak a (tweak a s) = tweak a s := by
  obtain ⟨h₁,h₂⟩ := tweak_oriented hx hy s
  have hagain : tweakRectangle a (tweak a s).toRectangle = tweakRectangle a s.toRectangle := by
    rw [toRectangle_tweak hx hy]
    exact congrArg₂ Rectangle.mk (Segment.snap_snap Segment.makeFromStartEnd_le hx)
      (Segment.snap_snap Segment.makeFromStartEnd_le hy)
  have h := tweakSelection_eq (tweakRectangle a) (tweak a s)
  rw [hagain,h₁.again,h₂.again] at h
  exact h

/-- Pixel selections snap outward and keep their direction. -/
theorem tweak_snapsOutward (aspectRatio : Point ℚ) (hx : 0 < aspectRatio.x) (hy : 0 < aspectRatio.y)
    (s : Selection) : SnapsOutward aspectRatio s (tweak aspectRatio s) := by
  obtain ⟨h₁,h₂⟩ := tweak_oriented hx hy s
  have hle := fun x y : ℚ => Segment.makeFromStartEnd_le (x := x) (y := y)
  refine ⟨?_,?_,?_,h₁.forward,h₁.backward,h₂.forward,h₂.backward,tweak_tweak hx hy s⟩
  · rw [toRectangle_tweak hx hy]
    exact ⟨Segment.snap_contains (hle _ _) hx,Segment.snap_contains (hle _ _) hy⟩
  · rw [toRectangle_tweak hx hy]
    exact ⟨Segment.snap_onGrid (hle _ _) hx,Segment.snap_onGrid (hle _ _) hy⟩
  · intro r hgrid hr
    rw [toRectangle_tweak hx hy]
    exact ⟨Segment.snap_least (hle _ _) hx hgrid.1 hr.1,Segment.snap_least (hle _ _) hy hgrid.2 hr.2⟩

/-- A selection upwards without a width, on pixels that are twice as wide as they are high. -/
theorem tweak_snapsOutward_upwards : SnapsOutward ⟨2,1⟩ ⟨⟨3,5/2⟩,⟨3,1/2⟩⟩ (tweak ⟨2,1⟩ ⟨⟨3,5/2⟩,⟨3,1/2⟩⟩) ∧
    tweak ⟨2,1⟩ ⟨⟨3,5/2⟩,⟨3,1/2⟩⟩ = ⟨⟨2,3⟩,⟨4,0⟩⟩ :=
  ⟨tweak_snapsOutward ⟨2,1⟩ (by norm_num) (by norm_num) ⟨⟨3,5/2⟩,⟨3,1/2⟩⟩,by decide +kernel⟩

end TweakPixelSelection
end Scroom
