import Scroom.Ruler
import Scroom.Tools

/-! What a ruler draws: labelled ticks at the multiples of its interval, and smaller ticks between them. -/
namespace Scroom

section StdRound
variable {a b : ℚ}

end StdRound

namespace RulerCalculations
open MachineInt

/-- `none` for a source range of no size, by which the source divides. -/
def scaleToRange (x srcLower srcUpper destLower destUpper : ℚ) : Option ℚ :=
  let srcSize := srcUpper-srcLower
  let destSize := destUpper-destLower
  if srcSize = 0 then none
  else
    let scale := destSize/srcSize
    some (destLower+stdRound (scale*(x-srcLower)))

/-- For an interval other than 0. -/
def firstTick (lower : ℚ) (interval : ℤ) : Option ℤ := do
  checked ((← toInt ⌊lower/interval⌋)*interval)

end RulerCalculations

namespace Ruler
open RulerCalculations MachineInt Transitions

/-- `SUBTICK_SEGMENTS` -/
def subtickSegments : List ℕ := [5,2]

/-- `MIN_SPACE_SUBTICKS` -/
def minSpaceSubticks : ℚ := 5

/-- `LINE_MULTIPLIER` -/
def lineMultiplier : ℚ := 6/10

/-- `MAJOR_TICK_LENGTH` -/
def majorTickLength : ℚ := 8/10

/-- What the drawing strategy of a ruler is asked for. -/
inductive Mark
  | drawTickLine (linePosition lineLength : ℚ)
  | drawTickText (label : String) (linePosition lineLength : ℚ)
  deriving DecidableEq

def drawSingleTick (drawAreaSize linePosition lineLength : ℚ) (label : Option String) : List Mark :=
  (if 0 < linePosition ∧ linePosition < drawAreaSize then [.drawTickLine linePosition lineLength] else []) ++
    label.toList.map fun label => .drawTickText label linePosition lineLength

/-- The loop of `drawSubTicks`: how many of the segments are left, the number of the next, and where it starts. -/
def drawSegments (limit interval lineLength : ℚ) (drawBelow : ℚ → ℚ → List Mark) : ℕ → ℕ → ℚ → List Mark
  | 0, _, _ => []
  | n+1, tick, pos =>
    if pos < limit then
      (if tick ≠ 0 then drawSingleTick limit pos lineLength none else []) ++ drawBelow pos (pos+interval) ++
        drawSegments limit interval lineLength drawBelow n (tick+1) (pos+interval)
    else []

/-- The list has the numbers of segments from the source's `depth` on. -/
def drawSubTicks (drawAreaSize : ℚ) : List ℕ → ℚ → ℚ → ℚ → List Mark
  | [], _, _, _ => []
  | numSegments::below, lower, upper, lineLength =>
    let interval := |upper-lower|/numSegments
    if interval < minSpaceSubticks then []
    else
      drawSegments drawAreaSize interval lineLength
        (fun lower upper => drawSubTicks drawAreaSize below lower upper (lineMultiplier*lineLength)) numSegments 0 lower

namespace Orientation

/-- The extent of a ruler with this orientation on which the ticks have their lengths. -/
def across {T : Type} (o : Orientation) (size : Point T) : T :=
  match o with
  | horizontal => size.y
  | vertical => size.x

end Orientation

variable (o : Orientation)

def getMajorTickLength (c : Config) (percentage : ℚ) : ℚ := percentage*(o.across ⟨c.width,c.height⟩ : ℤ)

/-- `none` also where the interval is not positive, for which the loop has no end. -/
def drawTicks (c : Config) (lineLength pos upper : ℚ) : Option (List Mark) :=
  if _hpos : pos < upper then
    if _hinterval : 0 < c.majorInterval then do
      let drawAreaSize : ℚ := getDrawAreaSize o c
      let s ← scaleToRange pos c.lowerLimit c.upperLimit 0 drawAreaSize
      let label ← toInt ⌊pos⌋
      let rest ← drawTicks c lineLength (pos+c.majorInterval) upper
      return drawSingleTick drawAreaSize s lineLength (some (toString label)) ++
        drawSubTicks drawAreaSize subtickSegments s (s+c.majorTickSpacing) (lineMultiplier*lineLength) ++ rest
    else none
  else some []
termination_by ⌈upper-pos⌉.toNat
decreasing_by
  have hone : (1:ℚ) ≤ c.majorInterval := by exact_mod_cast _hinterval
  have hpos : 0 < ⌈upper-pos⌉ := Int.ceil_pos.mpr (by linarith)
  have hnext : ⌈upper-(pos+c.majorInterval)⌉ ≤ ⌈upper-pos⌉-1 := by
    rw [← Int.ceil_sub_one]
    exact Int.ceil_le_ceil (by linarith)
  omega

/-- Without the background and the outline. -/
def draw (c : Config) : Option (List Mark) :=
  if c.majorInterval ≤ 0 then some []
  else do
    let lineLength := getMajorTickLength o c majorTickLength
    let firstTick ← firstTick c.lowerLimit c.majorInterval
    drawTicks o c lineLength firstTick c.upperLimit

def Mark.line : Mark → Option (ℚ × ℚ)
  | .drawTickLine linePosition lineLength => some (linePosition,lineLength)
  | .drawTickText .. => none

def Mark.text : Mark → Option (String × ℚ)
  | .drawTickLine .. => none
  | .drawTickText label linePosition _ => some (label,linePosition)

def lines (ms : List Mark) : List (ℚ × ℚ) := ms.filterMap Mark.line

def Inside (size : ℚ) (l : ℚ × ℚ) : Prop := 0 < l.1 ∧ l.1 < size

instance (size : ℚ) : DecidablePred (Inside size) := fun _ => inferInstanceAs (Decidable (_ ∧ _))

section SubTicks
variable {size interval lineLength s upper : ℚ} {ms ns : List Mark} {n : ℕ}

end SubTicks

/-- How many pixels of the ruler there are for 1. -/
def scale (c : Config) : ℚ := getDrawAreaSize o c/(c.upperLimit-c.lowerLimit)

def place (c : Config) (x : ℚ) : ℤ := stdRound (scale o c*(x-c.lowerLimit))

section Ticks
variable {o} {c d : Config} {first k m : ℤ} {lineLength : ℚ}

end Ticks

section Draw
variable {o} {c d : Config}

end Draw

end Ruler
end Scroom
