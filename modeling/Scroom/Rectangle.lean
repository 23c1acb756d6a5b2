import Scroom.MachineInt

/-! Points, segments and rectangles. They are generic in the coordinate, as in the source:
`ℤ` stands for `int` and the exact `ℚ` for `double`. -/
namespace Scroom

@[ext]
structure Point (T : Type) where
  x : T
  y : T
  deriving DecidableEq

namespace Point
section Operations
variable {R : Type} [Ring R]

instance : Add (Point R) := ⟨fun p q => ⟨p.x+q.x,p.y+q.y⟩⟩
instance : Sub (Point R) := ⟨fun p q => ⟨p.x-q.x,p.y-q.y⟩⟩
instance : Neg (Point R) := ⟨fun p => ⟨-p.x,-p.y⟩⟩

@[simp] theorem add_x (p q : Point R) : (p+q).x = p.x+q.x := rfl
@[simp] theorem add_y (p q : Point R) : (p+q).y = p.y+q.y := rfl
@[simp] theorem sub_x (p q : Point R) : (p-q).x = p.x-q.x := rfl
@[simp] theorem sub_y (p q : Point R) : (p-q).y = p.y-q.y := rfl
@[simp] theorem neg_x (p : Point R) : (-p).x = -p.x := rfl
@[simp] theorem neg_y (p : Point R) : (-p).y = -p.y := rfl

def mul (p : Point R) (n : R) : Point R := ⟨p.x*n,p.y*n⟩

/-- `operator*` with a factor for each direction. -/
def mulPoint (p q : Point R) : Point R := ⟨p.x*q.x,p.y*q.y⟩

end Operations

section Scaling
variable {T : Type} [Field T]

def div (p : Point T) (n : T) : Point T := ⟨p.x/n,p.y/n⟩

def divPoint (p q : Point T) : Point T := ⟨p.x/q.x,p.y/q.y⟩

/-- `to<double>()` on a `Point<int>` -/
def ofInt (p : Point ℤ) : Point T := ⟨p.x,p.y⟩

end Scaling
end Point

structure Segment (T : Type) where
  start : T
  size : T
  deriving DecidableEq

/-- `isZero`, of which `int` and `double` have their own versions. -/
class IsZero (T : Type) where
  isZero : T → Bool

def epsilon : ℚ := 1/10^6

instance : IsZero ℤ := ⟨fun v => v = 0⟩
instance : IsZero ℚ := ⟨fun v => |v| < epsilon⟩

def areEqual {T : Type} [Ring T] [IsZero T] (a b : T) : Bool := IsZero.isZero (a-b)

namespace Segment

section Operations
variable {R : Type} [Ring R] [LinearOrder R]

/-- The default constructor. -/
def empty : Segment R := ⟨0,0⟩

/-- The constructor, which normalises a negative size. -/
def make (start size : R) : Segment R := if size < 0 then ⟨start+size,-size⟩ else ⟨start,size⟩

theorem make_of_nonneg {start size : R} (h : 0 ≤ size) : make start size = ⟨start,size⟩ :=
  if_neg (not_lt.mpr h)

def getEnd (s : Segment R) : R := s.start+s.size

def contains (s : Segment R) (p : R) : Prop := s.start ≤ p ∧ p < s.start+s.size

instance (s : Segment R) (p : R) : Decidable (s.contains p) :=
  inferInstanceAs (Decidable (s.start ≤ p ∧ p < s.start+s.size))

def intersection (s other : Segment R) : Segment R :=
  let newStart := max s.start other.start
  let newEnd := min s.getEnd other.getEnd
  let newSize := newEnd-newStart
  if 0 ≤ newSize then make newStart newSize else empty

/-- The part that comes before a coordinate. -/
def before (s : Segment R) (v : R) : Segment R :=
  if v < s.start then empty
  else if v < s.start+s.size then make s.start (v-s.start)
  else s

/-- The part that comes after a coordinate. -/
def after (s : Segment R) (v : R) : Segment R :=
  if s.start+s.size < v then empty
  else if s.start < v then make v (s.start+s.size-v)
  else s

/-- `contains` with a segment for its argument. -/
def containsSegment (s other : Segment R) : Prop := s.start ≤ other.start ∧ other.getEnd ≤ s.getEnd

instance (s other : Segment R) : Decidable (s.containsSegment other) :=
  inferInstanceAs (Decidable (s.start ≤ other.start ∧ other.getEnd ≤ s.getEnd))

/-- `make_segment_from_start_end` -/
def makeFromStartEnd (start stop : R) : Segment R := make start (stop-start)

def add (s : Segment R) (n : R) : Segment R := ⟨s.start+n,s.size⟩

def sub (s : Segment R) (n : R) : Segment R := ⟨s.start-n,s.size⟩

def mul (s : Segment R) (n : R) : Segment R := ⟨s.start*n,s.size*n⟩

variable [IsZero R]

def isEmpty (s : Segment R) : Bool := IsZero.isZero s.size

def intersects (s other : Segment R) : Bool :=
  s.start < other.getEnd && other.start < s.getEnd && !s.isEmpty && !other.isEmpty

/-- `operator==` -/
def equals (s other : Segment R) : Bool :=
  if s.isEmpty ≠ other.isEmpty then false
  else if s.isEmpty then true
  else areEqual s.start other.start && areEqual s.size other.size

end Operations

section Scaling
variable {T : Type} [Field T]

def div (s : Segment T) (n : T) : Segment T := ⟨s.start/n,s.size/n⟩

def center (s : Segment T) : T := s.start+s.size/2

theorem div_twice (s : Segment T) (a b : T) : (s.div a).div b = s.div (a*b) := by
  simp only [div,Segment.mk.injEq]
  exact ⟨div_div _ _ _,div_div _ _ _⟩

theorem mul_of_div (s : Segment T) (a b : T) : (s.div a).mul b = s.mul (b/a) := by
  simp only [mul,div,Segment.mk.injEq]
  exact ⟨by rw [div_mul_eq_mul_div,mul_div_assoc],by rw [div_mul_eq_mul_div,mul_div_assoc]⟩

/-- The conversion from `Segment<int>`. -/
def ofInt (s : Segment ℤ) : Segment T := ⟨s.start,s.size⟩

end Scaling

/-- `Segment<int>`'s constructor negates the size in `int`. -/
def makeInt (start size : ℤ) : Option (Segment ℤ) :=
  if size < 0 ∧ MachineInt.intMax < -size then none else some (make start size)

/-- `intersection` on `Segment<int>`. -/
def intersectionInt (s other : Segment ℤ) : Option (Segment ℤ) := do
  let newStart := max s.start other.start
  let newEnd := min (← MachineInt.checked s.getEnd) (← MachineInt.checked other.getEnd)
  let newSize ← MachineInt.checked (newEnd-newStart)
  if 0 ≤ newSize then makeInt newStart newSize else return empty

/-- The smallest segment between multiples of 1 around this one. -/
def roundOutward (s : Segment ℚ) : Segment ℚ := make ⌊s.start⌋ (⌈s.getEnd⌉-⌊s.start⌋)

/-- `to<int>()` -/
def toInt (s : Segment ℚ) : Option (Segment ℤ) := do
  makeInt (← MachineInt.toInt s.start) (← MachineInt.toInt s.size)

theorem roundOutward_edges {s : Segment ℚ} (h : s.start ≤ s.getEnd) :
    s.roundOutward.start = ⌊s.start⌋ ∧ s.roundOutward.getEnd = ⌈s.getEnd⌉ := by
  have hle : (⌊s.start⌋:ℚ) ≤ ⌈s.getEnd⌉ := (Int.floor_le _).trans (h.trans (Int.le_ceil _))
  rw [roundOutward,make_of_nonneg (sub_nonneg.mpr hle)]
  exact ⟨rfl,add_sub_cancel _ _⟩

variable {T : Type} [Ring T] [LinearOrder T] [IsStrictOrderedRing T]

omit [IsStrictOrderedRing T] in
theorem not_contains_empty (p : T) : ¬ (empty : Segment T).contains p := by
  rintro ⟨h,hh⟩
  simp only [empty,add_zero] at h hh
  exact absurd hh (not_lt.mpr h)

theorem contains_intersection {s t : Segment T} {p : T} :
    (s.intersection t).contains p ↔ s.contains p ∧ t.contains p := by
  unfold intersection
  dsimp only
  split
  · rename_i h
    rw [make_of_nonneg h]
    simp only [contains,getEnd,add_sub_cancel,max_le_iff,lt_min_iff]
    tauto
  · rename_i h
    refine iff_of_false (not_contains_empty p) ?_
    rintro ⟨⟨h₁,h₂⟩,h₃,h₄⟩
    exact h (sub_nonneg.mpr ((max_le h₁ h₃).trans (lt_min h₂ h₄).le))

theorem contains_before {s : Segment T} {v p : T} :
    (s.before v).contains p ↔ s.contains p ∧ p < v := by
  unfold before
  split
  · rename_i h
    exact iff_of_false (not_contains_empty p) fun hp => absurd (hp.2.trans h) (not_lt.mpr hp.1.1)
  · rename_i h
    split
    · rename_i hh
      rw [make_of_nonneg (sub_nonneg.mpr (not_lt.mp h))]
      simp only [contains,add_sub_cancel]
      exact ⟨fun hp => ⟨⟨hp.1,hp.2.trans hh⟩,hp.2⟩,fun hp => ⟨hp.1.1,hp.2⟩⟩
    · rename_i hh
      exact ⟨fun hp => ⟨hp,hp.2.trans_le (not_lt.mp hh)⟩,And.left⟩

theorem contains_after {s : Segment T} {v p : T} :
    (s.after v).contains p ↔ s.contains p ∧ v ≤ p := by
  unfold after
  split
  · rename_i h
    exact iff_of_false (not_contains_empty p) fun hp => absurd (hp.1.2.trans h) (not_lt.mpr hp.2)
  · rename_i h
    split
    · rename_i hh
      rw [make_of_nonneg (sub_nonneg.mpr (not_lt.mp h))]
      simp only [contains,add_sub_cancel]
      exact ⟨fun hp => ⟨⟨hh.le.trans hp.1,hp.2⟩,hp.1⟩,fun hp => ⟨hp.2,hp.1.2⟩⟩
    · rename_i hh
      exact ⟨fun hp => ⟨hp,(not_lt.mp hh).trans hp.1⟩,And.left⟩

theorem getEnd_intersection {s t : Segment T} {p : T} (hs : s.contains p) (ht : t.contains p) :
    (s.intersection t).getEnd = min s.getEnd t.getEnd := by
  have h : 0 ≤ min s.getEnd t.getEnd-max s.start t.start :=
    sub_nonneg.mpr ((max_le hs.1 ht.1).trans (lt_min hs.2 ht.2).le)
  unfold intersection
  dsimp only
  rw [if_pos h,make_of_nonneg h]
  exact add_sub_cancel _ _

end Segment

structure Rectangle (T : Type) where
  horizontally : Segment T
  vertically : Segment T
  deriving DecidableEq

namespace Rectangle

section Operations
variable {R : Type} [Ring R] [LinearOrder R]

/-- The constructor from a position and a size. -/
def make (x y width height : R) : Rectangle R := ⟨.make x width,.make y height⟩

/-- The default constructor. -/
def empty : Rectangle R := ⟨.empty,.empty⟩

def getWidth (r : Rectangle R) : R := r.horizontally.size
def getHeight (r : Rectangle R) : R := r.vertically.size
def getLeft (r : Rectangle R) : R := r.horizontally.start
def getTop (r : Rectangle R) : R := r.vertically.start
def getRight (r : Rectangle R) : R := r.horizontally.getEnd
def getBottom (r : Rectangle R) : R := r.vertically.getEnd
def getTopLeft (r : Rectangle R) : Point R := ⟨r.getLeft,r.getTop⟩
def getTopRight (r : Rectangle R) : Point R := ⟨r.getRight,r.getTop⟩
def getBottomLeft (r : Rectangle R) : Point R := ⟨r.getLeft,r.getBottom⟩
def getBottomRight (r : Rectangle R) : Point R := ⟨r.getRight,r.getBottom⟩

def contains (r : Rectangle R) (p : Point R) : Prop :=
  r.horizontally.contains p.x ∧ r.vertically.contains p.y

instance (r : Rectangle R) (p : Point R) : Decidable (r.contains p) :=
  inferInstanceAs (Decidable (_ ∧ _))

def intersection (r other : Rectangle R) : Rectangle R :=
  ⟨r.horizontally.intersection other.horizontally,r.vertically.intersection other.vertically⟩

def leftOf (r : Rectangle R) (v : R) : Rectangle R := { r with horizontally := r.horizontally.before v }
def rightOf (r : Rectangle R) (v : R) : Rectangle R := { r with horizontally := r.horizontally.after v }
def above (r : Rectangle R) (v : R) : Rectangle R := { r with vertically := r.vertically.before v }
def below (r : Rectangle R) (v : R) : Rectangle R := { r with vertically := r.vertically.after v }

/-- `contains` with a rectangle for its argument. -/
def containsRectangle (r other : Rectangle R) : Prop :=
  r.horizontally.containsSegment other.horizontally ∧ r.vertically.containsSegment other.vertically

instance (r other : Rectangle R) : Decidable (r.containsRectangle other) :=
  inferInstanceAs (Decidable (_ ∧ _))

/-- `make_rect_from_start_end` -/
def makeFromStartEnd (start stop : Point R) : Rectangle R :=
  ⟨.makeFromStartEnd start.x stop.x,.makeFromStartEnd start.y stop.y⟩

def add (r : Rectangle R) (p : Point R) : Rectangle R := ⟨r.horizontally.add p.x,r.vertically.add p.y⟩

def sub (r : Rectangle R) (p : Point R) : Rectangle R := ⟨r.horizontally.sub p.x,r.vertically.sub p.y⟩

def mul (r : Rectangle R) (n : R) : Rectangle R := ⟨r.horizontally.mul n,r.vertically.mul n⟩

/-- `operator*=` with a factor for each direction. -/
def mulPoint (r : Rectangle R) (p : Point R) : Rectangle R := ⟨r.horizontally.mul p.x,r.vertically.mul p.y⟩

variable [IsZero R]

def isEmpty (r : Rectangle R) : Bool := r.horizontally.isEmpty || r.vertically.isEmpty

def intersects (r other : Rectangle R) : Bool :=
  r.horizontally.intersects other.horizontally && r.vertically.intersects other.vertically

def equals (r other : Rectangle R) : Bool :=
  if r.isEmpty ≠ other.isEmpty then false
  else if r.isEmpty then true
  else r.horizontally.equals other.horizontally && r.vertically.equals other.vertically

end Operations

section Scaling
variable {T : Type} [Field T]

def div (r : Rectangle T) (n : T) : Rectangle T := ⟨r.horizontally.div n,r.vertically.div n⟩

def divPoint (r : Rectangle T) (p : Point T) : Rectangle T := ⟨r.horizontally.div p.x,r.vertically.div p.y⟩

def center (r : Rectangle T) : Point T := ⟨r.horizontally.center,r.vertically.center⟩

theorem div_twice (r : Rectangle T) (a b : T) : (r.div a).div b = r.div (a*b) := by
  simp [div,Segment.div_twice]

theorem mul_of_div (r : Rectangle T) (a b : T) : (r.div a).mul b = r.mul (b/a) := by
  simp [mul,div,Segment.mul_of_div]

def ofInt (r : Rectangle ℤ) : Rectangle T := ⟨.ofInt r.horizontally,.ofInt r.vertically⟩

end Scaling

/-- `Rectangle<int>`'s constructor. -/
def makeInt (x y width height : ℤ) : Option (Rectangle ℤ) := do
  return ⟨← Segment.makeInt x width,← Segment.makeInt y height⟩

def intersectionInt (r other : Rectangle ℤ) : Option (Rectangle ℤ) := do
  return ⟨← r.horizontally.intersectionInt other.horizontally,← r.vertically.intersectionInt other.vertically⟩

def roundOutward (r : Rectangle ℚ) : Rectangle ℚ := ⟨r.horizontally.roundOutward,r.vertically.roundOutward⟩

def toInt (r : Rectangle ℚ) : Option (Rectangle ℤ) := do
  return ⟨← r.horizontally.toInt,← r.vertically.toInt⟩

variable {T : Type} [Ring T] [LinearOrder T] [IsStrictOrderedRing T]

theorem contains_intersection {r s : Rectangle T} {p : Point T} :
    (r.intersection s).contains p ↔ r.contains p ∧ s.contains p := by
  simp only [contains,intersection,Segment.contains_intersection]
  tauto

theorem contains_leftOf {r : Rectangle T} {v : T} {p : Point T} :
    (r.leftOf v).contains p ↔ r.contains p ∧ p.x < v := by
  simp only [contains,leftOf,Segment.contains_before]
  tauto

theorem contains_rightOf {r : Rectangle T} {v : T} {p : Point T} :
    (r.rightOf v).contains p ↔ r.contains p ∧ v ≤ p.x := by
  simp only [contains,rightOf,Segment.contains_after]
  tauto

theorem contains_above {r : Rectangle T} {v : T} {p : Point T} :
    (r.above v).contains p ↔ r.contains p ∧ p.y < v := by
  simp only [contains,above,Segment.contains_before]
  tauto

theorem contains_below {r : Rectangle T} {v : T} {p : Point T} :
    (r.below v).contains p ↔ r.contains p ∧ v ≤ p.y := by
  simp only [contains,below,Segment.contains_after]
  tauto

end Rectangle
end Scroom
