import Mathlib.Data.Set.Lattice
import Scroom.Rectangle

/-! Rectangles as sets of points. The operations that subtract coordinates are given here as they are
computed in `int`: without a value where a difference does not fit. -/
namespace Scroom
open MachineInt

namespace MachineInt

/-- An `int` can hold the value. -/
def Fits (n : ℤ) : Prop := intMin ≤ n ∧ n ≤ intMax

instance (n : ℤ) : Decidable (Fits n) := inferInstanceAs (Decidable (_ ∧ _))

theorem checked_of_fits {n : ℤ} (h : Fits n) : checked n = some n := if_pos h

theorem checked_of_not_fits {n : ℤ} (h : ¬ Fits n) : checked n = none := if_neg h

end MachineInt

namespace Segment

def beforeInt (s : Segment ℤ) (v : ℤ) : Option (Segment ℤ) :=
  if v < s.start then some empty
  else do
    if v < (← checked (s.start+s.size)) then makeInt s.start (← checked (v-s.start)) else return s

def afterInt (s : Segment ℤ) (v : ℤ) : Option (Segment ℤ) := do
  let stop ← checked (s.start+s.size)
  if stop < v then return empty
  else if s.start < v then makeInt v (← checked (stop-v))
  else return s

/-- `operator==` on `Segment<int>` -/
def equalsInt (s other : Segment ℤ) : Option Bool :=
  if s.isEmpty ≠ other.isEmpty then some false
  else if s.isEmpty then some true
  else do
    if IsZero.isZero (← checked (s.start-other.start)) then
      return IsZero.isZero (← checked (s.size-other.size))
    else return false

/-- A segment as the constructors leave it, with an end that an `int` can hold. -/
structure IsInt (s : Segment ℤ) : Prop where
  intMin_le : intMin ≤ s.start
  nonneg : 0 ≤ s.size
  size_le : s.size ≤ intMax
  end_le : s.start+s.size ≤ intMax

variable {s t u : Segment ℤ} {v p : ℤ}

theorem isEmpty_iff : s.isEmpty = true ↔ s.size = 0 := by
  simp [isEmpty,IsZero.isZero]

theorem isEmpty_eq_false_iff : s.isEmpty = false ↔ s.size ≠ 0 := by
  simp [isEmpty,IsZero.isZero]

theorem IsInt.checked_end (hs : s.IsInt) : checked (s.start+s.size) = some (s.start+s.size) := by
  obtain ⟨h₁,h₂,h₃,h₄⟩ := hs
  exact checked_eq_some.mpr ⟨⟨by omega,h₄⟩,rfl⟩

theorem IsInt.checked_getEnd (hs : s.IsInt) : checked s.getEnd = some s.getEnd := hs.checked_end

theorem makeInt_of_nonneg {start size : ℤ} (h : 0 ≤ size) : makeInt start size = some ⟨start,size⟩ := by
  rw [makeInt,if_neg (by omega),make_of_nonneg h]

theorem beforeInt_eq (hs : s.IsInt) : s.beforeInt v = some (s.before v) := by
  unfold beforeInt before
  simp only [hs.checked_end,Option.bind_eq_bind,Option.bind_some]
  obtain ⟨h₁,h₂,h₃,h₄⟩ := hs
  split
  · rfl
  · split
    · rw [checked_eq_some.mpr ⟨⟨by simp only [intMin]; omega,by omega⟩,rfl⟩,Option.bind_some,
        makeInt_of_nonneg (by omega),make_of_nonneg (by omega)]
    · rfl

theorem afterInt_eq (hs : s.IsInt) : s.afterInt v = some (s.after v) := by
  unfold afterInt after
  simp only [hs.checked_end,Option.bind_eq_bind,Option.bind_some]
  obtain ⟨h₁,h₂,h₃,h₄⟩ := hs
  split
  · rfl
  · split
    · rw [checked_eq_some.mpr ⟨⟨by simp only [intMin]; omega,by omega⟩,rfl⟩,Option.bind_some,
        makeInt_of_nonneg (by omega),make_of_nonneg (by omega)]
    · rfl

/-- The gap between two segments fits in an `int`. -/
def Meets (s t : Segment ℤ) : Prop := intMin ≤ min s.getEnd t.getEnd-max s.start t.start

theorem intersectionInt_eq (hs : s.IsInt) (ht : t.IsInt) (h : s.Meets t) :
    s.intersectionInt t = some (s.intersection t) := by
  have hsize : min s.getEnd t.getEnd-max s.start t.start ≤ intMax := by
    have h' := hs.size_le
    simp only [getEnd]
    omega
  simp only [intersectionInt,intersection,hs.checked_getEnd,ht.checked_getEnd,
    checked_eq_some.mpr ⟨⟨h,hsize⟩,rfl⟩,Option.bind_eq_bind,Option.bind_some]
  split
  · rename_i hn
    rw [makeInt_of_nonneg hn,make_of_nonneg hn]
  · rfl

theorem meets_of_intersectionInt (h : s.intersectionInt t = some u) : s.Meets t := by
  simp only [intersectionInt,Option.bind_eq_bind,Option.bind_eq_some_iff,checked_eq_some] at h
  obtain ⟨a,⟨-,rfl⟩,b,⟨-,rfl⟩,c,⟨hc,rfl⟩,-⟩ := h
  exact hc.1

theorem intersection_eq (s t : Segment ℤ) :
    (0 ≤ min s.getEnd t.getEnd-max s.start t.start ∧
      s.intersection t = ⟨max s.start t.start,min s.getEnd t.getEnd-max s.start t.start⟩) ∨
    (min s.getEnd t.getEnd-max s.start t.start < 0 ∧ s.intersection t = ⟨0,0⟩) := by
  simp only [intersection]
  split
  · rename_i h
    exact Or.inl ⟨h,make_of_nonneg h⟩
  · rename_i h
    exact Or.inr ⟨not_le.mp h,rfl⟩

theorem IsInt.intersection (hs : s.IsInt) (ht : t.IsInt) : (s.intersection t).IsInt := by
  obtain ⟨h₁,h₂,h₃,h₄⟩ := hs
  obtain ⟨k₁,k₂,k₃,k₄⟩ := ht
  rcases intersection_eq s t with ⟨h,he⟩ | ⟨h,he⟩
  · rw [he]
    simp only [getEnd] at h ⊢
    exact ⟨by dsimp only; omega,h,by dsimp only; omega,by dsimp only; omega⟩
  · rw [he]
    exact ⟨by decide,by decide,by decide,by decide⟩

theorem Meets.comm (h : s.Meets t) : t.Meets s := by
  simp only [Meets,max_comm,min_comm] at h ⊢
  exact h

theorem Meets.self (hs : s.IsInt) : s.Meets s := by
  have hn := hs.nonneg
  simp only [Meets,getEnd,intMin,min_self,max_self]
  omega

theorem Meets.intersection (hs : s.IsInt) (ht : t.IsInt) (hu : u.IsInt) (hsu : s.Meets u) (htu : t.Meets u) :
    (s.intersection t).Meets u := by
  have h := intersection_eq s t
  obtain ⟨h₁,h₂,h₃,h₄⟩ := hs
  obtain ⟨k₁,k₂,k₃,k₄⟩ := ht
  obtain ⟨l₁,l₂,l₃,l₄⟩ := hu
  simp only [Meets,getEnd,intMin,intMax] at *
  rcases h with ⟨h,he⟩ | ⟨h,he⟩ <;> rw [he] <;> dsimp only <;> omega

theorem IsInt.size_pos (hs : s.IsInt) (h : s.isEmpty = false) : 0 < s.size := by
  have hne := isEmpty_eq_false_iff.mp h
  have hw := hs.nonneg
  omega

theorem equalsInt_self (s : Segment ℤ) : s.equalsInt s = some true := by
  unfold equalsInt
  rw [sub_self,sub_self]
  split
  · contradiction
  · split <;> rfl

/-- Two segments of which neither is empty. -/
theorem equalsInt_eq (hs : s.IsInt) (ht : t.IsInt) (hse : s.isEmpty = false) (hte : t.isEmpty = false) :
    s.equalsInt t = if Fits (s.start-t.start) then some (decide (s = t)) else none := by
  have hsize : Fits (s.size-t.size) := by
    obtain ⟨-,h₂,h₃,-⟩ := hs
    obtain ⟨-,k₂,k₃,-⟩ := ht
    simp only [Fits,intMin,intMax] at *
    omega
  have hst : s = t ↔ s.start-t.start = 0 ∧ s.size-t.size = 0 := by
    obtain ⟨a,b⟩ := s
    obtain ⟨c,d⟩ := t
    rw [Segment.mk.injEq,sub_eq_zero,sub_eq_zero]
  by_cases h : Fits (s.start-t.start)
  · simp only [equalsInt,hse,hte,checked_of_fits h,checked_of_fits hsize,Option.bind_eq_bind,Option.bind_some,
      ne_eq,not_true_eq_false,if_false,Bool.false_eq_true,if_pos h,IsZero.isZero,decide_eq_true_eq,hst]
    by_cases h0 : s.start-t.start = 0 <;> simp [h0]
  · simp only [equalsInt,hse,hte,checked_of_not_fits h,Option.bind_eq_bind,Option.bind_none,ne_eq,
      not_true_eq_false,if_false,Bool.false_eq_true,if_neg h]

end Segment

section Points
variable {T : Type} [Ring T] [LinearOrder T]

/-- The half-open interval of a segment. -/
def Segment.points (s : Segment T) : Set T := Set.Ico s.start s.getEnd

def Rectangle.points (r : Rectangle T) : Set (Point T) :=
  {p | p.x ∈ r.horizontally.points ∧ p.y ∈ r.vertically.points}

theorem Segment.forall_lt_iff {s : Segment ℤ} (h : 0 < s.size) {a : ℤ} :
    (∀ x ∈ s.points, a < x) ↔ a < s.start := by
  constructor
  · intro hx
    exact hx _ ⟨le_refl _,by simp only [Segment.getEnd]; omega⟩
  · exact fun ha x hx => ha.trans_le hx.1

theorem Segment.forall_gt_iff {s : Segment ℤ} (h : 0 < s.size) {a : ℤ} :
    (∀ x ∈ s.points, x < a) ↔ s.getEnd ≤ a := by
  constructor
  · intro hx
    have hlast := hx (s.getEnd-1) ⟨by simp only [Segment.getEnd]; omega,by omega⟩
    omega
  · exact fun ha x hx => hx.2.trans_le ha

theorem Segment.mem_points {s : Segment T} {p : T} : p ∈ s.points ↔ s.contains p := Iff.rfl

theorem Rectangle.mem_points {r : Rectangle T} {p : Point T} : p ∈ r.points ↔ r.contains p := Iff.rfl

end Points

namespace Rectangle

def leftOfInt (r : Rectangle ℤ) (v : ℤ) : Option (Rectangle ℤ) := do
  return ⟨← r.horizontally.beforeInt v,r.vertically⟩

def rightOfInt (r : Rectangle ℤ) (v : ℤ) : Option (Rectangle ℤ) := do
  return ⟨← r.horizontally.afterInt v,r.vertically⟩

def aboveInt (r : Rectangle ℤ) (v : ℤ) : Option (Rectangle ℤ) := do
  return ⟨r.horizontally,← r.vertically.beforeInt v⟩

def belowInt (r : Rectangle ℤ) (v : ℤ) : Option (Rectangle ℤ) := do
  return ⟨r.horizontally,← r.vertically.afterInt v⟩

/-- `leftOf`, and below `rightOf`, `above` and `below`, with a rectangle for its argument. -/
def leftOfRectangle (r other : Rectangle ℤ) : Option (Rectangle ℤ) :=
  if other.isEmpty then some other
  else do
    return ⟨← r.horizontally.beforeInt other.horizontally.start,
      ← r.vertically.intersectionInt other.vertically⟩

def rightOfRectangle (r other : Rectangle ℤ) : Option (Rectangle ℤ) :=
  if other.isEmpty then some other
  else do
    return ⟨← r.horizontally.afterInt (← checked other.horizontally.getEnd),
      ← r.vertically.intersectionInt other.vertically⟩

def aboveRectangle (r other : Rectangle ℤ) : Option (Rectangle ℤ) :=
  if other.isEmpty then some other
  else do
    return ⟨← r.horizontally.intersectionInt other.horizontally,
      ← r.vertically.beforeInt other.vertically.start⟩

def belowRectangle (r other : Rectangle ℤ) : Option (Rectangle ℤ) :=
  if other.isEmpty then some other
  else do
    return ⟨← r.horizontally.intersectionInt other.horizontally,
      ← r.vertically.afterInt (← checked other.vertically.getEnd)⟩

/-- `operator==` on `Rectangle<int>` -/
def equalsInt (r other : Rectangle ℤ) : Option Bool :=
  if r.isEmpty ≠ other.isEmpty then some false
  else if r.isEmpty then some true
  else do
    if ← r.horizontally.equalsInt other.horizontally then r.vertically.equalsInt other.vertically
    else return false

def commutes (r s : Rectangle ℤ) : Option Bool := do
  (← r.intersectionInt s).equalsInt (← s.intersectionInt r)

def associates (r s t : Rectangle ℤ) : Option Bool := do
  (← (← r.intersectionInt s).intersectionInt t).equalsInt (← r.intersectionInt (← s.intersectionInt t))

def idempotent (r : Rectangle ℤ) : Option Bool := do (← r.intersectionInt r).equalsInt r

structure IsInt (r : Rectangle ℤ) : Prop where
  horizontally : r.horizontally.IsInt
  vertically : r.vertically.IsInt

/-- The result of an operation is there, and is this set of points. -/
def Denotes (result : Option (Rectangle ℤ)) (points : Set (Point ℤ)) : Prop :=
  ∃ r, result = some r ∧ r.points = points

/-- What the operations on two rectangles say about their points. -/
structure PointSets (r s : Rectangle ℤ) : Prop where
  contains : ∀ p, r.contains p ↔ p ∈ r.points
  intersects : r.intersects s = true ↔ (r.points ∩ s.points).Nonempty
  intersection : Denotes (r.intersectionInt s) (r.points ∩ s.points)
  leftOf : ∀ v, Denotes (r.leftOfInt v) {p | p ∈ r.points ∧ p.x < v}
  rightOf : ∀ v, Denotes (r.rightOfInt v) {p | p ∈ r.points ∧ v ≤ p.x}
  above : ∀ v, Denotes (r.aboveInt v) {p | p ∈ r.points ∧ p.y < v}
  below : ∀ v, Denotes (r.belowInt v) {p | p ∈ r.points ∧ v ≤ p.y}
  containsRectangle : s.isEmpty = false → (r.containsRectangle s ↔ s.points ⊆ r.points)
  leftOfRectangle : Denotes (r.leftOfRectangle s)
    {p | p ∈ r.points ∧ (∀ q ∈ s.points, p.x < q.x) ∧ ∃ q ∈ s.points, q.y = p.y}
  rightOfRectangle : Denotes (r.rightOfRectangle s)
    {p | p ∈ r.points ∧ (∀ q ∈ s.points, q.x < p.x) ∧ ∃ q ∈ s.points, q.y = p.y}
  aboveRectangle : Denotes (r.aboveRectangle s)
    {p | p ∈ r.points ∧ (∀ q ∈ s.points, p.y < q.y) ∧ ∃ q ∈ s.points, q.x = p.x}
  belowRectangle : Denotes (r.belowRectangle s)
    {p | p ∈ r.points ∧ (∀ q ∈ s.points, q.y < p.y) ∧ ∃ q ∈ s.points, q.x = p.x}
  commutes : r.commutes s = some true
  idempotent : r.idempotent = some true
  equals : ∃ b, r.equalsInt s = some b ∧ (b = true ↔ r.points = s.points)

/-- The differences of the edges of two rectangles that the operations compute fit in an `int`. -/
structure EdgesFit (r s : Rectangle ℤ) : Prop where
  horizontally : r.horizontally.Meets s.horizontally
  vertically : r.vertically.Meets s.vertically
  left : r.isEmpty = false → s.isEmpty = false → Fits (r.getLeft-s.getLeft)
  top : r.isEmpty = false → s.isEmpty = false → r.horizontally = s.horizontally → Fits (r.getTop-s.getTop)

variable {r s t : Rectangle ℤ}

theorem IsInt.intersection (hr : r.IsInt) (hs : s.IsInt) : (r.intersection s).IsInt :=
  ⟨hr.horizontally.intersection hs.horizontally,hr.vertically.intersection hs.vertically⟩

theorem intersectionInt_eq (hr : r.IsInt) (hs : s.IsInt) (hh : r.horizontally.Meets s.horizontally)
    (hv : r.vertically.Meets s.vertically) : r.intersectionInt s = some (r.intersection s) := by
  rw [intersectionInt,Segment.intersectionInt_eq hr.horizontally hs.horizontally hh,
    Segment.intersectionInt_eq hr.vertically hs.vertically hv]
  rfl

theorem points_intersection : (r.intersection s).points = r.points ∩ s.points :=
  Set.ext fun _ => contains_intersection

theorem isEmpty_iff : r.isEmpty = true ↔ r.horizontally.size = 0 ∨ r.vertically.size = 0 := by
  rw [isEmpty,Bool.or_eq_true,Segment.isEmpty_iff,Segment.isEmpty_iff]

theorem isEmpty_eq_false_iff :
    r.isEmpty = false ↔ r.horizontally.isEmpty = false ∧ r.vertically.isEmpty = false :=
  Bool.or_eq_false_iff

theorem IsInt.points_eq_empty_iff (hr : r.IsInt) : r.points = ∅ ↔ r.isEmpty = true := by
  have hw := hr.horizontally.nonneg
  have hh := hr.vertically.nonneg
  rw [isEmpty_iff,Set.eq_empty_iff_forall_notMem]
  constructor
  · intro h
    by_contra hne
    refine h ⟨r.horizontally.start,r.vertically.start⟩ ⟨⟨le_refl _,?_⟩,le_refl _,?_⟩
    · simp only [Segment.getEnd]
      omega
    · simp only [Segment.getEnd]
      omega
  · rintro h p ⟨⟨h₁,h₂⟩,h₃,h₄⟩
    simp only [Segment.getEnd] at h₂ h₄
    omega

theorem IsInt.points_nonempty_iff (hr : r.IsInt) : r.points.Nonempty ↔ r.isEmpty = false := by
  rw [Set.nonempty_iff_ne_empty,ne_eq,hr.points_eq_empty_iff,Bool.not_eq_true]

theorem IsInt.size_pos (hr : r.IsInt) (h : r.isEmpty = false) :
    0 < r.horizontally.size ∧ 0 < r.vertically.size := by
  have hne : ¬ (r.horizontally.size = 0 ∨ r.vertically.size = 0) := by
    rw [← isEmpty_iff,h]
    decide
  have hw := hr.horizontally.nonneg
  have hh := hr.vertically.nonneg
  omega

/-- What all points of a rectangle satisfy in one direction. -/
theorem forall_x_iff (h : 0 < r.vertically.size) {P : ℤ → Prop} :
    (∀ q ∈ r.points, P q.x) ↔ ∀ x ∈ r.horizontally.points, P x := by
  have hy : r.vertically.start ∈ r.vertically.points := ⟨le_refl _,by simp only [Segment.getEnd]; omega⟩
  exact ⟨fun hq x hx => hq ⟨x,_⟩ ⟨hx,hy⟩,fun hx q hq => hx q.x hq.1⟩

theorem forall_y_iff (h : 0 < r.horizontally.size) {P : ℤ → Prop} :
    (∀ q ∈ r.points, P q.y) ↔ ∀ y ∈ r.vertically.points, P y := by
  have hx : r.horizontally.start ∈ r.horizontally.points := ⟨le_refl _,by simp only [Segment.getEnd]; omega⟩
  exact ⟨fun hq y hy => hq ⟨_,y⟩ ⟨hx,hy⟩,fun hy q hq => hy q.y hq.2⟩

/-- The extent of a rectangle in one direction. -/
theorem exists_y_iff (h : 0 < r.horizontally.size) {y : ℤ} :
    (∃ q ∈ r.points, q.y = y) ↔ y ∈ r.vertically.points := by
  have hx : r.horizontally.start ∈ r.horizontally.points := ⟨le_refl _,by simp only [Segment.getEnd]; omega⟩
  constructor
  · rintro ⟨q,hq,rfl⟩
    exact hq.2
  · exact fun hy => ⟨⟨_,y⟩,⟨hx,hy⟩,rfl⟩

theorem exists_x_iff (h : 0 < r.vertically.size) {x : ℤ} :
    (∃ q ∈ r.points, q.x = x) ↔ x ∈ r.horizontally.points := by
  have hy : r.vertically.start ∈ r.vertically.points := ⟨le_refl _,by simp only [Segment.getEnd]; omega⟩
  constructor
  · rintro ⟨q,hq,rfl⟩
    exact hq.1
  · exact fun hx => ⟨⟨x,_⟩,⟨hx,hy⟩,rfl⟩

/-- The four sides of a rectangle are handled alike: an empty one has no sides, and beside another one lie
the points that the one direction cuts off and the other one shares. -/
theorem side_denotes {result : Option (Rectangle ℤ)} {P Q : Point ℤ → Prop} (hs : s.IsInt)
    (hempty : s.isEmpty = true → result = some s) (hQ : ∀ p, Q p → s.points.Nonempty)
    (hresult : s.isEmpty = false → ∃ i, result = some i ∧ ∀ p, i.contains p ↔ r.contains p ∧ P p ∧ Q p) :
    Denotes result {p | p ∈ r.points ∧ P p ∧ Q p} := by
  cases he : s.isEmpty with
  | true =>
    refine ⟨s,hempty he,?_⟩
    rw [hs.points_eq_empty_iff.mpr he]
    refine (Set.eq_empty_iff_forall_notMem.mpr fun p hp => ?_).symm
    exact absurd (hQ p hp.2.2) (by rw [hs.points_nonempty_iff,he]; decide)
  | false =>
    obtain ⟨i,hi,hp⟩ := hresult he
    exact ⟨i,hi,Set.ext hp⟩

theorem leftOfRectangle_denotes (hr : r.IsInt) (hs : s.IsInt) (h : r.vertically.Meets s.vertically) :
    Denotes (r.leftOfRectangle s)
      {p | p ∈ r.points ∧ (∀ q ∈ s.points, p.x < q.x) ∧ ∃ q ∈ s.points, q.y = p.y} := by
  refine side_denotes hs (if_pos ·) (fun p ⟨q,hq,_⟩ => ⟨q,hq⟩) fun he => ?_
  obtain ⟨hw,hh⟩ := hs.size_pos he
  rw [leftOfRectangle,he,Segment.beforeInt_eq hr.horizontally,
    Segment.intersectionInt_eq hr.vertically hs.vertically h]
  refine ⟨_,rfl,fun p => ?_⟩
  rw [forall_x_iff hh,exists_y_iff hw,Segment.forall_lt_iff hw]
  simp only [contains,Segment.contains_before,Segment.contains_intersection,Segment.mem_points]
  tauto

theorem rightOfRectangle_denotes (hr : r.IsInt) (hs : s.IsInt) (h : r.vertically.Meets s.vertically) :
    Denotes (r.rightOfRectangle s)
      {p | p ∈ r.points ∧ (∀ q ∈ s.points, q.x < p.x) ∧ ∃ q ∈ s.points, q.y = p.y} := by
  refine side_denotes hs (if_pos ·) (fun p ⟨q,hq,_⟩ => ⟨q,hq⟩) fun he => ?_
  obtain ⟨hw,hh⟩ := hs.size_pos he
  rw [rightOfRectangle,he,hs.horizontally.checked_getEnd,
    Segment.intersectionInt_eq hr.vertically hs.vertically h]
  simp only [Option.bind_eq_bind,Option.bind_some,Segment.afterInt_eq hr.horizontally]
  refine ⟨_,rfl,fun p => ?_⟩
  rw [forall_x_iff (P := (· < p.x)) hh,exists_y_iff hw,Segment.forall_gt_iff hw]
  simp only [contains,Segment.contains_after,Segment.contains_intersection,Segment.mem_points]
  tauto

theorem aboveRectangle_denotes (hr : r.IsInt) (hs : s.IsInt) (h : r.horizontally.Meets s.horizontally) :
    Denotes (r.aboveRectangle s)
      {p | p ∈ r.points ∧ (∀ q ∈ s.points, p.y < q.y) ∧ ∃ q ∈ s.points, q.x = p.x} := by
  refine side_denotes hs (if_pos ·) (fun p ⟨q,hq,_⟩ => ⟨q,hq⟩) fun he => ?_
  obtain ⟨hw,hh⟩ := hs.size_pos he
  rw [aboveRectangle,he,Segment.beforeInt_eq hr.vertically,
    Segment.intersectionInt_eq hr.horizontally hs.horizontally h]
  refine ⟨_,rfl,fun p => ?_⟩
  rw [forall_y_iff hw,exists_x_iff hh,Segment.forall_lt_iff hh]
  simp only [contains,Segment.contains_before,Segment.contains_intersection,Segment.mem_points]
  tauto

theorem belowRectangle_denotes (hr : r.IsInt) (hs : s.IsInt) (h : r.horizontally.Meets s.horizontally) :
    Denotes (r.belowRectangle s)
      {p | p ∈ r.points ∧ (∀ q ∈ s.points, q.y < p.y) ∧ ∃ q ∈ s.points, q.x = p.x} := by
  refine side_denotes hs (if_pos ·) (fun p ⟨q,hq,_⟩ => ⟨q,hq⟩) fun he => ?_
  obtain ⟨hw,hh⟩ := hs.size_pos he
  rw [belowRectangle,he,hs.vertically.checked_getEnd,
    Segment.intersectionInt_eq hr.horizontally hs.horizontally h]
  simp only [Option.bind_eq_bind,Option.bind_some,Segment.afterInt_eq hr.vertically]
  refine ⟨_,rfl,fun p => ?_⟩
  rw [forall_y_iff (P := (· < p.y)) hw,exists_x_iff hh,Segment.forall_gt_iff hh]
  simp only [contains,Segment.contains_after,Segment.contains_intersection,Segment.mem_points]
  tauto

theorem equalsInt_self (r : Rectangle ℤ) : r.equalsInt r = some true := by
  unfold equalsInt
  rw [Segment.equalsInt_self,Segment.equalsInt_self]
  split
  · contradiction
  · split <;> rfl

/-- Two rectangles of which neither is empty have the same points only if they are the same. -/
theorem IsInt.points_eq_iff (hr : r.IsInt) (hs : s.IsInt) (hre : r.isEmpty = false) (hse : s.isEmpty = false) :
    r.points = s.points ↔ r = s := by
  refine ⟨fun h => ?_,congrArg points⟩
  obtain ⟨hw,hh⟩ := hr.size_pos hre
  obtain ⟨hw',hh'⟩ := hs.size_pos hse
  obtain ⟨⟨x,w⟩,y,z⟩ := r
  obtain ⟨⟨x',w'⟩,y',z'⟩ := s
  have hfirst := (Set.ext_iff.mp h ⟨x,y⟩).mp
  have hlast := (Set.ext_iff.mp h ⟨x+w-1,y+z-1⟩).mp
  have hfirst' := (Set.ext_iff.mp h ⟨x',y'⟩).mpr
  have hlast' := (Set.ext_iff.mp h ⟨x'+w'-1,y'+z'-1⟩).mpr
  simp only [mem_points,contains,Segment.contains] at *
  simp only [Rectangle.mk.injEq,Segment.mk.injEq]
  omega

/-- Two rectangles of which neither is empty. -/
theorem equalsInt_eq (hr : r.IsInt) (hs : s.IsInt) (hre : r.isEmpty = false) (hse : s.isEmpty = false) :
    r.equalsInt s = if Fits (r.getLeft-s.getLeft) then
      if r.horizontally = s.horizontally then
        if Fits (r.getTop-s.getTop) then some (decide (r.vertically = s.vertically)) else none
      else some false
    else none := by
  obtain ⟨hrh,hrv⟩ := isEmpty_eq_false_iff.mp hre
  obtain ⟨hsh,hsv⟩ := isEmpty_eq_false_iff.mp hse
  simp only [equalsInt,hre,hse,ne_eq,not_true_eq_false,if_false,Bool.false_eq_true,
    Segment.equalsInt_eq hr.horizontally hs.horizontally hrh hsh,
    Segment.equalsInt_eq hr.vertically hs.vertically hrv hsv]
  show Option.bind (if Fits (r.getLeft-s.getLeft) then _ else none) _ = _
  split
  · by_cases h : r.horizontally = s.horizontally
    · simp only [h,decide_true,Option.bind_some,if_true]
      rfl
    · simp [h]
  · rfl

/-- `==` says that two rectangles have the same points, if it can compute the differences it needs. -/
theorem equalsInt_spec (hr : r.IsInt) (hs : s.IsInt) :
    (∃ b, r.equalsInt s = some b ∧ (b = true ↔ r.points = s.points)) ↔
      (r.isEmpty = false → s.isEmpty = false → Fits (r.getLeft-s.getLeft)) ∧
        (r.isEmpty = false → s.isEmpty = false → r.horizontally = s.horizontally →
          Fits (r.getTop-s.getTop)) := by
  cases hre : r.isEmpty with
  | true =>
    simp only [Bool.true_eq_false,false_imp_iff,and_self,iff_true]
    refine ⟨s.isEmpty,?_,?_⟩
    · cases hse : s.isEmpty <;> simp [equalsInt,hre,hse]
    · rw [hr.points_eq_empty_iff.mpr hre,eq_comm (a := ∅),hs.points_eq_empty_iff]
  | false =>
    cases hse : s.isEmpty with
    | true =>
      simp only [Bool.true_eq_false,false_imp_iff,implies_true,and_self,iff_true]
      refine ⟨false,by simp [equalsInt,hre,hse],?_⟩
      rw [hs.points_eq_empty_iff.mpr hse,hr.points_eq_empty_iff,hre]
    | false =>
      rw [equalsInt_eq hr hs hre hse,hr.points_eq_iff hs hre hse]
      obtain ⟨a,b⟩ := r
      obtain ⟨c,d⟩ := s
      simp only [Rectangle.mk.injEq,forall_const]
      split
      · split
        · split
          · simp_all
          · simp_all
        · simp_all
      · simp_all

theorem equalsInt_of_points_eq (hr : r.IsInt) (hs : s.IsInt) (h : r.points = s.points) :
    r.equalsInt s = some true := by
  cases hre : r.isEmpty with
  | true =>
    have hse : s.isEmpty = true := by rw [← hs.points_eq_empty_iff,← h,hr.points_eq_empty_iff,hre]
    simp [equalsInt,hre,hse]
  | false =>
    have hse : s.isEmpty = false := by rw [← hs.points_nonempty_iff,← h,hr.points_nonempty_iff,hre]
    rw [(hr.points_eq_iff hs hre hse).mp h]
    exact equalsInt_self s

theorem intersects_iff (hr : r.IsInt) (hs : s.IsInt) :
    r.intersects s = true ↔ (r.points ∩ s.points).Nonempty := by
  simp only [intersects,Segment.intersects,Bool.and_eq_true,decide_eq_true_eq,Bool.not_eq_true',
    Segment.isEmpty_eq_false_iff]
  simp only [Segment.getEnd]
  have hw := hr.horizontally.nonneg
  have hh := hr.vertically.nonneg
  have hw' := hs.horizontally.nonneg
  have hh' := hs.vertically.nonneg
  constructor
  · rintro ⟨⟨⟨⟨h₁,h₂⟩,h₃⟩,h₄⟩,⟨⟨h₅,h₆⟩,h₇⟩,h₈⟩
    refine ⟨⟨max r.horizontally.start s.horizontally.start,max r.vertically.start s.vertically.start⟩,?_,?_⟩
    · rw [mem_points]
      simp only [contains,Segment.contains]
      omega
    · rw [mem_points]
      simp only [contains,Segment.contains]
      omega
  · rintro ⟨p,hp,hq⟩
    rw [mem_points] at hp hq
    simp only [contains,Segment.contains] at hp hq
    omega

theorem containsRectangle_iff (hs : s.IsInt) (h : s.isEmpty = false) :
    r.containsRectangle s ↔ s.points ⊆ r.points := by
  obtain ⟨hw,hh⟩ := hs.size_pos h
  constructor
  · rintro ⟨⟨h₁,h₂⟩,h₃,h₄⟩ p ⟨⟨h₅,h₆⟩,h₇,h₈⟩
    exact ⟨⟨h₁.trans h₅,h₆.trans_le h₂⟩,h₃.trans h₇,h₈.trans_le h₄⟩
  · intro hsub
    have hfirst := @hsub ⟨s.horizontally.start,s.vertically.start⟩
    have hlast := @hsub ⟨s.horizontally.getEnd-1,s.vertically.getEnd-1⟩
    simp only [mem_points,contains,Segment.contains,containsRectangle,Segment.containsSegment,
      Segment.getEnd] at *
    omega

/-- The operations along one coordinate always have a result. -/
theorem cut_denotes (hr : r.IsInt) (v : ℤ) :
    (Denotes (r.leftOfInt v) {p | p ∈ r.points ∧ p.x < v} ∧
      Denotes (r.rightOfInt v) {p | p ∈ r.points ∧ v ≤ p.x}) ∧
    Denotes (r.aboveInt v) {p | p ∈ r.points ∧ p.y < v} ∧
      Denotes (r.belowInt v) {p | p ∈ r.points ∧ v ≤ p.y} := by
  refine ⟨⟨⟨r.leftOf v,?_,Set.ext fun _ => contains_leftOf⟩,⟨r.rightOf v,?_,Set.ext fun _ => contains_rightOf⟩⟩,
    ⟨r.above v,?_,Set.ext fun _ => contains_above⟩,⟨r.below v,?_,Set.ext fun _ => contains_below⟩⟩
  · rw [leftOfInt,Segment.beforeInt_eq hr.horizontally]
    rfl
  · rw [rightOfInt,Segment.afterInt_eq hr.horizontally]
    rfl
  · rw [aboveInt,Segment.beforeInt_eq hr.vertically]
    rfl
  · rw [belowInt,Segment.afterInt_eq hr.vertically]
    rfl

theorem EdgesFit.pointSets (hr : r.IsInt) (hs : s.IsInt) (h : EdgesFit r s) : PointSets r s where
  contains _ := Iff.rfl
  intersects := intersects_iff hr hs
  intersection := ⟨_,intersectionInt_eq hr hs h.horizontally h.vertically,points_intersection⟩
  leftOf v := (cut_denotes hr v).1.1
  rightOf v := (cut_denotes hr v).1.2
  above v := (cut_denotes hr v).2.1
  below v := (cut_denotes hr v).2.2
  containsRectangle := containsRectangle_iff hs
  leftOfRectangle := leftOfRectangle_denotes hr hs h.vertically
  rightOfRectangle := rightOfRectangle_denotes hr hs h.vertically
  aboveRectangle := aboveRectangle_denotes hr hs h.horizontally
  belowRectangle := belowRectangle_denotes hr hs h.horizontally
  commutes := by
    rw [Rectangle.commutes,intersectionInt_eq hr hs h.horizontally h.vertically,
      intersectionInt_eq hs hr h.horizontally.comm h.vertically.comm]
    refine equalsInt_of_points_eq (hr.intersection hs) (hs.intersection hr) ?_
    rw [points_intersection,points_intersection,Set.inter_comm]
  idempotent := by
    rw [Rectangle.idempotent,intersectionInt_eq hr hr (.self hr.horizontally) (.self hr.vertically)]
    refine equalsInt_of_points_eq (hr.intersection hr) hr ?_
    rw [points_intersection,Set.inter_self]
  equals := (equalsInt_spec hr hs).mpr ⟨h.left,h.top⟩

theorem PointSets.edgesFit (hr : r.IsInt) (hs : s.IsInt) (h : PointSets r s) : EdgesFit r s := by
  obtain ⟨i,hi,-⟩ := h.intersection
  simp only [intersectionInt,Option.bind_eq_bind,Option.bind_eq_some_iff] at hi
  obtain ⟨a,ha,b,hb,-⟩ := hi
  obtain ⟨hleft,htop⟩ := (equalsInt_spec hr hs).mp h.equals
  exact ⟨Segment.meets_of_intersectionInt ha,Segment.meets_of_intersectionInt hb,hleft,htop⟩

theorem associates_of_edgesFit (hr : r.IsInt) (hs : s.IsInt) (ht : t.IsInt) (hrs : EdgesFit r s)
    (hst : EdgesFit s t) (hrt : EdgesFit r t) : r.associates s t = some true := by
  have hl := intersectionInt_eq (hr.intersection hs) ht
    (.intersection hr.horizontally hs.horizontally ht.horizontally hrt.horizontally hst.horizontally)
    (.intersection hr.vertically hs.vertically ht.vertically hrt.vertically hst.vertically)
  have hright := intersectionInt_eq hr (hs.intersection ht)
    (Segment.Meets.intersection hs.horizontally ht.horizontally hr.horizontally
      hrs.horizontally.comm hrt.horizontally.comm).comm
    (Segment.Meets.intersection hs.vertically ht.vertically hr.vertically
      hrs.vertically.comm hrt.vertically.comm).comm
  simp only [associates,intersectionInt_eq hr hs hrs.horizontally hrs.vertically,
    intersectionInt_eq hs ht hst.horizontally hst.vertically,hl,hright,Option.bind_eq_bind,Option.bind_some]
  refine equalsInt_of_points_eq ((hr.intersection hs).intersection ht) (hr.intersection (hs.intersection ht)) ?_
  simp only [points_intersection,Set.inter_assoc]

/-- Rectangles in the middle half of the coordinates are never too far apart. -/
theorem EdgesFit.of_small {r s : Rectangle ℤ} (hr : r.IsInt) (hs : s.IsInt)
    (h : ∀ i ∈ [r,s], (-2^30 ≤ i.getLeft ∧ i.getRight < 2^30) ∧ -2^30 ≤ i.getTop ∧ i.getBottom < 2^30) :
    EdgesFit r s := by
  obtain ⟨⟨h₁,h₂⟩,h₃,h₄⟩ := h r (by simp)
  obtain ⟨⟨k₁,k₂⟩,k₃,k₄⟩ := h s (by simp)
  obtain ⟨⟨-,hw,-,-⟩,-,hh,-,-⟩ := hr
  obtain ⟨⟨-,hw',-,-⟩,-,hh',-,-⟩ := hs
  simp only [getLeft,getRight,getTop,getBottom,Segment.getEnd] at *
  refine ⟨?_,?_,fun _ _ => ?_,fun _ _ _ => ?_⟩ <;>
    simp only [Segment.Meets,Segment.getEnd,Fits,intMin,intMax,getLeft,getTop] <;> omega

end Rectangle

/-- The pieces around a bitmap. -/
def border (requestedPresentationArea actualPresentationArea : Rectangle ℚ) : List (Rectangle ℚ) :=
  [requestedPresentationArea.leftOf actualPresentationArea.getLeft,
    requestedPresentationArea.rightOf actualPresentationArea.getRight,
    requestedPresentationArea.above actualPresentationArea.getTop,
    requestedPresentationArea.below actualPresentationArea.getBottom]

/-- The rectangles of the window that get the colour for what is out of bounds. -/
def drawOutOfBoundsWithoutBackground (requestedPresentationArea actualPresentationArea : Rectangle ℚ)
    (pixelSize : ℚ) : List (Rectangle ℚ) :=
  ((border requestedPresentationArea actualPresentationArea).filter fun r => !r.isEmpty).map fun r =>
    (r.sub requestedPresentationArea.getTopLeft).mul pixelSize

theorem mem_border {requested actual : Rectangle ℚ} {p : Point ℚ} :
    (∃ r ∈ border requested actual, p ∈ r.points) ↔ p ∈ requested.points ∧ p ∉ actual.points := by
  simp only [border,List.mem_cons,List.not_mem_nil,or_false,exists_eq_or_imp,exists_eq_left,
    Rectangle.mem_points,Rectangle.contains_leftOf,Rectangle.contains_rightOf,Rectangle.contains_above,
    Rectangle.contains_below]
  have hout : ¬ actual.contains p ↔
      p.x < actual.getLeft ∨ actual.getRight ≤ p.x ∨ p.y < actual.getTop ∨ actual.getBottom ≤ p.y := by
    simp only [Rectangle.contains,Segment.contains,Rectangle.getLeft,Rectangle.getRight,Rectangle.getTop,
      Rectangle.getBottom,Segment.getEnd,not_and_or,not_le,not_lt]
    tauto
  rw [hout]
  tauto

theorem border_covers (requested actual : Rectangle ℚ) :
    ⋃ r ∈ border requested actual, r.points = requested.points \ actual.points := by
  ext p
  rw [Set.mem_iUnion₂,Set.mem_sdiff,← mem_border]
  simp only [exists_prop]

section WholePixels
variable {s : Segment ℤ}

theorem Segment.ofInt_make (start size : ℤ) : (ofInt (make start size) : Segment ℚ) = make ↑start ↑size := by
  by_cases h : size < 0
  · have hq : (size : ℚ) < 0 := by exact_mod_cast h
    rw [make,make,if_pos h,if_pos hq]
    simp [ofInt]
  · have hq : ¬ (size : ℚ) < 0 := by exact_mod_cast h
    rw [make,make,if_neg h,if_neg hq]
    rfl

theorem Segment.ofInt_before (s : Segment ℤ) (v : ℤ) : (ofInt s : Segment ℚ).before v = ofInt (s.before v) := by
  have hstart : (v:ℚ) < (ofInt s : Segment ℚ).start ↔ v < s.start := Int.cast_lt
  have hend : (v:ℚ) < (ofInt s : Segment ℚ).start+(ofInt s : Segment ℚ).size ↔ v < s.start+s.size := by
    simp only [ofInt]
    exact_mod_cast Iff.rfl
  simp only [before,hstart,hend]
  split
  · simp [ofInt,empty]
  · split
    · rw [ofInt_make]
      simp [ofInt]
    · rfl

theorem Segment.ofInt_after (s : Segment ℤ) (v : ℤ) : (ofInt s : Segment ℚ).after v = ofInt (s.after v) := by
  have hstart : (ofInt s : Segment ℚ).start < v ↔ s.start < v := Int.cast_lt
  have hend : (ofInt s : Segment ℚ).start+(ofInt s : Segment ℚ).size < v ↔ s.start+s.size < v := by
    simp only [ofInt]
    exact_mod_cast Iff.rfl
  simp only [after,hstart,hend]
  split
  · simp [ofInt,empty]
  · split
    · rw [ofInt_make]
      simp [ofInt]
    · rfl

/-- A segment between whole coordinates is only empty if it has no points. -/
theorem Segment.points_of_isEmpty (h : (ofInt s : Segment ℚ).isEmpty = true) :
    (ofInt s : Segment ℚ).points = ∅ := by
  have hsize : |(s.size:ℚ)| < 1 := by
    have h' : |(s.size:ℚ)| < epsilon := of_decide_eq_true h
    exact h'.trans (by norm_num [epsilon])
  have h0 : s.size = 0 := Int.abs_lt_one_iff.mp (by exact_mod_cast hsize)
  simp [points,getEnd,ofInt,h0]

/-- What is cut off a rectangle between whole coordinates lies between whole coordinates. -/
theorem mem_border_ofInt {requested actual : Rectangle ℤ} {r : Rectangle ℚ}
    (hr : r ∈ border (.ofInt requested) (.ofInt actual)) : ∃ i : Rectangle ℤ, r = .ofInt i := by
  have hend : ∀ s : Segment ℤ, (Segment.ofInt s : Segment ℚ).getEnd = (s.getEnd:ℤ) := by
    intro s
    simp [Segment.getEnd,Segment.ofInt]
  simp only [border,List.mem_cons,List.not_mem_nil,or_false] at hr
  rcases hr with rfl | rfl | rfl | rfl
  · exact ⟨requested.leftOf actual.getLeft,congrArg (Rectangle.mk · _) (Segment.ofInt_before _ _)⟩
  · refine ⟨requested.rightOf actual.getRight,congrArg (Rectangle.mk · _) ?_⟩
    show (Segment.ofInt _ : Segment ℚ).after (Segment.ofInt actual.horizontally).getEnd = _
    rw [hend]
    exact Segment.ofInt_after _ _
  · exact ⟨requested.above actual.getTop,congrArg (Rectangle.mk _) (Segment.ofInt_before _ _)⟩
  · refine ⟨requested.below actual.getBottom,congrArg (Rectangle.mk _) ?_⟩
    show (Segment.ofInt _ : Segment ℚ).after (Segment.ofInt actual.vertically).getEnd = _
    rw [hend]
    exact Segment.ofInt_after _ _

end WholePixels

/-- Between areas of whole pixels no piece with points is too thin to be drawn. -/
theorem border_drawn {requested actual : Rectangle ℤ} {r : Rectangle ℚ}
    (hr : r ∈ border (.ofInt requested) (.ofInt actual)) (h : r.isEmpty = true) : r.points = ∅ := by
  obtain ⟨i,rfl⟩ := mem_border_ofInt hr
  refine Set.eq_empty_iff_forall_notMem.mpr fun p hp => ?_
  rw [Rectangle.isEmpty,Bool.or_eq_true] at h
  rcases h with h | h
  · have hx : p.x ∈ (Segment.ofInt i.horizontally : Segment ℚ).points := hp.1
    rw [Segment.points_of_isEmpty h] at hx
    exact hx
  · have hy : p.y ∈ (Segment.ofInt i.vertically : Segment ℚ).points := hp.2
    rw [Segment.points_of_isEmpty h] at hy
    exact hy

/-- Every point outside the bitmap gets the colour. -/
theorem outOfBounds_drawn {requested actual : Rectangle ℤ} {pixelSize : ℚ} {p : Point ℚ} (hsize : 0 < pixelSize)
    (hin : p ∈ (.ofInt requested : Rectangle ℚ).points) (hout : p ∉ (.ofInt actual : Rectangle ℚ).points) :
    ∃ r ∈ drawOutOfBoundsWithoutBackground (.ofInt requested) (.ofInt actual) pixelSize,
      r.contains ((p-(Rectangle.ofInt requested).getTopLeft).mul pixelSize) := by
  obtain ⟨r,hr,hp⟩ := mem_border.mpr ⟨hin,hout⟩
  have hdrawn : r.isEmpty = false := by
    by_contra h
    rw [border_drawn hr (Bool.not_eq_false _ ▸ h)] at hp
    exact hp
  refine ⟨_,List.mem_map_of_mem (List.mem_filter.mpr ⟨hr,by rw [hdrawn]; rfl⟩),?_⟩
  have hseg : ∀ (s : Segment ℚ) (c x : ℚ), s.contains x → ((s.sub c).mul pixelSize).contains ((x-c)*pixelSize) := by
    rintro s c x ⟨hl,hr⟩
    refine ⟨mul_le_mul_of_nonneg_right (sub_le_sub_right hl c) hsize.le,?_⟩
    calc (x-c)*pixelSize < (s.start+s.size-c)*pixelSize := mul_lt_mul_of_pos_right (sub_lt_sub_right hr c) hsize
      _ = (s.start-c)*pixelSize+s.size*pixelSize := by ring
  exact ⟨hseg _ _ _ hp.1,hseg _ _ _ hp.2⟩

/-- The rectangles of `int`s as the constructors build them. -/
def IntRectangle := {r : Rectangle ℤ // r.IsInt}

/-- Rectangles of a set behave as sets of points exactly when the edges of every two of them are close
enough for the differences that the operations compute. -/
theorem pointSets_iff_edgesFit (S : Set IntRectangle) :
    ((∀ r ∈ S, ∀ s ∈ S, r.1.PointSets s.1) ∧
      (∀ r ∈ S, ∀ s ∈ S, ∀ t ∈ S, r.1.associates s.1 t.1 = some true) ∧
      ∀ requested actual, ⋃ r ∈ border requested actual, r.points = requested.points \ actual.points) ↔
    ∀ r ∈ S, ∀ s ∈ S, r.1.EdgesFit s.1 := by
  constructor
  · rintro ⟨h,-⟩ r hr s hs
    exact (h r hr s hs).edgesFit r.2 s.2
  · intro h
    refine ⟨fun r hr s hs => (h r hr s hs).pointSets r.2 s.2,fun r hr s hs t ht => ?_,border_covers⟩
    exact Rectangle.associates_of_edgesFit r.2 s.2 t.2 (h r hr s hs) (h s hs t ht) (h r hr t ht)

/-- The first and the last column of pixels that have a right edge in `int`. -/
def firstColumn : Rectangle ℤ := ⟨⟨-2147483648,1⟩,⟨0,1⟩⟩
def lastColumn : Rectangle ℤ := ⟨⟨2147483646,1⟩,⟨0,1⟩⟩

/-- `intersects` sees that they are disjoint, `intersection` overflows. -/
theorem lastColumn_overflows : firstColumn.IsInt ∧ lastColumn.IsInt ∧
    firstColumn.intersects lastColumn = false ∧ firstColumn.intersectionInt lastColumn = none ∧
    ¬ firstColumn.PointSets lastColumn := by
  have hnone : firstColumn.intersectionInt lastColumn = none := by decide
  refine ⟨⟨⟨by decide,by decide,by decide,by decide⟩,by decide,by decide,by decide,by decide⟩,
    ⟨⟨by decide,by decide,by decide,by decide⟩,by decide,by decide,by decide,by decide⟩,by decide,hnone,?_⟩
  intro h
  obtain ⟨i,hi,-⟩ := h.intersection
  rw [hnone] at hi
  contradiction

end Scroom
