import Scroom.MachineInt

/-! Colours with exact components, their mixing, and colormaps. -/
namespace Scroom

structure Color where
  alpha : ℚ := 1
  red : ℚ := 0
  green : ℚ := 0
  blue : ℚ := 0
  deriving DecidableEq

/-- `uint8_t(255 * d)` for a `d` between 0 and 1. -/
def byteFromDouble (d : ℚ) : ℕ := (MachineInt.trunc (255*d)%256).toNat

namespace Color

/-- The constructor of a gray value. -/
def gray (g : ℚ) : Color := { red := g, green := g, blue := g }

def add (c d : Color) : Color := ⟨c.alpha+d.alpha,c.red+d.red,c.green+d.green,c.blue+d.blue⟩

def mul (c : Color) (d : ℚ) : Color := ⟨c.alpha*d,c.red*d,c.green*d,c.blue*d⟩

/-- `setAlpha`. The components are multiplied, too. -/
def setAlpha (c : Color) (alpha : ℚ) : Color := c.mul alpha

def mix (a b : Color) (alpha : ℚ) : Color := (a.mul alpha).add (b.mul (1-alpha))

def getARGB32 (c : Color) : ℕ :=
  (byteFromDouble c.alpha <<< 24) ||| (byteFromDouble c.red <<< 16) ||| (byteFromDouble c.green <<< 8) |||
    byteFromDouble c.blue

@[simp] theorem mix_one (a b : Color) : mix a b 1 = a := by simp [mix,mul,add]

@[simp] theorem mix_zero (a b : Color) : mix a b 0 = b := by simp [mix,mul,add]

@[simp] theorem mix_self (a : Color) (alpha : ℚ) : mix a a alpha = a := by
  cases a
  simp only [mix,mul,add,Color.mk.injEq]
  refine ⟨?_,?_,?_,?_⟩ <;> ring

theorem mix_half_comm (a b : Color) : mix a b (1/2) = mix b a (1/2) := by
  simp only [mix,mul,add,Color.mk.injEq]
  refine ⟨?_,?_,?_,?_⟩ <;> ring

end Color

/-- The colours of a colormap. -/
abbrev Colormap := List Color

namespace Colormap

def createDefault (n : ℕ) : Colormap := (List.range n).map fun i => .gray (i/(n-1 : ℚ))

def createDefaultInverted (n : ℕ) : Colormap :=
  (List.range n).map fun i => .gray (((n-1 : ℚ)-i)/(n-1 : ℚ))

theorem createDefault_eq (n : ℕ) : createDefault n = (List.range n).map fun i : ℕ => .gray (i/(n-1)) := by
  simp [createDefault,← List.map_eq_flatMap]

theorem createDefaultInverted_eq (n : ℕ) :
    createDefaultInverted n = (List.range n).map fun i : ℕ => .gray ((n-1-i)/(n-1)) := by
  simp [createDefaultInverted,← List.map_eq_flatMap]

@[simp] theorem length_createDefault (n : ℕ) : (createDefault n).length = n := by simp [createDefault]

@[simp] theorem length_createDefaultInverted (n : ℕ) : (createDefaultInverted n).length = n := by
  simp [createDefaultInverted]

end Colormap
end Scroom
