import Mathlib.Tactic.FieldSimp
import Scroom.Color
import Scroom.Transitions

/-! The colormap of a monochrome presentation, which is generated anew whenever a setting changes. -/
namespace Scroom
open Transitions

/-- The `Colormap` objects, and which of them are the current and the original one. -/
structure MonochromeColormapHelper where
  heap : List Colormap
  colormap : ℕ
  originalColormap : ℕ
  numberOfColors : ℕ
  inverted : Bool
  blackish : Color
  whitish : Color
  transparentBackground : Bool := false

namespace MonochromeColormapHelper

def generateInitialColormap (numberOfColors : ℕ) (inverted : Bool) : Colormap :=
  if inverted then .createDefaultInverted numberOfColors else .createDefault numberOfColors

/-- The constructor, with that of `ColormapHelperBase`. -/
def create (numberOfColors : ℕ) (inverted : Bool) : MonochromeColormapHelper where
  heap := [generateInitialColormap numberOfColors inverted]
  colormap := 0
  originalColormap := 0
  numberOfColors := numberOfColors
  inverted := inverted
  blackish := .gray (if inverted then 1 else 0)
  whitish := .gray (if inverted then 0 else 1)

def getColormap (s : MonochromeColormapHelper) : Colormap := s.heap.getD s.colormap []

def getOriginalColormap (s : MonochromeColormapHelper) : Colormap := s.heap.getD s.originalColormap []

def regenerateColormap (s : MonochromeColormapHelper) : MonochromeColormapHelper :=
  let w := if s.transparentBackground ∧ ¬s.inverted then s.whitish.setAlpha 0 else s.whitish
  let b := if s.transparentBackground ∧ s.inverted then s.blackish.setAlpha 0 else s.blackish
  let setColor (colors : Colormap) (i : ℕ) := colors.set i (.mix w b (i/(s.numberOfColors-1)))
  { s with heap := s.heap.modify s.colormap fun colors => (List.range s.numberOfColors).foldl setColor colors }

def setMonochromeColor (s : MonochromeColormapHelper) (c : Color) : MonochromeColormapHelper :=
  regenerateColormap (if s.inverted then { s with whitish := c } else { s with blackish := c })

def setTransparentBackground (s : MonochromeColormapHelper) : MonochromeColormapHelper :=
  regenerateColormap { s with transparentBackground := true }

def disableTransparentBackground (s : MonochromeColormapHelper) : MonochromeColormapHelper :=
  regenerateColormap { s with transparentBackground := false }

inductive Action
  | setMonochromeColor (c : Color)
  | setTransparentBackground
  | disableTransparentBackground

def step (s : MonochromeColormapHelper) : Action → Option MonochromeColormapHelper
  | .setMonochromeColor c => some (s.setMonochromeColor c)
  | .setTransparentBackground => some s.setTransparentBackground
  | .disableTransparentBackground => some s.disableTransparentBackground

/-! ### The settings

What the colormap is, in terms of what was set last. -/

structure Settings where
  color : Color := .gray 0
  transparent : Bool := false

def Settings.next (settings : Settings) : Action → Settings
  | .setMonochromeColor c => { settings with color := c }
  | .setTransparentBackground => { settings with transparent := true }
  | .disableTransparentBackground => { settings with transparent := false }

/-- The end that is not coloured is the background. -/
def Settings.background (settings : Settings) : Color :=
  if settings.transparent then (Color.gray 1).setAlpha 0 else .gray 1

def Settings.white (settings : Settings) (inverted : Bool) : Color :=
  if inverted then settings.color else settings.background

def Settings.black (settings : Settings) (inverted : Bool) : Color :=
  if inverted then settings.background else settings.color

def gradient (n : ℕ) (w b : Color) : Colormap := (List.range n).map fun i : ℕ => .mix w b (i/(n-1))

/-- The colours that the original colormap was created with are still there. -/
def Kept (n : ℕ) (inverted : Bool) (s : MonochromeColormapHelper) : Prop :=
  s.getOriginalColormap = generateInitialColormap n inverted

/-- The call sets what is set already in a new helper. -/
def Harmless : Action → Prop
  | .setMonochromeColor c => c = .gray 0
  | .setTransparentBackground => False
  | .disableTransparentBackground => True

instance : ∀ a, Decidable (Harmless a)
  | .setMonochromeColor c => inferInstanceAs (Decidable (c = .gray 0))
  | .setTransparentBackground => inferInstanceAs (Decidable False)
  | .disableTransparentBackground => inferInstanceAs (Decidable True)

/-- The helper with given settings -/
def ofSettings (n : ℕ) (inverted : Bool) (settings : Settings) : MonochromeColormapHelper where
  heap := [gradient n (settings.white inverted) (settings.black inverted)]
  colormap := 0
  originalColormap := 0
  numberOfColors := n
  inverted := inverted
  blackish := if inverted then .gray 1 else settings.color
  whitish := if inverted then settings.color else .gray 1
  transparentBackground := settings.transparent

variable {n : ℕ} {inverted : Bool} {settings : Settings}

theorem foldl_set_range {α : Type*} (f : ℕ → α) (l : List α) (m : ℕ) (hm : m ≤ l.length) :
    (List.range m).foldl (fun l i => l.set i (f i)) l = (List.range m).map f ++ l.drop m := by
  induction m with
  | zero => simp
  | succ m ih =>
    rw [List.range_succ,List.foldl_append,ih (by omega),List.map_append,List.foldl_cons,List.foldl_nil,
      List.set_append_right _ _ (by simp)]
    have hdrop : l.drop m = l[m]::l.drop (m+1) := List.drop_eq_getElem_cons hm
    rw [hdrop,List.length_map,List.length_range,Nat.sub_self,List.set_cons_zero]
    simp

theorem regenerateColormap_eq (n : ℕ) (inverted : Bool) (settings settings' : Settings) :
    regenerateColormap { ofSettings n inverted settings with
      blackish := if inverted then .gray 1 else settings'.color
      whitish := if inverted then settings'.color else .gray 1
      transparentBackground := settings'.transparent } = ofSettings n inverted settings' := by
  have hfold : ∀ w b : Color, (List.range n).foldl (fun colors (i : ℕ) => colors.set i (.mix w b (i/(n-1))))
      (gradient n (settings.white inverted) (settings.black inverted)) = gradient n w b := by
    intro w b
    rw [foldl_set_range (fun i : ℕ => Color.mix w b (i/(n-1))) _ _ (by simp [gradient])]
    simp [gradient]
  simp only [regenerateColormap,ofSettings,hfold,List.modify_cons,if_true,mk.injEq,and_true,List.cons.injEq]
  cases inverted <;> cases ht : settings'.transparent <;>
    simp [Settings.white,Settings.black,Settings.background,ht]

theorem step_ofSettings (a : Action) :
    step (ofSettings n inverted settings) a = some (ofSettings n inverted (settings.next a)) := by
  cases a with
  | setMonochromeColor c =>
    have h := regenerateColormap_eq n inverted settings (settings.next (.setMonochromeColor c))
    rw [← h]
    cases inverted <;> rfl
  | setTransparentBackground =>
    exact congrArg some (regenerateColormap_eq _ _ _ (settings.next .setTransparentBackground))
  | disableTransparentBackground =>
    exact congrArg some (regenerateColormap_eq _ _ _ (settings.next .disableTransparentBackground))

theorem generateInitialColormap_eq (hn : 2 ≤ n) :
    generateInitialColormap n inverted =
      gradient n (({} : Settings).white inverted) (({} : Settings).black inverted) := by
  have hne : (n : ℚ)-1 ≠ 0 := by
    have hcast : (2 : ℚ) ≤ n := by exact_mod_cast hn
    linarith
  have hmix : ∀ (g h alpha : ℚ), Color.mix (.gray g) (.gray h) alpha = .gray (g*alpha+h*(1-alpha)) := by
    intro g h alpha
    simp [Color.mix,Color.mul,Color.add,Color.gray]
  cases inverted with
  | false =>
    simp [generateInitialColormap,gradient,Colormap.createDefault_eq,Settings.white,Settings.black,
      Settings.background,hmix]
  | true =>
    have hsub : ∀ i : ℕ, 1-(i : ℚ)/(n-1) = ((n : ℚ)-1-i)/(n-1) := by
      intro i
      field_simp
    simp [generateInitialColormap,gradient,Colormap.createDefaultInverted_eq,Settings.white,Settings.black,
      Settings.background,hmix,hsub]

theorem create_eq (hn : 2 ≤ n) : create n inverted = ofSettings n inverted {} := by
  unfold create ofSettings
  rw [generateInitialColormap_eq hn]
  cases inverted <;> rfl

theorem run_ofSettings (as : List Action) (settings : Settings) :
    run step as (ofSettings n inverted settings) = some (ofSettings n inverted (as.foldl Settings.next settings)) := by
  induction as generalizing settings with
  | nil => rfl
  | cons a as ih => rw [run,step_ofSettings,Option.bind_some,ih,List.foldl_cons]

theorem gradient_inj (hn : 2 ≤ n) {w b w' b' : Color} :
    gradient n w b = gradient n w' b' ↔ w = w' ∧ b = b' := by
  constructor
  · intro h
    have hat : ∀ i < n, Color.mix w b (i/(n-1)) = Color.mix w' b' (i/(n-1)) := by
      intro i hi
      have hget := congrArg (·[i]?) h
      simpa [gradient,hi] using hget
    have hne : (n : ℚ)-1 ≠ 0 := by
      have hcast : (2 : ℚ) ≤ n := by exact_mod_cast hn
      linarith
    have hlast := hat (n-1) (by omega)
    rw [Nat.cast_sub (by omega),Nat.cast_one,div_self hne] at hlast
    have hfirst := hat 0 (by omega)
    simp only [Nat.cast_zero,zero_div] at hfirst
    exact ⟨by simpa using hlast,by simpa using hfirst⟩
  · rintro ⟨rfl,rfl⟩
    rfl

theorem kept_ofSettings (hn : 2 ≤ n) :
    Kept n inverted (ofSettings n inverted settings) ↔ settings.color = .gray 0 ∧ settings.transparent = false := by
  have hzero : (Color.gray 1).setAlpha 0 ≠ .gray 1 := by simp [Color.setAlpha,Color.mul,Color.gray]
  rw [Kept,generateInitialColormap_eq hn]
  change gradient n _ _ = _ ↔ _
  rw [gradient_inj hn]
  cases inverted <;> cases ht : settings.transparent <;>
    simp [Settings.white,Settings.black,Settings.background,ht,hzero]

theorem getColormap_ofSettings : (ofSettings n inverted settings).getColormap =
    (List.range n).map fun i : ℕ => .mix (settings.white inverted) (settings.black inverted) (i/(n-1)) := rfl

theorem kept_next (hn : 2 ≤ n) (a : Action) (hkept : Kept n inverted (ofSettings n inverted settings)) :
    Kept n inverted (ofSettings n inverted (settings.next a)) ↔ Harmless a := by
  obtain ⟨hcolor,htransparent⟩ := (kept_ofSettings hn).mp hkept
  rw [kept_ofSettings hn]
  cases a with
  | setMonochromeColor c => simp [Settings.next,Harmless,htransparent]
  | setTransparentBackground => simp [Settings.next,Harmless]
  | disableTransparentBackground => simp [Settings.next,Harmless,hcolor]

theorem always_kept_iff (hn : 2 ≤ n) (as : List Action) :
    Always step (Kept n inverted) as (ofSettings n inverted settings) ↔
      Kept n inverted (ofSettings n inverted settings) ∧ ∀ a ∈ as, Harmless a := by
  induction as generalizing settings with
  | nil => simp [Always]
  | cons a as ih =>
    have htail : (∀ t, step (ofSettings n inverted settings) a = some t → Always step (Kept n inverted) as t) ↔
        Kept n inverted (ofSettings n inverted (settings.next a)) ∧ ∀ a ∈ as, Harmless a := by
      simp [step_ofSettings,ih]
    rw [Always,htail,List.forall_mem_cons]
    refine and_congr_right fun hkept => ?_
    rw [kept_next hn a hkept]

/-- After any calls the colours are those between the ends that were set last. The original colormap keeps its
colours if and only if no call sets anything new. -/
theorem colors_kept_iff (n : ℕ) (hn : 2 ≤ n) (inverted : Bool) (as : List Action) :
    (∃ s, run step as (create n inverted) = some s ∧ s.getColormap =
      let settings := as.foldl Settings.next {}
      (List.range n).map fun i : ℕ => .mix (settings.white inverted) (settings.black inverted) (i/(n-1))) ∧
    (Always step (Kept n inverted) as (create n inverted) ↔ ∀ a ∈ as, Harmless a) := by
  rw [create_eq hn]
  refine ⟨⟨_,run_ofSettings as {},getColormap_ofSettings⟩,?_⟩
  rw [always_kept_iff hn]
  exact and_iff_right ((kept_ofSettings hn).mpr ⟨rfl,rfl⟩)

/-- Black and an opaque background are what a new helper has already. -/
theorem colors_kept_iff_black : Always step (Kept 2 false)
    [.setMonochromeColor (.gray 0),.disableTransparentBackground] (create 2 false) :=
  (colors_kept_iff 2 le_rfl false _).2.mpr (by decide)

/-- A monochrome presentation is shown in blue. -/
theorem blue_overwrites : ¬Always step (Kept 2 false) [.setMonochromeColor { blue := 1 }] (create 2 false) := by
  intro h
  have hfirst := congrArg (·[0]?) (h.2 _ rfl)
  exact absurd hfirst (by decide +kernel)

end MonochromeColormapHelper
end Scroom
