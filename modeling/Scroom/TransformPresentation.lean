import Mathlib.Logic.Function.Basic
import Scroom.OffscreenSurface
import Scroom.Transitions

/-! The image that a transformed presentation keeps for each of its views. -/
namespace Scroom
namespace TransformPresentation
open Transitions

/-- What a redraw was for, and how often the view had been invalidated by then. -/
structure Redraw where
  area : Rectangle ℚ
  zoom : ℤ
  invalidations : ℕ
  deriving DecidableEq

/-- A surface, and what the wrapped presentation was asked to draw on it. -/
structure Image where
  size : Point ℤ
  drawn : Redraw
  deriving DecidableEq

/-- The last four fields record the redraw of the view before, how often the view was invalidated, the calls to
`redraw` of the wrapped presentation, the latest first, and the image that was painted last. -/
structure ViewData where
  presentationArea : Rectangle ℚ := .empty
  zoom : ℤ := 0
  image : Option Image := none
  previous : Option Redraw := none
  invalidations : ℕ := 0
  redraws : List Redraw := []
  painted : Option Image := none

namespace ViewData

/-- The image is made anew. -/
def draw (aspectRatio : Point ℚ) (presentationArea : Rectangle ℚ) (zoom : ℤ) (data : ViewData) : ViewData :=
  let request : Redraw := ⟨presentationArea.divPoint aspectRatio,zoom,data.invalidations⟩
  { data with
    image := some ⟨viewArea presentationArea zoom aspectRatio,request⟩
    redraws := request::data.redraws }

def redraw (aspectRatio : Point ℚ) (presentationArea : Rectangle ℚ) (zoom : ℤ) (data : ViewData) : ViewData :=
  let data :=
    if !data.presentationArea.equals presentationArea || data.zoom ≠ zoom then { data with image := none } else data
  let data := if data.image = none then data.draw aspectRatio presentationArea zoom else data
  { data with previous := some ⟨presentationArea,zoom,data.invalidations⟩, painted := data.image }

def invalidate (data : ViewData) : ViewData := { data with image := none, invalidations := data.invalidations+1 }

end ViewData

/-- The map `viewData`. -/
abbrev Config (V : Type) := V → Option ViewData

inductive Action (V : Type)
  | open' (viewInterface : V)
  | redraw (vi : V) (presentationArea : Rectangle ℚ) (zoom : ℤ)
  | invalidate (viewInterface : V)
  | close (viewInterface : V)

section Views
variable {V : Type} [DecidableEq V] (aspectRatio : Point ℚ)

/-- `none` where a `require` fails, or `at` throws. A view that was closed can still be invalidated. -/
def step (c : Config V) : Action V → Option (Config V)
  | .open' viewInterface => if c viewInterface = none then some (Function.update c viewInterface (some {})) else none
  | .redraw vi presentationArea zoom => do
    return Function.update c vi (some ((← c vi).redraw aspectRatio presentationArea zoom))
  | .invalidate viewInterface => some (Function.update c viewInterface ((c viewInterface).map .invalidate))
  | .close viewInterface => if c viewInterface = none then none else some (Function.update c viewInterface none)

/-- What a redraw of an area should do to a view: it paints what was drawn for that area, divided by the aspect
ratio, after the last invalidation, and has it drawn only if there is no image, or the previous redraw was for
something else or before an invalidation. -/
structure Served (presentationArea : Rectangle ℚ) (zoom : ℤ) (data data' : ViewData) : Prop where
  painted : ∃ image, data'.painted = some image ∧ image.drawn ∈ data'.redraws ∧
    image.drawn = ⟨presentationArea.divPoint aspectRatio,zoom,data.invalidations⟩
  redraws : data'.redraws =
    if data.image = none ∨ data.previous ≠ some ⟨presentationArea,zoom,data.invalidations⟩ then
      ⟨presentationArea.divPoint aspectRatio,zoom,data.invalidations⟩::data.redraws
    else data.redraws

def Cached (c : Config V) : Action V → Config V → Prop
  | .redraw vi presentationArea zoom, c' =>
    ∃ data data', c vi = some data ∧ c' vi = some data' ∧ Served aspectRatio presentationArea zoom data data'
  | _, _ => True

/-- A view with an image is asked for the same as before exactly if it is asked for an empty area at zoom 0. -/
def Allowed (c : Config V) : Action V → Prop
  | .redraw vi presentationArea zoom => ∀ data, c vi = some data → data.image ≠ none →
      (data.previous = some ⟨presentationArea,zoom,data.invalidations⟩ ↔
        presentationArea.isEmpty = true ∧ zoom = 0)
  | _ => True

end Views

/-- The area and the zoom to compare with are those of a new view, and the image is what the previous redraw was
for. -/
structure Inv (aspectRatio : Point ℚ) (data : ViewData) : Prop where
  presentationArea : data.presentationArea = .empty
  zoom : data.zoom = 0
  image : ∀ image, data.image = some image → image.drawn ∈ data.redraws ∧ ∃ previous : Redraw,
    data.previous = some previous ∧ previous.invalidations = data.invalidations ∧
      image.drawn = { previous with area := previous.area.divPoint aspectRatio }

theorem equals_empty (r : Rectangle ℚ) : Rectangle.equals .empty r = r.isEmpty := by
  have h : Rectangle.isEmpty (.empty : Rectangle ℚ) = true := by decide +kernel
  rw [Rectangle.equals,h]
  cases r.isEmpty <;> rfl

section Redraws
variable {aspectRatio : Point ℚ} {data : ViewData} {image : Image} {area : Rectangle ℚ} {zoom : ℤ}

theorem Inv.compare_iff (hi : Inv aspectRatio data) (area : Rectangle ℚ) (zoom : ℤ) :
    (!data.presentationArea.equals area || data.zoom ≠ zoom) = true ↔ ¬(area.isEmpty = true ∧ zoom = 0) := by
  rw [hi.presentationArea,hi.zoom,equals_empty,Bool.or_eq_true,decide_eq_true_eq,not_and_or,ne_comm]
  simp

theorem Inv.redraw_hit (hi : Inv aspectRatio data) (himage : data.image = some image)
    (h : area.isEmpty = true ∧ zoom = 0) : data.redraw aspectRatio area zoom =
      { data with previous := some ⟨area,zoom,data.invalidations⟩, painted := some image } := by
  have hcond := (hi.compare_iff area zoom).not.mpr (not_not.mpr h)
  simp only [ViewData.redraw,if_neg hcond,himage,reduceCtorEq,if_false]

theorem Inv.redraw_miss (hi : Inv aspectRatio data) (h : data.image = none ∨ ¬(area.isEmpty = true ∧ zoom = 0)) :
    data.redraw aspectRatio area zoom =
      { data.draw aspectRatio area zoom with
        previous := some ⟨area,zoom,data.invalidations⟩
        painted := (data.draw aspectRatio area zoom).image } := by
  by_cases hc : area.isEmpty = true ∧ zoom = 0
  · have hcond := (hi.compare_iff area zoom).not.mpr (not_not.mpr hc)
    have himage := h.resolve_right (not_not.mpr hc)
    simp only [ViewData.redraw,if_neg hcond,himage,if_true]
    rfl
  · have hcond := (hi.compare_iff area zoom).mpr hc
    simp only [ViewData.redraw,if_pos hcond,if_true]
    rfl

theorem Inv.served_iff (hi : Inv aspectRatio data) (area : Rectangle ℚ) (zoom : ℤ) :
    Served aspectRatio area zoom data (data.redraw aspectRatio area zoom) ↔ (data.image ≠ none →
      (data.previous = some ⟨area,zoom,data.invalidations⟩ ↔ area.isEmpty = true ∧ zoom = 0)) := by
  cases himage : data.image with
  | none =>
    rw [hi.redraw_miss (Or.inl himage)]
    refine iff_of_true ⟨⟨_,rfl,List.mem_cons_self,rfl⟩,?_⟩ fun h => absurd rfl h
    rw [if_pos (Or.inl himage)]
    rfl
  | some image =>
    obtain ⟨hmem,previous,hprevious,hinvalidations,hdrawn⟩ := hi.image image himage
    by_cases hc : area.isEmpty = true ∧ zoom = 0
    · rw [hi.redraw_hit himage hc]
      constructor
      · rintro ⟨-,h⟩ -
        refine iff_of_true ?_ hc
        by_contra hne
        rw [if_pos (Or.inr hne)] at h
        exact absurd h (List.cons_ne_self _ _).symm
      · intro h
        have heq := (h (Option.some_ne_none image)).mpr hc
        refine ⟨⟨image,rfl,hmem,?_⟩,?_⟩
        · rw [heq] at hprevious
          obtain rfl := Option.some.inj hprevious
          exact hdrawn
        · rw [if_neg]
          simp [himage,heq]
    · rw [hi.redraw_miss (Or.inr hc)]
      constructor
      · rintro ⟨-,h⟩ -
        refine iff_of_false (fun heq => ?_) hc
        rw [if_neg (by simp [himage,heq])] at h
        exact absurd h (List.cons_ne_self _ _)
      · intro h
        have hne := fun heq => hc ((h (Option.some_ne_none image)).mp heq)
        refine ⟨⟨_,rfl,List.mem_cons_self,rfl⟩,?_⟩
        rw [if_pos (Or.inr hne)]
        rfl

theorem redraw_fields (aspectRatio : Point ℚ) (data : ViewData) (area : Rectangle ℚ) (zoom : ℤ) :
    (data.redraw aspectRatio area zoom).presentationArea = data.presentationArea ∧
    (data.redraw aspectRatio area zoom).zoom = data.zoom ∧
    (data.redraw aspectRatio area zoom).invalidations = data.invalidations ∧
    (data.redraw aspectRatio area zoom).previous = some ⟨area,zoom,data.invalidations⟩ ∧
    (data.redraw aspectRatio area zoom).painted = (data.redraw aspectRatio area zoom).image := by
  unfold ViewData.redraw ViewData.draw
  dsimp only
  split_ifs <;> exact ⟨rfl,rfl,rfl,rfl,rfl⟩

theorem Inv.redraw (hi : Inv aspectRatio data)
    (hserved : Served aspectRatio area zoom data (data.redraw aspectRatio area zoom)) :
    Inv aspectRatio (data.redraw aspectRatio area zoom) := by
  obtain ⟨harea,hzoom,hinvalidations,hprevious,hpainted⟩ := redraw_fields aspectRatio data area zoom
  refine ⟨harea.trans hi.presentationArea,hzoom.trans hi.zoom,fun image himage => ?_⟩
  obtain ⟨image',himage',hmem,hdrawn⟩ := hserved.painted
  obtain rfl : image' = image := Option.some.inj (himage'.symm.trans (hpainted.trans himage))
  exact ⟨hmem,_,hprevious,hinvalidations.symm,hdrawn⟩

theorem Inv.invalidate (hi : Inv aspectRatio data) : Inv aspectRatio data.invalidate where
  presentationArea := hi.presentationArea
  zoom := hi.zoom
  image := by simp [ViewData.invalidate]

theorem inv_create (aspectRatio : Point ℚ) : Inv aspectRatio {} where
  presentationArea := rfl
  zoom := rfl
  image := by simp

end Redraws

section Runs
variable {V : Type} [DecidableEq V] {aspectRatio : Point ℚ} {c d : Config V} {a : Action V}

theorem forall_update {vi : V} {o : Option ViewData} {P : ViewData → Prop}
    (h : ∀ wi data, c wi = some data → P data) (ho : ∀ data, o = some data → P data) :
    ∀ wi data, Function.update c vi o wi = some data → P data := by
  intro wi data hd
  by_cases hw : wi = vi
  · subst hw
    rw [Function.update_self] at hd
    exact ho data hd
  · rw [Function.update_of_ne hw] at hd
    exact h wi data hd

theorem cached_iff_allowed (hi : ∀ vi data, c vi = some data → Inv aspectRatio data)
    (h : step aspectRatio c a = some d) : Cached aspectRatio c a d ↔ Allowed c a := by
  cases a with
  | open' vi => exact Iff.rfl
  | redraw vi area zoom =>
    obtain ⟨data,hdata,h⟩ := Option.bind_eq_some_iff.mp h
    obtain rfl := Option.some.inj h
    have hserved := (hi vi data hdata).served_iff area zoom
    constructor
    · rintro ⟨data₁,data',h₁,h',hs⟩ data₂ h₂
      obtain rfl := Option.some.inj (hdata.symm.trans h₁)
      obtain rfl := Option.some.inj (hdata.symm.trans h₂)
      rw [Function.update_self] at h'
      obtain rfl := Option.some.inj h'
      exact hserved.mp hs
    · intro hallowed
      exact ⟨data,_,hdata,Function.update_self _ _ _,hserved.mpr (hallowed data hdata)⟩
  | invalidate vi => exact Iff.rfl
  | close vi => exact Iff.rfl

theorem inv_step (hi : ∀ vi data, c vi = some data → Inv aspectRatio data) (hallowed : Allowed c a)
    (h : step aspectRatio c a = some d) : ∀ vi data, d vi = some data → Inv aspectRatio data := by
  cases a with
  | open' vi =>
    simp only [step,Option.ite_none_right_eq_some,Option.some.injEq] at h
    obtain ⟨-,rfl⟩ := h
    refine forall_update hi fun data hdata => ?_
    obtain rfl := Option.some.inj hdata
    exact inv_create aspectRatio
  | redraw vi area zoom =>
    obtain ⟨data,hdata,h⟩ := Option.bind_eq_some_iff.mp h
    obtain rfl := Option.some.inj h
    refine forall_update hi fun data' hdata' => ?_
    obtain rfl := Option.some.inj hdata'
    exact (hi vi data hdata).redraw (((hi vi data hdata).served_iff area zoom).mpr (hallowed data hdata))
  | invalidate vi =>
    obtain rfl := Option.some.inj h
    refine forall_update hi fun data hdata => ?_
    obtain ⟨data',hdata',rfl⟩ := Option.map_eq_some_iff.mp hdata
    exact (hi vi data' hdata').invalidate
  | close vi =>
    simp only [step,Option.ite_none_left_eq_some,Option.some.injEq] at h
    obtain ⟨-,rfl⟩ := h
    exact forall_update hi fun data hdata => absurd hdata (by simp)

/-- The images serve as a cache exactly in the runs in which a view that has an image is asked for the same as
before just when it is asked for an empty area at zoom 0. -/
theorem cached_iff (aspectRatio : Point ℚ) (actions : List (Action V)) {c : Config V}
    (hr : run (step aspectRatio) actions (fun _ => none) = some c) :
    Throughout (step aspectRatio) (Cached aspectRatio) actions (fun _ => none) ↔
      Within (step aspectRatio) Allowed actions (fun _ => none) :=
  throughout_iff_within
    (fun c _ _ (hi : ∀ vi data, c vi = some data → Inv aspectRatio data) ha h => inv_step hi ha h)
    (fun _ _ _ hi h => cached_iff_allowed hi h) (by simp) hr

end Runs

/-- A view that is drawn twice, with an image at hand the second time. -/
def redrawTwice : List (Action Unit) :=
  [.open' (),.redraw () ⟨⟨0,10⟩,⟨0,10⟩⟩ 0,.redraw () ⟨⟨0,10⟩,⟨0,10⟩⟩ 0]

theorem cached_iff_redrawTwice : Throughout (step ⟨1,1⟩) (Cached ⟨1,1⟩) redrawTwice (fun _ => none) ↔
    Within (step ⟨1,1⟩) Allowed redrawTwice fun _ => none :=
  cached_iff ⟨1,1⟩ redrawTwice
    (Option.some_get (by decide +kernel : (run (step ⟨1,1⟩) redrawTwice fun _ => none).isSome)).symm

theorem redrawTwice_draws : (run (step ⟨1,1⟩) redrawTwice fun _ => none).isSome ∧
    ¬ Throughout (step ⟨1,1⟩) (Cached ⟨1,1⟩) redrawTwice fun _ => none := by
  refine ⟨by decide +kernel,fun h => ?_⟩
  have hopen := (h _ rfl).2
  have hfirst := (hopen _ rfl).2
  obtain ⟨data,data',hdata,hdata',-,hredraws⟩ := (hfirst _ rfl).1
  obtain rfl := Option.some.inj hdata
  obtain rfl := Option.some.inj hdata'
  exact absurd hredraws (by decide +kernel)

end TransformPresentation
end Scroom
