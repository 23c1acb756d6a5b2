import Scroom.Redraw
import Scroom.Transitions
import Scroom.Tweakers
import Mathlib.Algebra.Order.Ring.Star
import Mathlib.Data.Rat.Star

/-! The position of a view, and the widgets that call back while they are updated. All arithmetic is exact
here, also that on `int` and `unsigned`. -/
namespace Scroom

/-- A value that is not assigned to while it is locked. -/
structure Freezable (T : Type) where
  value : T
  locked : ℕ := 0

namespace Freezable
variable {T : Type}

def set (f : Freezable T) (v : T) : Freezable T := if f.locked = 0 then { f with value := v } else f

def lock (f : Freezable T) : Freezable T := { f with locked := f.locked+1 }

def unlock (f : Freezable T) : Option (Freezable T) :=
  if 0 < f.locked then some { f with locked := f.locked-1 } else none

@[simp] theorem locked_set (f : Freezable T) (v : T) : (f.set v).locked = f.locked := by
  rw [set]
  split <;> rfl

@[simp] theorem unlock_lock (f : Freezable T) : f.lock.unlock = some f := if_pos f.locked.succ_pos

theorem set_of_locked {f : Freezable T} (h : 0 < f.locked) (v : T) : f.set v = f := if_neg h.ne'

theorem set_value (f : Freezable T) : f.set f.value = f := by
  rw [set]
  split <;> rfl

theorem value_set {f : Freezable T} (h : f.locked = 0) (v : T) : (f.set v).value = v := by rw [set,if_pos h]

end Freezable

/-- A view with a presentation. `modifiermove` is whether the view is dragged. The last field records the
position before and after each of the callbacks that came during an update. -/
structure View where
  position : Freezable (Point ℚ)
  zoom : ℤ
  drawingAreaSize : Point ℤ
  aspectRatio : AspectRatio
  modifiermove : Bool
  cachedPoint : Point ℚ
  callbacks : List (Point ℚ × Point ℚ)

inductive LocationChangeCause
  | scrollbar
  | textbox
  | other
  deriving DecidableEq

/-- A signal: a scrollbar has a new value, or a text box a new text, which may not be a position. With it are the
signals that come while the view updates its widgets in return. -/
inductive Signal
  | scrollbar (vertical : Bool) (value : ℚ) (signals : List Signal)
  | textbox (enteredPosition : Option (Point ℚ)) (signals : List Signal)

namespace View

def pixelSizeFromZoom (zoom : ℤ) : ℚ := 2^zoom

def TweakPositionTextBox.parse (aspectRatio enteredPosition : Point ℚ) (drawingAreaSize : Point ℤ) (zoom : ℤ) :
    Point ℚ :=
  enteredPosition.mulPoint aspectRatio-((Point.ofInt drawingAreaSize).div (pixelSizeFromZoom zoom)).div 2

/-- The `scoped_lock` on the position around the rest of a handler. -/
def protectPosition (rest : View → Option View) (v : View) : Option View := do
  let v ← rest { v with position := v.position.lock }
  return { v with position := ← v.position.unlock }

/-- With what comes of the signals during `updateScrollbars` and `updateTextbox`. `updateRulers` has none, and is
left out here with the assertions in it: `Widgets.updateXY` has them. -/
def updateXY (newPos : Point ℚ) (source : LocationChangeCause) (updateScrollbars updateTextbox : View → Option View)
    (v : View) : Option View :=
  if v.position.value ≠ newPos then
    protectPosition
      (fun v => do
        let v ← (if source ≠ .scrollbar then updateScrollbars v else some v)
        if source ≠ .textbox then updateTextbox v else some v)
      { v with position := v.position.set newPos }
  else some v

/-- A callback that came during an update is done. -/
def called (before after : View) : View :=
  { after with callbacks := after.callbacks ++ [(before.position.value,after.position.value)] }

mutual

/-- `on_scrollbar_value_changed` and `on_textbox_value_changed` -/
def onValueChanged : Signal → View → Option View
  | .scrollbar vertical value signals, v =>
    let newPos := if vertical then { v.position.value with y := value } else { v.position.value with x := value }
    v.updateXY newPos .scrollbar some (onValuesChanged signals)
  | .textbox none _, v => some v
  | .textbox (some enteredPosition) signals, v =>
    let newPos := TweakPositionTextBox.parse v.aspectRatio.ratio enteredPosition v.drawingAreaSize v.zoom
    v.updateXY newPos .textbox (onValuesChanged signals) some

/-- The callbacks during an update, one after the other. -/
def onValuesChanged : List Signal → View → Option View
  | [], v => some v
  | signal::signals, v => (onValueChanged signal v).bind fun w => onValuesChanged signals (called v w)

end

/-- The adjustments are configured; here, and in the next two, with the signals that come of it. -/
def updateScrollbars (signals : List Signal) : View → Option View := onValuesChanged signals

def updateTextbox (signals : List Signal) : View → Option View := onValuesChanged signals

def updateZoom (signals : List Signal) : View → Option View := onValuesChanged signals

def on_window_size_changed (newSize : Point ℤ) (zoomSignals scrollbarSignals : List Signal) (v : View) :
    Option View :=
  let pixelSize := pixelSizeFromZoom v.zoom
  let moved := v.position.value+((Point.ofInt (v.drawingAreaSize-newSize)).div pixelSize).div 2
  protectPosition
    (fun v => do
      let v ← updateZoom zoomSignals { v with drawingAreaSize := newSize }
      updateScrollbars scrollbarSignals v)
    { v with position := v.position.set moved }

def on_zoombox_changed (newzoom : ℤ) (mousePos : Point ℚ) (scrollbarSignals textboxSignals : List Signal)
    (v : View) : Option View :=
  if newzoom ≠ v.zoom then
    let position := v.position.set (v.position.value+mousePos.div (pixelSizeFromZoom v.zoom))
    protectPosition
      (fun v => do
        let v ← updateScrollbars scrollbarSignals { v with zoom := newzoom }
        updateTextbox textboxSignals v)
      { v with position := position.set (position.value-mousePos.div (pixelSizeFromZoom newzoom)) }
  else some v

/-- For button 1, as the next one. -/
def on_buttonPress (point : Point ℚ) (v : View) : View :=
  if v.modifiermove then v else { v with modifiermove := true, cachedPoint := point }

def on_buttonRelease (v : View) : View :=
  if v.modifiermove then { v with modifiermove := false, cachedPoint := ⟨0,0⟩ } else v

/-- `button1` is whether the event says that button 1 is down. -/
def on_motion_notify (button1 : Bool) (mousePos : Point ℚ) (scrollbarSignals textboxSignals : List Signal)
    (v : View) : Option View :=
  if button1 && v.modifiermove then
    let newPos := v.position.value-(mousePos-v.cachedPoint).div (pixelSizeFromZoom v.zoom)
    updateXY newPos .other (updateScrollbars scrollbarSignals) (updateTextbox textboxSignals)
      { v with cachedPoint := mousePos }
  else some v

/-- What the user, or the window, does. -/
inductive Event
  | zoom (newzoom : ℤ) (mousePos : Point ℚ) (scrollbarSignals textboxSignals : List Signal)
  | resize (newSize : Point ℤ) (zoomSignals scrollbarSignals : List Signal)
  | buttonPress (point : Point ℚ)
  | buttonRelease
  | motion (button1 : Bool) (mousePos : Point ℚ) (scrollbarSignals textboxSignals : List Signal)
  | valueChanged (signal : Signal)

def step (v : View) : Event → Option View
  | .zoom newzoom mousePos scrollbarSignals textboxSignals =>
    v.on_zoombox_changed newzoom mousePos scrollbarSignals textboxSignals
  | .resize newSize zoomSignals scrollbarSignals => v.on_window_size_changed newSize zoomSignals scrollbarSignals
  | .buttonPress point => some (v.on_buttonPress point)
  | .buttonRelease => some v.on_buttonRelease
  | .motion button1 mousePos scrollbarSignals textboxSignals =>
    v.on_motion_notify button1 mousePos scrollbarSignals textboxSignals
  | .valueChanged signal => v.onValueChanged signal

/-- The point of the presentation that is at a point of the window. -/
def pointAt (v : View) (point : Point ℚ) : Point ℚ := v.position.value+point.div (pixelSizeFromZoom v.zoom)

def center (v : View) : Point ℚ := (Point.ofInt v.drawingAreaSize).div 2

/-- No callback during an update has moved the view. -/
def Steady (v : View) : Prop := ∀ c ∈ v.callbacks, c.1 = c.2

/-- Whether the view is dragged, and from where, is as it was. -/
def SameDrag (v w : View) : Prop := w.modifiermove = v.modifiermove ∧ w.cachedPoint = v.cachedPoint

/-- What an event may do to the place of the presentation in the window, and to the point that a drag keeps under
the cursor: a drag is from where button 1 went down, or from where it has come to since. -/
def Anchored (v : View) : Event → View → Prop
  | .zoom newzoom mousePos _ _, w =>
    w.zoom = newzoom ∧ w.drawingAreaSize = v.drawingAreaSize ∧ w.pointAt mousePos = v.pointAt mousePos ∧ SameDrag v w
  | .resize newSize _ _, w =>
    w.zoom = v.zoom ∧ w.drawingAreaSize = newSize ∧ w.pointAt w.center = v.pointAt v.center ∧ SameDrag v w
  | .buttonPress point, w =>
    w.zoom = v.zoom ∧ w.drawingAreaSize = v.drawingAreaSize ∧ w.position = v.position ∧ w.modifiermove = true ∧
      w.cachedPoint = if v.modifiermove then v.cachedPoint else point
  | .buttonRelease, w =>
    w.zoom = v.zoom ∧ w.drawingAreaSize = v.drawingAreaSize ∧ w.position = v.position ∧ w.modifiermove = false
  | .motion button1 mousePos _ _, w =>
    w.zoom = v.zoom ∧ w.drawingAreaSize = v.drawingAreaSize ∧ w.modifiermove = v.modifiermove ∧
      if button1 && v.modifiermove then w.pointAt mousePos = v.pointAt v.cachedPoint ∧ w.cachedPoint = mousePos
      else w.position = v.position ∧ w.cachedPoint = v.cachedPoint
  | .valueChanged _, w => w.zoom = v.zoom ∧ w.drawingAreaSize = v.drawingAreaSize ∧ SameDrag v w

/-- The view is free to be moved, and none of the callbacks so far has done so. -/
structure Settled (v : View) : Prop where
  unlocked : v.position.locked = 0
  steady : v.Steady

/-- The result is the view as it was but for further callbacks, and none of those has moved it. -/
def Untouched (v : View) (result : Option View) : Prop :=
  ∃ callbacks, result = some { v with callbacks } ∧ (v.Steady → Steady { v with callbacks })

section Callbacks
variable {v : View} {f g : View → Option View}

theorem Untouched.refl (v : View) : Untouched v (some v) := ⟨v.callbacks,rfl,id⟩

theorem Untouched.bind {o : Option View} (ho : Untouched v o)
    (hf : ∀ callbacks, Untouched { v with callbacks } (f { v with callbacks })) : Untouched v (o.bind f) := by
  obtain ⟨c,rfl,hc⟩ := ho
  obtain ⟨d,hd,hcd⟩ := hf c
  exact ⟨d,hd,hcd ∘ hc⟩

theorem untouched_protectPosition (hf : ∀ w : View, 0 < w.position.locked → Untouched w (f w)) (v : View) :
    Untouched v (protectPosition f v) := by
  obtain ⟨c,hc,hsteady⟩ := hf { v with position := v.position.lock } v.position.locked.succ_pos
  refine ⟨c,?_,hsteady⟩
  rw [protectPosition,hc]
  simp

theorem untouched_updateXY (newPos : Point ℚ) (source : LocationChangeCause)
    (hf : ∀ w : View, 0 < w.position.locked → Untouched w (f w))
    (hg : ∀ w : View, 0 < w.position.locked → Untouched w (g w)) (v : View) :
    Untouched { v with position := v.position.set newPos } (updateXY newPos source f g v) := by
  by_cases h : v.position.value = newPos
  · rw [updateXY,if_neg (not_not.mpr h),← h,Freezable.set_value]
    exact Untouched.refl v
  · rw [updateXY,if_pos h]
    refine untouched_protectPosition (fun w hw => ?_) _
    refine Untouched.bind (f := fun v => if source ≠ .textbox then g v else some v) ?_ fun c => ?_
    · split
      · exact hf w hw
      · exact Untouched.refl w
    · split
      · exact hg _ hw
      · exact Untouched.refl _

theorem Untouched.called {o : Option View} (h : Untouched v o) : Untouched v (o.map (called v)) := by
  obtain ⟨c,rfl,hc⟩ := h
  refine ⟨_,rfl,fun hv d hd => ?_⟩
  rcases List.mem_append.mp hd with hd | hd
  · exact hc hv d hd
  · obtain rfl := List.mem_singleton.mp hd
    rfl

mutual

/-- A callback to a view whose position is locked changes nothing, however deep callbacks nest. -/
theorem untouched_onValueChanged (signal : Signal) (v : View) (hv : 0 < v.position.locked) :
    Untouched v (onValueChanged signal v) := by
  cases signal with
  | scrollbar vertical value signals =>
    rw [onValueChanged]
    simpa only [Freezable.set_of_locked hv] using untouched_updateXY _ .scrollbar (fun w _ => Untouched.refl w)
      (fun w hw => untouched_onValuesChanged signals w hw) v
  | textbox enteredPosition signals =>
    cases enteredPosition with
    | none => exact Untouched.refl v
    | some enteredPosition =>
      rw [onValueChanged]
      simpa only [Freezable.set_of_locked hv] using untouched_updateXY _ .textbox
        (fun w hw => untouched_onValuesChanged signals w hw) (fun w _ => Untouched.refl w) v

theorem untouched_onValuesChanged (signals : List Signal) (v : View) (hv : 0 < v.position.locked) :
    Untouched v (onValuesChanged signals v) := by
  cases signals with
  | nil => exact Untouched.refl v
  | cons signal signals =>
    have hone := (untouched_onValueChanged signal v hv).called
    have hall := hone.bind fun c => untouched_onValuesChanged signals { v with callbacks := c } hv
    rwa [Option.bind_map] at hall

end

theorem untouched_updates (signals signals' : List Signal) (w : View) (hw : 0 < w.position.locked) :
    Untouched w ((onValuesChanged signals w).bind (onValuesChanged signals')) :=
  (untouched_onValuesChanged signals w hw).bind fun _ => untouched_onValuesChanged signals' _ hw

end Callbacks

section Events
variable {v w : View}

theorem Settled.of_untouched (hv : v.Settled) {o : Option View} (h : Untouched w o)
    (hlocked : w.position.locked = v.position.locked) (hcallbacks : w.callbacks = v.callbacks) {e : Event}
    (hanchored : ∀ callbacks, Anchored v e { w with callbacks }) : ∃ t, o = some t ∧ t.Settled ∧ Anchored v e t := by
  obtain ⟨c,rfl,hc⟩ := h
  have hsteady : w.Steady := by
    rw [Steady,hcallbacks]
    exact hv.steady
  exact ⟨_,rfl,⟨hlocked.trans hv.unlocked,hc hsteady⟩,hanchored c⟩

theorem Settled.zoom (hv : v.Settled) (newzoom : ℤ) (mousePos : Point ℚ) (signals signals' : List Signal) :
    ∃ t, v.on_zoombox_changed newzoom mousePos signals signals' = some t ∧ t.Settled ∧
      Anchored v (.zoom newzoom mousePos signals signals') t := by
  by_cases h : newzoom = v.zoom
  · rw [on_zoombox_changed,if_neg (not_not.mpr h)]
    exact ⟨v,rfl,hv,h.symm,rfl,rfl,rfl,rfl⟩
  rw [on_zoombox_changed,if_pos h]
  set p := v.position.set (v.position.value+mousePos.div (pixelSizeFromZoom v.zoom)) with hp
  set q := p.set (p.value-mousePos.div (pixelSizeFromZoom newzoom)) with hq
  have hpunlocked : p.locked = 0 := (Freezable.locked_set _ _).trans hv.unlocked
  have hvalue : q.value = v.position.value+mousePos.div (pixelSizeFromZoom v.zoom)
      -mousePos.div (pixelSizeFromZoom newzoom) := by
    rw [hq,Freezable.value_set hpunlocked,hp,Freezable.value_set hv.unlocked]
  refine hv.of_untouched (w := { v with position := q, zoom := newzoom })
    (untouched_protectPosition (untouched_updates signals signals') _) ?_ rfl fun c => ⟨rfl,rfl,?_,rfl,rfl⟩
  · rw [hq,hp,Freezable.locked_set,Freezable.locked_set]
  · simp only [pointAt,hvalue]
    ext <;> simp

theorem Settled.resize (hv : v.Settled) (newSize : Point ℤ) (signals signals' : List Signal) :
    ∃ t, v.on_window_size_changed newSize signals signals' = some t ∧ t.Settled ∧
      Anchored v (.resize newSize signals signals') t := by
  refine hv.of_untouched (w := { v with position := v.position.set _, drawingAreaSize := newSize })
    (untouched_protectPosition (untouched_updates signals signals') _) (Freezable.locked_set _ _) rfl
    fun c => ⟨rfl,rfl,?_,rfl,rfl⟩
  simp only [pointAt,center,Freezable.value_set hv.unlocked]
  ext <;> simp [Point.ofInt,Point.div] <;> ring

theorem Settled.motion (hv : v.Settled) (button1 : Bool) (mousePos : Point ℚ) (signals signals' : List Signal) :
    ∃ t, v.on_motion_notify button1 mousePos signals signals' = some t ∧ t.Settled ∧
      Anchored v (.motion button1 mousePos signals signals') t := by
  by_cases h : (button1 && v.modifiermove) = true
  · rw [on_motion_notify,if_pos h]
    refine hv.of_untouched (e := .motion button1 mousePos signals signals')
      (untouched_updateXY _ .other (untouched_onValuesChanged signals) (untouched_onValuesChanged signals')
        { v with cachedPoint := mousePos }) (Freezable.locked_set _ _) rfl fun c => ⟨rfl,rfl,rfl,?_⟩
    rw [if_pos h]
    refine ⟨?_,rfl⟩
    simp only [pointAt,Freezable.value_set hv.unlocked]
    ext <;> simp [Point.div] <;> ring
  · rw [on_motion_notify,if_neg h]
    refine ⟨v,rfl,hv,rfl,rfl,rfl,?_⟩
    rw [if_neg h]
    exact ⟨rfl,rfl⟩

theorem Settled.valueChanged (hv : v.Settled) (signal : Signal) :
    ∃ t, v.onValueChanged signal = some t ∧ t.Settled ∧ Anchored v (.valueChanged signal) t := by
  cases signal with
  | scrollbar vertical value signals =>
    rw [onValueChanged]
    exact hv.of_untouched (untouched_updateXY _ .scrollbar (fun w _ => Untouched.refl w)
      (untouched_onValuesChanged signals) _) (Freezable.locked_set _ _) rfl fun c => ⟨rfl,rfl,rfl,rfl⟩
  | textbox enteredPosition signals =>
    cases enteredPosition with
    | none => exact ⟨v,rfl,hv,rfl,rfl,rfl,rfl⟩
    | some enteredPosition =>
      rw [onValueChanged]
      exact hv.of_untouched (untouched_updateXY _ .textbox (untouched_onValuesChanged signals)
        (fun w _ => Untouched.refl w) _) (Freezable.locked_set _ _) rfl fun c => ⟨rfl,rfl,rfl,rfl⟩

theorem Settled.step (hv : v.Settled) (e : Event) : ∃ t, step v e = some t ∧ t.Settled ∧ Anchored v e t := by
  cases e with
  | zoom newzoom mousePos signals signals' => exact hv.zoom newzoom mousePos signals signals'
  | resize newSize signals signals' => exact hv.resize newSize signals signals'
  | buttonPress point =>
    refine ⟨_,rfl,?_⟩
    rw [on_buttonPress]
    split
    case isTrue h => exact ⟨hv,rfl,rfl,rfl,h,(if_pos h).symm⟩
    case isFalse h => exact ⟨⟨hv.unlocked,hv.steady⟩,rfl,rfl,rfl,rfl,(if_neg h).symm⟩
  | buttonRelease =>
    refine ⟨_,rfl,?_⟩
    rw [on_buttonRelease]
    split
    case isTrue => exact ⟨⟨hv.unlocked,hv.steady⟩,rfl,rfl,rfl,rfl⟩
    case isFalse h => exact ⟨hv,rfl,rfl,rfl,by simpa using h⟩
  | motion button1 mousePos signals signals' => exact hv.motion button1 mousePos signals signals'
  | valueChanged signal => exact hv.valueChanged signal

open Transitions

/-- Whatever happens to a view, and however its widgets call back meanwhile: all handlers return, each zoom, resize
and drag keeps its anchor, no callback moves the view, and its position is unlocked in between. -/
theorem events_anchored (events : List Event) {v : View} (hlocked : v.position.locked = 0)
    (hcallbacks : v.callbacks = []) : ∃ w, run View.step events v = some w ∧
      Throughout View.step (fun v e w => Anchored v e w ∧ w.position.locked = 0 ∧ w.Steady) events v := by
  have hv : v.Settled := ⟨hlocked,by simp [Steady,hcallbacks]⟩
  obtain ⟨w,hw,-,hall⟩ := exists_run_throughout (Q := fun v e w => Anchored v e w ∧ w.position.locked = 0 ∧ w.Steady)
    (fun v e (hv : v.Settled) =>
      let ⟨t,ht,hset,ha⟩ := hv.step e
      ⟨t,ht,hset,ha,hset.unlocked,hset.steady⟩) events hv
  exact ⟨w,hw,hall⟩

/-- A view of 100 by 50 pixels is zoomed in with the pointer at a corner, while the widgets answer each other. -/
theorem events_anchored_zoomedIn :
    let v : View := ⟨⟨⟨-50,-25⟩,0⟩,0,⟨100,50⟩,⟨⟨1,1⟩,by norm_num,by norm_num⟩,false,⟨0,0⟩,[]⟩
    let events : List Event :=
      [.zoom 1 ⟨100,50⟩ [.scrollbar true 7 [.textbox (some ⟨3,4⟩) [.scrollbar false 1 []]],.textbox none []] []]
    ∃ w, run View.step events v = some w ∧
      Throughout View.step (fun v e w => Anchored v e w ∧ w.position.locked = 0 ∧ w.Steady) events v :=
  events_anchored _ rfl rfl

end Events

end View
end Scroom
