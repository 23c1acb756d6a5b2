import Scroom.OffscreenSurface

/-! The tools of a view: their buttons, of which one is pressed, and the selections of which the view tells the
handlers. -/
namespace Scroom

namespace TweakGridSelection

def roundCorners (r : Rectangle ℚ) : Rectangle ℚ :=
  .makeFromStartEnd ⟨roundToMultipleOf r.getLeft 1,roundToMultipleOf r.getTop 1⟩
    ⟨roundToMultipleOf r.getRight 1,roundToMultipleOf r.getBottom 1⟩

def tweakRectangle (aspectRatio : Point ℚ) (selection : Rectangle ℚ) : Rectangle ℚ :=
  (roundCorners (selection.divPoint aspectRatio)).mulPoint aspectRatio

def tweak (aspectRatio : Point ℚ) : Selection → Selection := tweakSelection (tweakRectangle aspectRatio)

end TweakGridSelection

namespace View

def windowPointToPresentationPoint (v : View) (wp : Point ℚ) : Point ℚ :=
  v.tweakedPosition+wp.div (pixelSizeFromZoom v.zoom)

def presentationPointToWindowPoint (v : View) (presentationpoint : Point ℚ) : Point ℚ :=
  (presentationpoint-v.tweakedPosition).mul (pixelSizeFromZoom v.zoom)

end View

inductive SelectionType
  | grid
  | pixel

/-- The plugins that add a tool to each view. -/
inductive Plugin
  | pipette
  | measure
  deriving DecidableEq

namespace Plugin

def getSelectionType : Plugin → SelectionType
  | pipette => .pixel
  | measure => .grid

/-- The tweaker that the view finds for a handler of the plugin. -/
def tweakSelection (aspectRatio : Point ℚ) (selection : Selection) (plugin : Plugin) : Selection :=
  match plugin.getSelectionType with
  | .grid => TweakGridSelection.tweak aspectRatio selection
  | .pixel => TweakPixelSelection.tweak aspectRatio selection

end Plugin

/-- What a handler does for a selection: the job that it schedules, or the measurement that it displays. -/
inductive Report
  | computeValues (sel_rect : Rectangle ℚ)
  | displayMeasurement (tweaked : Selection)
  deriving DecidableEq

/-- `PipetteHandler` or `MeasureHandler` -/
structure Handler where
  plugin : Plugin
  enabled : Bool := false
  selection : Option Selection := none
  deriving DecidableEq

namespace Handler

def onEnable (h : Handler) : Handler := { h with enabled := true }

def onDisable (h : Handler) : Handler := { h with selection := none, enabled := false }

/-- In pixels of the current presentation, if there is one. Without one, a null pointer is dereferenced. -/
def displayMeasurement (presentation : Option (Point ℚ)) (selection : Selection) : Option Report := do
  let aspectRatio ← presentation
  return .displayMeasurement ⟨selection.start.divPoint aspectRatio,selection.stop.divPoint aspectRatio⟩

/-- `busy` is whether another thread has locked `jobMutex`, as in the next one. -/
def onSelectionUpdate (presentation : Option (Point ℚ)) (busy : Bool) (s : Selection) (h : Handler) :
    Option (Handler × Option Report) :=
  match h.plugin with
  | .pipette => some (if h.enabled && !busy then { h with selection := some s } else h,none)
  | .measure =>
    if h.enabled then (displayMeasurement presentation s).map fun report => ({ h with selection := some s },some report)
    else some (h,none)

def onSelectionEnd (presentation : Option (Point ℚ)) (busy : Bool) (s : Selection) (h : Handler) :
    Option (Handler × Option Report) :=
  match h.plugin with
  | .pipette =>
    some (if h.enabled && !busy then ({ h with selection := some s },some (.computeValues s.toRectangle)) else (h,none))
  | .measure =>
    if h.enabled then (displayMeasurement presentation s).map fun report => ({ h with selection := some s },some report)
    else some (h,none)

def render (v : View) (h : Handler) : Option Selection :=
  h.selection.map fun s => ⟨v.presentationPointToWindowPoint s.start,v.presentationPointToWindowPoint s.stop⟩

end Handler

/-- A tool's button, with the number of its handler -/
structure Tool where
  button : ℕ
  active : Bool := false
  sensitive : Bool := true
  deriving DecidableEq

/-- A view with its tools, which are in the order of the addresses of their buttons. The handlers are in the order in
which they were registered as selection listeners and post renderers. The last two fields record what the handlers
did for selections and how they were told that they are enabled or disabled, each with the handler's number. -/
structure Window where
  view : View
  hasPresentation : Bool := false
  tools : List Tool := []
  handlers : List Handler := []
  selection : Option Selection := none
  reports : List (ℕ × Report) := []
  calls : List (ℕ × Bool) := []

namespace Window

def setTool (button : ℕ) (f : Tool → Tool) (tools : List Tool) : List Tool :=
  tools.map fun t => if t.button = button then f t else t

def onEnable (button : ℕ) (w : Window) : Window :=
  { w with handlers := w.handlers.modify button .onEnable, calls := w.calls ++ [(button,true)] }

def onDisable (button : ℕ) (w : Window) : Window :=
  { w with handlers := w.handlers.modify button .onDisable, calls := w.calls ++ [(button,false)] }

/-- The body of the loop over the tools. The button's own signal finds it no longer active. -/
def deactivate (button : ℕ) (w : Window) (tool : Tool) : Window :=
  if tool.button ≠ button ∧ tool.active then
    onDisable tool.button
      { w with tools := setTool tool.button (fun t => { t with active := false, sensitive := true }) w.tools }
  else w

def toolButtonToggled (button : ℕ) (w : Window) : Window :=
  if w.tools.any fun t => t.button = button && t.active then
    let w := w.tools.foldl (deactivate button) w
    onEnable button { w with tools := setTool button (fun t => { t with sensitive := false }) w.tools }
  else w

/-- The new button comes after the first `i` others. -/
def addToolButton (i button : ℕ) (w : Window) : Window :=
  let w := { w with tools := w.tools.take i ++ (⟨button,false,true⟩ : Tool)::w.tools.drop i }
  if w.tools.length = 1 then
    let w := toolButtonToggled button { w with tools := setTool button (fun t => { t with active := true }) w.tools }
    onEnable button { w with tools := setTool button (fun t => { t with sensitive := false }) w.tools }
  else { w with tools := setTool button (fun t => { t with active := false, sensitive := true }) w.tools }

/-- The plugin registers a handler and adds its button. -/
def viewAdded (plugin : Plugin) (i : ℕ) (w : Window) : Window :=
  addToolButton i w.handlers.length { w with handlers := w.handlers ++ [{ plugin }] }

def click (button : ℕ) (w : Window) : Window :=
  if w.tools.any fun t => t.button = button && t.sensitive then
    toolButtonToggled button { w with tools := setTool button (fun t => { t with active := !t.active }) w.tools }
  else w

def presentation (w : Window) : Option (Point ℚ) := if w.hasPresentation then some w.view.aspectRatio.ratio else none

/-- The body of the loop over the selection listeners. -/
def tell (listener : ℕ → Handler → Option (Handler × Option Report)) (w : Window) (i : ℕ) : Option Window := do
  let h ← w.handlers[i]?
  let (h,report) ← listener i h
  return { w with handlers := w.handlers.set i h, reports := w.reports ++ (report.map (i,·)).toList }

def notify (listener : ℕ → Handler → Option (Handler × Option Report)) (w : Window) : Option Window :=
  (List.range w.handlers.length).foldlM (tell listener) w

/-- For button 3, as the next two. -/
def on_buttonPress (point : Point ℚ) (w : Window) : Window :=
  let point := w.view.windowPointToPresentationPoint point
  { w with selection := some ⟨point,point⟩ }

def on_buttonRelease (point : Point ℚ) (busy : ℕ → Bool) (w : Window) : Option Window :=
  match w.selection with
  | none => some w
  | some s =>
    let s := { s with stop := w.view.windowPointToPresentationPoint point }
    notify (fun i h => h.onSelectionEnd w.presentation (busy i)
      (h.plugin.tweakSelection w.view.aspectRatio.ratio s)) { w with selection := some s }

/-- A view that is dragged with button 1 leaves the selection alone. -/
def on_motion_notify (button1 : Bool) (mousePos : Point ℚ) (scrollbarSignals textboxSignals : List Signal)
    (busy : ℕ → Bool) (w : Window) : Option Window :=
  if button1 && w.view.modifiermove then
    (w.view.on_motion_notify button1 mousePos scrollbarSignals textboxSignals).map fun view => { w with view }
  else match w.selection with
  | none => some w
  | some s =>
    let s := { s with stop := w.view.windowPointToPresentationPoint mousePos }
    notify (fun i h => h.onSelectionUpdate w.presentation (busy i)
      (h.plugin.tweakSelection w.view.aspectRatio.ratio s)) { w with selection := some s }

/-- The updates of the widgets are left to further events. -/
def setPresentation (aspectRatio : AspectRatio) (w : Window) : Window :=
  let position := ((-Point.ofInt w.view.drawingAreaSize).div (View.pixelSizeFromZoom 0)).div 2
  { w with
    view := { w.view with aspectRatio, zoom := 0, position := w.view.position.set position }
    hasPresentation := true }

def clearPresentation (w : Window) : Window :=
  let position := ((-Point.ofInt w.view.drawingAreaSize).div (View.pixelSizeFromZoom 0)).div 2
  { w with view := { w.view with zoom := 0, position := w.view.position.set position }, hasPresentation := false }

/-- What happens to a window: a plugin adds its tool, the user clicks a button or selects with button 3, something
else happens to the view, or its presentation changes. -/
inductive Action
  | viewAdded (plugin : Plugin) (i : ℕ)
  | click (button : ℕ)
  | buttonPress (point : Point ℚ)
  | buttonRelease (point : Point ℚ) (busy : ℕ → Bool)
  | motion (button1 : Bool) (mousePos : Point ℚ) (scrollbarSignals textboxSignals : List Signal) (busy : ℕ → Bool)
  | event (e : View.Event)
  | setPresentation (aspectRatio : AspectRatio)
  | clearPresentation

namespace Action

/-- Button 3 is released or held down while the pointer moves, and button 1 does not drag the view. -/
def Selects (view : View) : Action → Prop
  | buttonRelease _ _ => True
  | motion button1 _ _ _ _ => ¬(button1 && view.modifiermove)
  | _ => False

def Presses : Action → Prop
  | buttonPress _ => True
  | _ => False

end Action

def step (w : Window) : Action → Option Window
  | .viewAdded plugin i => some (w.viewAdded plugin i)
  | .click button => some (w.click button)
  | .buttonPress point => some (w.on_buttonPress point)
  | .buttonRelease point busy => w.on_buttonRelease point busy
  | .motion button1 mousePos scrollbarSignals textboxSignals busy =>
    w.on_motion_notify button1 mousePos scrollbarSignals textboxSignals busy
  | .event e => (w.view.step e).map fun view => { w with view }
  | .setPresentation aspectRatio => some (w.setPresentation aspectRatio)
  | .clearPresentation => some w.clearPresentation

def create (drawingAreaSize : Point ℤ) : Window where
  view := ⟨⟨⟨0,0⟩,0⟩,0,drawingAreaSize,⟨⟨1,1⟩,one_pos,one_pos⟩,false,⟨0,0⟩,[]⟩

/-- What the post renderers draw. -/
def redraw (w : Window) : List Selection :=
  if w.hasPresentation then w.handlers.filterMap fun h => h.render w.view else []

end Window

/-- One tool at a time: the abstract view has tools of which one is active, and at most one selection to show. -/
structure Session where
  view : View
  hasPresentation : Bool := false
  plugins : List Plugin := []
  active : Option ℕ := none
  dragged : Option Selection := none
  shown : Option Selection := none
  reports : List (ℕ × Report) := []
  calls : List (ℕ × Bool) := []

namespace Session

/-- The first tool is active at once. It is told so twice. -/
def viewAdded (plugin : Plugin) (s : Session) : Session :=
  if s.plugins = [] then { s with plugins := [plugin], active := some 0, calls := s.calls ++ [(0,true),(0,true)] }
  else { s with plugins := s.plugins ++ [plugin] }

def click (button : ℕ) (s : Session) : Session :=
  match s.active with
  | none => s
  | some i =>
    if button ≠ i ∧ button < s.plugins.length then
      { s with active := some button, shown := none, calls := s.calls ++ [(i,false),(button,true)] }
    else s

def buttonPress (point : Point ℚ) (s : Session) : Session :=
  let point := s.view.windowPointToPresentationPoint point
  { s with dragged := some ⟨point,point⟩ }

/-- The active tool shows the selection and reports what it has to; the pipette does so only when it is not busy, and
reports only finished selections. Measuring fails without a presentation. -/
def useTool (finished : Bool) (busy : ℕ → Bool) (dragged : Selection) (i : ℕ) (plugin : Plugin) (s : Session) :
    Option Session :=
  let tweaked := plugin.tweakSelection s.view.aspectRatio.ratio dragged
  match plugin with
  | .pipette => some (
    if busy i then s
    else if finished then
      { s with shown := some tweaked, reports := s.reports ++ [(i,.computeValues tweaked.toRectangle)] }
    else { s with shown := some tweaked })
  | .measure =>
    if s.hasPresentation then
      let measured : Selection :=
        ⟨tweaked.start.divPoint s.view.aspectRatio.ratio,tweaked.stop.divPoint s.view.aspectRatio.ratio⟩
      some { s with shown := some tweaked, reports := s.reports ++ [(i,.displayMeasurement measured)] }
    else none

def select (finished : Bool) (busy : ℕ → Bool) (point : Point ℚ) (s : Session) : Option Session :=
  match s.dragged with
  | none => some s
  | some dragged =>
    let dragged := { dragged with stop := s.view.windowPointToPresentationPoint point }
    match s.active with
    | none => some { s with dragged := some dragged }
    | some i =>
      match s.plugins[i]? with
      | none => some { s with dragged := some dragged }
      | some plugin => useTool finished busy dragged i plugin { s with dragged := some dragged }

def present (hasPresentation : Bool) (view : View) (s : Session) : Session :=
  let position := ((-Point.ofInt view.drawingAreaSize).div (View.pixelSizeFromZoom 0)).div 2
  { s with view := { view with zoom := 0, position := view.position.set position }, hasPresentation }

def step (s : Session) : Window.Action → Option Session
  | .viewAdded plugin _ => some (s.viewAdded plugin)
  | .click button => some (s.click button)
  | .buttonPress point => some (s.buttonPress point)
  | .buttonRelease point busy => s.select true busy point
  | .motion button1 mousePos scrollbarSignals textboxSignals busy =>
    if button1 && s.view.modifiermove then
      (s.view.on_motion_notify button1 mousePos scrollbarSignals textboxSignals).map fun view => { s with view }
    else s.select false busy mousePos
  | .event e => (s.view.step e).map fun view => { s with view }
  | .setPresentation aspectRatio => some (s.present true { s.view with aspectRatio })
  | .clearPresentation => some (s.present false s.view)

def create (drawingAreaSize : Point ℤ) : Session where
  view := (Window.create drawingAreaSize).view

def redraw (s : Session) : List Selection :=
  if s.hasPresentation then (s.shown.map fun selection => ⟨s.view.presentationPointToWindowPoint selection.start,
    s.view.presentationPointToWindowPoint selection.stop⟩).toList
  else []

/-- The button of the active tool is pressed, and is the one that cannot be clicked. -/
def tool (s : Session) (button : ℕ) : Tool := ⟨button,s.active = some button,s.active ≠ some button⟩

/-- The handler of the active tool is enabled, and is the only one to have a selection. -/
def handler (s : Session) (i : ℕ) (plugin : Plugin) : Handler :=
  ⟨plugin,s.active = some i,if s.active = some i then s.shown else none⟩

/-- The window that a session stands for, with its buttons in a certain order. -/
def window (order : List ℕ) (s : Session) : Window where
  view := s.view
  hasPresentation := s.hasPresentation
  tools := order.map s.tool
  handlers := s.plugins.mapIdx s.handler
  selection := s.dragged
  reports := s.reports
  calls := s.calls

/-- There is an active tool as soon as there are tools, and only it shows anything. -/
structure Valid (s : Session) : Prop where
  active : ∀ i, s.active = some i → i < s.plugins.length
  exists_active : s.plugins ≠ [] → s.active ≠ none
  shown : s.active = none → s.shown = none

section Select
variable {s : Session} {dragged : Selection} {finished : Bool} {busy : ℕ → Bool} {point : Point ℚ}

theorem select_of_none (hd : s.dragged = none) : s.select finished busy point = some s := by
  rw [select,hd]

theorem select_of_inactive (hd : s.dragged = some dragged) (hi : s.active = none) :
    s.select finished busy point =
      some { s with dragged := some { dragged with stop := s.view.windowPointToPresentationPoint point } } := by
  rw [select,hd]
  dsimp only
  split
  · rfl
  · rename_i i h
    exact absurd (hi.symm.trans h) (Option.some_ne_none i).symm

theorem select_of_active {i : ℕ} {plugin : Plugin} (hd : s.dragged = some dragged) (hi : s.active = some i)
    (hplugin : s.plugins[i]? = some plugin) : s.select finished busy point =
      useTool finished busy { dragged with stop := s.view.windowPointToPresentationPoint point } i plugin
        { s with dragged := some { dragged with stop := s.view.windowPointToPresentationPoint point } } := by
  rw [select,hd]
  dsimp only
  split
  · rename_i h
    exact absurd (hi.symm.trans h) (Option.some_ne_none i)
  · rename_i j h
    obtain rfl : i = j := Option.some.inj (hi.symm.trans h)
    rw [hplugin]

theorem useTool_frame {i : ℕ} {plugin : Plugin} {t : Session} (h : useTool finished busy dragged i plugin s = some t) :
    t.view = s.view ∧ t.dragged = s.dragged := by
  cases plugin with
  | pipette =>
    simp only [useTool,Option.some.injEq] at h
    split_ifs at h <;> subst h <;> exact ⟨rfl,rfl⟩
  | measure =>
    simp only [useTool] at h
    split_ifs at h
    obtain rfl := Option.some.inj h
    exact ⟨rfl,rfl⟩

theorem select_frame {t : Session} (h : s.select finished busy point = some t) : t.view = s.view ∧
    t.dragged = s.dragged.map fun dragged =>
      { dragged with stop := s.view.windowPointToPresentationPoint point } := by
  rw [select] at h
  split at h
  · rename_i hd
    obtain rfl := Option.some.inj h
    exact ⟨rfl,by rw [hd]; rfl⟩
  · rename_i dragged hd
    dsimp only at h
    rw [hd]
    split at h
    · obtain rfl := Option.some.inj h
      exact ⟨rfl,rfl⟩
    · split at h
      · obtain rfl := Option.some.inj h
        exact ⟨rfl,rfl⟩
      · exact useTool_frame h

end Select

/-- The view stays unlocked, and its handlers never fail. -/
theorem settled_step {s t : Session} {a : Window.Action} (hs : s.view.Settled) (h : s.step a = some t) :
    t.view.Settled := by
  cases a with
  | viewAdded plugin i =>
    obtain rfl := Option.some.inj h
    rw [viewAdded]
    split_ifs <;> exact hs
  | click button =>
    obtain rfl := Option.some.inj h
    rw [click]
    split
    · exact hs
    · split_ifs <;> exact hs
  | buttonPress point =>
    obtain rfl := Option.some.inj h
    exact hs
  | buttonRelease point busy => exact (select_frame h).1 ▸ hs
  | motion button1 mousePos signals signals' busy =>
    rw [step] at h
    split_ifs at h
    · obtain ⟨view,hview,rfl⟩ := Option.map_eq_some_iff.mp h
      obtain ⟨v,hv,hset,-⟩ := hs.motion button1 mousePos signals signals'
      exact Option.some.inj (hv.symm.trans hview) ▸ hset
    · exact (select_frame h).1 ▸ hs
  | event e =>
    obtain ⟨view,hview,rfl⟩ := Option.map_eq_some_iff.mp h
    obtain ⟨v,hv,hset,-⟩ := hs.step e
    exact Option.some.inj (hv.symm.trans hview) ▸ hset
  | setPresentation aspectRatio =>
    obtain rfl := Option.some.inj h
    exact ⟨(Freezable.locked_set _ _).trans hs.unlocked,hs.steady⟩
  | clearPresentation =>
    obtain rfl := Option.some.inj h
    exact ⟨(Freezable.locked_set _ _).trans hs.unlocked,hs.steady⟩

theorem step_start {s t : Session} {a : Window.Action} (ha : ¬a.Presses) (h : s.step a = some t) {dragged : Selection}
    (hd : s.dragged = some dragged) {start : Point ℚ} (hstart : dragged.start = start) :
    ∃ dragged, t.dragged = some dragged ∧ dragged.start = start := by
  have hselect : ∀ {finished busy point}, s.select finished busy point = some t →
      ∃ dragged, t.dragged = some dragged ∧ dragged.start = start := fun h =>
    ⟨_,(select_frame h).2.trans (congrArg _ hd),hstart⟩
  have hsame : t.dragged = s.dragged → ∃ dragged, t.dragged = some dragged ∧ dragged.start = start := fun h =>
    ⟨dragged,h.trans hd,hstart⟩
  cases a with
  | buttonPress point => exact absurd trivial ha
  | buttonRelease point busy => exact hselect h
  | motion button1 mousePos signals signals' busy =>
    rw [step] at h
    split_ifs at h
    · obtain ⟨view,-,rfl⟩ := Option.map_eq_some_iff.mp h
      exact hsame rfl
    · exact hselect h
  | viewAdded plugin i =>
    obtain rfl := Option.some.inj h
    refine hsame ?_
    rw [viewAdded]
    split_ifs <;> rfl
  | click button =>
    obtain rfl := Option.some.inj h
    refine hsame ?_
    rw [click]
    split
    · rfl
    · split_ifs <;> rfl
  | event e =>
    obtain ⟨view,-,rfl⟩ := Option.map_eq_some_iff.mp h
    exact hsame rfl
  | setPresentation aspectRatio =>
    obtain rfl := Option.some.inj h
    exact hsame rfl
  | clearPresentation =>
    obtain rfl := Option.some.inj h
    exact hsame rfl

/-- Only measuring fails, where there is no presentation. -/
theorem step_eq_none_iff {s : Session} (hv : s.Valid) (hs : s.view.Settled) (a : Window.Action) : s.step a = none ↔
    a.Selects s.view ∧ s.dragged ≠ none ∧ s.hasPresentation = false ∧
      ∃ i, s.active = some i ∧ s.plugins[i]? = some .measure := by
  have hselect : ∀ finished busy point, s.select finished busy point = none ↔
      s.dragged ≠ none ∧ s.hasPresentation = false ∧ ∃ i, s.active = some i ∧ s.plugins[i]? = some .measure := by
    intro finished busy point
    cases hd : s.dragged with
    | none => simp [select_of_none hd]
    | some dragged =>
      cases hi : s.active with
      | none => simp [select_of_inactive hd hi]
      | some i =>
        cases hplugin : s.plugins[i]? with
        | none =>
          rw [List.getElem?_eq_getElem (hv.active i hi)] at hplugin
          exact absurd hplugin (Option.some_ne_none _)
        | some plugin =>
          rw [select_of_active hd hi hplugin]
          cases plugin with
          | pipette => simp [useTool,hplugin]
          | measure => simp [useTool,hplugin]
  cases a with
  | buttonRelease point busy => simpa [step,Window.Action.Selects] using hselect true busy point
  | motion button1 mousePos signals signals' busy =>
    rw [step]
    split_ifs with hdrag
    · obtain ⟨v,hv,-⟩ := hs.motion button1 mousePos signals signals'
      simp [hv,Window.Action.Selects,hdrag]
    · simpa [Window.Action.Selects,hdrag] using hselect false busy mousePos
  | event e =>
    obtain ⟨v,hv,-⟩ := hs.step e
    simp [step,hv,Window.Action.Selects]
  | viewAdded plugin i => simp [step,Window.Action.Selects]
  | click button => simp [step,Window.Action.Selects]
  | buttonPress point => simp [step,Window.Action.Selects]
  | setPresentation aspectRatio => simp [step,Window.Action.Selects]
  | clearPresentation => simp [step,Window.Action.Selects]

end Session

namespace Window
open Session Transitions

/-- The window is that of the session. -/
structure Shows (w : Window) (s : Session) : Prop where
  window : ∃ order, order.Perm (List.range s.plugins.length) ∧ w = s.window order
  valid : s.Valid

variable {w : Window} {s : Session} {order : List ℕ}

theorem setTool_map {b : ℕ} {f : Tool → Tool} {g : ℕ → Tool} (hg : ∀ c, (g c).button = c) :
    setTool b f (order.map g) = order.map fun c => if c = b then f (g c) else g c := by
  simp [setTool,hg,Function.comp_def]

/-- Only one other tool is active. -/
theorem foldl_deactivate {a b : ℕ} {tools : List Tool} {t : Tool} (ht : t ∈ tools) (hbutton : t.button = a)
    (hab : a ≠ b) (hactive : t.active = true) (hother : ∀ u ∈ tools, u.button ≠ b → u.active = true → u = t)
    (hnodup : tools.Nodup) (w : Window) : tools.foldl (deactivate b) w =
      onDisable a { w with tools := setTool a (fun t => { t with active := false, sensitive := true }) w.tools } := by
  have hskip : ∀ (l : List Tool) (w : Window), (∀ u ∈ l, u ∈ tools ∧ u ≠ t) → l.foldl (deactivate b) w = w := by
    intro l w hl
    induction l with
    | nil => rfl
    | cons u l ih =>
      obtain ⟨hu,hut⟩ := hl u List.mem_cons_self
      rw [List.foldl_cons,deactivate,if_neg fun h => hut (hother u hu h.1 h.2)]
      exact ih fun u hu => hl u (List.mem_cons_of_mem _ hu)
  obtain ⟨l,l',rfl⟩ := List.append_of_mem ht
  rw [List.nodup_middle,List.nodup_cons,List.mem_append,not_or] at hnodup
  rw [List.foldl_append,List.foldl_cons,hskip l w fun u hu => ⟨by simp [hu],fun h => hnodup.1.1 (h ▸ hu)⟩,
    hskip l' _ fun u hu => ⟨by simp [hu],fun h => hnodup.1.2 (h ▸ hu)⟩,deactivate,
    if_pos ⟨by rwa [hbutton],hactive⟩,hbutton]

theorem toolButtonToggled_eq {a b : ℕ} {active sensitive : ℕ → Bool} (hn : order.Nodup) (ha : a ∈ order)
    (hb : b ∈ order) (hab : a ≠ b) (hactive : ∀ c ∈ order, active c = true ↔ c = a ∨ c = b)
    (hw : w.tools = order.map fun c => ⟨c,active c,sensitive c⟩) : toolButtonToggled b w = { w with
      tools := order.map fun c => ⟨c,c = b,if c = b then false else if c = a then true else sensitive c⟩
      handlers := (w.handlers.modify a .onDisable).modify b .onEnable
      calls := w.calls ++ [(a,false),(b,true)] } := by
  have hany : (w.tools.any fun t => t.button = b && t.active) = true := by
    rw [hw,List.any_eq_true]
    exact ⟨_,List.mem_map_of_mem hb,by simp [(hactive b hb).mpr (Or.inr rfl)]⟩
  have hfold : w.tools.foldl (deactivate b) w =
      onDisable a { w with tools := setTool a (fun t => { t with active := false, sensitive := true }) w.tools } := by
    refine foldl_deactivate (t := ⟨a,active a,sensitive a⟩) ?_ rfl hab ((hactive a ha).mpr (Or.inl rfl)) ?_ ?_ w
    · rw [hw]
      exact List.mem_map_of_mem ha
    · intro u hu hub hua
      rw [hw] at hu
      obtain ⟨c,hc,rfl⟩ := List.mem_map.mp hu
      obtain rfl : c = a := ((hactive c hc).mp hua).resolve_right hub
      rfl
    · rw [hw]
      exact hn.map fun c d h => congrArg Tool.button h
  rw [toolButtonToggled,if_pos hany]
  dsimp only
  rw [hfold,onDisable,onEnable,hw]
  dsimp only
  rw [setTool_map fun _ => rfl,setTool_map (by intro c; dsimp only; split_ifs <;> rfl),List.append_assoc]
  congr 1
  refine List.map_congr_left fun c hc => ?_
  by_cases hcb : c = b
  · subst hcb
    simp [Ne.symm hab,(hactive c hc).mpr (Or.inr rfl)]
  · by_cases hca : c = a
    · subst hca
      simp [hcb]
    · have hno : active c = false := Bool.eq_false_iff.mpr fun h => ((hactive c hc).mp h).elim hca hcb
      simp [hcb,hca,hno]

/-- The handlers, when the first tool is disabled and the second one enabled -/
theorem handlers_switch {a b : ℕ} (hab : a ≠ b) (hs : s.active = some a) (t : Session) (ht : t.plugins = s.plugins)
    (hactive : t.active = some b) (hshown : t.shown = none) :
    ((s.plugins.mapIdx s.handler).modify a .onDisable).modify b .onEnable = t.plugins.mapIdx t.handler := by
  refine List.ext_getElem? fun i => ?_
  rw [List.getElem?_modify,List.getElem?_modify,List.getElem?_mapIdx,List.getElem?_mapIdx,ht]
  cases s.plugins[i]? with
  | none => rfl
  | some plugin =>
    by_cases hib : b = i
    · subst hib
      simp [handler,hs,hactive,hshown,hab,Handler.onEnable]
    · by_cases hia : a = i
      · subst hia
        simp [handler,hs,hactive,hib,Handler.onDisable]
      · simp [handler,hs,hactive,hib,hia]

theorem Shows.click (h : Shows w s) (b : ℕ) : Shows (w.click b) (s.click b) := by
  obtain ⟨⟨order,hp,rfl⟩,hv⟩ := h
  have hn : order.Nodup := hp.nodup_iff.mpr List.nodup_range
  have hmem : ∀ c, c ∈ order ↔ c < s.plugins.length := fun c => by rw [hp.mem_iff,List.mem_range]
  have hany : ((s.window order).tools.any fun t => t.button = b && t.sensitive) = true ↔
      b < s.plugins.length ∧ s.active ≠ some b := by
    rw [List.any_eq_true,← hmem]
    constructor
    · rintro ⟨t,ht,hb⟩
      obtain ⟨c,hc,rfl⟩ := List.mem_map.mp ht
      obtain ⟨rfl,hsens⟩ : c = b ∧ s.active ≠ some c := by simpa [Session.tool] using hb
      exact ⟨hc,hsens⟩
    · rintro ⟨hb,hsens⟩
      exact ⟨_,List.mem_map_of_mem hb,by simp [Session.tool,hsens]⟩
  by_cases hc : b < s.plugins.length ∧ s.active ≠ some b
  · obtain ⟨hb,hsens⟩ := hc
    obtain ⟨a,ha⟩ := Option.ne_none_iff_exists'.mp (hv.exists_active (List.ne_nil_of_length_pos (by omega)))
    have hab : a ≠ b := fun h => hsens (by rw [ha,h])
    have hclick : s.click b = { s with active := some b, shown := none, calls := s.calls ++ [(a,false),(b,true)] } := by
      rw [Session.click,ha]
      exact if_pos ⟨hab.symm,hb⟩
    rw [Window.click,if_pos (hany.mpr ⟨hb,hsens⟩),hclick]
    have htools : setTool b (fun t => { t with active := !t.active }) (s.window order).tools =
        order.map fun c => (⟨c,c = a || c = b,!decide (c = a)⟩ : Tool) := by
      rw [Session.window,setTool_map fun _ => rfl]
      refine List.map_congr_left fun c _ => ?_
      by_cases hcb : c = b
      · subst hcb
        simp [Session.tool,ha,hab,Ne.symm hab]
      · simp [Session.tool,ha,hcb,eq_comm]
    rw [toolButtonToggled_eq hn ((hmem a).mpr (hv.active a ha)) ((hmem b).mpr hb) hab (by simp) htools]
    refine ⟨⟨order,hp,?_⟩,⟨fun i hi => Option.some.inj hi ▸ hb,fun _ => Option.some_ne_none _,fun _ => rfl⟩⟩
    simp only [Session.window]
    congr 1
    · refine List.map_congr_left fun c _ => ?_
      by_cases hcb : c = b
      · subst hcb
        simp [Session.tool]
      · by_cases hca : c = a
        · subst hca
          simp [Session.tool,hcb,Ne.symm hcb]
        · simp [Session.tool,hcb,Ne.symm hcb,hca]
    · exact handlers_switch hab ha _ rfl rfl rfl
  · have hclick : s.click b = s := by
      rw [Session.click]
      split
      · rfl
      · rename_i i hi
        exact if_neg fun h => hc ⟨h.2,fun hb => h.1 (Option.some.inj (hb.symm.trans hi))⟩
    rw [Window.click,if_neg (hany.not.mpr hc),hclick]
    exact ⟨⟨order,hp,rfl⟩,hv⟩

theorem Shows.viewAdded (h : Shows w s) (plugin : Plugin) (i : ℕ) :
    Shows (w.viewAdded plugin i) (s.viewAdded plugin) := by
  obtain ⟨⟨order,hp,rfl⟩,hv⟩ := h
  by_cases hnil : s.plugins = []
  · have horder : order = [] := by
      rw [hnil] at hp
      exact hp.eq_nil
    have hactive : s.active = none := by
      refine Option.eq_none_iff_forall_ne_some.mpr fun a ha => ?_
      have hlt := hv.active a ha
      simp [hnil] at hlt
    subst horder
    rw [Session.viewAdded,if_pos hnil]
    refine ⟨⟨[0],.refl _,?_⟩,⟨by simp,by simp,by simp⟩⟩
    simp [Window.viewAdded,addToolButton,Session.window,hnil,setTool,toolButtonToggled,deactivate,onEnable,
      Session.tool,handler,Handler.onEnable,hv.shown hactive]
  · have hn : s.active ≠ some s.plugins.length := fun h => (hv.active _ h).false
    have hlen : order.length = s.plugins.length := hp.length_eq.trans List.length_range
    have hpos := List.length_pos_iff.mpr hnil
    rw [Session.viewAdded,if_neg hnil]
    refine ⟨⟨order.take i ++ s.plugins.length::order.drop i,?_,?_⟩,
      ⟨fun a ha => by simpa using Nat.lt_succ_of_lt (hv.active a ha),fun _ => hv.exists_active hnil,hv.shown⟩⟩
    · rw [List.length_append,List.length_singleton,List.range_succ]
      calc (order.take i ++ s.plugins.length::order.drop i).Perm (s.plugins.length::(order.take i ++ order.drop i)) :=
            List.perm_middle
        _ = s.plugins.length::order := by rw [List.take_append_drop]
        List.Perm _ (order ++ [s.plugins.length]) := (List.perm_append_singleton _ _).symm
        List.Perm _ (List.range s.plugins.length ++ [s.plugins.length]) := hp.append_right _
    · have hmany : ((s.window order).tools.take i ++ (⟨s.plugins.length,false,true⟩ : Tool)::
          (s.window order).tools.drop i).length ≠ 1 := by
        simp only [Session.window,List.length_append,List.length_cons,List.length_take,List.length_drop,List.length_map]
        omega
      have htools : (s.window order).tools.take i ++ (⟨s.plugins.length,false,true⟩ : Tool)::
          (s.window order).tools.drop i = (order.take i ++ s.plugins.length::order.drop i).map s.tool := by
        simp [Session.window,Session.tool,hn]
      rw [Window.viewAdded,addToolButton]
      dsimp only
      rw [if_neg (by simpa [Session.window] using hmany)]
      have hlength : (s.window order).handlers.length = s.plugins.length := by simp [Session.window]
      rw [hlength,htools,setTool_map fun _ => rfl]
      simp only [Session.window]
      congr 1
      · refine List.map_congr_left fun c _ => ?_
        split_ifs with hc
        · subst hc
          simp [Session.tool,hn]
        · rfl
      · rw [List.mapIdx_concat]
        simp only [handler,hn,decide_false,if_false]
        rfl

/-- The handlers that are not enabled have nothing to say, so that only the active one counts. -/
theorem notify_eq {listener : ℕ → Handler → Option (Handler × Option Report)} {i : ℕ}
    (hidle : ∀ k h, h.enabled = false → listener k h = some (h,none)) (hi : s.active = some i)
    (hlt : i < s.plugins.length) (hw : w.handlers = s.plugins.mapIdx s.handler) :
    notify listener w = tell listener w i := by
  have hlength : w.handlers.length = s.plugins.length := by simp [hw]
  refine Loops.foldlM_range_one (hlength ▸ hlt) fun k hk hne t ht => ?_
  have hhandlers : ∀ d, d = w ∨ tell listener w i = some d → d.handlers[k]? = w.handlers[k]? := by
    rintro d (rfl | hd)
    · rfl
    · simp only [tell,Option.bind_eq_bind,Option.bind_eq_some_iff,Option.pure_def,Option.some.injEq] at hd
      obtain ⟨h,-,r,-,rfl⟩ := hd
      exact List.getElem?_set_ne hne.symm
  obtain ⟨plugin,hplugin⟩ : ∃ plugin, s.plugins[k]? = some plugin := ⟨_,List.getElem?_eq_getElem (by omega)⟩
  have hidlek : t.handlers[k]? = some (s.handler k plugin) := by
    rw [hhandlers t ht,hw,List.getElem?_mapIdx,hplugin]
    rfl
  have hdisabled : (s.handler k plugin).enabled = false := by
    simp [handler,hi,hne.symm]
  rw [tell,hidlek]
  simp only [Option.bind_eq_bind,Option.bind_some,hidle k _ hdisabled,Option.map_none,Option.toList_none,
    List.append_nil,Option.pure_def,Option.some.injEq]
  obtain ⟨hkt,hget⟩ := List.getElem?_eq_some_iff.mp hidlek
  rw [← hget,List.set_getElem_self]

theorem handlers_set {i : ℕ} {plugin : Plugin} (hplugin : s.plugins[i]? = some plugin) (hi : s.active = some i)
    (t : Session) (ht : t.plugins = s.plugins) (hactive : t.active = some i) :
    (s.plugins.mapIdx s.handler).set i ⟨plugin,true,t.shown⟩ = t.plugins.mapIdx t.handler := by
  refine List.ext_getElem? fun k => ?_
  rw [List.getElem?_set,List.getElem?_mapIdx,List.getElem?_mapIdx,ht,List.length_mapIdx]
  by_cases hik : i = k
  · subst hik
    rw [if_pos rfl,if_pos (List.getElem?_eq_some_iff.mp hplugin).1,hplugin]
    simp [handler,hactive]
  · cases s.plugins[k]? <;> simp [handler,hi,hactive,hik]

theorem tell_active {i : ℕ} {plugin : Plugin} (hp : order.Perm (List.range s.plugins.length)) (hv : s.Valid)
    (hplugin : s.plugins[i]? = some plugin) (hi : s.active = some i) (finished : Bool) (busy : ℕ → Bool)
    (dragged : Selection) :
    Option.Rel Shows (tell (fun k h => if finished then h.onSelectionEnd (s.window order).presentation (busy k)
        (h.plugin.tweakSelection s.view.aspectRatio.ratio dragged)
      else h.onSelectionUpdate (s.window order).presentation (busy k)
        (h.plugin.tweakSelection s.view.aspectRatio.ratio dragged)) (s.window order) i)
      (s.useTool finished busy dragged i plugin) := by
  have hget : (s.window order).handlers[i]? = some ⟨plugin,true,s.shown⟩ := by
    simp [Session.window,hplugin,handler,hi]
  have hshows : ∀ t : Session, t.plugins = s.plugins → t.active = s.active → t.dragged = s.dragged → t.view = s.view →
      t.hasPresentation = s.hasPresentation → t.calls = s.calls →
      Shows { s.window order with
        handlers := (s.window order).handlers.set i ⟨plugin,true,t.shown⟩
        reports := t.reports } t := by
    intro t hplugins hactive hdragged hview hhas hcalls
    refine ⟨⟨order,hplugins ▸ hp,?_⟩,⟨fun a ha => hplugins ▸ hv.active a (hactive ▸ ha),fun h => ?_,fun h => ?_⟩⟩
    · have htool : s.tool = t.tool := funext fun b => by simp only [Session.tool,hactive]
      simp only [Session.window,handlers_set hplugin hi t hplugins (hactive.trans hi),hdragged,hview,hhas,hcalls,htool]
    · rw [hactive,hi]
      exact Option.some_ne_none i
    · exact absurd (hi.symm.trans (hactive.symm.trans h)) (Option.some_ne_none i)
  rw [tell,hget]
  simp only [Option.bind_eq_bind,Option.bind_some]
  cases plugin with
  | pipette =>
    cases hbusy : busy i <;> cases finished <;>
      simp only [Handler.onSelectionEnd,Handler.onSelectionUpdate,useTool,hbusy,if_true,if_false,Bool.not_true,
        Bool.not_false,Bool.and_true,Bool.and_false,Option.bind_some,Option.map_none,Option.map_some,Option.toList_none,
        Option.toList_some,Option.pure_def,Bool.false_eq_true,List.append_nil]
    · exact .some (hshows { s with shown := some _ } rfl rfl rfl rfl rfl rfl)
    · exact .some (hshows { s with shown := some _, reports := s.reports ++ [_] } rfl rfl rfl rfl rfl rfl)
    · exact .some (hshows s rfl rfl rfl rfl rfl rfl)
    · exact .some (hshows s rfl rfl rfl rfl rfl rfl)
  | measure =>
    by_cases hpresentation : s.hasPresentation = true
    · have hratio : (s.window order).presentation = some s.view.aspectRatio.ratio := if_pos hpresentation
      cases finished <;>
        simp only [Handler.onSelectionEnd,Handler.onSelectionUpdate,Handler.displayMeasurement,useTool,hratio,
          if_pos hpresentation,if_true,if_false,Bool.false_eq_true,Option.bind_eq_bind,Option.bind_some,Option.map_some,
          Option.toList_some,Option.pure_def] <;>
        exact .some (hshows { s with shown := some _, reports := s.reports ++ [_] } rfl rfl rfl rfl rfl rfl)
    · have hratio : (s.window order).presentation = none := if_neg hpresentation
      cases finished <;>
        simp only [Handler.onSelectionEnd,Handler.onSelectionUpdate,Handler.displayMeasurement,useTool,hratio,
          if_neg hpresentation,if_true,if_false,Bool.false_eq_true,Option.bind_eq_bind,Option.bind_none,
          Option.map_none] <;>
        exact .none

theorem Shows.select (h : Shows w s) (finished : Bool) (busy : ℕ → Bool) (point : Point ℚ) {dragged : Selection}
    (hdragged : w.selection = some dragged) :
    let dragged := { dragged with stop := w.view.windowPointToPresentationPoint point }
    Option.Rel Shows (notify (fun k h => if finished then h.onSelectionEnd w.presentation (busy k)
        (h.plugin.tweakSelection w.view.aspectRatio.ratio dragged)
      else h.onSelectionUpdate w.presentation (busy k) (h.plugin.tweakSelection w.view.aspectRatio.ratio dragged))
        { w with selection := some dragged })
      (s.select finished busy point) := by
  obtain ⟨⟨order,hp,rfl⟩,hv⟩ := h
  have hs : s.dragged = some dragged := hdragged
  intro dragged
  let t : Session := { s with dragged := some dragged }
  have ht : Shows (t.window order) t := ⟨⟨order,hp,rfl⟩,⟨hv.active,hv.exists_active,hv.shown⟩⟩
  cases hi : s.active with
  | none =>
    have hnil : s.plugins = [] := by_contra fun hnil => hv.exists_active hnil hi
    rw [select_of_inactive hs hi]
    have hlength : (t.window order).handlers.length = 0 := by simp [Session.window,t,hnil]
    change Option.Rel Shows (notify _ (t.window order)) (some t)
    rw [notify,hlength]
    exact .some ht
  | some i =>
    have hlt := hv.active i hi
    have hplugin := List.getElem?_eq_getElem hlt
    let listener : ℕ → Handler → Option (Handler × Option Report) := fun k h =>
      if finished then h.onSelectionEnd (s.window order).presentation (busy k)
        (h.plugin.tweakSelection s.view.aspectRatio.ratio dragged)
      else h.onSelectionUpdate (s.window order).presentation (busy k)
        (h.plugin.tweakSelection s.view.aspectRatio.ratio dragged)
    have hidle : ∀ k h, h.enabled = false → listener k h = some (h,none) := by
      intro k h hdisabled
      rcases h with ⟨_ | _,enabled,selection⟩ <;> cases finished <;>
        simp_all [listener,Handler.onSelectionEnd,Handler.onSelectionUpdate]
    have hnotify : notify listener (t.window order) = tell listener (t.window order) i :=
      notify_eq (s := t) hidle hi hlt rfl
    rw [select_of_active hs hi hplugin]
    exact hnotify.symm ▸ tell_active (s := t) hp ht.valid hplugin hi finished busy dragged

theorem Shows.withView (h : Shows w s) (view : View) (hasPresentation : Bool) :
    Shows { w with view, hasPresentation } { s with view, hasPresentation } := by
  obtain ⟨⟨order,hp,rfl⟩,hv⟩ := h
  exact ⟨⟨order,hp,rfl⟩,⟨hv.active,hv.exists_active,hv.shown⟩⟩

theorem Shows.view_eq (h : Shows w s) :
    w.view = s.view ∧ w.selection = s.dragged ∧ w.hasPresentation = s.hasPresentation := by
  obtain ⟨⟨order,hp,rfl⟩,hv⟩ := h
  exact ⟨rfl,rfl,rfl⟩

theorem Shows.map (h : Shows w s) (view : Option View) :
    Option.Rel Shows (view.map fun view => { w with view }) (view.map fun view => { s with view }) := by
  cases view with
  | none => exact .none
  | some view =>
    obtain ⟨⟨order,hp,rfl⟩,hv⟩ := h
    exact .some ⟨⟨order,hp,rfl⟩,⟨hv.active,hv.exists_active,hv.shown⟩⟩

theorem Shows.step (h : Shows w s) (a : Action) : Option.Rel Shows (step w a) (s.step a) := by
  obtain ⟨hview,hselection,hhas⟩ := h.view_eq
  cases a with
  | viewAdded plugin i => exact .some (h.viewAdded plugin i)
  | click button => exact .some (h.click button)
  | buttonPress point =>
    obtain ⟨⟨order,hp,rfl⟩,hv⟩ := h
    exact .some ⟨⟨order,hp,rfl⟩,⟨hv.active,hv.exists_active,hv.shown⟩⟩
  | buttonRelease point busy =>
    rw [Window.step,Session.step,on_buttonRelease]
    cases hd : w.selection with
    | none =>
      rw [select_of_none (hselection.symm.trans hd)]
      exact .some h
    | some dragged => exact h.select true busy point hd
  | motion button1 mousePos scrollbarSignals textboxSignals busy =>
    rw [Window.step,Session.step,on_motion_notify,hview]
    split_ifs with hdrag
    · exact h.map _
    · cases hd : w.selection with
      | none =>
        rw [select_of_none (hselection.symm.trans hd)]
        exact .some h
      | some dragged => exact hview ▸ h.select false busy mousePos hd
  | event e =>
    rw [Window.step,Session.step,hview]
    exact h.map _
  | setPresentation aspectRatio =>
    rw [Window.step,Session.step,setPresentation,hview]
    exact .some (h.withView _ _)
  | clearPresentation =>
    rw [Window.step,Session.step,clearPresentation,hview]
    exact .some (h.withView _ _)

theorem Shows.redraw_eq (h : Shows w s) : w.redraw = s.redraw := by
  obtain ⟨⟨order,hp,rfl⟩,hv⟩ := h
  rw [Window.redraw,Session.redraw]
  refine if_congr Iff.rfl ?_ rfl
  cases hi : s.active with
  | none =>
    have hnil : s.plugins = [] := by_contra fun hnil => hv.exists_active hnil hi
    simp [Session.window,hnil,hv.shown hi]
  | some i =>
    obtain ⟨plugin,hplugin⟩ : ∃ plugin, s.plugins[i]? = some plugin := ⟨_,List.getElem?_eq_getElem (hv.active i hi)⟩
    have hget : (s.window order).handlers[i]? = some ⟨plugin,true,s.shown⟩ := by
      simp only [Session.window,List.getElem?_mapIdx,hplugin,Option.map_some,handler,hi,decide_true,if_true]
    refine Loops.filterMap_one hget fun k y hk hne => ?_
    simp only [Session.window,List.getElem?_mapIdx,Option.map_eq_some_iff] at hk
    obtain ⟨plugin,-,rfl⟩ := hk
    simp [handler,Handler.render,hi,hne.symm]

theorem shows_create (drawingAreaSize : Point ℤ) : Shows (create drawingAreaSize) (Session.create drawingAreaSize) :=
  ⟨⟨[],.refl _,rfl⟩,⟨fun _ h => absurd h (Option.some_ne_none _).symm,fun h => absurd rfl h,fun _ => rfl⟩⟩

/-- A window shows its session throughout every run: one tool is active at a time, which is the one whose button is
pressed and cannot be clicked and whose handler is enabled, and only its selection is drawn. -/
theorem run_shows (drawingAreaSize : Point ℤ) (as : List Action) :
    Option.Rel (fun w s => Shows w s ∧ w.redraw = s.redraw) (run step as (create drawingAreaSize))
      (run Session.step as (Session.create drawingAreaSize)) := by
  have h := run_rel (R := Shows) (fun w s a h => h.step a) (shows_create drawingAreaSize) as
  generalize run step as (create drawingAreaSize) = w,run Session.step as (Session.create drawingAreaSize) = s at h
  cases h with
  | none => exact .none
  | some h => exact .some ⟨h,h.redraw_eq⟩

theorem exists_session {drawingAreaSize : Point ℤ} {as : List Action}
    (hr : run step as (create drawingAreaSize) = some w) : ∃ s, Shows w s ∧ s.view.Settled := by
  let I : Window → Prop := fun w => ∃ s, Shows w s ∧ s.view.Settled
  have hcreate : I (create drawingAreaSize) :=
    ⟨_,shows_create drawingAreaSize,⟨rfl,by simp [View.Steady,Session.create,create]⟩⟩
  refine run_invariant (fun w a d (hw : I w) hd => ?_) hcreate hr
  obtain ⟨s,hs,hset⟩ := hw
  have hstep := hs.step a
  rw [hd] at hstep
  generalize ht : s.step a = t at hstep
  cases hstep with
  | some h => exact ⟨_,h,settled_step hset ht⟩

/-- In every window that can be reached, whatever happens next happens, except that a handler fails: the one for
measuring, when its tool is active and a selection goes on without a presentation. -/
theorem step_fails_iff (drawingAreaSize : Point ℤ) (as : List Action) (w : Window)
    (hr : run step as (create drawingAreaSize) = some w) (a : Action) : step w a = none ↔
      a.Selects w.view ∧ w.selection ≠ none ∧ w.hasPresentation = false ∧
        ∃ h ∈ w.handlers, h.plugin = .measure ∧ h.enabled = true := by
  obtain ⟨s,hs,hset⟩ := exists_session hr
  obtain ⟨hview,hselection,hhas⟩ := hs.view_eq
  have hnone : step w a = none ↔ s.step a = none := by
    have hstep := hs.step a
    generalize step w a = d,s.step a = t at hstep
    cases hstep <;> simp
  have hmeasure : (∃ h ∈ w.handlers, h.plugin = .measure ∧ h.enabled = true) ↔
      ∃ i, s.active = some i ∧ s.plugins[i]? = some .measure := by
    obtain ⟨⟨order,-,rfl⟩,-⟩ := hs
    constructor
    · rintro ⟨h,hm,hp,he⟩
      obtain ⟨i,hi⟩ := List.mem_iff_getElem?.mp hm
      simp only [Session.window,List.getElem?_mapIdx,Option.map_eq_some_iff] at hi
      obtain ⟨plugin,hplugin,rfl⟩ := hi
      obtain rfl : plugin = .measure := hp
      exact ⟨i,of_decide_eq_true he,hplugin⟩
    · rintro ⟨i,hi,hplugin⟩
      refine ⟨s.handler i .measure,List.mem_iff_getElem?.mpr ⟨i,?_⟩,rfl,decide_eq_true hi⟩
      simp only [Session.window,List.getElem?_mapIdx,hplugin,Option.map_some]
  rw [hnone,step_eq_none_iff hs.valid hset,hmeasure,hview,hselection,hhas]

/-- A window that can only measure, and has nothing to measure -/
theorem step_fails_iff_measuring : ∃ w, run step [.viewAdded .measure 0,.viewAdded .pipette 0,.buttonPress ⟨5,6⟩]
    (create ⟨100,50⟩) = some w ∧ step w (.buttonRelease ⟨7,8⟩ fun _ => false) = none := by
  let started := run step [.viewAdded .measure 0,.viewAdded .pipette 0,.buttonPress ⟨5,6⟩] (create ⟨100,50⟩)
  have hr : started = some (started.get (by decide +kernel)) := (Option.some_get _).symm
  exact ⟨_,hr,(step_fails_iff ⟨100,50⟩ _ _ hr _).mpr ⟨trivial,by decide +kernel,by decide +kernel,by decide +kernel⟩⟩

/-- What a tool reports of a finished selection. -/
def report (aspectRatio : Point ℚ) (tweaked : Selection) : Plugin → Report
  | .pipette => .computeValues tweaked.toRectangle
  | .measure => .displayMeasurement ⟨tweaked.start.divPoint aspectRatio,tweaked.stop.divPoint aspectRatio⟩

/-- A selection from a point of the presentation ends: the enabled handler reports it with its ends tweaked, and draws
it there, unless it is a pipette that is busy. -/
structure Ends (start : Point ℚ) (w : Window) (point : Point ℚ) (busy : ℕ → Bool) (d : Window) : Prop where
  selection : d.selection = some ⟨start,w.view.windowPointToPresentationPoint point⟩
  handled : ∀ i h, w.handlers[i]? = some h → h.enabled = true →
    if h.plugin = .pipette ∧ busy i = true then d.reports = w.reports ∧ d.redraw = w.redraw
    else
      let tweaked := h.plugin.tweakSelection w.view.aspectRatio.ratio
        ⟨start,w.view.windowPointToPresentationPoint point⟩
      d.reports = w.reports ++ [(i,report w.view.aspectRatio.ratio tweaked h.plugin)] ∧
        (w.hasPresentation = true → d.redraw = [⟨w.view.presentationPointToWindowPoint tweaked.start,
          w.view.presentationPointToWindowPoint tweaked.stop⟩])

theorem Shows.reports_eq (h : Shows w s) : w.reports = s.reports := by
  obtain ⟨⟨order,-,rfl⟩,-⟩ := h
  rfl

theorem Shows.active_of_enabled (hs : Shows w s) {i : ℕ} {h : Handler} (hh : w.handlers[i]? = some h)
    (he : h.enabled = true) : s.active = some i ∧ s.plugins[i]? = some h.plugin := by
  obtain ⟨⟨order,-,rfl⟩,-⟩ := hs
  simp only [Session.window,List.getElem?_mapIdx,Option.map_eq_some_iff] at hh
  obtain ⟨plugin,hplugin,rfl⟩ := hh
  exact ⟨of_decide_eq_true he,hplugin⟩

theorem Shows.ends (hs : Shows w s) {dragged : Selection} (hd : w.selection = some dragged) {point : Point ℚ}
    {busy : ℕ → Bool} {d : Window} (h : Window.step w (.buttonRelease point busy) = some d) :
    Ends dragged.start w point busy d := by
  obtain ⟨hview,hselection,hhas⟩ := hs.view_eq
  have hds : s.dragged = some dragged := hselection.symm.trans hd
  obtain ⟨t,ht,hdt⟩ : ∃ t, s.select true busy point = some t ∧ Shows d t := by
    have hstep := hs.step (.buttonRelease point busy)
    rw [h] at hstep
    generalize ht : s.step (.buttonRelease point busy) = t at hstep
    cases hstep with
    | some hdt => exact ⟨_,ht,hdt⟩
  constructor
  · rw [hdt.view_eq.2.1,(select_frame ht).2,hds,hview]
    rfl
  · intro i h hh he
    obtain ⟨hi,hplugin⟩ := hs.active_of_enabled hh he
    rw [select_of_active hds hi hplugin] at ht
    rw [hdt.redraw_eq,hs.redraw_eq,hdt.reports_eq,hs.reports_eq,hview,hhas]
    cases hp : h.plugin with
    | pipette =>
      rw [hp] at ht
      simp only [useTool,Option.some.injEq] at ht
      cases hbusy : busy i with
      | true =>
        rw [if_pos hbusy] at ht
        subst ht
        simp [Session.redraw]
      | false =>
        simp only [hbusy,Bool.false_eq_true,if_false,if_true] at ht
        subst ht
        simp [Session.redraw,report]
    | measure =>
      rw [hp] at ht
      simp only [useTool] at ht
      split_ifs at ht with hpresentation
      obtain rfl := Option.some.inj ht
      simp [Session.redraw,report]

/-- Whatever happens after button 3 was pressed, the selection that ends goes from the point of the presentation that
was under the pointer then to the one that is under it now. -/
theorem selection_spans (drawingAreaSize : Point ℤ) (as : List Action) (w : Window)
    (hr : run step as (create drawingAreaSize) = some w) (p : Point ℚ) : Henceforth step (fun a => ¬a.Presses)
      (fun w' => ∀ q busy d, step w' (.buttonRelease q busy) = some d →
        Ends (w.view.windowPointToPresentationPoint p) w' q busy d) (w.on_buttonPress p) := by
  obtain ⟨s,hs,-⟩ := exists_session hr
  have hpress := hs.step (.buttonPress p)
  refine henceforth_of_inv (I := fun w' => (∃ s, Shows w' s) ∧
    ∃ dragged, w'.selection = some dragged ∧ dragged.start = w.view.windowPointToPresentationPoint p)
    (fun w' hw' q busy d hd => ?_) (fun w' a d hw' ha hd => ?_) ⟨?_,_,rfl,rfl⟩
  · obtain ⟨⟨t,ht⟩,dragged,hdragged,hstart⟩ := hw'
    exact hstart ▸ ht.ends hdragged hd
  · obtain ⟨⟨t,ht⟩,dragged,hdragged,hstart⟩ := hw'
    have hstep := ht.step a
    rw [hd] at hstep
    generalize hu : t.step a = u at hstep
    cases hstep with
    | some hdu =>
      refine ⟨⟨_,hdu⟩,?_⟩
      rw [hdu.view_eq.2.1]
      exact step_start ha hu (ht.view_eq.2.1 ▸ hdragged) hstart
  · cases hpress with
    | some h => exact ⟨_,h⟩

/-- A selection of pixels that are twice as wide as they are high, during which the view is scrolled -/
theorem selection_spans_scrolled : ∃ w d,
    run step [.viewAdded .pipette 0,.setPresentation ⟨⟨2,1⟩,by norm_num,by norm_num⟩] (create ⟨100,50⟩) = some w ∧
    run step [.event (.valueChanged (.scrollbar false 0 [])),.buttonRelease ⟨25,35⟩ fun _ => false]
      (w.on_buttonPress ⟨60,25⟩) = some d ∧ d.reports = [(0,.computeValues ⟨⟨10,16⟩,⟨0,10⟩⟩)] := by
  let started := run step [.viewAdded .pipette 0,.setPresentation ⟨⟨2,1⟩,by norm_num,by norm_num⟩] (create ⟨100,50⟩)
  let w := started.get (by decide +kernel)
  have hr : started = some w := (Option.some_get _).symm
  let scrolled := run step [.event (.valueChanged (.scrollbar false 0 []))] (w.on_buttonPress ⟨60,25⟩)
  let w' := scrolled.get (by decide +kernel)
  have hr' : scrolled = some w' := (Option.some_get _).symm
  let released := step w' (.buttonRelease ⟨25,35⟩ fun _ => false)
  have hd : released = some (released.get (by decide +kernel)) := (Option.some_get _).symm
  have hends := selection_spans ⟨100,50⟩ _ w hr ⟨60,25⟩ [.event (.valueChanged (.scrollbar false 0 []))] w'
    (by simp [Action.Presses]) hr' ⟨25,35⟩ (fun _ => false) _ hd
  have hhandled := hends.handled 0 ⟨.pipette,true,none⟩ (by decide +kernel) rfl
  rw [if_neg (by decide)] at hhandled
  refine ⟨w,_,hr,?_,hhandled.1.trans (by decide +kernel)⟩
  exact run_cons_eq_some.mpr ⟨w',by simpa [scrolled,run] using hr',run_cons_eq_some.mpr ⟨_,hd,rfl⟩⟩

end Window
end Scroom
