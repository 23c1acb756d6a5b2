import Scroom.Loops
import Scroom.NewWindowMenu
import Scroom.Switches
import Scroom.Transitions

/-! The views and presentations of the application, and the plugins that observe them. -/
namespace Scroom
namespace Callbacks
open Transitions Switches

/-- What a view is to the application. Its token holds what the observers of views have registered. -/
structure View (P O : Type) where
  presentation : Option P := none
  menu : NewWindowMenu P := {}
  token : List O := []

/-- Views are in the order of their addresses. The weak pointers among `presentations` are those to presentations that
may have `expired`. The last four fields hold which presentations were made, which of them `loadPresentation` opened,
the calls on them, the latest first (`open` is `true`, `close` is `false`), and the calls of `presentationAdded`. -/
structure Config (P V O Q K : Type) where
  views : List (V × View P O) := []
  presentations : List P := []
  viewObservers : List O := []
  presentationObservers : List Q := []
  loadedPresentations : List (K × P) := []
  expired : List P := []
  quit : Bool := false
  made : List P := []
  opened : List (K × P) := []
  calls : List ((P × V) × Bool) := []
  added : List (Q × P) := []

section Steps
variable {P V O Q K : Type} [DecidableEq P] [DecidableEq V] [DecidableEq O] [DecidableEq Q] [DecidableEq K]

/-- `lock` gives a pointer. -/
def alive (c : Config P V O Q K) (p : P) : Bool := decide (p ∉ c.expired)

def View.setPresentation (vi : V) (presentation : Option P) (s : View P O × List ((P × V) × Bool)) :
    View P O × List ((P × V) × Bool) :=
  let calls := (s.1.presentation.toList.map fun p => ((p,vi),false)) ++ s.2
  let calls := (presentation.toList.map fun p => ((p,vi),true)) ++ calls
  ({ s.1 with presentation := presentation },calls)

def View.on_presentation_created (alive : P → Bool) (v : View P O) (p : P) : View P O :=
  { v with menu := v.menu.on_presentation_created alive p }

def View.on_presentation_destroyed (alive : P → Bool) (v : View P O) : View P O :=
  { v with menu := v.menu.on_presentation_destroyed alive }

def on_presentation_created (c : Config P V O Q K) (p : P) : Config P V O Q K :=
  { c with
    presentations := c.presentations ++ [p]
    views := c.views.map fun e => (e.1,e.2.on_presentation_created (alive c) p)
    added := c.presentationObservers.map (·,p) ++ c.added }

/-- The loop of `on_view_created`. -/
def tellPresentations (c : Config P V O Q K) (v : View P O) : View P O :=
  c.presentations.foldl (fun v p => if alive c p then v.on_presentation_created (alive c) p else v) v

/-- The address of the view is the `i`th. -/
def on_view_created (c : Config P V O Q K) (i : ℕ) (vi : V) (v : View P O) : Config P V O Q K :=
  { c with views := c.views.insertIdx i (vi,tellPresentations c { v with token := [] }) }

def on_presentation_added_to_view (c : Config P V O Q K) (vi : V) : Config P V O Q K :=
  { c with views := c.views.map fun e =>
      if e.1 = vi then (vi,{ e.2 with token := e.2.token ++ c.viewObservers }) else e }

/-- The new view is at an address of its own. -/
def create_scroom (c : Config P V O Q K) (i : ℕ) (vi : V) (presentation : Option P) : Option (Config P V O Q K) :=
  if vi ∈ c.views.map (·.1) ∨ c.views.length < i then none else
  let view := View.setPresentation vi presentation ({},c.calls)
  let c := on_view_created { c with calls := view.2 } i vi view.1
  some (if presentation.isSome then on_presentation_added_to_view c vi else c)

def setPresentation (c : Config P V O Q K) (vi : V) (v : View P O) (presentation : P) : Config P V O Q K :=
  let view := View.setPresentation vi (some presentation) (v,c.calls)
  { c with views := Maps.assign c.views vi view.1, calls := view.2 }

def find_or_create_scroom (c : Config P V O Q K) (i : ℕ) (vi : V) (presentation : P) : Option (Config P V O Q K) :=
  match c.views.find? (·.2.presentation.isNone) with
  | some (vi,v) => some (on_presentation_added_to_view (setPresentation c vi v presentation) vi)
  | none => create_scroom c i vi (some presentation)

/-- When the first presentation has expired, the source decrements an iterator to the beginning of the list, to
increment it again at the end of the turn. The standard leaves that undefined; here the loop goes on with the next
one, as it does with lists whose ends meet in a node of their own. -/
def on_presentation_possibly_destroyed (c : Config P V O Q K) : Config P V O Q K :=
  if c.presentations.all (alive c) then c else
  { c with
    presentations := c.presentations.filter (alive c)
    views := c.views.map fun e => (e.1,e.2.on_presentation_destroyed (alive c)) }

def Shown (c : Config P V O Q K) (p : P) : Prop := ∃ e ∈ c.views, e.2.presentation = some p

instance (c : Config P V O Q K) (p : P) : Decidable (Shown c p) := inferInstanceAs (Decidable (∃ e ∈ c.views, _))

/-- The last pointers to a presentation go. -/
def expire (c : Config P V O Q K) (p : P) : Option (Config P V O Q K) :=
  if Shown c p ∨ p ∉ c.made ∨ p ∈ c.expired then none else some { c with expired := p::c.expired }

def clearPresentation (c : Config P V O Q K) (vi : V) (v : View P O) : Config P V O Q K :=
  { c with views := c.views.eraseP (·.1 = vi), calls := (View.setPresentation vi none (v,c.calls)).2 }

/-- Whether the view had the last pointer to its presentation. -/
def on_view_destroyed (c : Config P V O Q K) (vi : V) (last : Bool) : Option (Config P V O Q K) := do
  let (_,v) ← c.views.find? (·.1 = vi)
  let c := clearPresentation c vi v
  let c := match v.presentation with
    | some p => if last then (expire c p).getD c else c
    | none => c
  return on_presentation_possibly_destroyed c

def on_scroom_hide (c : Config P V O Q K) (vi : V) (last : Bool) : Option (Config P V O Q K) := do
  let c ← on_view_destroyed c vi last
  return { c with quit := c.quit || c.views.isEmpty }

def registerViewObserver (c : Config P V O Q K) (o : O) : Config P V O Q K :=
  { c with
    viewObservers := c.viewObservers.insert o
    views := c.views.map fun e =>
      if e.2.presentation.isSome then (e.1,{ e.2 with token := e.2.token ++ [o] }) else e }

def registerPresentationObserver (c : Config P V O Q K) (q : Q) : Config P V O Q K :=
  { c with presentationObservers := c.presentationObservers.insert q }

def make (c : Config P V O Q K) (p : P) : Option (Config P V O Q K) :=
  if p ∈ c.made then none else some { c with made := c.made.insert p }

/-- What the user, the plugins and the operating system do. Presentations that are opened or created are new ones, and
so are views, unless there is an empty one. -/
inductive Action (P V O Q K : Type)
  | registerViewObserver (o : O)
  | registerPresentationObserver (q : Q)
  | create_scroom (vi : V)
  | load (p : P) (i : ℕ) (vi : V)
  | newPresentation (p : P)
  | loadPresentation (key : K) (p : P)
  | showPresentation (p : P) (i : ℕ) (vi : V)
  | on_newWindow_activate (p : P) (i : ℕ) (vi : V)
  | hide (vi : V) (last : Bool)
  | expire (p : P)
  | on_presentation_possibly_destroyed
  | on_quit_activate (last : V → Bool)

/-- `load` of a file that an `OpenPresentationInterface` opens, and `create`. -/
def load (c : Config P V O Q K) (p : P) (i : ℕ) (vi : V) : Option (Config P V O Q K) := do
  find_or_create_scroom (on_presentation_created (← make c p) p) i vi p

/-- `newPresentation` and `newAggregate`. -/
def newPresentation (c : Config P V O Q K) (p : P) : Option (Config P V O Q K) := do
  return on_presentation_created (← make c p) p

def isLoaded (c : Config P V O Q K) (key : K) : Bool :=
  (c.loadedPresentations.find? (·.1 = key)).any fun e => alive c e.2

def noteLoaded (c : Config P V O Q K) (key : K) (p : P) : Config P V O Q K :=
  { c with
    loadedPresentations := Maps.assign c.loadedPresentations key p
    opened := (key,p)::c.opened }

/-- A file is opened if it is not loaded. -/
def loadPresentation (c : Config P V O Q K) (key : K) (p : P) : Option (Config P V O Q K) :=
  if isLoaded c key then some c else do
    return on_presentation_created (noteLoaded (← make c p) key p) p

/-- The presentation may be one that was made by `newPresentation` or `loadPresentation`, or one of the plugin. -/
def showPresentation (c : Config P V O Q K) (p : P) (i : ℕ) (vi : V) : Option (Config P V O Q K) :=
  if alive c p then
    let c := { c with made := c.made.insert p }
    find_or_create_scroom (on_presentation_created c p) i vi p
  else none

/-- There has to be an item for the presentation. It points into the map of its view: once the entry there is gone,
the pointer is to freed memory. -/
def on_newWindow_activate (c : Config P V O Q K) (p : P) (i : ℕ) (vi : V) : Option (Config P V O Q K) :=
  if ∃ e ∈ c.views, 0 < e.2.menu.offers p ∧ p ∈ e.2.menu.keys then
    if alive c p then find_or_create_scroom c i vi p else some c
  else none

def on_quit_activate (c : Config P V O Q K) (last : V → Bool) : Option (Config P V O Q K) := do
  let c ← (c.views.map (·.1)).foldlM (fun c vi => on_scroom_hide c vi (last vi)) c
  return { c with quit := true }

def step (c : Config P V O Q K) : Action P V O Q K → Option (Config P V O Q K)
  | .registerViewObserver o => some (registerViewObserver c o)
  | .registerPresentationObserver q => some (registerPresentationObserver c q)
  | .create_scroom vi => create_scroom c 0 vi none
  | .load p i vi => load c p i vi
  | .newPresentation p => newPresentation c p
  | .loadPresentation key p => loadPresentation c key p
  | .showPresentation p i vi => showPresentation c p i vi
  | .on_newWindow_activate p i vi => on_newWindow_activate c p i vi
  | .hide vi last => on_scroom_hide c vi last
  | .expire p => expire c p
  | .on_presentation_possibly_destroyed => some (on_presentation_possibly_destroyed c)
  | .on_quit_activate last => on_quit_activate c last

end Steps

section Blocks
variable {P V O Q K : Type} [DecidableEq P] [DecidableEq V] [DecidableEq O] [DecidableEq Q] [DecidableEq K]

/-- What is known of presentations was made, and what menus have was announced. -/
structure Base (c : Config P V O Q K) : Prop where
  presentations : ∀ p ∈ c.presentations, p ∈ c.made
  expired : ∀ p ∈ c.expired, p ∈ c.made
  menus : ∀ e ∈ c.views, ∀ p, e.2.menu.Mentions p → p ∈ c.presentations ∨ p ∈ c.expired

/-- A property that all that steps consist of keep, where `fresh` tells which presentations may be announced, `reg`
which observers may be registered, and `bare` whether there may be views without a presentation. -/
structure Kept (fresh : List P → P → Prop) (reg : Config P V O Q K → O → Prop) (bare : Prop)
    (J : Config P V O Q K → Prop) : Prop where
  base : ∀ c, J c → Base c
  new : ∀ l p, p ∉ l → fresh l p
  make : ∀ c p, J c → J { c with made := c.made.insert p }
  created : ∀ c p, J c → p ∈ c.made → alive c p = true → fresh c.presentations p → J (on_presentation_created c p)
  destroyed : ∀ c, J c → J (on_presentation_possibly_destroyed c)
  fills : ∀ c vi v p, J c → (vi,v) ∈ c.views → v.presentation = none → p ∈ c.presentations → alive c p = true →
    J (on_presentation_added_to_view (setPresentation c vi v p) vi)
  creates : ∀ c i vi presentation d, J c → create_scroom c i vi presentation = some d →
    (∀ p ∈ presentation, p ∈ c.presentations ∧ alive c p = true) → (presentation = none → bare) → J d
  clears : ∀ c vi v, J c → (vi,v) ∈ c.views → J (clearPresentation c vi v)
  expires : ∀ c p d, J c → expire c p = some d → J d
  registers : ∀ c o, J c → reg c o → J (registerViewObserver c o)
  loads : ∀ c key p, J c → isLoaded c key = false → J (noteLoaded c key p)
  observers : ∀ c q, J c → J (registerPresentationObserver c q)
  quits : ∀ c b, J c → J { c with quit := b }

/-- The announcements and registrations of an action. -/
def Ok (fresh : List P → P → Prop) (reg : Config P V O Q K → O → Prop) (bare : Prop) (c : Config P V O Q K) :
    Action P V O Q K → Prop
  | .showPresentation p _ _ => fresh c.presentations p
  | .registerViewObserver o => reg c o
  | .create_scroom _ => bare
  | _ => True

variable {fresh : List P → P → Prop} {reg : Config P V O Q K → O → Prop} {bare : Prop}
  {J : Config P V O Q K → Prop} {c d : Config P V O Q K} {p : P} {i : ℕ} {vi : V}

omit [DecidableEq V] [DecidableEq O] [DecidableEq Q] [DecidableEq K] in
theorem Base.alive_of_new (h : Base c) (hp : p ∉ c.made) : alive c p = true :=
  decide_eq_true fun he => hp (h.expired p he)

theorem Kept.find_or_create (h : Kept fresh reg bare J) (hj : J c) (hp : p ∈ c.presentations) (ha : alive c p = true)
    (hd : find_or_create_scroom c i vi p = some d) : J d := by
  rw [find_or_create_scroom] at hd
  cases hf : c.views.find? (·.2.presentation.isNone) with
  | none =>
    rw [hf] at hd
    exact h.creates c i vi (some p) d hj hd (by simpa using ⟨hp,ha⟩) (by simp)
  | some e =>
    obtain ⟨wi,v⟩ := e
    rw [hf] at hd
    cases hd
    have hnone : v.presentation = none := by simpa using List.find?_some hf
    exact h.fills c wi v p hj (List.mem_of_find?_eq_some hf) hnone hp ha

theorem Kept.shows (h : Kept fresh reg bare J) (hj : J c) (hp : p ∈ c.made) (ha : alive c p = true)
    (hf : fresh c.presentations p) (hd : find_or_create_scroom (on_presentation_created c p) i vi p = some d) : J d :=
  h.find_or_create (h.created c p hj hp ha hf) (List.mem_append_right _ (List.mem_singleton_self p)) ha hd

theorem Kept.hide (h : Kept fresh reg bare J) (hj : J c) {last : Bool} (hd : on_scroom_hide c vi last = some d) :
    J d := by
  obtain ⟨t,ht,hd⟩ := Option.bind_eq_some_iff.mp hd
  cases hd
  obtain ⟨⟨wi,v⟩,hf,ht⟩ := Option.bind_eq_some_iff.mp ht
  cases ht
  obtain rfl : wi = vi := by simpa using List.find?_some hf
  have hclear := h.clears c wi v hj (List.mem_of_find?_eq_some hf)
  refine h.quits _ _ (h.destroyed _ ?_)
  cases v.presentation with
  | none => exact hclear
  | some p =>
    change J (if last then (expire (clearPresentation c wi v) p).getD (clearPresentation c wi v)
      else clearPresentation c wi v)
    split_ifs
    · cases he : expire (clearPresentation c wi v) p with
      | none => exact hclear
      | some e => exact h.expires _ p e hclear he
    · exact hclear

theorem Kept.step (h : Kept fresh reg bare J) (hj : J c) {a : Action P V O Q K} (hok : Ok fresh reg bare c a)
    (hs : step c a = some d) : J d := by
  have hbase := h.base c hj
  have hmade : ∀ p, p ∈ c.made.insert p := fun p => List.mem_insert_self
  have hnew : ∀ p, p ∉ c.made → fresh c.presentations p := fun p hp => h.new _ _ fun hm => hp (hbase.presentations p hm)
  cases a with
  | registerViewObserver o =>
    cases hs
    exact h.registers c o hj hok
  | registerPresentationObserver q =>
    cases hs
    exact h.observers c q hj
  | create_scroom vi => exact h.creates c 0 vi none d hj hs (by simp) fun _ => hok
  | load p i vi =>
    obtain ⟨t,ht,hd⟩ := Option.bind_eq_some_iff.mp hs
    obtain ⟨hp,ht⟩ := Option.ite_none_left_eq_some.mp ht
    cases ht
    exact h.shows (h.make c p hj) (hmade p) (hbase.alive_of_new hp) (hnew p hp) hd
  | newPresentation p =>
    obtain ⟨t,ht,hd⟩ := Option.bind_eq_some_iff.mp hs
    obtain ⟨hp,ht⟩ := Option.ite_none_left_eq_some.mp ht
    cases ht
    cases hd
    exact h.created _ p (h.make c p hj) (hmade p) (hbase.alive_of_new hp) (hnew p hp)
  | loadPresentation key p =>
    change (if isLoaded c key then some c else _) = some d at hs
    split_ifs at hs with hloaded
    · cases hs
      exact hj
    · obtain ⟨t,ht,hd⟩ := Option.bind_eq_some_iff.mp hs
      obtain ⟨hp,ht⟩ := Option.ite_none_left_eq_some.mp ht
      cases ht
      cases hd
      have hloads := h.loads _ key p (h.make c p hj) (Bool.not_eq_true _ ▸ hloaded)
      exact h.created _ p hloads (hmade p) (hbase.alive_of_new hp) (hnew p hp)
  | showPresentation p i vi =>
    obtain ⟨ha,hd⟩ := Option.ite_none_right_eq_some.mp hs
    exact h.shows (h.make c p hj) (hmade p) ha hok hd
  | on_newWindow_activate p i vi =>
    obtain ⟨⟨e,he,hoffers,-⟩,hd⟩ := Option.ite_none_right_eq_some.mp hs
    split_ifs at hd with ha
    · have hp := (hbase.menus e he p (Or.inr (List.count_pos_iff.mp hoffers))).resolve_right (of_decide_eq_true ha)
      exact h.find_or_create hj hp ha hd
    · cases hd
      exact hj
  | hide vi last => exact h.hide hj hs
  | expire p => exact h.expires c p d hj hs
  | on_presentation_possibly_destroyed =>
    cases hs
    exact h.destroyed c hj
  | on_quit_activate last =>
    obtain ⟨t,ht,hd⟩ := Option.bind_eq_some_iff.mp hs
    cases hd
    exact h.quits t true (Loops.foldlM_preserves (fun s vi t ht hi => h.hide hi ht) ht hj)

end Blocks

section Views
variable {P V O : Type} {views : List (V × View P O)} {calls : List ((P × V) × Bool)} {vi wi : V} {p q : P}

def Shows (views : List (V × View P O)) (vi : V) (p : P) : Prop := ∃ v, (vi,v) ∈ views ∧ v.presentation = some p

theorem shows_map {f : V × View P O → V × View P O}
    (hf : ∀ e, (f e).1 = e.1 ∧ (f e).2.presentation = e.2.presentation) :
    Shows (views.map f) vi p ↔ Shows views vi p := by
  constructor
  · rintro ⟨v,hv,hp⟩
    obtain ⟨⟨wi,w⟩,he,hfe⟩ := List.mem_map.mp hv
    have hkeep := hf (wi,w)
    rw [hfe] at hkeep
    obtain rfl : vi = wi := hkeep.1
    exact ⟨w,he,hkeep.2 ▸ hp⟩
  · rintro ⟨v,hv,hp⟩
    have hkeep := hf (vi,v)
    exact ⟨(f (vi,v)).2,List.mem_map.mpr ⟨_,hv,Prod.ext hkeep.1 rfl⟩,hkeep.2.trans hp⟩

theorem keys_map {f : V × View P O → V × View P O} (hf : ∀ e, (f e).1 = e.1) :
    (views.map f).map (·.1) = views.map (·.1) := by
  rw [List.map_map]
  exact List.map_congr_left fun e _ => hf e

theorem mem_insertIdx {i : ℕ} (hi : i ≤ views.length) (e e' : V × View P O) :
    e' ∈ views.insertIdx i e ↔ e' = e ∨ e' ∈ views := by
  rw [(List.perm_insertIdx e views hi).mem_iff,List.mem_cons]

theorem value_unique (hv : (views.map (·.1)).Nodup) {v w : View P O} (h : (vi,v) ∈ views)
    (h' : (vi,w) ∈ views) : v = w :=
  (Prod.mk.inj (List.inj_on_of_nodup_map hv h h' rfl)).2

section Logs
variable [DecidableEq P] [DecidableEq V]

/-- The calls on the presentations alternate, and those are open in a view that it shows. -/
structure Logged (views : List (V × View P O)) (calls : List ((P × V) × Bool)) : Prop where
  alternates : Alternates calls
  isOn_iff : ∀ p vi, isOn calls (p,vi) = true ↔ Shows views vi p

variable {views' : List (V × View P O)}

theorem Logged.congr (h : Logged views calls) (hsame : ∀ vi p, Shows views' vi p ↔ Shows views vi p) :
    Logged views' calls :=
  ⟨h.alternates,fun p vi => (h.isOn_iff p vi).trans (hsame vi p).symm⟩

theorem Logged.opens (h : Logged views calls) (hnew : ¬Shows views vi p)
    (hmem : ∀ wi q, Shows views' wi q ↔ q = p ∧ wi = vi ∨ Shows views wi q) :
    Logged views' (((p,vi),true)::calls) := by
  refine ⟨⟨?_,h.alternates⟩,fun q wi => ?_⟩
  · rw [Bool.not_true,← Bool.not_eq_true,h.isOn_iff]
    exact hnew
  · rw [isOn_cons,hmem,← h.isOn_iff]
    by_cases he : (p,vi) = (q,wi)
    · cases he
      simp
    · rw [if_neg he,or_iff_right]
      rintro ⟨rfl,rfl⟩
      exact he rfl

theorem Logged.closes (h : Logged views calls) (hold : Shows views vi p)
    (hmem : ∀ wi q, Shows views' wi q ↔ Shows views wi q ∧ wi ≠ vi) (honly : ∀ q, Shows views vi q → q = p) :
    Logged views' (((p,vi),false)::calls) := by
  refine ⟨⟨(h.isOn_iff p vi).mpr hold,h.alternates⟩,fun q wi => ?_⟩
  rw [isOn_cons,hmem,← h.isOn_iff]
  by_cases he : (p,vi) = (q,wi)
  · cases he
    simp
  · rw [if_neg he]
    refine ⟨fun hon => ⟨hon,?_⟩,And.left⟩
    rintro rfl
    exact he (by rw [honly q ((h.isOn_iff q wi).mp hon)])

end Logs
end Views

section Invariant
variable {P V O Q K : Type} [DecidableEq P] [DecidableEq V] {c d : Config P V O Q K} {p : P} {i : ℕ} {vi : V}
  {v : View P O}

/-- What every step keeps. Presentations that a view shows were announced and exist. Those that were opened last are
the ones that are loaded, if they exist. -/
structure Inv (c : Config P V O Q K) : Prop extends Base c where
  views : (c.views.map (·.1)).Nodup
  logged : Logged c.views c.calls
  shown : ∀ vi p, Shows c.views vi p → p ∈ c.presentations ∧ alive c p = true
  loaded : (c.loadedPresentations.map (·.1)).Nodup
  current : ∀ key p, (key,p) ∈ c.opened → alive c p = true → (key,p) ∈ c.loadedPresentations

omit [DecidableEq V] in
theorem alive_cons {p q : P} (l : List P) : decide (q ∉ p::l) = true → decide (q ∉ l) = true := fun h =>
  decide_eq_true fun hq => of_decide_eq_true h (List.mem_cons_of_mem _ hq)

theorem Inv.make (h : Inv c) (p : P) : Inv { c with made := c.made.insert p } :=
  ⟨⟨fun q hq => List.mem_insert_of_mem (h.presentations q hq),fun q hq => List.mem_insert_of_mem (h.expired q hq),
    h.menus⟩,h.views,h.logged,h.shown,h.loaded,h.current⟩

theorem Inv.created (h : Inv c) (hp : p ∈ c.made) : Inv (on_presentation_created c p) := by
  have hold : ∀ q ∈ c.presentations, q ∈ c.presentations ++ [p] := fun q hq => List.mem_append_left _ hq
  have hshows : ∀ vi q, Shows (on_presentation_created c p).views vi q ↔ Shows c.views vi q := fun vi q =>
    shows_map fun _ => ⟨rfl,rfl⟩
  refine ⟨⟨fun q hq => ?_,h.expired,fun e he q hq => ?_⟩,?_,h.logged.congr hshows,fun vi q hq => ?_,h.loaded,
    h.current⟩
  · rcases List.mem_append.mp hq with hq | hq
    · exact h.presentations q hq
    · exact List.mem_singleton.mp hq ▸ hp
  · obtain ⟨e',he',rfl⟩ := List.mem_map.mp he
    rcases NewWindowMenu.mentions_created hq with hq | rfl
    · exact (h.menus e' he' q hq).imp_left (hold q)
    · exact Or.inl (List.mem_append_right _ (List.mem_singleton_self _))
  · have hkeys : (on_presentation_created c p).views.map (·.1) = c.views.map (·.1) := keys_map fun _ => rfl
    exact hkeys ▸ h.views
  · have hq' := h.shown vi q ((hshows vi q).mp hq)
    exact ⟨hold q hq'.1,hq'.2⟩

theorem Inv.destroyed (h : Inv c) : Inv (on_presentation_possibly_destroyed c) := by
  rw [on_presentation_possibly_destroyed]
  split_ifs
  · exact h
  have hshows : ∀ vi q, Shows (c.views.map fun e => (e.1,e.2.on_presentation_destroyed (alive c))) vi q ↔
      Shows c.views vi q := fun vi q => shows_map fun _ => ⟨rfl,rfl⟩
  refine ⟨⟨fun q hq => h.presentations q (List.mem_of_mem_filter hq),h.expired,fun e he q hq => ?_⟩,?_,
    h.logged.congr hshows,fun vi q hq => ?_,h.loaded,h.current⟩
  · obtain ⟨e',he',rfl⟩ := List.mem_map.mp he
    rcases h.menus e' he' q (NewWindowMenu.mentions_update hq) with hm | hm
    · by_cases ha : alive c q = true
      · exact Or.inl (List.mem_filter.mpr ⟨hm,ha⟩)
      · exact Or.inr (by simpa [alive] using ha)
    · exact Or.inr hm
  · have hkeys : (c.views.map fun e => (e.1,e.2.on_presentation_destroyed (alive c))).map (·.1) = c.views.map (·.1) :=
      keys_map fun _ => rfl
    exact hkeys ▸ h.views
  · have hq' := h.shown vi q ((hshows vi q).mp hq)
    exact ⟨List.mem_filter.mpr hq',hq'.2⟩

theorem Inv.expires (h : Inv c) (hd : expire c p = some d) : Inv d := by
  obtain ⟨hno,hd⟩ := Option.ite_none_left_eq_some.mp hd
  cases hd
  obtain ⟨hshown,hmade,-⟩ := (not_or.mp hno).imp_right not_or.mp
  refine ⟨⟨h.presentations,fun q hq => ?_,fun e he q hq => ?_⟩,h.views,h.logged,fun vi q hq => ?_,h.loaded,
    fun key q hq ha => h.current key q hq (alive_cons _ ha)⟩
  · rcases List.mem_cons.mp hq with rfl | hq
    · exact not_not.mp hmade
    · exact h.expired q hq
  · exact (h.menus e he q hq).imp_right (List.mem_cons_of_mem _)
  · refine ⟨(h.shown vi q hq).1,decide_eq_true fun hm => ?_⟩
    rcases List.mem_cons.mp hm with rfl | hm
    · obtain ⟨v,hv,hvp⟩ := hq
      exact hshown ⟨_,hv,hvp⟩
    · exact of_decide_eq_true (h.shown vi q hq).2 hm

omit [DecidableEq P] in
theorem added_shows (c : Config P V O Q K) (vi wi : V) (p : P) :
    Shows (on_presentation_added_to_view c vi).views wi p ↔ Shows c.views wi p :=
  shows_map fun e => by by_cases he : e.1 = vi <;> simp [he]

omit [DecidableEq P] in
theorem added_keys (c : Config P V O Q K) (vi : V) :
    (on_presentation_added_to_view c vi).views.map (·.1) = c.views.map (·.1) :=
  keys_map fun e => by by_cases he : e.1 = vi <;> simp [he]

omit [DecidableEq P] in
theorem added_menus {e : V × View P O} (he : e ∈ (on_presentation_added_to_view c vi).views) :
    ∃ e' ∈ c.views, e.1 = e'.1 ∧ e.2.menu = e'.2.menu ∧ e.2.presentation = e'.2.presentation := by
  obtain ⟨e',he',rfl⟩ := List.mem_map.mp he
  refine ⟨e',he',?_⟩
  split_ifs with hvi
  · exact ⟨hvi.symm,rfl,rfl⟩
  · exact ⟨rfl,rfl,rfl⟩

theorem Inv.added (h : Inv c) (vi : V) : Inv (on_presentation_added_to_view c vi) := by
  refine ⟨⟨h.presentations,h.expired,fun e he q hq => ?_⟩,added_keys c vi ▸ h.views,
    h.logged.congr (added_shows c vi),fun wi q hq => h.shown wi q ((added_shows c vi wi q).mp hq),h.loaded,h.current⟩
  obtain ⟨e',he',-,hmenu,-⟩ := added_menus he
  exact h.menus e' he' q (hmenu ▸ hq)

theorem Inv.fills (h : Inv c) (hv : (vi,v) ∈ c.views) (hnone : v.presentation = none) (hp : p ∈ c.presentations)
    (ha : alive c p = true) : Inv (setPresentation c vi v p) := by
  have hmem : ∀ e, e ∈ (setPresentation c vi v p).views ↔
      e = (vi,{ v with presentation := some p }) ∨ e ∈ c.views ∧ e.1 ≠ vi := Maps.mem_assign _ _ _
  have hshows : ∀ wi q, Shows (setPresentation c vi v p).views wi q ↔ q = p ∧ wi = vi ∨ Shows c.views wi q := by
    intro wi q
    constructor
    · rintro ⟨w,hw,hq⟩
      rcases (hmem _).mp hw with he | ⟨hw,-⟩
      · cases he
        exact Or.inl ⟨(Option.some.inj hq).symm,rfl⟩
      · exact Or.inr ⟨w,hw,hq⟩
    · rintro (⟨rfl,rfl⟩ | ⟨w,hw,hq⟩)
      · exact ⟨_,(hmem _).mpr (Or.inl rfl),rfl⟩
      · refine ⟨w,(hmem _).mpr (Or.inr ⟨hw,?_⟩),hq⟩
        rintro rfl
        rw [value_unique h.views hw hv,hnone] at hq
        cases hq
  have hcalls : (setPresentation c vi v p).calls = ((p,vi),true)::c.calls := by
    simp [setPresentation,View.setPresentation,hnone]
  have hnew : ¬Shows c.views vi p := by
    rintro ⟨w,hw,hq⟩
    rw [value_unique h.views hw hv,hnone] at hq
    cases hq
  refine ⟨⟨h.presentations,h.expired,fun e he q hq => ?_⟩,?_,hcalls ▸ h.logged.opens hnew hshows,
    fun wi q hq => ?_,h.loaded,h.current⟩
  · rcases (hmem e).mp he with rfl | ⟨he,-⟩
    · exact h.menus _ hv q hq
    · exact h.menus e he q hq
  · change ((Maps.assign c.views vi _).map (·.1)).Nodup
    rw [Maps.keys_assign,if_pos (List.mem_map.mpr ⟨_,hv,rfl⟩)]
    exact h.views
  · rcases (hshows wi q).mp hq with ⟨rfl,-⟩ | hq
    · exact ⟨hp,ha⟩
    · exact h.shown wi q hq

omit [DecidableEq V] in
theorem mentions_tellPresentations (h : v.menu = {}) {q : P} (hq : (tellPresentations c v).menu.Mentions q) :
    q ∈ c.presentations := by
  have hall : ∀ (l : List P) (w : View P O),
      (l.foldl (fun v p => if alive c p then v.on_presentation_created (alive c) p else v) w).menu.Mentions q →
        w.menu.Mentions q ∨ q ∈ l := by
    intro l
    induction l with
    | nil => exact fun w hw => Or.inl hw
    | cons p l ih =>
      intro w hw
      rw [List.mem_cons,← or_assoc]
      refine (ih _ hw).imp_left fun hw => ?_
      dsimp only at hw
      split_ifs at hw
      · exact NewWindowMenu.mentions_created hw
      · exact Or.inl hw
  rcases hall c.presentations v hq with hm | hm
  · rw [h] at hm
    rcases hm with hm | hm <;> cases hm
  · exact hm

omit [DecidableEq V] in
theorem tellPresentations_presentation (c : Config P V O Q K) (v : View P O) :
    (tellPresentations c v).presentation = v.presentation ∧ (tellPresentations c v).token = v.token := by
  rw [tellPresentations]
  induction c.presentations generalizing v with
  | nil => exact ⟨rfl,rfl⟩
  | cons p l ih =>
    rw [List.foldl_cons]
    refine ⟨(ih _).1.trans ?_,(ih _).2.trans ?_⟩ <;> split_ifs <;> rfl

def newView (c : Config P V O Q K) (presentation : Option P) : View P O :=
  tellPresentations c { presentation := presentation }

theorem create_scroom_eq {presentation : Option P} (hd : create_scroom c i vi presentation = some d) :
    vi ∉ c.views.map (·.1) ∧ i ≤ c.views.length ∧ ∃ t : Config P V O Q K,
      t = { c with
        views := c.views.insertIdx i (vi,newView c presentation)
        calls := (presentation.toList.map fun p => ((p,vi),true)) ++ c.calls } ∧
      d = if presentation.isSome then on_presentation_added_to_view t vi else t := by
  obtain ⟨hno,hd⟩ := Option.ite_none_left_eq_some.mp hd
  obtain ⟨hvi,hi⟩ := not_or.mp hno
  exact ⟨hvi,not_lt.mp hi,_,rfl,(Option.some.inj hd).symm⟩

/-- A new view shows a presentation or none. -/
theorem Inv.creates (h : Inv c) {presentation : Option P} (hd : create_scroom c i vi presentation = some d)
    (hp : ∀ p ∈ presentation, p ∈ c.presentations ∧ alive c p = true) : Inv d := by
  obtain ⟨hvi,hi,t,ht,hd⟩ := create_scroom_eq hd
  have hmem : ∀ e, e ∈ t.views ↔ e = (vi,newView c presentation) ∨ e ∈ c.views := fun e => by
    rw [ht]
    exact mem_insertIdx hi _ e
  have hold : ∀ w, (vi,w) ∉ c.views := fun w hw => hvi (List.mem_map.mpr ⟨_,hw,rfl⟩)
  have hshows : ∀ wi q, Shows t.views wi q ↔ presentation = some q ∧ wi = vi ∨ Shows c.views wi q := by
    intro wi q
    constructor
    · rintro ⟨w,hw,hq⟩
      rcases (hmem _).mp hw with he | hw
      · cases he
        exact Or.inl ⟨(tellPresentations_presentation c _).1.symm.trans hq,rfl⟩
      · exact Or.inr ⟨w,hw,hq⟩
    · rintro (⟨hq,rfl⟩ | ⟨w,hw,hq⟩)
      · exact ⟨_,(hmem _).mpr (Or.inl rfl),(tellPresentations_presentation c _).1.trans hq⟩
      · exact ⟨w,(hmem _).mpr (Or.inr hw),hq⟩
  have hlogged : Logged t.views t.calls := by
    rw [ht] at hshows ⊢
    cases presentation with
    | none => exact h.logged.congr fun wi q => (hshows wi q).trans (by simp)
    | some p =>
      refine h.logged.opens (fun ⟨w,hw,_⟩ => hold w hw) fun wi q => (hshows wi q).trans ?_
      rw [Option.some.injEq,@eq_comm _ p]
  have ht' : Inv t := by
    refine ⟨⟨?_,?_,fun e he q hq => ?_⟩,?_,hlogged,fun wi q hq => ?_,?_,?_⟩
    · exact ht ▸ h.presentations
    · exact ht ▸ h.expired
    · rw [ht]
      rcases (hmem e).mp he with rfl | he
      · exact Or.inl (mentions_tellPresentations rfl hq)
      · exact h.menus e he q hq
    · rw [ht,((List.perm_insertIdx _ _ hi).map _).nodup_iff,List.map_cons]
      exact List.nodup_cons.mpr ⟨hvi,h.views⟩
    · rw [ht]
      rcases (hshows wi q).mp hq with ⟨rfl,-⟩ | hq
      · exact hp q rfl
      · exact h.shown wi q hq
    · exact ht ▸ h.loaded
    · exact ht ▸ h.current
  rw [hd]
  split_ifs
  · exact ht'.added vi
  · exact ht'

theorem Inv.clears (h : Inv c) (hv : (vi,v) ∈ c.views) : Inv (clearPresentation c vi v) := by
  have hmem : ∀ e, e ∈ (clearPresentation c vi v).views ↔ e ∈ c.views ∧ e.1 ≠ vi := Maps.mem_eraseP h.views
  have hshows : ∀ wi q, Shows (clearPresentation c vi v).views wi q ↔ Shows c.views wi q ∧ wi ≠ vi := by
    intro wi q
    constructor
    · rintro ⟨w,hw,hq⟩
      exact ⟨⟨w,((hmem _).mp hw).1,hq⟩,((hmem _).mp hw).2⟩
    · rintro ⟨⟨w,hw,hq⟩,hwi⟩
      exact ⟨w,(hmem _).mpr ⟨hw,hwi⟩,hq⟩
  have hlogged : Logged (clearPresentation c vi v).views (clearPresentation c vi v).calls := by
    have hcalls : (clearPresentation c vi v).calls = (v.presentation.toList.map fun p => ((p,vi),false)) ++ c.calls :=
      rfl
    have honly : ∀ q, Shows c.views vi q → v.presentation = some q := fun q ⟨w,hw,hq⟩ =>
      value_unique h.views hw hv ▸ hq
    rw [hcalls]
    cases hp : v.presentation with
    | none =>
      refine h.logged.congr fun wi q => (hshows wi q).trans (and_iff_left_of_imp ?_)
      rintro hq rfl
      rw [honly q hq] at hp
      cases hp
    | some p =>
      refine h.logged.closes ⟨v,hv,hp⟩ hshows fun q hq => ?_
      rw [honly q hq] at hp
      exact Option.some.inj hp
  refine ⟨⟨h.presentations,h.expired,fun e he => h.menus e ((hmem e).mp he).1⟩,?_,hlogged,
    fun wi q hq => h.shown wi q ((hshows wi q).mp hq).1,h.loaded,h.current⟩
  exact h.views.sublist (List.eraseP_sublist.map _)

omit [DecidableEq P] [DecidableEq V] in
theorem registered_presentation [DecidableEq O] (c : Config P V O Q K) (o : O) :
    ∃ f : V × View P O → V × View P O, (registerViewObserver c o).views = c.views.map f ∧
      ∀ e, (f e).1 = e.1 ∧ (f e).2.presentation = e.2.presentation ∧ (f e).2.menu = e.2.menu := by
  refine ⟨_,rfl,fun e => ?_⟩
  split_ifs <;> exact ⟨rfl,rfl,rfl⟩

theorem Inv.registers [DecidableEq O] (h : Inv c) (o : O) : Inv (registerViewObserver c o) := by
  obtain ⟨f,hviews,hf⟩ := registered_presentation c o
  have hshows : ∀ vi q, Shows (registerViewObserver c o).views vi q ↔ Shows c.views vi q := fun vi q =>
    hviews ▸ shows_map fun e => ⟨(hf e).1,(hf e).2.1⟩
  refine ⟨⟨h.presentations,h.expired,fun e he q hq => ?_⟩,?_,h.logged.congr hshows,
    fun vi q hq => h.shown vi q ((hshows vi q).mp hq),h.loaded,h.current⟩
  · rw [hviews] at he
    obtain ⟨e',he',rfl⟩ := List.mem_map.mp he
    exact h.menus e' he' q ((hf e').2.2 ▸ hq)
  · rw [hviews,keys_map fun e => (hf e).1]
    exact h.views

theorem Inv.loads [DecidableEq K] (h : Inv c) {key : K} (p : P) (hloaded : isLoaded c key = false) :
    Inv (noteLoaded c key p) := by
  have hkeys := Maps.keys_assign c.loadedPresentations key p
  have hnodup : ((Maps.assign c.loadedPresentations key p).map (·.1)).Nodup := by
    rw [hkeys]
    split_ifs with hmem
    · exact h.loaded
    · exact h.loaded.append (List.nodup_singleton key) (List.disjoint_singleton.mpr hmem)
  refine ⟨⟨h.presentations,h.expired,h.menus⟩,h.views,h.logged,h.shown,hnodup,fun k q hq ha => ?_⟩
  have hother : (k,q) ∈ c.opened → k ≠ key := fun hq hk => by
    rw [isLoaded,← hk,Maps.find?_eq_some h.loaded (h.current k q hq ha)] at hloaded
    exact Bool.false_ne_true (hloaded.symm.trans ha)
  refine (Maps.mem_assign _ _ _ _).mpr ?_
  rcases List.mem_cons.mp hq with he | hq
  · exact Or.inl he
  · exact Or.inr ⟨h.current k q hq ha,hother hq⟩

theorem kept_inv [DecidableEq O] [DecidableEq Q] [DecidableEq K] :
    Kept (fun _ _ => True) (fun _ _ => True) True (Inv : Config P V O Q K → Prop) where
  base _ h := h.toBase
  new _ _ _ := trivial
  make _ p h := h.make p
  created _ _ h hp _ _ := h.created hp
  destroyed _ h := h.destroyed
  fills _ vi _ _ h hv hnone hp ha := (h.fills hv hnone hp ha).added vi
  creates _ _ _ _ _ h hd hp _ := h.creates hd hp
  clears _ _ _ h hv := h.clears hv
  expires _ _ _ h hd := h.expires hd
  registers _ o h _ := h.registers o
  loads _ _ p h hl := h.loads p hl
  observers _ _ h := ⟨⟨h.presentations,h.expired,h.menus⟩,h.views,h.logged,h.shown,h.loaded,h.current⟩
  quits _ _ h := ⟨⟨h.presentations,h.expired,h.menus⟩,h.views,h.logged,h.shown,h.loaded,h.current⟩

theorem inv_initial : Inv ({} : Config P V O Q K) where
  presentations := by simp
  expired := by simp
  menus := by simp
  views := List.nodup_nil
  logged := ⟨trivial,fun _ _ => iff_of_false Bool.false_ne_true fun ⟨_,hv,_⟩ => by cases hv⟩
  shown := fun _ _ ⟨_,hv,_⟩ => by cases hv
  loaded := List.nodup_nil
  current := by simp

end Invariant

section Blocks
variable {P V O Q K : Type} [DecidableEq P] [DecidableEq V] {c d : Config P V O Q K} {p : P} {i : ℕ} {vi : V}
  {v : View P O}

omit [DecidableEq P] in
theorem mem_fills (e : V × View P O) : e ∈ (on_presentation_added_to_view (setPresentation c vi v p) vi).views ↔
    e = (vi,{ v with presentation := some p, token := v.token ++ c.viewObservers }) ∨ e ∈ c.views ∧ e.1 ≠ vi := by
  have hmem : ∀ e, e ∈ (setPresentation c vi v p).views ↔
      e = (vi,{ v with presentation := some p }) ∨ e ∈ c.views ∧ e.1 ≠ vi := Maps.mem_assign _ _ _
  constructor
  · intro he
    obtain ⟨e',he',rfl⟩ := List.mem_map.mp he
    rcases (hmem e').mp he' with rfl | ⟨hold,hvi⟩
    · exact Or.inl (if_pos rfl)
    · rw [if_neg hvi]
      exact Or.inr ⟨hold,hvi⟩
  · rintro (rfl | ⟨he,hvi⟩)
    · exact List.mem_map.mpr ⟨_,(hmem _).mpr (Or.inl rfl),if_pos rfl⟩
    · exact List.mem_map.mpr ⟨e,(hmem e).mpr (Or.inr ⟨he,hvi⟩),if_neg hvi⟩

theorem mem_creates {presentation : Option P} (hd : create_scroom c i vi presentation = some d) :
    d.presentations = c.presentations ∧ d.viewObservers = c.viewObservers ∧ d.expired = c.expired ∧
      ∀ e, e ∈ d.views ↔ e ∈ c.views ∨ e = (vi,{ newView c presentation with
        token := if presentation.isSome then c.viewObservers else [] }) := by
  obtain ⟨hvi,hi,t,ht,hd⟩ := create_scroom_eq hd
  have htoken : (newView c presentation).token = [] := (tellPresentations_presentation c _).2
  have hmem : ∀ e, e ∈ t.views ↔ e = (vi,newView c presentation) ∨ e ∈ c.views := fun e => by
    rw [ht]
    exact mem_insertIdx hi _ e
  have hold : ∀ e ∈ c.views, e.1 ≠ vi := fun e he hev => hvi (List.mem_map.mpr ⟨e,he,hev⟩)
  cases presentation with
  | none =>
    obtain rfl : d = t := hd
    refine ⟨ht ▸ rfl,ht ▸ rfl,ht ▸ rfl,fun e => ?_⟩
    rw [hmem,or_comm]
    simp [← htoken]
  | some p =>
    obtain rfl : d = on_presentation_added_to_view t vi := hd
    refine ⟨ht ▸ rfl,ht ▸ rfl,ht ▸ rfl,fun e => ?_⟩
    constructor
    · intro he
      obtain ⟨e',he',rfl⟩ := List.mem_map.mp he
      rcases (hmem e').mp he' with rfl | he'
      · refine Or.inr ((if_pos rfl).trans ?_)
        rw [htoken,ht]
        rfl
      · rw [if_neg (hold e' he')]
        exact Or.inl he'
    · rintro (he | rfl)
      · exact List.mem_map.mpr ⟨e,(hmem e).mpr (Or.inr he),if_neg (hold e he)⟩
      · refine List.mem_map.mpr ⟨_,(hmem _).mpr (Or.inl rfl),(if_pos rfl).trans ?_⟩
        rw [htoken,ht]
        rfl

end Blocks
end Callbacks
end Scroom
