import Scroom.Switches
import Scroom.Transitions

/-! Presentations, and who is told which views show them. What a presentation does about its views is up to the
class that derives from `PresentationBase`. -/
namespace Scroom
open Transitions Switches

/-- The virtual functions, and what else can happen to such a presentation. -/
structure PresentationBase (S V A : Type) where
  viewAdded : S → V → Option S
  viewRemoved : S → V → Option S
  getViews : S → List V
  update : S → A → Option S

namespace PresentationBase

/-- The observers are `Viewable`s. The last field holds the calls that they get, the latest first: `open` is `true`,
`close` is `false`. -/
structure Config (S O V : Type) where
  state : S
  observers : List O := []
  calls : List ((O × V) × Bool) := []

inductive Action (O V A : Type)
  | open' (vi : V)
  | close (vi : V)
  | registerObserver (observer : O)
  | unregisterObserver (observer : O)
  | update (a : A)

section Steps
variable {S O V A : Type} [DecidableEq O]

def open' (p : PresentationBase S V A) (c : Config S O V) (vi : V) : Option (Config S O V) := do
  let state ← p.viewAdded c.state vi
  return { c with state := state, calls := switch true (c.observers.map (·,vi)) c.calls }

def close (p : PresentationBase S V A) (c : Config S O V) (vi : V) : Option (Config S O V) := do
  let calls := switch false (c.observers.map (·,vi)) c.calls
  let state ← p.viewRemoved c.state vi
  return { c with state := state, calls := calls }

def observerAdded (p : PresentationBase S V A) (c : Config S O V) (viewable : O) : Config S O V :=
  { c with calls := switch true ((p.getViews c.state).map (viewable,·)) c.calls }

/-- Observers are told of the views also when they were registered already. -/
def registerObserver (p : PresentationBase S V A) (c : Config S O V) (observer : O) : Config S O V :=
  observerAdded p { c with observers := c.observers.insert observer } observer

def step (p : PresentationBase S V A) (c : Config S O V) : Action O V A → Option (Config S O V)
  | .open' vi => open' p c vi
  | .close vi => close p c vi
  | .registerObserver observer => some (registerObserver p c observer)
  | .unregisterObserver observer => some { c with observers := c.observers.erase observer }
  | .update a => (p.update c.state a).map fun state => { c with state := state }

end Steps

/-- The derived class keeps track of its views. -/
structure Tracks {S V A : Type} (p : PresentationBase S V A) (I : S → Prop) : Prop where
  nodup : ∀ s, I s → (p.getViews s).Nodup
  added : ∀ s vi t, I s → p.viewAdded s vi = some t → I t ∧ ∀ w, w ∈ p.getViews t ↔ w = vi ∨ w ∈ p.getViews s
  removed : ∀ s vi t, I s → p.viewRemoved s vi = some t → I t ∧ ∀ w, w ∈ p.getViews t ↔ w ≠ vi ∧ w ∈ p.getViews s
  update : ∀ s a t, I s → p.update s a = some t → I t ∧ ∀ w, w ∈ p.getViews t ↔ w ∈ p.getViews s

section Runs
variable {S O V A : Type} [DecidableEq O] [DecidableEq V] {p : PresentationBase S V A} {I : S → Prop}

/-- The calls on every observer alternate, and those that are registered have the views open that there are. -/
structure Served (p : PresentationBase S V A) (c : Config S O V) : Prop where
  alternates : Alternates c.calls
  views : ∀ o ∈ c.observers, ∀ vi, isOn c.calls (o,vi) = true ↔ vi ∈ p.getViews c.state

/-- A view that is opened is new and one that is closed is not, unless nobody looks. Who registers has no view open. -/
def Proper (p : PresentationBase S V A) (c : Config S O V) : Action O V A → Prop
  | .open' vi => c.observers ≠ [] → vi ∉ p.getViews c.state
  | .close vi => c.observers ≠ [] → vi ∈ p.getViews c.state
  | .registerObserver observer => ∀ vi, isOn c.calls (observer,vi) = false
  | _ => True

variable {c d : Config S O V} {a : Action O V A}

/-- What every step keeps. -/
structure Inv (p : PresentationBase S V A) (I : S → Prop) (c : Config S O V) : Prop where
  state : I c.state
  observers : c.observers.Nodup

omit [DecidableEq V] in
theorem Inv.step (hp : Tracks p I) (hi : Inv p I c) (h : step p c a = some d) : Inv p I d := by
  cases a with
  | open' vi =>
    obtain ⟨state,hs,hd⟩ := Option.bind_eq_some_iff.mp h
    cases hd
    exact ⟨(hp.added _ _ _ hi.state hs).1,hi.observers⟩
  | close vi =>
    obtain ⟨state,hs,hd⟩ := Option.bind_eq_some_iff.mp h
    cases hd
    exact ⟨(hp.removed _ _ _ hi.state hs).1,hi.observers⟩
  | registerObserver observer =>
    cases h
    exact ⟨hi.state,hi.observers.insert⟩
  | unregisterObserver observer =>
    cases h
    exact ⟨hi.state,hi.observers.erase _⟩
  | update a =>
    obtain ⟨state,hs,hd⟩ := Option.map_eq_some_iff.mp h
    cases hd
    exact ⟨(hp.update _ _ _ hi.state hs).1,hi.observers⟩

omit [DecidableEq O] [DecidableEq V] in
theorem nodup_row {l : List O} (h : l.Nodup) (vi : V) : (l.map (·,vi)).Nodup :=
  h.map fun _ _ he => (Prod.mk.inj he).1

omit [DecidableEq O] [DecidableEq V] in
theorem nodup_column {l : List V} (h : l.Nodup) (o : O) : (l.map (o,·)).Nodup :=
  h.map fun _ _ he => (Prod.mk.inj he).2

theorem isOn_row (b : Bool) (l : List O) (vi w : V) (o : O) (log : List ((O × V) × Bool)) :
    isOn (switch b (l.map (·,vi)) log) (o,w) = if o ∈ l ∧ w = vi then b else isOn log (o,w) := by
  split_ifs with h
  · exact isOn_switch_of_mem (List.mem_map.mpr ⟨o,h.1,by rw [h.2]⟩)
  · refine isOn_switch_of_notMem fun hm => h ?_
    obtain ⟨o',ho,he⟩ := List.mem_map.mp hm
    cases he
    exact ⟨ho,rfl⟩

theorem isOn_column (b : Bool) (l : List V) (o o' : O) (w : V) (log : List ((O × V) × Bool)) :
    isOn (switch b (l.map (o,·)) log) (o',w) = if o' = o ∧ w ∈ l then b else isOn log (o',w) := by
  split_ifs with h
  · exact isOn_switch_of_mem (List.mem_map.mpr ⟨w,h.2,by rw [h.1]⟩)
  · refine isOn_switch_of_notMem fun hm => h ?_
    obtain ⟨w',hw,he⟩ := List.mem_map.mp hm
    cases he
    exact ⟨rfl,hw⟩

theorem alternates_row_iff (hs : Served p c) (hn : c.observers.Nodup) (b : Bool) (vi : V) :
    Alternates (switch b (c.observers.map (·,vi)) c.calls) ↔
      (c.observers ≠ [] → (vi ∈ p.getViews c.state ↔ b = false)) := by
  rw [alternates_switch_iff hs.alternates,and_iff_right (nodup_row hn vi)]
  have hone : ∀ o ∈ c.observers, (isOn c.calls (o,vi) = !b ↔ (vi ∈ p.getViews c.state ↔ b = false)) := by
    intro o ho
    rw [← hs.views o ho vi]
    cases b <;> simp
  constructor
  · intro h hne
    obtain ⟨o,ho⟩ := List.exists_mem_of_ne_nil _ hne
    exact (hone o ho).mp (h (o,vi) (List.mem_map.mpr ⟨o,ho,rfl⟩))
  · intro h k hk
    obtain ⟨o,ho,rfl⟩ := List.mem_map.mp hk
    exact (hone o ho).mpr (h (List.ne_nil_of_mem ho))

theorem served_open_iff (hp : Tracks p I) (hi : Inv p I c) (hs : Served p c) {vi : V}
    (h : open' p c vi = some d) : Served p d ↔ Proper p c (.open' vi : Action O V A) := by
  obtain ⟨state,hstate,hd⟩ := Option.bind_eq_some_iff.mp h
  cases hd
  have hviews := (hp.added _ _ _ hi.state hstate).2
  have halt := alternates_row_iff hs hi.observers true vi
  rw [show (true = false) = False by simp,iff_false] at halt
  refine ⟨fun hd => halt.mp hd.alternates,fun hnew => ⟨halt.mpr hnew,fun o ho w => ?_⟩⟩
  rw [isOn_row,hviews w,← hs.views o ho w]
  by_cases hw : w = vi <;> simp [hw,ho]

theorem served_close_iff (hp : Tracks p I) (hi : Inv p I c) (hs : Served p c) {vi : V}
    (h : close p c vi = some d) : Served p d ↔ Proper p c (.close vi : Action O V A) := by
  obtain ⟨state,hstate,hd⟩ := Option.bind_eq_some_iff.mp h
  cases hd
  have hviews := (hp.removed _ _ _ hi.state hstate).2
  have halt := alternates_row_iff hs hi.observers false vi
  rw [iff_true_intro (Eq.refl false),iff_true] at halt
  refine ⟨fun hd => halt.mp hd.alternates,fun hold => ⟨halt.mpr hold,fun o ho w => ?_⟩⟩
  rw [isOn_row,hviews w,← hs.views o ho w]
  by_cases hw : w = vi <;> simp [hw,ho]

theorem served_register_iff (hp : Tracks p I) (hi : Inv p I c) (hs : Served p c) (o : O) :
    Served p (registerObserver p c o) ↔ Proper p c (.registerObserver o : Action O V A) := by
  have halt : Alternates (registerObserver p c o).calls ↔ ∀ vi ∈ p.getViews c.state, isOn c.calls (o,vi) = false := by
    rw [registerObserver,observerAdded,alternates_switch_iff hs.alternates,
      and_iff_right (nodup_column (hp.nodup _ hi.state) o)]
    simp
  have hon : ∀ o' w, isOn (registerObserver p c o).calls (o',w) =
      if o' = o ∧ w ∈ p.getViews c.state then true else isOn c.calls (o',w) := fun o' w => isOn_column _ _ _ _ _ _
  constructor
  · intro hd vi
    by_cases hvi : vi ∈ p.getViews c.state
    · exact halt.mp hd.alternates vi hvi
    · have hoff := (hd.views o List.mem_insert_self vi).not.mpr hvi
      rw [hon,if_neg fun h => hvi h.2] at hoff
      simpa using hoff
  · intro hoff
    refine ⟨halt.mpr fun vi _ => hoff vi,fun o' ho' w => ?_⟩
    rw [hon]
    by_cases he : o' = o
    · subst he
      by_cases hw : w ∈ p.getViews c.state
      · simp [hw,registerObserver,observerAdded]
      · simp [hw,hoff w,registerObserver,observerAdded]
    · rw [if_neg fun h => he h.1]
      exact hs.views o' ((List.mem_insert_iff.mp ho').resolve_left he) w

theorem served_step_iff (hp : Tracks p I) (hi : Inv p I c) (hs : Served p c) (h : step p c a = some d) :
    Served p d ↔ Proper p c a := by
  cases a with
  | open' vi => exact served_open_iff hp hi hs h
  | close vi => exact served_close_iff hp hi hs h
  | registerObserver observer =>
    cases h
    exact served_register_iff hp hi hs observer
  | unregisterObserver observer =>
    cases h
    exact iff_of_true ⟨hs.alternates,fun o ho vi => hs.views o (List.mem_of_mem_erase ho) vi⟩ trivial
  | update a =>
    obtain ⟨state,hstate,hd⟩ := Option.map_eq_some_iff.mp h
    cases hd
    have hviews := (hp.update _ _ _ hi.state hstate).2
    exact iff_of_true ⟨hs.alternates,fun o ho vi => (hs.views o ho vi).trans (hviews vi).symm⟩ trivial

/-- In all runs in which views are opened and closed in turn, and who registers has no view open, the observers see
the views open that there are, and each call in its turn. In all others they do not. -/
theorem served_iff_proper (hp : Tracks p I) {s : S} (hs : I s) {as : List (Action O V A)} {d : Config S O V}
    (hr : run (step p) as { state := s } = some d) :
    Always (step p) (Served p) as { state := s } ↔ Within (step p) (Proper p) as { state := s } :=
  always_iff_within (fun _ _ _ (hi : Inv p I _) h => hi.step hp h)
    (fun _ _ _ hi hs h => served_step_iff hp hi hs h) ⟨hs,List.nodup_nil⟩ ⟨trivial,by simp⟩ hr

/-- `PresentationBaseSimple` -/
def simple : PresentationBase (List V) V Empty where
  viewAdded views vi := some (views.insert vi)
  viewRemoved views vi := some (views.erase vi)
  getViews views := views
  update _ a := a.elim

theorem simple_tracks : Tracks (simple (V := V)) List.Nodup where
  nodup _ h := h
  added s vi t h hs := by
    cases hs
    exact ⟨h.insert,fun w => List.mem_insert_iff⟩
  removed s vi t h hs := by
    cases hs
    exact ⟨h.erase vi,fun w => h.mem_erase_iff⟩
  update _ a := a.elim

/-- An observer that registers between two views. -/
theorem served_iff_proper_simple : ∃ d : Config (List ℕ) ℕ ℕ,
    run (step simple) [.open' 0,.registerObserver 7,.open' 1,.close 0] { state := [] } = some d ∧
      (Always (step simple) (Served simple) [.open' 0,.registerObserver 7,.open' 1,.close 0] { state := [] } ↔
        Within (step simple) (Proper simple) [.open' 0,.registerObserver 7,.open' 1,.close 0]
          { state := ([] : List ℕ) }) :=
  ⟨_,rfl,served_iff_proper simple_tracks List.nodup_nil rfl⟩

end Runs
end PresentationBase
end Scroom
