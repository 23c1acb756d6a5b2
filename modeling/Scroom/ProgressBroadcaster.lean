import Mathlib.Logic.Function.Basic
import Scroom.Transitions

/-! How far along things are, reported through two interfaces, and the broadcaster that passes every
report on to its subscribers. -/
namespace Scroom

inductive State
  | idle | waiting | working | finished
  deriving DecidableEq

/-- A call on a `ProgressInterface` -/
inductive ProgressInterface (P : Type*)
  | setIdle
  | setWaiting (progress : P)
  | setWorking (progress : P)
  | setFinished
  deriving DecidableEq

/-- `ProgressStateInterfaceFromProgressInterface::setProgress` -/
def setProgress {P : Type*} : State → P → ProgressInterface P
  | .idle, _ => .setIdle
  | .waiting, progress => .setWaiting progress
  | .working, progress => .setWorking progress
  | .finished, _ => .setFinished

/-- `ProgressInterfaceFromProgressStateInterface`: what a call sets. -/
def ProgressInterface.toState {P : Type*} [Zero P] [One P] : ProgressInterface P → State × P
  | .setIdle => (.idle,0)
  | .setWaiting progress => (.waiting,progress)
  | .setWorking progress => (.working,progress)
  | .setFinished => (.finished,1)

@[simp] theorem setProgress_toState {P : Type*} [Zero P] [One P] (call : ProgressInterface P) :
    setProgress call.toState.1 call.toState.2 = call := by
  cases call <;> rfl

namespace ProgressInterfaceBroadcaster
open Transitions

/-- Among the children `none` is the `ProgressStore`. The last three fields record what has happened:
which calls the children received, the latest first, the latest broadcast, and the children that
subscribed and did not unsubscribe since. -/
structure Config (C P : Type*) [Zero P] where
  children : List (Option C) := [none]
  store : State × P := (.idle,0)
  unsubscribers : List C := []
  received : C → List (ProgressInterface P) := fun _ => []
  latest : ProgressInterface P := .setIdle
  staying : C → Bool := fun _ => false

variable {C P : Type*} [DecidableEq C] [Zero P] [One P]

def notify (call : ProgressInterface P) (s : Config C P) : Option C → Config C P
  | none => { s with store := call.toState }
  | some child => { s with received := Function.update s.received child (call::s.received child) }

/-- `setIdle`, `setWaiting`, `setWorking` and `setFinished` -/
def broadcast (s : Config C P) (call : ProgressInterface P) : Config C P :=
  { s.children.foldl (notify call) s with latest := call }

/-- `ProgressStore::init` -/
def init (s : Config C P) (child : C) : Config C P := notify (setProgress s.store.1 s.store.2) s (some child)

def subscribe (s : Config C P) (child : C) : Config C P :=
  { init s child with
    children := s.children.insert (some child)
    unsubscribers := s.unsubscribers ++ [child]
    staying := Function.update s.staying child true }

def unsubscribe (s : Config C P) (child : C) : Config C P :=
  { s with children := s.children.erase (some child), staying := Function.update s.staying child false }

/-- `~Unsubscriber` -/
def drop (s : Config C P) (i : ℕ) : Option (Config C P) :=
  (s.unsubscribers[i]?).map fun child =>
    unsubscribe { s with unsubscribers := s.unsubscribers.eraseIdx i } child

inductive Action (C P : Type*)
  | broadcast (call : ProgressInterface P)
  | subscribe (child : C)
  | drop (i : ℕ)

def step (s : Config C P) : Action C P → Option (Config C P)
  | .broadcast call => some (broadcast s call)
  | .subscribe child => some (subscribe s child)
  | .drop i => drop s i

/-- What the children receive in a step: the subscribers every broadcast, a new subscriber what was
broadcast last. -/
def Delivers (s : Config C P) (a : Action C P) (t : Config C P) : Prop :=
  match a with
  | .broadcast call => ∀ child, t.received child =
      if child ∈ s.unsubscribers then call::s.received child else s.received child
  | .subscribe child => t.received = Function.update s.received child (s.latest::s.received child)
  | .drop _ => t.received = s.received

/-- Every child with a subscription has last received the current state. -/
def UpToDate (s : Config C P) : Prop := ∀ child ∈ s.unsubscribers, (s.received child).head? = some s.latest

/-- No child that has subscribed more than once gave only some of its subscriptions up: at a broadcast, each
child with a subscription did not unsubscribe since it subscribed last. -/
def Allowed (s : Config C P) : Action C P → Prop
  | .broadcast _ => ∀ child ∈ s.unsubscribers, s.staying child = true
  | _ => True

instance (s : Config C P) : ∀ a, Decidable (Allowed s a)
  | .broadcast _ => inferInstanceAs (Decidable (∀ child ∈ s.unsubscribers, _))
  | .subscribe _ => inferInstanceAs (Decidable True)
  | .drop _ => inferInstanceAs (Decidable True)

structure Inv (s : Config C P) : Prop where
  nodup : s.children.Nodup
  store_mem : none ∈ s.children
  store_eq : s.store = s.latest.toState
  child_mem : ∀ child, some child ∈ s.children ↔ s.staying child = true
  subscribed : ∀ child, s.staying child = true → child ∈ s.unsubscribers
  upToDate : UpToDate s

omit [DecidableEq C] in
theorem inv_initial : Inv ({} : Config C P) where
  nodup := List.nodup_singleton _
  store_mem := List.mem_singleton_self _
  store_eq := rfl
  child_mem := by simp
  subscribed := by simp
  upToDate := by simp [UpToDate]

variable {s t : Config C P} {call : ProgressInterface P} {child : C} {i : ℕ}

theorem received_foldl_notify (l : List (Option C)) (hl : l.Nodup) (s : Config C P) (child : C) :
    (l.foldl (notify call) s).received child =
      if some child ∈ l then call::s.received child else s.received child := by
  induction l generalizing s with
  | nil => simp
  | cons x l ih =>
    obtain ⟨hx,hl⟩ := List.nodup_cons.mp hl
    rw [List.foldl_cons,ih hl]
    cases x with
    | none => simp [notify]
    | some other =>
      by_cases he : child = other
      · subst he
        simp [notify,hx]
      · simp [notify,he]

theorem store_foldl_notify (call : ProgressInterface P) (l : List (Option C)) (s : Config C P) :
    (l.foldl (notify call) s).store = if none ∈ l then call.toState else s.store := by
  induction l generalizing s with
  | nil => simp
  | cons x l ih =>
    rw [List.foldl_cons,ih]
    cases x <;> simp [notify]

theorem foldl_notify_frame (call : ProgressInterface P) (l : List (Option C)) (s : Config C P) :
    (l.foldl (notify call) s).children = s.children ∧
    (l.foldl (notify call) s).unsubscribers = s.unsubscribers ∧
    (l.foldl (notify call) s).staying = s.staying := by
  induction l generalizing s with
  | nil => exact ⟨rfl,rfl,rfl⟩
  | cons x l ih =>
    rw [List.foldl_cons]
    obtain ⟨hc,hu,hs⟩ := ih (notify call s x)
    cases x <;> exact ⟨hc,hu,hs⟩

theorem Inv.received_broadcast (hi : Inv s) : (broadcast s call).received child =
    if s.staying child = true then call::s.received child else s.received child := by
  simp only [← hi.child_mem]
  exact received_foldl_notify _ hi.nodup _ _

theorem Inv.received_init (hi : Inv s) :
    (init s child).received = Function.update s.received child (s.latest::s.received child) := by
  simp [init,notify,hi.store_eq]

theorem Inv.broadcast (hi : Inv s) (hok : ∀ child ∈ s.unsubscribers, s.staying child = true) :
    Inv (broadcast s call) := by
  obtain ⟨hc,hu,hs⟩ := foldl_notify_frame call s.children s
  have hstore := store_foldl_notify call s.children s
  rw [if_pos hi.store_mem] at hstore
  refine ⟨?_,?_,hstore,?_,?_,?_⟩
  · exact hc ▸ hi.nodup
  · exact hc ▸ hi.store_mem
  · exact hc ▸ hs ▸ hi.child_mem
  · exact hs ▸ hu ▸ hi.subscribed
  · intro child hm
    have hstay := hok child (hu ▸ hm)
    rw [hi.received_broadcast,if_pos hstay]
    rfl

theorem Inv.subscribe (hi : Inv s) : Inv (subscribe s child) where
  nodup := hi.nodup.insert
  store_mem := List.mem_insert_of_mem hi.store_mem
  store_eq := hi.store_eq
  child_mem := fun other => by
    have hm := hi.child_mem other
    by_cases he : other = child
    · simp [ProgressInterfaceBroadcaster.subscribe,he]
    · simp [ProgressInterfaceBroadcaster.subscribe,he,hm]
  subscribed := fun other hstay => by
    have hs := hi.subscribed other
    by_cases he : other = child
    · simp [ProgressInterfaceBroadcaster.subscribe,he]
    · simp only [ProgressInterfaceBroadcaster.subscribe,Function.update_of_ne he] at hstay
      simp [ProgressInterfaceBroadcaster.subscribe,hs hstay]
  upToDate := fun other hm => by
    simp only [ProgressInterfaceBroadcaster.subscribe,hi.received_init]
    by_cases he : other = child
    · simp [he,init,notify]
    · have hm : other ∈ s.unsubscribers := by simpa [ProgressInterfaceBroadcaster.subscribe,he] using hm
      rw [Function.update_of_ne he]
      exact hi.upToDate other hm

theorem Inv.drop (hi : Inv s) (h : drop s i = some t) : Inv t := by
  obtain ⟨child,hget,rfl⟩ := Option.map_eq_some_iff.mp h
  refine ⟨hi.nodup.erase _,?_,hi.store_eq,fun other => ?_,fun other hstay => ?_,fun other hm => ?_⟩
  · exact (List.mem_erase_of_ne (by simp)).mpr hi.store_mem
  · have hm := hi.child_mem other
    by_cases he : other = child
    · subst he
      simp [unsubscribe,hi.nodup.not_mem_erase]
    · simp [unsubscribe,List.mem_erase_of_ne,he,hm]
  · have hne : other ≠ child := by
      rintro rfl
      simp [unsubscribe] at hstay
    have hs := hi.subscribed other (by simpa [unsubscribe,hne] using hstay)
    obtain ⟨j,hj,hat⟩ := List.mem_iff_getElem.mp hs
    refine List.mem_eraseIdx_iff_getElem.mpr ⟨j,hj,?_,hat⟩
    rintro rfl
    exact hne (Option.some.inj ((List.getElem?_eq_some_iff.mpr ⟨hj,hat⟩).symm.trans hget))
  · exact hi.upToDate other (List.mem_of_mem_eraseIdx hm)

theorem Inv.step (hi : Inv s) {a : Action C P} (hok : Allowed s a) (h : step s a = some t) : Inv t := by
  cases a with
  | broadcast call =>
    cases h
    exact hi.broadcast hok
  | subscribe child =>
    cases h
    exact hi.subscribe
  | drop i => exact hi.drop h

/-- A broadcast reaches every subscriber just if none of them has been left out. -/
theorem Inv.delivers_iff (hi : Inv s) {a : Action C P} (h : ProgressInterfaceBroadcaster.step s a = some t) :
    Delivers s a t ↔ Allowed s a := by
  cases a with
  | broadcast call =>
    cases h
    simp only [Delivers,Allowed,hi.received_broadcast]
    constructor
    · intro hd child hm
      by_contra hstay
      have hd := hd child
      simp [hstay,hm] at hd
    · intro hok child
      have hiff : s.staying child = true ↔ child ∈ s.unsubscribers := ⟨hi.subscribed child,hok child⟩
      simp only [hiff]
  | subscribe child =>
    cases h
    exact iff_of_true hi.received_init trivial
  | drop i =>
    obtain ⟨child,-,rfl⟩ := Option.map_eq_some_iff.mp h
    exact iff_of_true rfl trivial

theorem Inv.delivers_upToDate_iff (hi : Inv s) {a : Action C P}
    (h : ProgressInterfaceBroadcaster.step s a = some t) :
    Delivers s a t ∧ UpToDate t ↔ Allowed s a := by
  constructor
  · exact fun hd => (hi.delivers_iff h).mp hd.1
  · exact fun hok => ⟨(hi.delivers_iff h).mpr hok,(hi.step hok h).upToDate⟩

/-- In every run each broadcast reaches the children with a subscription, once each, and no other, and leaves
those children up to date, if and only if no child keeps a subscription when it gives another one up. -/
theorem delivered_iff (as : List (Action C P)) (s : Config C P) (h : run step as {} = some s) :
    Throughout step (fun s a t => Delivers s a t ∧ UpToDate t) as {} ↔ Within step Allowed as {} :=
  throughout_iff_within (fun _ a _ hi hok h => Inv.step hi (a := a) hok h)
    (fun _ a _ hi h => hi.delivers_upToDate_iff (a := a) h) inv_initial h

/-- Two subscriptions of one child, of which one is given up after a last broadcast. -/
theorem delivered_iff_lastBroadcast :
    let as : List (Action ℕ ℕ) := [.subscribe 7,.subscribe 7,.broadcast (.setWorking 3),.drop 0]
    Throughout step (fun s a t => Delivers s a t ∧ UpToDate t) as {} :=
  (delivered_iff _ ((run step _ _).get rfl) (Option.some_get _).symm).mpr (by decide)

/-- The child still has a subscription, and does not receive the broadcast. -/
theorem secondSubscription_lost :
    let as : List (Action ℕ ℕ) := [.subscribe 7,.subscribe 7,.drop 0,.broadcast (.setWorking 3)]
    ¬Throughout step (fun s a t => Delivers s a t ∧ UpToDate t) as {} := by
  intro as h
  have hd := (((h _ rfl).2 _ rfl).2 _ rfl).2 _ rfl
  exact absurd (hd.1.1 7) (by decide)

end ProgressInterfaceBroadcaster
end Scroom
