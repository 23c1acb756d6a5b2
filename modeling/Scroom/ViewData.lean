import Scroom.Transitions

/-! What a view keeps of a bitmap, and how the redraws it asks for answer the tiles that have been
loaded. Redraws, requests to clear the caches and the loading of tiles are on any threads. -/
namespace Scroom
namespace TiledBitmapViewData
open Transitions

/-- What `stuff` and `volatileStuff` refer to. -/
inductive Stuff (T : Type*)
  | tile (tile : T)
  | tileViewState (i j : ℤ)
  | registration (i j : ℤ)
  | lifeTimeManager (i j : ℤ)
  deriving DecidableEq

/-- The tiles that are needed. -/
structure Needed (L O : Type*) where
  layer : Option L := none
  imin : ℤ := 0
  imax : ℤ := 0
  jmin : ℤ := 0
  jmax : ℤ := 0
  zoom : ℤ := 0
  layerOperations : Option O := none
  deriving DecidableEq

/-- Who called `resetNeededTiles`. -/
inductive Caller
  | setNeededTiles | clearVolatileStuff
  deriving DecidableEq

/-- Where a thread is: in a redraw, before it calls `setNeededTiles`; in `resetNeededTiles`, before
and after it swapped the lists; back in `setNeededTiles`; in the redraw, drawing; done. -/
inductive Thread (L O T : Type*)
  | redraw (needed : Needed L O)
  | called (caller : Caller)
  | registering (caller : Caller) (newStuff : List (Stuff T))
  | ending
  | drawing
  | returned
  deriving DecidableEq

/-- What has happened: a tile was loaded, the lists were swapped, `setNeededTiles` ended, and the
redraw it belongs to has drawn, with what was in `stuff`. -/
inductive Event (T : Type*)
  | tileLoaded (tile : T)
  | swapped
  | ended (k : ℕ)
  | drawn (k : ℕ) (stuff : List (Stuff T))
  deriving DecidableEq

/-- Of the view there is the number of invalidates that are queued, and whether it has to be
redrawn. -/
structure Config (L O T : Type*) where
  needed : Needed L O := {}
  stuff : List (Stuff T) := []
  volatileStuff : List (Stuff T) := []
  redrawPending : Bool := false
  invalidates : ℕ := 0
  dirty : Bool := false
  threads : List (Thread L O T) := []
  events : List (Event T) := []
  deriving DecidableEq

section View
variable {L O T : Type*} [DecidableEq L]

/-- The tiles that are needed are among those that were. -/
def covers (c : Config L O T) (needed : Needed L O) : Bool :=
  c.needed.layer = needed.layer ∧ c.needed.imin ≤ needed.imin ∧ needed.imax ≤ c.needed.imax ∧
    c.needed.jmin ≤ needed.jmin ∧ needed.jmax ≤ c.needed.jmax ∧ c.needed.zoom = needed.zoom

def setThread (c : Config L O T) (k : ℕ) (thread : Thread L O T) : Config L O T :=
  { c with threads := c.threads.set k thread }

def endSetNeededTiles (c : Config L O T) (k : ℕ) : Config L O T :=
  setThread { c with redrawPending := false, events := .ended k::c.events } k .drawing

def setNeededTiles (c : Config L O T) (k : ℕ) (needed : Needed L O) : Config L O T :=
  if covers c needed then endSetNeededTiles c k
  else setThread { c with needed := needed, redrawPending := true } k (.called .setNeededTiles)

/-- The tiles of a range, row by row. -/
def tileIndices (needed : Needed L O) : List (ℤ × ℤ) :=
  (List.range (needed.imax-needed.imin).toNat).flatMap fun (i : ℕ) =>
    (List.range (needed.jmax-needed.jmin).toNat).map fun (j : ℕ) => (needed.imin+i,needed.jmin+j)

/-- The first part of `resetNeededTiles`, and what the registrations that follow without the mutex
put in a list. A tile that has been loaded is reported from there by `tileLoaded`. -/
def swapStuff (c : Config L O T) (k : ℕ) (caller : Caller) : Config L O T :=
  let newStuff := (tileIndices c.needed).flatMap fun (i,j) => [.tileViewState i j,.registration i j]
  setThread { c with stuff := [], volatileStuff := [], events := .swapped::c.events } k
    (.registering caller newStuff)

/-- The last part of `resetNeededTiles` -/
def spliceStuff (c : Config L O T) (k : ℕ) (caller : Caller) (newStuff : List (Stuff T)) : Config L O T :=
  setThread { c with stuff := c.stuff ++ newStuff } k
    (match caller with
    | .setNeededTiles => .ending
    | .clearVolatileStuff => .returned)

def draw (c : Config L O T) (k : ℕ) : Config L O T :=
  setThread { c with events := .drawn k c.stuff::c.events } k .returned

def proceed (c : Config L O T) (k : ℕ) : Thread L O T → Option (Config L O T)
  | .redraw needed => some (setNeededTiles c k needed)
  | .called caller => some (swapStuff c k caller)
  | .registering caller newStuff => some (spliceStuff c k caller newStuff)
  | .ending => some (endSetNeededTiles c k)
  | .drawing => some (draw c k)
  | .returned => none

def clearVolatileStuff (c : Config L O T) : Config L O T :=
  { c with volatileStuff := [], threads := c.threads ++ [.called .clearVolatileStuff] }

def storeVolatileStuff (c : Config L O T) (stuff : Stuff T) : Config L O T :=
  { c with volatileStuff := c.volatileStuff ++ [stuff] }

def tileLoaded (c : Config L O T) (tile : T) : Config L O T :=
  { c with
    stuff := c.stuff ++ [.tile tile]
    invalidates := if c.redrawPending then c.invalidates else c.invalidates+1
    redrawPending := true
    events := .tileLoaded tile::c.events }

/-- A queued invalidate is executed. -/
def invalidateView (c : Config L O T) : Option (Config L O T) :=
  if 0 < c.invalidates then some { c with invalidates := c.invalidates-1, dirty := true } else none

def redraw (c : Config L O T) (needed : Needed L O) : Config L O T :=
  { c with dirty := false, threads := c.threads ++ [.redraw needed] }

end View

inductive Action (L O T : Type*)
  | tileLoaded (tile : T)
  | storeVolatileStuff (stuff : Stuff T)
  | clearVolatileStuff
  | invalidateView
  | redraw (needed : Needed L O)
  | proceed (k : ℕ)

def step {L O T : Type*} [DecidableEq L] (c : Config L O T) : Action L O T → Option (Config L O T)
  | .tileLoaded tile => some (tileLoaded c tile)
  | .storeVolatileStuff stuff => some (storeVolatileStuff c stuff)
  | .clearVolatileStuff => some (clearVolatileStuff c)
  | .invalidateView => invalidateView c
  | .redraw needed => some (redraw c needed)
  | .proceed k => (c.threads[k]?).bind (proceed c k)

variable {L O T : Type*}

/-- The thread is in a redraw, and its `setNeededTiles` has not ended. -/
def Thread.pending : Thread L O T → Bool
  | .redraw _ => true
  | .called .setNeededTiles => true
  | .registering .setNeededTiles _ => true
  | .ending => true
  | _ => false

/-- An invalidate is on its way, has not been followed by a redraw, or the redraw is not past
`setNeededTiles`. -/
def Outstanding (c : Config L O T) : Prop :=
  0 < c.invalidates ∨ c.dirty = true ∨ ∃ thread ∈ c.threads, thread.pending = true

structure NoneLost (c : Config L O T) : Prop where
  redrawPending : c.redrawPending = true → Outstanding c
  ended : ¬Outstanding c → Along c.events fun newer e _ => ∀ tile, e = .tileLoaded tile →
    ∃ k, .ended k ∈ newer
  drawn : ¬Outstanding c → .drawing ∉ c.threads → Along c.events fun newer e _ => ∀ tile,
    e = .tileLoaded tile → ∃ k stuff later earlier, newer = later ++ .drawn k stuff::earlier ∧
      .ended k ∈ earlier ∧ (.tile tile ∈ stuff ∨ .swapped ∈ earlier)
  kept : Along c.events fun newer e _ => ∀ tile, e = .tileLoaded tile →
    .tile tile ∈ c.stuff ∨ .swapped ∈ newer

structure Inv (c : Config L O T) : Prop where
  redrawPending : c.redrawPending = true → Outstanding c
  ended : Along c.events fun newer e _ => ∀ tile, e = .tileLoaded tile →
    c.redrawPending = true ∨ ∃ k, .ended k ∈ newer
  drawn : Along c.events fun newer e _ => ∀ k, e = .ended k →
    c.threads[k]? = some .drawing ∨ ∃ stuff, .drawn k stuff ∈ newer
  kept : Along c.events fun newer e _ => ∀ tile, e = .tileLoaded tile →
    .tile tile ∈ c.stuff ∨ .swapped ∈ newer
  seen : Along c.events fun _ e older => ∀ k stuff, e = .drawn k stuff →
    Along older fun newer e _ => ∀ tile, e = .tileLoaded tile → .tile tile ∈ stuff ∨ .swapped ∈ newer

theorem inv_initial : Inv ({} : Config L O T) where
  redrawPending := by simp
  ended := along_nil _
  drawn := along_nil _
  kept := along_nil _
  seen := along_nil _

variable {c d : Config L O T} {k : ℕ} {thread thread' : Thread L O T}

theorem Outstanding.setThread (ho : Outstanding c) (hk : c.threads[k]? = some thread)
    (hpending : thread.pending = true → thread'.pending = true) : Outstanding (setThread c k thread') := by
  rcases ho with ho | ho | ⟨other,hm,hp⟩
  · exact .inl ho
  · exact .inr (.inl ho)
  · refine .inr (.inr ?_)
    obtain ⟨i,hi⟩ := List.getElem?_of_mem hm
    by_cases he : k = i
    · subst he
      cases hk.symm.trans hi
      exact ⟨thread',List.mem_of_getElem? (getElem?_set_of_getElem? hk),hpending hp⟩
    · exact ⟨other,List.mem_of_getElem? ((List.getElem?_set_ne he).trans hi),hp⟩

theorem drawing_set (hk : c.threads[k]? = some thread) (hne : thread ≠ .drawing) {i : ℕ}
    (hi : c.threads[i]? = some .drawing) : (c.threads.set k thread')[i]? = some .drawing := by
  have he : k ≠ i := by
    rintro rfl
    exact hne (Option.some.inj (hk.symm.trans hi))
  rw [List.getElem?_set_ne he]
  exact hi

theorem drawn_cons {threads threads' : List (Thread L O T)} {events : List (Event T)} {e : Event T}
    (h : Along events fun newer e _ => ∀ k, e = .ended k →
      threads[k]? = some .drawing ∨ ∃ stuff, .drawn k stuff ∈ newer)
    (he : ∀ k, e ≠ .ended k)
    (hthreads : ∀ k : ℕ, threads[k]? = some .drawing → threads'[k]? = some .drawing) :
    Along (e::events) fun newer e _ => ∀ k, e = .ended k →
      threads'[k]? = some .drawing ∨ ∃ stuff, .drawn k stuff ∈ newer := by
  refine h.cons (fun k hk => absurd hk (he k)) fun newer x older h k hk => ?_
  exact (h k hk).imp (hthreads k) fun ⟨stuff,hm⟩ => ⟨stuff,List.mem_cons_of_mem _ hm⟩

/-- A tile stays where it is as long as the lists are not swapped. -/
theorem kept_cons {stuff stuff' : List (Stuff T)} {events : List (Event T)} {e : Event T}
    (h : Along events fun newer e _ => ∀ tile, e = .tileLoaded tile → .tile tile ∈ stuff ∨ .swapped ∈ newer)
    (he : ∀ tile, e = .tileLoaded tile → .tile tile ∈ stuff')
    (hstuff : ∀ tile, .tile tile ∈ stuff → .tile tile ∈ stuff' ∨ e = .swapped) :
    Along (e::events) fun newer e _ => ∀ tile, e = .tileLoaded tile →
      .tile tile ∈ stuff' ∨ .swapped ∈ newer := by
  refine h.cons (fun tile ht => .inl (he tile ht)) fun newer x older h tile ht => ?_
  rcases h tile ht with hm | hm
  · rcases hstuff tile hm with hm | rfl
    · exact .inl hm
    · exact .inr List.mem_cons_self
  · exact .inr (List.mem_cons_of_mem _ hm)

theorem Inv.tileLoaded (hi : Inv c) (tile : T) : Inv (tileLoaded c tile) where
  redrawPending := fun _ => by
    by_cases hp : c.redrawPending = true
    · rcases hi.redrawPending hp with ho | ho
      · exact .inl (by simpa [TiledBitmapViewData.tileLoaded,hp] using ho)
      · exact .inr ho
    · exact .inl (by simp [TiledBitmapViewData.tileLoaded,hp])
  ended := fun _ _ _ _ _ _ => .inl rfl
  drawn := drawn_cons hi.drawn (by simp) fun _ h => h
  kept := kept_cons hi.kept (by simp [TiledBitmapViewData.tileLoaded]) fun _ hm => .inl (List.mem_append_left _ hm)
  seen := hi.seen.cons (by simp) fun _ _ _ h => h

theorem Inv.invalidateView (hi : Inv c) (h : invalidateView c = some d) : Inv d := by
  obtain ⟨-,⟨⟩⟩ := Option.ite_none_right_eq_some.mp h
  exact ⟨fun _ => .inr (.inl rfl),hi.ended,hi.drawn,hi.kept,hi.seen⟩

theorem Inv.withThread (hi : Inv c) {volatileStuff : List (Stuff T)} {dirty : Bool}
    (hdirty : c.dirty = true → dirty = true ∨ thread.pending = true) :
    Inv { c with volatileStuff := volatileStuff, dirty := dirty, threads := c.threads ++ [thread] } where
  redrawPending := fun hp => by
    rcases hi.redrawPending hp with ho | ho | ⟨other,hm,ho⟩
    · exact .inl ho
    · exact .inr ((hdirty ho).imp_right fun h => ⟨thread,by simp,h⟩)
    · exact .inr (.inr ⟨other,List.mem_append_left _ hm,ho⟩)
  ended := hi.ended
  drawn := hi.drawn.imp fun _ _ _ h k he => (h k he).imp_left getElem?_append_of_getElem?
  kept := hi.kept
  seen := hi.seen

theorem Inv.endSetNeededTiles (hi : Inv c) (hk : c.threads[k]? = some thread) (hne : thread ≠ .drawing) :
    Inv (endSetNeededTiles c k) where
  redrawPending := fun h => by cases h
  ended := hi.ended.cons (by simp) fun _ _ _ _ _ _ => .inr ⟨k,List.mem_cons_self⟩
  drawn := by
    refine hi.drawn.cons (fun i he => ?_) fun newer x older h i he => ?_
    · cases he
      exact .inl (getElem?_set_of_getElem? hk)
    · exact (h i he).imp (drawing_set hk hne) fun ⟨stuff,hm⟩ => ⟨stuff,List.mem_cons_of_mem _ hm⟩
  kept := kept_cons hi.kept (by simp) fun _ hm => .inl hm
  seen := hi.seen.cons (by simp) fun _ _ _ h => h

theorem Inv.swapStuff (hi : Inv c) {caller : Caller} (hk : c.threads[k]? = some (.called caller)) :
    Inv (swapStuff c k caller) where
  redrawPending := fun hp => (hi.redrawPending hp).setThread hk (by cases caller <;> simp [Thread.pending])
  ended := hi.ended.cons (by simp) fun _ _ _ h tile he =>
    (h tile he).imp_right fun ⟨k,hm⟩ => ⟨k,List.mem_cons_of_mem _ hm⟩
  drawn := drawn_cons hi.drawn (by simp) fun _ => drawing_set hk (by simp)
  kept := kept_cons hi.kept (by simp) fun _ _ => .inr rfl
  seen := hi.seen.cons (by simp) fun _ _ _ h => h

theorem Inv.spliceStuff (hi : Inv c) {caller : Caller} {newStuff : List (Stuff T)}
    (hk : c.threads[k]? = some (.registering caller newStuff)) : Inv (spliceStuff c k caller newStuff) where
  redrawPending := fun hp => (hi.redrawPending hp).setThread hk (by cases caller <;> simp [Thread.pending])
  ended := hi.ended
  drawn := hi.drawn.imp fun _ _ _ h k he => (h k he).imp_left (drawing_set hk (by simp))
  kept := hi.kept.imp fun _ _ _ h tile he => (h tile he).imp_left (List.mem_append_left _)
  seen := hi.seen

theorem Inv.draw (hi : Inv c) (hk : c.threads[k]? = some .drawing) : Inv (draw c k) where
  redrawPending := fun hp => (hi.redrawPending hp).setThread hk (by simp [Thread.pending])
  ended := hi.ended.cons (by simp) fun _ _ _ h tile he =>
    (h tile he).imp_right fun ⟨k,hm⟩ => ⟨k,List.mem_cons_of_mem _ hm⟩
  drawn := by
    refine hi.drawn.cons (by simp) fun newer x older h i he => ?_
    rcases h i he with hd | ⟨stuff,hm⟩
    · by_cases hik : k = i
      · subst hik
        exact .inr ⟨c.stuff,List.mem_cons_self⟩
      · exact .inl ((List.getElem?_set_ne hik).trans hd)
    · exact .inr ⟨stuff,List.mem_cons_of_mem _ hm⟩
  kept := kept_cons hi.kept (by simp) fun _ hm => .inl hm
  seen := by
    refine hi.seen.cons (fun i stuff he => ?_) fun _ _ _ h => h
    cases he
    exact hi.kept

section Step
variable [DecidableEq L]

theorem Inv.setNeededTiles (hi : Inv c) {needed needed' : Needed L O}
    (hk : c.threads[k]? = some (.redraw needed')) : Inv (setNeededTiles c k needed) := by
  unfold TiledBitmapViewData.setNeededTiles
  split
  case isTrue => exact hi.endSetNeededTiles hk (by simp)
  case isFalse =>
    exact {
      redrawPending := fun _ =>
        .inr (.inr ⟨.called .setNeededTiles,List.mem_of_getElem? (getElem?_set_of_getElem? hk),rfl⟩)
      ended := fun _ _ _ _ _ _ => .inl rfl
      drawn := hi.drawn.imp fun _ _ _ h k he => (h k he).imp_left (drawing_set hk (by simp))
      kept := hi.kept
      seen := hi.seen }

theorem Inv.proceed (hi : Inv c) (hk : c.threads[k]? = some thread) (h : proceed c k thread = some d) : Inv d := by
  cases thread with
  | redraw needed =>
    cases h
    exact hi.setNeededTiles hk
  | called caller =>
    cases h
    exact hi.swapStuff hk
  | registering caller newStuff =>
    cases h
    exact hi.spliceStuff hk
  | ending =>
    cases h
    exact hi.endSetNeededTiles hk (by simp)
  | drawing =>
    cases h
    exact hi.draw hk
  | returned => cases h

theorem Inv.step (hi : Inv c) {a : Action L O T} (h : step c a = some d) : Inv d := by
  cases a with
  | tileLoaded tile =>
    cases h
    exact hi.tileLoaded tile
  | storeVolatileStuff stuff =>
    cases h
    exact ⟨hi.redrawPending,hi.ended,hi.drawn,hi.kept,hi.seen⟩
  | clearVolatileStuff =>
    cases h
    exact hi.withThread .inl
  | invalidateView => exact hi.invalidateView h
  | redraw needed =>
    cases h
    exact hi.withThread fun _ => .inr rfl
  | proceed k =>
    obtain ⟨thread,hk,h⟩ := Option.bind_eq_some_iff.mp h
    exact hi.proceed hk h

end Step

/-- When nothing is outstanding the end of a `setNeededTiles` has followed, and if nobody is drawing
either, the redraw has drawn since. -/
theorem Inv.toNoneLost (hi : Inv c) : NoneLost c where
  redrawPending := hi.redrawPending
  ended := fun ho => hi.ended.imp fun _ _ _ h tile he =>
    (h tile he).resolve_left fun hp => ho (hi.redrawPending hp)
  drawn := fun ho hd newer e older hevents tile he => by
    obtain ⟨k,hk⟩ := (hi.ended newer e older hevents tile he).resolve_left fun hp => ho (hi.redrawPending hp)
    obtain ⟨after,before,rfl⟩ := List.append_of_mem hk
    rw [List.append_assoc,List.cons_append] at hevents
    obtain ⟨stuff,hs⟩ := (hi.drawn _ _ _ hevents k rfl).resolve_left fun h => hd (List.mem_of_getElem? h)
    obtain ⟨later,earlier,rfl⟩ := List.append_of_mem hs
    refine ⟨k,stuff,later,earlier ++ .ended k::before,by simp,by simp,?_⟩
    rw [List.append_assoc,List.cons_append] at hevents
    exact hi.seen _ _ _ hevents k stuff rfl _ e older (by simp) tile he
  kept := hi.kept

/-- However the threads take turns, no redraw is lost. -/
theorem noneLost [DecidableEq L] (as : List (Action L O T)) (c : Config L O T)
    (h : run step as {} = some c) : NoneLost c :=
  (run_invariant (fun _ _ _ hi h => Inv.step hi h) inv_initial h).toNoneLost

/-- A tile is loaded, and again while the redraw that it asked for registers. -/
theorem noneLost_registering :
    let c : Config ℕ ℕ ℕ := (run step [.tileLoaded 7,.invalidateView,.redraw { layer := some 0, imax := 1, jmax := 1 },
      .proceed 0,.proceed 0,.tileLoaded 7,.proceed 0,.proceed 0,.proceed 0] {}).get rfl
    NoneLost c ∧ c.redrawPending = false ∧ c.events =
      [.drawn 0 [.tile 7,.tileViewState 0 0,.registration 0 0],.ended 0,.tileLoaded 7,.swapped,.tileLoaded 7] :=
  ⟨noneLost _ _ (Option.some_get _).symm,by decide,by decide⟩

end TiledBitmapViewData
end Scroom
