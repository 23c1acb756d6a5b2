import Scroom.Transitions

/-! Loading the data of one tile for the observers that registered with it. Each observer
goes through the steps of `observerAdded` on a thread of its own, loads run on other threads,
and a queue lives as long as somebody has a strong reference to it. Whether the weak pointers
`constTile` and `tile` can be locked is all that matters of them here. -/
namespace Scroom
namespace TileLoading
open Transitions

/-- The `TSI_` values. -/
inductive TileStateInternal
  | uninitialized | normal | outOfBounds | loadingSynchronously | loadingAsynchronously
  deriving DecidableEq

/-- Where the registration of an observer stands, with the local variables `result` and `queue_`
of `observerAdded`. -/
inductive Phase
  | registered
  | readTile (result : Bool)
  | readQueue (result : Bool) (queue_ : Option ℕ)
  | checkedState (queue_ : Option ℕ)
  | addedQueue (result : Bool)
  | returned
  | dropped
  deriving DecidableEq

/-- An observer in the registration map. Its token keeps `queues` alive, and `told` says whether
`tileLoaded` was called since it was put there. -/
structure Registration where
  phase : Phase := .registered
  queues : List ℕ := []
  told : Bool := false
  deriving DecidableEq

/-- All queues the registration has strong references to. -/
def Registration.keeps (r : Registration) : List ℕ :=
  match r.phase with
  | .readQueue _ queue_ => r.queues ++ queue_.toList
  | .checkedState queue_ => r.queues ++ queue_.toList
  | _ => r.queues

inductive Caller
  | job | getConstTileSync | getTileSync | reportFinished
  deriving DecidableEq

/-- The next step of a thread that is in one of the functions that load. -/
inductive Thread
  | getTileSync
  | getConstTileSync (caller : Caller)
  | lockState (caller : Caller)
  | lockData (caller : Caller)
  | lockStateAgain (didLoad : Bool) (caller : Caller)
  | makeTile
  | report
  deriving DecidableEq

/-- The tile, its observers, the loads in the thread pool by the queue they are on, the threads
at work, and the identity of the next queue. -/
structure Config where
  state : TileStateInternal := .uninitialized
  constTile : Bool := false
  tile : Bool := false
  queue : Option ℕ := none
  registrations : List Registration := []
  jobs : List ℕ := []
  threads : List Thread := []
  nextQueue : ℕ := 0

def queueExists (c : Config) (q : ℕ) : Bool := c.registrations.any fun r => q ∈ r.keeps

/-- `queue.lock()` -/
def lockQueue (c : Config) : Option ℕ := c.queue.filter (queueExists c)

def cleanupState (c : Config) : Config :=
  if c.state = .loadingAsynchronously ∧ lockQueue c = none then { c with state := .normal } else c

/-- `tileLoaded`, for an observer that is still in the map. -/
def Registration.tileLoaded (r : Registration) : Registration :=
  if r.phase = .dropped then r else { r with told := true }

def notifyObservers (c : Config) : Config :=
  { c with registrations := c.registrations.map Registration.tileLoaded }

def setRegistration (c : Config) (i : ℕ) (r : Registration) : Config :=
  { c with registrations := c.registrations.set i r }

/-- The section of `observerAdded` under the state lock. -/
def checkState (c : Config) (i : ℕ) (r : Registration) (queue_ : Option ℕ) : Config :=
  let c := cleanupState c
  match c.state, queue_ with
  | .normal, some q =>
    setRegistration { c with jobs := c.jobs ++ [q], state := .loadingAsynchronously } i
      { r with phase := .checkedState (some q) }
  | .normal, none =>
    setRegistration { c with
      queue := some c.nextQueue, nextQueue := c.nextQueue+1
      jobs := c.jobs ++ [c.nextQueue], state := .loadingAsynchronously } i
      { r with phase := .checkedState (some c.nextQueue) }
  | _, _ => setRegistration c i { r with phase := .checkedState queue_ }

def observerAdded (c : Config) (i : ℕ) (r : Registration) : Option Config :=
  match r.phase with
  | .registered => some (setRegistration c i { r with phase := .readTile c.constTile })
  | .readTile result => some (setRegistration c i { r with phase := .readQueue result (lockQueue c) })
  | .readQueue false queue_ => some (checkState c i r queue_)
  | .readQueue true queue_ =>
    some (setRegistration c i
      { r with phase := .addedQueue true, queues := r.queues ++ queue_.toList })
  | .checkedState queue_ =>
    some (setRegistration c i
      { r with phase := .addedQueue false, queues := r.queues ++ queue_.toList })
  | .addedQueue result =>
    some (setRegistration c i { r with phase := .returned, told := r.told || result })
  | .returned => none
  | .dropped => none

/-- What the caller of `do_load` goes on with. -/
def Caller.next : Caller → List Thread
  | .job => []
  | .getConstTileSync => []
  | .getTileSync => [.makeTile]
  | .reportFinished => [.report]

def spawn (c : Config) (threads : List Thread) : Config := { c with threads := c.threads ++ threads }

/-- One step of a thread, which has been taken out of the list. -/
def resume (c : Config) : Thread → Config
  | .getTileSync => if c.tile then c else spawn c [.getConstTileSync .getTileSync]
  | .getConstTileSync caller =>
    if c.constTile then spawn c caller.next else spawn c [.lockState caller]
  | .lockState caller =>
    spawn { cleanupState c with state := .loadingSynchronously } [.lockData caller]
  | .lockData caller =>
    if c.constTile then spawn c [.lockStateAgain false caller]
    else spawn { c with constTile := true } [.lockStateAgain true caller]
  | .lockStateAgain didLoad caller =>
    let c := { cleanupState c with state := .normal }
    spawn (if didLoad then notifyObservers c else c) caller.next
  | .makeTile => { c with tile := true }
  | .report => notifyObservers c

/-- Whether a thread has a strong reference to the const tile in hand. -/
def Thread.holdsTile : Thread → Bool
  | .lockStateAgain _ _ => true
  | .makeTile => true
  | .report => true
  | _ => false

def Phase.holdsTile : Phase → Bool
  | .readTile result => result
  | .readQueue result _ => result
  | .addedQueue result => result
  | _ => false

inductive Action
  | registerObserver
  | observerAdded (i : ℕ)
  | dropToken (i : ℕ)
  | initialize_
  | getTileSync
  | getConstTileSync
  | reportFinished
  | startJob (q : ℕ)
  | resume (t : Thread)
  | expireConstTile
  | expireTile

def step (c : Config) : Action → Option Config
  | .registerObserver => some { c with registrations := c.registrations ++ [{}] }
  | .observerAdded i => (c.registrations[i]?).bind (observerAdded c i)
  | .dropToken i =>
    (c.registrations[i]?).bind fun r =>
      if r.phase = .returned then some (setRegistration c i { r with phase := .dropped, queues := [] })
      else none
  | .initialize_ =>
    if c.state = .uninitialized then some (spawn { c with state := .normal } [.getTileSync])
    else some c
  | .getTileSync => some (spawn c [.getTileSync])
  | .getConstTileSync => some (spawn c [.getConstTileSync .getConstTileSync])
  | .reportFinished => some (spawn c [.lockState .reportFinished])
  | .startJob q =>
    if q ∈ c.jobs then
      let d := { c with jobs := c.jobs.erase q }
      some (if queueExists c q then spawn d [.lockState .job] else d)
    else none
  | .resume t =>
    if t ∈ c.threads then some (resume { c with threads := c.threads.erase t } t) else none
  | .expireConstTile =>
    if c.threads.any Thread.holdsTile || c.registrations.any (·.phase.holdsTile) then none
    else some { c with constTile := false }
  | .expireTile => some { c with tile := false }

/-- No call is in progress. Loads may be waiting in the thread pool. -/
def Quiescent (c : Config) : Prop :=
  c.threads = [] ∧ ∀ r ∈ c.registrations, r.phase = .returned ∨ r.phase = .dropped

/-- The tile has no content yet. -/
def TileStateInternal.asleep : TileStateInternal → Bool
  | .uninitialized => true
  | .outOfBounds => true
  | _ => false

/-- The observer has been told, or a load will run that it keeps from being cancelled. -/
def Served (c : Config) (r : Registration) : Prop :=
  r.told = true ∨ ∃ q ∈ r.queues, q ∈ c.jobs

/-- Whether a thread will load the tile, unless it is there, or tell that it did. -/
def Thread.loads (tile : Bool) : Thread → Bool
  | .getTileSync => !tile
  | .getConstTileSync _ => true
  | .lockState _ => true
  | .lockData _ => true
  | .lockStateAgain didLoad _ => didLoad
  | _ => false

/-- When `observerAdded` relies on a load that was already scheduled, that load is on the queue
that it has locked before, or a thread is already at work on one. -/
def keepsPendingLoad (c : Config) : Action → Bool
  | .observerAdded i =>
    match c.registrations[i]? with
    | some ⟨.readQueue false queue_,_,_⟩ =>
      (cleanupState c).state ≠ .loadingAsynchronously || queue_.any (· ∈ c.jobs) ||
        c.threads.any (Thread.loads c.tile)
    | _ => true
  | _ => true

/-! ### What holds in between -/

/-- A tile was loaded that the observers will be told about. -/
def Coming (threads : List Thread) : Prop := ∃ caller, .lockStateAgain true caller ∈ threads

/-- A thread that will load the tile, unless somebody else loads it first. -/
def Underway (c : Config) : Prop :=
  (∃ caller, .getConstTileSync caller ∈ c.threads ∨ .lockState caller ∈ c.threads ∨
    .lockData caller ∈ c.threads) ∨ .getTileSync ∈ c.threads ∧ c.tile = false

def Covered (c : Config) (r : Registration) : Prop :=
  c.state.asleep = true ∨ (∃ q ∈ r.keeps, q ∈ c.jobs) ∨ Coming c.threads ∨ Underway c

/-- The observer found no tile. -/
def Phase.missed : Phase → Bool
  | .readTile result => !result
  | .readQueue result _ => !result
  | .checkedState _ => true
  | .addedQueue result => !result
  | .returned => true
  | _ => false

/-- The observer found no tile and has checked the state. -/
def Phase.waits : Phase → Bool
  | .checkedState _ => true
  | .addedQueue result => !result
  | .returned => true
  | _ => false

theorem Phase.missed_of_waits {p : Phase} (h : p.waits = true) : p.missed = true := by
  cases p <;> simp_all [waits,missed]

/-- The thread has not touched the state of the tile. -/
def Thread.early : Thread → Bool
  | .getTileSync => true
  | .getConstTileSync _ => true
  | .lockState _ => true
  | _ => false

/-- The thread will set the state back to normal. -/
def Thread.loading : Thread → Bool
  | .lockData _ => true
  | .lockStateAgain _ _ => true
  | _ => false

structure Inv (c : Config) : Prop where
  idle : c.state.asleep = true → c.tile = false ∧ c.constTile = false ∧
    ∀ t ∈ c.threads, t.early = true
  held : ∀ t ∈ c.threads, t.holdsTile = true → c.constTile = true
  loading : c.state = .loadingSynchronously → ∃ t ∈ c.threads, t.loading = true
  coming : c.constTile = true → ∀ r ∈ c.registrations, r.told = false → r.phase.missed = true →
    Coming c.threads
  covered : ∀ r ∈ c.registrations, r.told = false → r.phase.waits = true → Covered c r

theorem inv_initial {state : TileStateInternal} (h : state ≠ .loadingSynchronously) :
    Inv { state := state } where
  idle := by simp
  held := by simp
  loading := fun hs => absurd hs h
  coming := by simp
  covered := by simp

variable {c d : Config} {r r' : Registration} {t : Thread} {threads : List Thread}

theorem Covered.mono (h : Covered c r) (hs : c.state.asleep = true → d.state.asleep = true)
    (hj : ∀ q ∈ r.keeps, q ∈ c.jobs → q ∈ d.jobs) (ht : ∀ t ∈ c.threads, t ∈ d.threads)
    (htile : c.tile = false → d.tile = false) : Covered d r := by
  rcases h with h | ⟨q,hq,h⟩ | ⟨caller,h⟩ | ⟨caller,h⟩ | ⟨h,hf⟩
  · exact Or.inl (hs h)
  · exact Or.inr (Or.inl ⟨q,hq,hj q hq h⟩)
  · exact Or.inr (Or.inr (Or.inl ⟨caller,ht _ h⟩))
  · refine Or.inr (Or.inr (Or.inr (Or.inl ⟨caller,?_⟩)))
    exact h.imp (ht _) (Or.imp (ht _) (ht _))
  · exact Or.inr (Or.inr (Or.inr (Or.inr ⟨ht _ h,htile hf⟩)))

theorem Inv.withRegistration (hi : Inv c) (i : ℕ)
    (hcoming : c.constTile = true → r.told = false → r.phase.missed = true → Coming c.threads)
    (hcovered : r.told = false → r.phase.waits = true → Covered c r) :
    Inv (setRegistration c i r) where
  __ := hi
  coming := fun hc => forall_mem_set (hi.coming hc) (hcoming hc)
  covered := forall_mem_set hi.covered hcovered

theorem cleanupState_eq (c : Config) : cleanupState c = c ∨
    c.state = .loadingAsynchronously ∧ cleanupState c = { c with state := .normal } := by
  unfold cleanupState
  split
  case isTrue h => exact Or.inr ⟨h.1,rfl⟩
  case isFalse => exact Or.inl rfl

theorem cleanupState_setState (c : Config) (state : TileStateInternal) :
    { cleanupState c with state := state } = { c with state := state } := by
  rcases cleanupState_eq c with h | ⟨-,h⟩ <;> rw [h]

theorem Inv.cleaned (hi : Inv c) : Inv (cleanupState c) := by
  rcases cleanupState_eq c with h | ⟨hs,h⟩
  · exact h.symm ▸ hi
  · rw [h]
    exact {
      idle := by simp [TileStateInternal.asleep]
      held := hi.held
      loading := by simp
      coming := hi.coming
      covered := fun r hr ht hw => (hi.covered r hr ht hw).mono
        (by simp [hs,TileStateInternal.asleep]) (fun _ _ => id) (fun _ => id) id }

@[simp] theorem cleanupState_registrations (c : Config) :
    (cleanupState c).registrations = c.registrations := by
  rcases cleanupState_eq c with h | ⟨-,h⟩ <;> rw [h]

@[simp] theorem cleanupState_threads (c : Config) : (cleanupState c).threads = c.threads := by
  rcases cleanupState_eq c with h | ⟨-,h⟩ <;> rw [h]

@[simp] theorem cleanupState_tile (c : Config) : (cleanupState c).tile = c.tile := by
  rcases cleanupState_eq c with h | ⟨-,h⟩ <;> rw [h]

@[simp] theorem cleanupState_jobs (c : Config) : (cleanupState c).jobs = c.jobs := by
  rcases cleanupState_eq c with h | ⟨-,h⟩ <;> rw [h]

theorem Inv.schedule (hi : Inv c) (hs : c.state = .normal) (q nextQueue : ℕ) (queue : Option ℕ) :
    Inv { c with
      queue := queue, nextQueue := nextQueue
      jobs := c.jobs++[q], state := .loadingAsynchronously } where
  idle := by simp [TileStateInternal.asleep]
  held := hi.held
  loading := by simp
  coming := hi.coming
  covered := fun r hr ht hw => (hi.covered r hr ht hw).mono
    (by simp [hs,TileStateInternal.asleep]) (fun _ _ h => List.mem_append_left _ h) (fun _ => id) id

theorem coming_or_underway (h : c.threads.any (Thread.loads c.tile) = true) : Coming c.threads ∨ Underway c := by
  obtain ⟨t,hm,ht⟩ := List.any_eq_true.mp h
  cases t with
  | getTileSync => exact Or.inr (Or.inr ⟨hm,by simpa [Thread.loads] using ht⟩)
  | getConstTileSync caller => exact Or.inr (Or.inl ⟨caller,Or.inl hm⟩)
  | lockState caller => exact Or.inr (Or.inl ⟨caller,Or.inr (Or.inl hm)⟩)
  | lockData caller => exact Or.inr (Or.inl ⟨caller,Or.inr (Or.inr hm)⟩)
  | lockStateAgain didLoad caller =>
    obtain rfl : didLoad = true := ht
    exact Or.inl ⟨caller,hm⟩
  | makeTile => cases ht
  | report => cases ht

/-- Only `keepsPendingLoad` makes the branch good in which a load is said to be pending. -/
theorem Inv.checked (hi : Inv c) {i : ℕ} (hr : r ∈ c.registrations) {queue_ : Option ℕ}
    (hp : r.phase = .readQueue false queue_)
    (hk : (cleanupState c).state = .loadingAsynchronously →
      (∃ q ∈ queue_, q ∈ c.jobs) ∨ Coming c.threads ∨ Underway c) :
    Inv (checkState c i r queue_) := by
  have hc := hi.cleaned
  have hcoming : (cleanupState c).constTile = true → r.told = false →
      Coming (cleanupState c).threads := fun h ht =>
    hc.coming h r (by simpa using hr) ht (by simp [hp,Phase.missed])
  cases hs : (cleanupState c).state with
  | uninitialized =>
    simp only [checkState,hs]
    exact hc.withRegistration i (fun h ht _ => hcoming h ht)
      fun _ _ => Or.inl (by simp [hs,TileStateInternal.asleep])
  | outOfBounds =>
    simp only [checkState,hs]
    exact hc.withRegistration i (fun h ht _ => hcoming h ht)
      fun _ _ => Or.inl (by simp [hs,TileStateInternal.asleep])
  | normal =>
    cases queue_ with
    | some q =>
      simp only [checkState,hs]
      exact (hc.schedule hs q _ _).withRegistration i (fun h ht _ => hcoming h ht)
        fun _ _ => Or.inr (Or.inl ⟨q,by simp [Registration.keeps],by simp⟩)
    | none =>
      simp only [checkState,hs]
      exact (hc.schedule hs (cleanupState c).nextQueue _ _).withRegistration i
        (fun h ht _ => hcoming h ht) fun _ _ =>
          Or.inr (Or.inl ⟨(cleanupState c).nextQueue,by simp [Registration.keeps],by simp⟩)
  | loadingSynchronously =>
    simp only [checkState,hs]
    refine hc.withRegistration i (fun h ht _ => hcoming h ht) fun ht _ => ?_
    obtain ⟨t,hm,hl⟩ := hc.loading hs
    cases t with
    | lockData caller => exact Or.inr (Or.inr (Or.inr (Or.inl ⟨caller,Or.inr (Or.inr hm)⟩)))
    | lockStateAgain didLoad caller => exact Or.inr (Or.inr (Or.inl (hcoming (hc.held _ hm rfl) ht)))
    | _ => cases hl
  | loadingAsynchronously =>
    simp only [checkState,hs]
    refine hc.withRegistration i (fun h ht _ => hcoming h ht) fun _ _ => ?_
    rcases hk hs with ⟨q,hq,hj⟩ | h | h
    · refine Or.inr (Or.inl ⟨q,?_,by simpa using hj⟩)
      cases hq
      simp [Registration.keeps]
    · exact Or.inr (Or.inr (Or.inl (by simpa using h)))
    · exact Or.inr (Or.inr (Or.inr (by simpa [Underway] using h)))

theorem Inv.added (hi : Inv c) {i : ℕ} (hr : c.registrations[i]? = some r)
    (hk : keepsPendingLoad c (.observerAdded i) = true) (h : observerAdded c i r = some d) : Inv d := by
  have hm := List.mem_of_getElem? hr
  cases hp : r.phase with
  | registered =>
    simp only [observerAdded,hp,Option.some.injEq] at h
    subst h
    exact hi.withRegistration i (fun hc _ hmiss => by simp [Phase.missed,hc] at hmiss)
      (by simp [Phase.waits])
  | readTile result =>
    simp only [observerAdded,hp,Option.some.injEq] at h
    subst h
    exact hi.withRegistration i
      (fun hc ht hmiss => hi.coming hc r hm ht (by simpa [hp,Phase.missed] using hmiss))
      (by simp [Phase.waits])
  | readQueue result queue_ =>
    cases result with
    | false =>
      simp only [observerAdded,hp,Option.some.injEq] at h
      subst h
      refine hi.checked hm hp fun hs => ?_
      obtain ⟨_,queues,told⟩ := r
      cases hp
      have hload : queue_.any (· ∈ c.jobs) = true ∨ c.threads.any (Thread.loads c.tile) = true := by
        simpa [keepsPendingLoad,hr,hs] using hk
      exact hload.imp (by simp [Option.any_eq_true]) coming_or_underway
    | true =>
      simp only [observerAdded,hp,Option.some.injEq] at h
      subst h
      exact hi.withRegistration i (by simp [Phase.missed]) (by simp [Phase.waits])
  | checkedState queue_ =>
    simp only [observerAdded,hp,Option.some.injEq] at h
    subst h
    refine hi.withRegistration i
      (fun hc ht _ => hi.coming hc r hm ht (by simp [hp,Phase.missed])) fun ht _ => ?_
    have hcov := hi.covered r hm ht (by simp [hp,Phase.waits])
    simpa [Covered,Registration.keeps,hp] using hcov
  | addedQueue result =>
    simp only [observerAdded,hp,Option.some.injEq] at h
    subst h
    have hres : (r.told || result) = false → r.told = false ∧ result = false := by simp
    refine hi.withRegistration i (fun hc ht _ => ?_) fun ht _ => ?_
    · exact hi.coming hc r hm (hres ht).1 (by simp [hp,Phase.missed,(hres ht).2])
    · have hcov := hi.covered r hm (hres ht).1 (by simp [hp,Phase.waits,(hres ht).2])
      simpa [Covered,Registration.keeps,hp] using hcov
  | returned => simp [observerAdded,hp] at h
  | dropped => simp [observerAdded,hp] at h

theorem Coming.mono {new : List Thread} (h : Coming threads)
    (ht : ∀ s ∈ threads, s ∈ new) : Coming new :=
  h.imp fun _ => ht _

theorem Inv.coming_of_waits (hi : Inv c) (hc : c.constTile = true) (hr : r ∈ c.registrations)
    (ht : r.told = false) (hw : r.phase.waits = true) : Coming c.threads :=
  hi.coming hc r hr ht (Phase.missed_of_waits hw)

theorem Inv.spawned (hi : Inv c) (ht : t.early = true) : Inv (spawn c [t]) where
  idle := fun hs => by
    obtain ⟨htile,hconst,hthreads⟩ := hi.idle hs
    refine ⟨htile,hconst,fun s hm => ?_⟩
    rcases List.mem_append.mp hm with hm | hm
    · exact hthreads s hm
    · exact List.mem_singleton.mp hm ▸ ht
  held := fun s hm hh => by
    rcases List.mem_append.mp hm with hm | hm
    · exact hi.held s hm hh
    · rw [List.mem_singleton.mp hm] at hh
      cases t <;> cases ht <;> cases hh
  loading := fun hs => by
    obtain ⟨s,hm,hl⟩ := hi.loading hs
    exact ⟨s,List.mem_append_left _ hm,hl⟩
  coming := fun hc r hr hn hm => (hi.coming hc r hr hn hm).mono fun _ => List.mem_append_left _
  covered := fun r hr hn hw => (hi.covered r hr hn hw).mono id (fun _ _ => id)
    (fun _ => List.mem_append_left _) id

theorem inv_notifyObservers
    (hidle : c.state.asleep = true → c.tile = false ∧ c.constTile = false ∧
      ∀ t ∈ c.threads, t.early = true)
    (hheld : ∀ t ∈ c.threads, t.holdsTile = true → c.constTile = true)
    (hloading : c.state = .loadingSynchronously → ∃ t ∈ c.threads, t.loading = true) :
    Inv (notifyObservers c) := by
  have htold : ∀ r ∈ (notifyObservers c).registrations, r.told = false → r.phase = .dropped := by
    intro r hr ht
    obtain ⟨s,-,rfl⟩ := List.mem_map.mp hr
    by_cases hd : s.phase = .dropped
    · simp [Registration.tileLoaded,hd]
    · simp [Registration.tileLoaded,hd] at ht
  exact {
    idle := hidle
    held := hheld
    loading := hloading
    coming := fun _ r hr ht hm => by simp [htold r hr ht,Phase.missed] at hm
    covered := fun r hr ht hw => by simp [htold r hr ht,Phase.waits] at hw }

theorem Inv.replace (hi : Inv c) (next : List Thread)
    (hidle : c.state.asleep = true → ∀ s ∈ next, s.early = true)
    (hheld : ∀ s ∈ next, s.holdsTile = true → c.constTile = true)
    (hloading : c.state = .loadingSynchronously → t.loading = true → ∃ s ∈ next, s.loading = true)
    (hcoming : ∀ caller, t ≠ .lockStateAgain true caller)
    (hcovered : ∀ r ∈ c.registrations, r.told = false → r.phase.waits = true →
      Coming c.threads ∨ Covered { c with threads := c.threads.erase t++next } r) :
    Inv { c with threads := c.threads.erase t++next } := by
  have hrest : ∀ s ∈ c.threads, s ≠ t → s ∈ c.threads.erase t++next := fun s hs hne =>
    List.mem_append_left _ ((List.mem_erase_of_ne hne).mpr hs)
  have hcome : Coming c.threads → Coming (c.threads.erase t++next) := fun ⟨caller,h⟩ =>
    ⟨caller,hrest _ h (hcoming caller).symm⟩
  exact {
    idle := fun hs => by
      obtain ⟨htile,hconst,hthreads⟩ := hi.idle hs
      refine ⟨htile,hconst,fun s hm => ?_⟩
      rcases List.mem_append.mp hm with hm | hm
      · exact hthreads s (List.mem_of_mem_erase hm)
      · exact hidle hs s hm
    held := fun s hm => by
      rcases List.mem_append.mp hm with hm | hm
      · exact hi.held s (List.mem_of_mem_erase hm)
      · exact hheld s hm
    loading := fun hs => by
      obtain ⟨s,hm,hl⟩ := hi.loading hs
      by_cases hst : s = t
      · obtain ⟨u,hu,hul⟩ := hloading hs (hst ▸ hl)
        exact ⟨u,List.mem_append_right _ hu,hul⟩
      · exact ⟨s,hrest s hm hst,hl⟩
    coming := fun hc r hr hn hm => hcome (hi.coming hc r hr hn hm)
    covered := fun r hr hn hw =>
      (hcovered r hr hn hw).elim (fun h => Or.inr (Or.inr (Or.inl (hcome h)))) id }

theorem Inv.resumeGetTileSync (hi : Inv c) :
    Inv (resume { c with threads := c.threads.erase .getTileSync } .getTileSync) := by
  cases htile : c.tile with
  | true =>
    have hd := hi.replace (t := .getTileSync) [] (by simp) (by simp) (by simp [Thread.loading])
      (by simp) fun r hr ht hw => ?_
    · simpa [resume,htile] using hd
    · rcases hi.covered r hr ht hw with h | h | h | ⟨caller,h⟩ | ⟨-,h⟩
      · exact Or.inr (Or.inl h)
      · exact Or.inr (Or.inr (Or.inl h))
      · exact Or.inl h
      · exact Or.inr (Or.inr (Or.inr (Or.inr (Or.inl
          ⟨caller,by simpa [List.mem_erase_of_ne] using h⟩))))
      · simp [htile] at h
  | false =>
    have hd := hi.replace (t := .getTileSync) [.getConstTileSync .getTileSync]
      (by simp [Thread.early]) (by simp [Thread.holdsTile]) (by simp [Thread.loading]) (by simp)
      fun _ _ _ _ => Or.inr (Or.inr (Or.inr (Or.inr (Or.inl ⟨.getTileSync,by simp⟩))))
    simpa [resume,spawn,htile] using hd

theorem Inv.resumeGetConstTileSync (hi : Inv c) (caller : Caller) :
    Inv (resume { c with threads := c.threads.erase (.getConstTileSync caller) }
      (.getConstTileSync caller)) := by
  cases hc : c.constTile with
  | true =>
    have hd := hi.replace (t := .getConstTileSync caller) caller.next
      (fun hs => by simp [(hi.idle hs).2.1] at hc) (fun _ _ _ => hc) (by simp [Thread.loading])
      (by simp) fun r hr ht hw => Or.inl (hi.coming_of_waits hc hr ht hw)
    simpa [resume,spawn,hc] using hd
  | false =>
    have hd := hi.replace (t := .getConstTileSync caller) [.lockState caller]
      (by simp [Thread.early]) (by simp [Thread.holdsTile]) (by simp [Thread.loading]) (by simp)
      fun _ _ _ _ => Or.inr (Or.inr (Or.inr (Or.inr (Or.inl ⟨caller,by simp⟩))))
    simpa [resume,spawn,hc] using hd

theorem Inv.resumeLockState (hi : Inv c) (caller : Caller) :
    Inv (resume { c with threads := c.threads.erase (.lockState caller) } (.lockState caller)) := by
  have hd : Inv { c with threads := c.threads.erase (.lockState caller)++[.lockData caller]
                         state := .loadingSynchronously } := {
    idle := by simp [TileStateInternal.asleep]
    held := fun s hm hh => by
      rcases List.mem_append.mp hm with hm | hm
      · exact hi.held s (List.mem_of_mem_erase hm) hh
      · cases List.mem_singleton.mp hm
        cases hh
    loading := fun _ => ⟨.lockData caller,by simp,rfl⟩
    coming := fun hc r hr ht hm => by
      obtain ⟨other,h⟩ := hi.coming hc r hr ht hm
      exact ⟨other,by simpa [List.mem_erase_of_ne] using h⟩
    covered := fun _ _ _ _ => Or.inr (Or.inr (Or.inr (Or.inl ⟨caller,by simp⟩))) }
  simp only [resume,cleanupState_setState]
  exact hd

theorem Inv.resumeLockData (hi : Inv c) {caller : Caller} (ht : .lockData caller ∈ c.threads) :
    Inv (resume { c with threads := c.threads.erase (.lockData caller) } (.lockData caller)) := by
  have hawake : c.state.asleep = true → False := fun hs => by
    have he := (hi.idle hs).2.2 _ ht
    cases he
  cases hc : c.constTile with
  | true =>
    have hd := hi.replace (t := .lockData caller) [.lockStateAgain false caller]
      (fun hs => (hawake hs).elim) (fun _ _ _ => hc) (by simp [Thread.loading]) (by simp)
      fun r hr ht hw => Or.inl (hi.coming_of_waits hc hr ht hw)
    simpa [resume,spawn,hc] using hd
  | false =>
    simp only [resume,spawn]
    exact {
      idle := fun hs => (hawake hs).elim
      held := fun _ _ _ => rfl
      loading := fun _ => ⟨.lockStateAgain true caller,by simp,rfl⟩
      coming := fun _ _ _ _ _ => ⟨caller,by simp⟩
      covered := fun _ _ _ _ => Or.inr (Or.inr (Or.inl ⟨caller,by simp⟩)) }

theorem Inv.awake (hi : Inv c) (hc : c.constTile = true) : Inv { c with state := .normal } where
  idle := by simp [TileStateInternal.asleep]
  held := hi.held
  loading := by simp
  coming := hi.coming
  covered := fun _ hr ht hw => Or.inr (Or.inr (Or.inl (hi.coming_of_waits hc hr ht hw)))

theorem Inv.resumeLockStateAgain (hi : Inv c) {didLoad : Bool} {caller : Caller}
    (ht : .lockStateAgain didLoad caller ∈ c.threads) :
    Inv (resume { c with threads := c.threads.erase (.lockStateAgain didLoad caller) }
      (.lockStateAgain didLoad caller)) := by
  have hc : c.constTile = true := hi.held _ ht rfl
  cases didLoad with
  | false =>
    have hd := (hi.awake hc).replace (t := .lockStateAgain false caller) caller.next
      (by simp [TileStateInternal.asleep]) (fun _ _ _ => hc) (by simp) (by simp)
      fun r hr ht hw => Or.inl (hi.coming_of_waits hc hr ht hw)
    simp only [resume,cleanupState_setState,Bool.false_eq_true,if_false]
    exact hd
  | true =>
    simp only [resume,cleanupState_setState,if_true]
    exact inv_notifyObservers (c := { c with
      threads := c.threads.erase (.lockStateAgain true caller)++caller.next, state := .normal })
      (by simp [TileStateInternal.asleep]) (fun _ _ _ => hc) (by simp)

theorem Inv.resumeMakeTile (hi : Inv c) (ht : .makeTile ∈ c.threads) :
    Inv (resume { c with threads := c.threads.erase .makeTile } .makeTile) := by
  have hc : c.constTile = true := hi.held _ ht rfl
  have hd := hi.replace (t := .makeTile) [] (by simp) (by simp) (by simp [Thread.loading]) (by simp)
    fun r hr ht hw => Or.inl (hi.coming_of_waits hc hr ht hw)
  rw [List.append_nil] at hd
  exact { hd with
    idle := fun hs => by simp [(hi.idle hs).2.1] at hc
    covered := fun _ hr ht hw => Or.inr (Or.inr (Or.inl (hd.coming_of_waits hc hr ht hw))) }

theorem Inv.resumeReport (hi : Inv c) (ht : .report ∈ c.threads) :
    Inv (resume { c with threads := c.threads.erase .report } .report) := by
  have hc : c.constTile = true := hi.held _ ht rfl
  have hd := hi.replace (t := .report) [] (by simp) (by simp) (by simp [Thread.loading]) (by simp)
    fun r hr ht hw => Or.inl (hi.coming_of_waits hc hr ht hw)
  rw [List.append_nil] at hd
  exact inv_notifyObservers hd.idle hd.held hd.loading

theorem Inv.resumed (hi : Inv c) (ht : t ∈ c.threads) :
    Inv (resume { c with threads := c.threads.erase t } t) := by
  cases t with
  | getTileSync => exact hi.resumeGetTileSync
  | getConstTileSync caller => exact hi.resumeGetConstTileSync caller
  | lockState caller => exact hi.resumeLockState caller
  | lockData caller => exact hi.resumeLockData ht
  | lockStateAgain didLoad caller => exact hi.resumeLockStateAgain ht
  | makeTile => exact hi.resumeMakeTile ht
  | report => exact hi.resumeReport ht

/-- A load that an observer waits for is not cancelled, since the observer keeps its queue. -/
theorem Inv.startJob (hi : Inv c) (q : ℕ) :
    Inv (if queueExists c q then spawn { c with jobs := c.jobs.erase q } [.lockState .job]
      else { c with jobs := c.jobs.erase q }) := by
  split
  case isTrue =>
    have hd := hi.spawned (t := .lockState .job) rfl
    exact { hd with
      covered := fun _ _ _ _ => Or.inr (Or.inr (Or.inr (Or.inl ⟨.job,by simp [spawn]⟩))) }
  case isFalse hq =>
    exact { hi with
      covered := fun r hr ht hw => (hi.covered r hr ht hw).mono id (fun p hp hj => by
        have hne : p ≠ q := fun h => hq (List.any_eq_true.mpr ⟨r,hr,by simpa [h] using hp⟩)
        exact (List.mem_erase_of_ne hne).mpr hj) (fun _ => id) id }

theorem Inv.expireConstTile (hi : Inv c) (hh : ∀ t ∈ c.threads, t.holdsTile = false) :
    Inv { c with constTile := false } where
  idle := fun hs => ⟨(hi.idle hs).1,rfl,(hi.idle hs).2.2⟩
  held := fun t ht h => by simp [hh t ht] at h
  loading := hi.loading
  coming := by simp
  covered := hi.covered

theorem Inv.registerObserver (hi : Inv c) :
    Inv { c with registrations := c.registrations ++ [{}] } :=
  { hi with
    coming := fun hc r hr ht hm => by
      rcases List.mem_append.mp hr with hr | hr
      · exact hi.coming hc r hr ht hm
      · cases List.mem_singleton.mp hr
        cases hm
    covered := fun r hr ht hw => by
      rcases List.mem_append.mp hr with hr | hr
      · exact hi.covered r hr ht hw
      · cases List.mem_singleton.mp hr
        cases hw }

theorem Inv.initialize_ (hi : Inv c) (hs : c.state = .uninitialized) :
    Inv (spawn { c with state := .normal } [.getTileSync]) := by
  have hidle := hi.idle (by simp [hs,TileStateInternal.asleep])
  have hd := hi.spawned (t := .getTileSync) rfl
  exact {
    idle := by simp [spawn,TileStateInternal.asleep]
    held := hd.held
    loading := by simp [spawn]
    coming := hd.coming
    covered := fun _ _ _ _ => Or.inr (Or.inr (Or.inr (Or.inr ⟨by simp [spawn],hidle.1⟩))) }

theorem Inv.expireTile (hi : Inv c) : Inv { c with tile := false } :=
  { hi with
    idle := fun hs => ⟨rfl,(hi.idle hs).2⟩
    covered := fun r hr ht hw => (hi.covered r hr ht hw).mono id (fun _ _ => id) (fun _ => id)
      fun _ => rfl }

theorem Inv.step (hi : Inv c) {a : Action} (hk : keepsPendingLoad c a = true) (h : step c a = some d) :
    Inv d := by
  cases a with
  | registerObserver =>
    cases h
    exact hi.registerObserver
  | observerAdded i =>
    obtain ⟨r,hr,h⟩ := Option.bind_eq_some_iff.mp h
    exact hi.added hr hk h
  | dropToken i =>
    obtain ⟨r,hr,h⟩ := Option.bind_eq_some_iff.mp h
    split at h
    · cases h
      exact hi.withRegistration i (by simp [Phase.missed]) (by simp [Phase.waits])
    · cases h
  | initialize_ =>
    simp only [TileLoading.step] at h
    split at h
    case isTrue hs =>
      cases h
      exact hi.initialize_ hs
    case isFalse =>
      cases h
      exact hi
  | getTileSync =>
    cases h
    exact hi.spawned rfl
  | getConstTileSync =>
    cases h
    exact hi.spawned rfl
  | reportFinished =>
    cases h
    exact hi.spawned rfl
  | startJob q =>
    simp only [TileLoading.step] at h
    split at h
    · cases h
      exact hi.startJob q
    · cases h
  | resume t =>
    simp only [TileLoading.step] at h
    split at h
    case isTrue ht =>
      cases h
      exact hi.resumed ht
    case isFalse => cases h
  | expireConstTile =>
    simp only [TileLoading.step] at h
    split at h
    · cases h
    case isFalse hh =>
      cases h
      simp only [Bool.or_eq_true,not_or,List.any_eq_true,not_exists,not_and,Bool.not_eq_true] at hh
      exact hi.expireConstTile hh.1
  | expireTile =>
    cases h
    exact hi.expireTile

/-- As long as every observer that relies on a load keeps it alive, or it is already being done, no
notification is lost: whenever nothing is in progress, each observer of a tile with content has
been told, or has a load pending on a queue of its own token. -/
theorem served_of_keepsPendingLoad (state : TileStateInternal) (hs : state ≠ .loadingSynchronously)
    (as : List Action) (c : Config)
    (hk : Within step (fun c a => keepsPendingLoad c a = true) as { state := state })
    (h : run step as { state := state } = some c) (hq : Quiescent c)
    (ha : c.state.asleep = false) : ∀ r ∈ c.registrations, r.phase = .returned → Served c r := by
  intro r hr hp
  have hi : Inv c := run_invariant_within (fun _ _ _ hi hk hs => hi.step hk hs) (inv_initial hs) hk h
  cases ht : r.told with
  | true => exact Or.inl ht
  | false =>
    rcases hi.covered r hr ht (by simp [hp,Phase.waits]) with h | h | ⟨_,h⟩ | ⟨_,h⟩ | ⟨h,_⟩
    · simp [ha] at h
    · exact Or.inr (by simpa [Registration.keeps,hp] using h)
    · simp [hq.1] at h
    · simp [hq.1] at h
    · simp [hq.1] at h

/-- The load of an initialised tile, after which its data is dropped. -/
def loadAndExpire : List Action :=
  [.initialize_,.resume .getTileSync,.resume (.getConstTileSync .getTileSync),
    .resume (.lockState .getTileSync),.resume (.lockData .getTileSync),
    .resume (.lockStateAgain true .getTileSync),.resume .makeTile,.expireConstTile]

instance (c : Config) : Decidable (Quiescent c) := inferInstanceAs (Decidable (_ ∧ _))
instance (c : Config) (r : Registration) : Decidable (Served c r) := inferInstanceAs (Decidable (_ ∨ _))

/-- The second observer comes when the queue of the first is there, so that it keeps the load
after the first has gone. -/
theorem served_of_keepsPendingLoad_shared :
    let c := (run step (loadAndExpire++[.registerObserver,.observerAdded 0,.observerAdded 0,
      .observerAdded 0,.registerObserver,.observerAdded 1,.observerAdded 1,.observerAdded 1,
      .observerAdded 0,.observerAdded 0,.observerAdded 1,.observerAdded 1,.dropToken 0])
      { state := .uninitialized }).get rfl
    ∀ r ∈ c.registrations, r.phase = .returned → Served c r :=
  served_of_keepsPendingLoad .uninitialized (by decide) _ _ (by decide) (Option.some_get _).symm
    (by decide) rfl

/-- Two observers look for a queue before there is one. The load that the first one schedules is
cancelled when the first one goes, and the second one never hears of the tile. -/
theorem overlapping_observer_lost :
    ¬∀ as c, run step as { state := .uninitialized } = some c → Quiescent c →
      c.state.asleep = false → ∀ r ∈ c.registrations, r.phase = .returned → Served c r := by
  intro h
  have hr := h (loadAndExpire++[.registerObserver,.observerAdded 0,.observerAdded 0,
    .registerObserver,.observerAdded 1,.observerAdded 1,.observerAdded 0,.observerAdded 1,
    .observerAdded 0,.observerAdded 0,.observerAdded 1,.observerAdded 1,.dropToken 0,.startJob 0])
    _ rfl (by decide) rfl
  revert hr
  decide

end TileLoading
end Scroom
