import Scroom.Transitions

/-! The state machine that prepares the cached, zoomed image of one tile for one view.
Its entry points run under the mutex; a job scheduled by `kick` is cut at the points
where `process`, `computeBase` and `computeZoom` take or release that mutex. -/
namespace Scroom
namespace TileViewState
open Transitions

/-- `TileViewState::State`, in the order of the source. -/
inductive State
  | init | loaded | computingBase | baseComputed | computingZoom | zoomComputed | done
  deriving DecidableEq

def State.toNat : State → ℕ
  | .init => 0
  | .loaded => 1
  | .computingBase => 2
  | .baseComputed => 3
  | .computingZoom => 4
  | .zoomComputed => 5
  | .done => 6

instance : LE State := ⟨fun a b => a.toNat ≤ b.toNat⟩
instance : LT State := ⟨fun a b => a.toNat < b.toNat⟩
instance (a b : State) : Decidable (a ≤ b) := inferInstanceAs (Decidable (a.toNat ≤ b.toNat))
instance (a b : State) : Decidable (a < b) := inferInstanceAs (Decidable (a.toNat < b.toNat))

/-- The two operations of a layer that the state machine calls. A `Stuff`, being a
`shared_ptr`, is an `Option`. -/
structure LayerOperations (T α : Type) where
  cache : T → Option α
  cacheZoom : T → ℤ → Option α → Option α

/-- The members of the class. A queue and its `WeakQueue` share one identity; `tbvd` and
`lifeTimeManager` say whether the weak pointer can still be locked. -/
structure Members (T α : Type) where
  state : State := .init
  desiredState : State := .loaded
  queue : Option ℕ := none
  weakQueue : Option ℕ := none
  tile : Option T := none
  tbvd : Bool := false
  lo : Option (LayerOperations T α) := none
  zoom : ℤ := 0
  lifeTimeManager : Bool := false
  baseCache : Option α := none
  zoomCache : Option α := none

/-- Where a `process` job stands, with the values that its closures have captured. -/
inductive Phase (T α : Type)
  | scheduled
  | loop
  | computeBase (tile : Option T) (lo : Option (LayerOperations T α))
  | storeBase (baseCache : Option α)
  | computeZoom (tile : Option T) (lo : Option (LayerOperations T α)) (baseCache : Option α) (zoom : ℤ)
  | storeZoom (zoomCache : Option α) (zoom : ℤ)
  | reportDone (tile : Option T)
  | leave

structure Job (T α : Type) where
  wq : ℕ
  phase : Phase T α

/-- The object, the jobs of the thread pool that belong to it, the identity the next queue
will get, and whether a defect has ended the program. -/
structure Config (T α : Type) where
  tvs : Members T α := {}
  jobs : List (Job T α) := []
  nextQueue : ℕ := 0
  aborted : Bool := false

variable {T α : Type}

/-- The closure captures the identity of the new queue under the name of the member
`weakQueue`; the member itself is not assigned. -/
def kick (c : Config T α) : Config T α :=
  if .loaded ≤ c.tvs.state ∧ c.tvs.tile.isNone then { c with aborted := true }
  else if .loaded ≤ c.tvs.state ∧ c.tvs.state ≤ c.tvs.desiredState ∧ c.tvs.queue.isNone ∧ c.tvs.tbvd then
    { c with
      tvs := { c.tvs with queue := some c.nextQueue }
      jobs := c.jobs ++ [⟨c.nextQueue,.scheduled⟩]
      nextQueue := c.nextQueue+1 }
  else c

def tileLoaded (tile : T) (c : Config T α) : Config T α :=
  let tvs := { c.tvs with tile := some tile }
  let tvs := if .loaded < tvs.state then { tvs with queue := none, weakQueue := none, zoomCache := none } else tvs
  kick { c with tvs := { tvs with state := .loaded } }

/-- The stuff stored with the view data is what makes `lifeTimeManager` lockable. -/
def setViewData (c : Config T α) : Config T α :=
  kick { c with tvs := { c.tvs with tbvd := true, lifeTimeManager := true } }

def setZoom (lo : LayerOperations T α) (zoom : ℤ) (c : Config T α) : Config T α :=
  if c.tvs.desiredState ≠ .done ∨ zoom ≠ c.tvs.zoom then
    let tvs := { c.tvs with zoom := zoom, lo := some lo, desiredState := .done }
    let tvs := if .baseComputed ≤ tvs.state then
        { tvs with queue := none, weakQueue := none, zoomCache := none, state := .baseComputed }
      else tvs
    kick { c with tvs := tvs }
  else c

def clear (c : Config T α) : Config T α :=
  let tvs := if .loaded ≤ c.tvs.state then { c.tvs with state := .loaded } else c.tvs
  kick { c with
    tvs := { tvs with
      queue := none, weakQueue := none, lifeTimeManager := false, baseCache := none, zoomCache := none } }

def setPhase (c : Config T α) (i : ℕ) (wq : ℕ) (phase : Phase T α) : Config T α :=
  { c with jobs := c.jobs.set i ⟨wq,phase⟩ }

/-- The locked part of the loop in `process`: choose the next piece of work, or leave. -/
def process (c : Config T α) (i wq : ℕ) : Config T α :=
  if some wq = c.tvs.weakQueue ∧ c.tvs.state < c.tvs.desiredState then
    match c.tvs.state with
    | .loaded =>
      setPhase { c with tvs := { c.tvs with state := .computingBase } } i wq
        (.computeBase c.tvs.tile c.tvs.lo)
    | .baseComputed =>
      setPhase { c with tvs := { c.tvs with state := .computingZoom } } i wq
        (.computeZoom c.tvs.tile c.tvs.lo c.tvs.baseCache c.tvs.zoom)
    | .zoomComputed =>
      setPhase { c with tvs := { c.tvs with state := .done } } i wq (.reportDone c.tvs.tile)
    | _ => { c with aborted := true }
  else setPhase c i wq .leave

/-- The closing section of `process`; the job is gone afterwards. -/
def leave (c : Config T α) (i wq : ℕ) : Config T α :=
  let tvs := if some wq = c.tvs.weakQueue then { c.tvs with queue := none, weakQueue := none } else c.tvs
  { c with tvs := tvs, jobs := c.jobs.eraseIdx i }

def storeBase (c : Config T α) (wq : ℕ) (baseCache : Option α) : Config T α :=
  if c.tvs.tbvd ∧ .baseComputed ≤ c.tvs.desiredState ∧ c.tvs.weakQueue = some wq then
    { c with tvs := { c.tvs with baseCache := baseCache, state := .baseComputed } }
  else c

def storeZoom (c : Config T α) (wq : ℕ) (zoomCache : Option α) (zoom : ℤ) : Config T α :=
  if c.tvs.tbvd ∧ .zoomComputed ≤ c.tvs.desiredState ∧ c.tvs.zoom = zoom ∧ c.tvs.weakQueue = some wq then
    { c with tvs := { c.tvs with zoomCache := zoomCache, state := .zoomComputed } }
  else c

/-- One piece of a job, up to the next time the mutex changes hands. -/
def advance (c : Config T α) (i wq : ℕ) : Phase T α → Config T α
  | .scheduled => setPhase c i wq .loop
  | .loop => process c i wq
  | .computeBase (some tile) (some lo) => setPhase c i wq (.storeBase (lo.cache tile))
  | .computeBase _ _ => { c with aborted := true }
  | .storeBase baseCache => setPhase (storeBase c wq baseCache) i wq .loop
  | .computeZoom (some tile) (some lo) baseCache zoom =>
    setPhase c i wq (.storeZoom (lo.cacheZoom tile zoom baseCache) zoom)
  | .computeZoom _ _ _ _ => { c with aborted := true }
  | .storeZoom zoomCache zoom => setPhase (storeZoom c wq zoomCache zoom) i wq .loop
  | .reportDone _ => setPhase c i wq .loop
  | .leave => leave c i wq

/-- The calls on the object, the end of the view data and of the life time manager, and the
steps of the jobs. A queue whose last reference is gone is deleted some time later, so a
scheduled job of such a queue may be discarded and may still run. -/
inductive Action (T α : Type)
  | tileLoaded (tile : T)
  | setViewData
  | setZoom (lo : LayerOperations T α) (zoom : ℤ)
  | clear
  | dropViewData
  | dropLifeTimeManager
  | advance (i : ℕ)
  | discard (i : ℕ)

def step (c : Config T α) (a : Action T α) : Option (Config T α) :=
  if c.aborted then none
  else match a with
    | .tileLoaded tile => some (tileLoaded tile c)
    | .setViewData => some (setViewData c)
    | .setZoom lo zoom => some (setZoom lo zoom c)
    | .clear => some (clear c)
    | .dropViewData => some { c with tvs := { c.tvs with tbvd := false } }
    | .dropLifeTimeManager => some { c with tvs := { c.tvs with lifeTimeManager := false } }
    | .advance i => (c.jobs[i]?).map fun j => advance c i j.wq j.phase
    | .discard i => (c.jobs[i]?).bind fun j =>
        match j.phase with
        | .scheduled => if c.tvs.queue = some j.wq then none else some { c with jobs := c.jobs.eraseIdx i }
        | _ => none

/-- The tile of the last `tileLoaded` in a list of actions. -/
def lastLoaded : List (Action T α) → Option T
  | [] => none
  | .tileLoaded tile::as => (lastLoaded as).or (some tile)
  | _::as => lastLoaded as

/-- No job is scheduled or running, the view is alive, a tile has been loaded and a zoom
has been requested. -/
structure Settled (c : Config T α) : Prop where
  idle : c.jobs = []
  view : c.tvs.tbvd = true
  tile : c.tvs.tile.isSome
  zoom : c.tvs.desiredState = .done ∧ c.tvs.lo.isSome

/-- What a settled state should have reached after the actions `as`. -/
def CachesZoom (as : List (Action T α)) (c : Config T α) : Prop :=
  c.tvs.state = .done ∧ ∃ tile lo, lastLoaded as = some tile ∧ c.tvs.lo = some lo ∧
    c.tvs.zoomCache = lo.cacheZoom tile c.tvs.zoom (lo.cache tile)

/-- What `process` compares to decide whether its job is current. -/
def Recognised (c : Config T α) (j : Job T α) : Prop := c.tvs.weakQueue = some j.wq

def Phase.Idle : Phase T α → Prop
  | .scheduled | .loop | .leave => True
  | _ => False

/-- Nothing ever assigns `weakQueue`, so no job gets past the comparison in `process`. -/
structure Inert (c : Config T α) : Prop where
  weakQueue : c.tvs.weakQueue = none
  state : c.tvs.state = .init ∨ c.tvs.state = .loaded
  caches : c.tvs.baseCache = none ∧ c.tvs.zoomCache = none
  tile : c.tvs.state = .loaded ↔ c.tvs.tile.isSome
  jobs : ∀ j ∈ c.jobs, j.phase.Idle
  running : c.aborted = false

theorem inert_init : Inert ({} : Config T α) where
  weakQueue := rfl
  state := Or.inl rfl
  caches := ⟨rfl,rfl⟩
  tile := by simp
  jobs := by simp
  running := rfl

theorem Inert.kick {c : Config T α} (h : Inert c) : Inert (kick c) := by
  unfold TileViewState.kick
  split_ifs with hd hk
  · -- the defect branch needs the state `loaded` without a tile
    have hl : c.tvs.state = .loaded := by
      rcases h.state with hs | hs
      · rw [hs] at hd
        exact absurd hd.1 (by decide)
      · exact hs
    have ht := h.tile.mp hl
    simp [Option.isNone_iff_eq_none.mp hd.2] at ht
  · refine ⟨h.weakQueue,h.state,h.caches,h.tile,?_,h.running⟩
    intro j hj
    rcases List.mem_append.mp hj with hj | hj
    · exact h.jobs j hj
    · rw [List.mem_singleton.mp hj]
      trivial
  · exact h

theorem Inert.with_members {c : Config T α} (h : Inert c) (tvs : Members T α)
    (hw : tvs.weakQueue = none) (hs : tvs.state = .init ∨ tvs.state = .loaded)
    (hc : tvs.baseCache = none ∧ tvs.zoomCache = none)
    (ht : tvs.state = .loaded ↔ tvs.tile.isSome) : Inert { c with tvs := tvs } :=
  ⟨hw,hs,hc,ht,h.jobs,h.running⟩

theorem Inert.tileLoaded {c : Config T α} (h : Inert c) (tile : T) : Inert (tileLoaded tile c) := by
  have hl : ¬ State.loaded < c.tvs.state := by
    rcases h.state with hs | hs <;> rw [hs] <;> decide
  simp only [TileViewState.tileLoaded,if_neg hl]
  exact (h.with_members { c.tvs with tile := some tile, state := .loaded }
    h.weakQueue (Or.inr rfl) h.caches (by simp)).kick

theorem Inert.setViewData {c : Config T α} (h : Inert c) : Inert (setViewData c) :=
  (h.with_members { c.tvs with tbvd := true, lifeTimeManager := true }
    h.weakQueue h.state h.caches h.tile).kick

theorem Inert.setZoom {c : Config T α} (h : Inert c) (lo : LayerOperations T α) (zoom : ℤ) :
    Inert (setZoom lo zoom c) := by
  have hb : ¬ State.baseComputed ≤ c.tvs.state := by
    rcases h.state with hs | hs <;> rw [hs] <;> decide
  unfold TileViewState.setZoom
  split
  · simp only [if_neg hb]
    exact (h.with_members { c.tvs with zoom := zoom, lo := some lo, desiredState := .done }
      h.weakQueue h.state h.caches h.tile).kick
  · exact h

theorem Inert.clear {c : Config T α} (h : Inert c) : Inert (clear c) := by
  unfold TileViewState.clear
  refine (h.with_members _ rfl ?_ ⟨rfl,rfl⟩ ?_).kick
  · split
    · exact Or.inr rfl
    · exact h.state
  · split
    · rename_i hl
      rcases h.state with hs | hs
      · rw [hs] at hl
        exact absurd hl (by decide)
      · simpa using h.tile.mp hs
    · exact h.tile

theorem Inert.setPhase {c : Config T α} (h : Inert c) (i wq : ℕ) {phase : Phase T α}
    (hp : phase.Idle) : Inert (setPhase c i wq phase) :=
  ⟨h.weakQueue,h.state,h.caches,h.tile,forall_mem_set h.jobs hp,h.running⟩

theorem Inert.eraseJob {c : Config T α} (h : Inert c) (i : ℕ) :
    Inert { c with jobs := c.jobs.eraseIdx i } :=
  ⟨h.weakQueue,h.state,h.caches,h.tile,fun j hj => h.jobs j (List.mem_of_mem_eraseIdx hj),h.running⟩

theorem Inert.advance {c : Config T α} (h : Inert c) (i wq : ℕ) {phase : Phase T α}
    (hp : phase.Idle) : Inert (advance c i wq phase) := by
  cases phase with
  | scheduled => exact h.setPhase i wq trivial
  | loop =>
    simp only [TileViewState.advance,process,h.weakQueue,reduceCtorEq,false_and,if_false]
    exact h.setPhase i wq trivial
  | leave =>
    simp only [TileViewState.advance,leave,h.weakQueue,reduceCtorEq,if_false]
    exact h.eraseJob i
  | _ => exact hp.elim

theorem inert_step (c : Config T α) (a : Action T α) (c' : Config T α) (h : Inert c)
    (hs : step c a = some c') : Inert c' := by
  unfold step at hs
  rw [if_neg (by simp [h.running])] at hs
  cases a with
  | tileLoaded tile => exact Option.some.inj hs ▸ h.tileLoaded tile
  | setViewData => exact Option.some.inj hs ▸ h.setViewData
  | setZoom lo zoom => exact Option.some.inj hs ▸ h.setZoom lo zoom
  | clear => exact Option.some.inj hs ▸ h.clear
  | dropViewData =>
    exact Option.some.inj hs ▸ h.with_members _ h.weakQueue h.state h.caches h.tile
  | dropLifeTimeManager =>
    exact Option.some.inj hs ▸ h.with_members _ h.weakQueue h.state h.caches h.tile
  | advance i =>
    obtain ⟨j,hj,rfl⟩ := Option.map_eq_some_iff.mp hs
    exact h.advance i j.wq (h.jobs j (List.mem_of_getElem? hj))
  | discard i =>
    obtain ⟨j,hj,hs⟩ := Option.bind_eq_some_iff.mp hs
    cases hp : j.phase <;> rw [hp] at hs <;> simp only [reduceCtorEq] at hs
    split at hs
    · cases hs
    · exact Option.some.inj hs ▸ h.eraseJob i

theorem inert_of_run {as : List (Action T α)} {c : Config T α} (h : run step as {} = some c) : Inert c :=
  run_invariant inert_step inert_init h

/-- In no settled state that a run can reach does the cache hold the requested zoom: the
state is still `loaded`, the zoom cache is empty, and no job was ever recognised. -/
theorem settled_never_done (as : List (Action T α)) (c : Config T α) (h : run step as {} = some c) :
    (Settled c → c.tvs.state = .loaded ∧ c.tvs.zoomCache = none ∧ ¬ CachesZoom as c) ∧
      ∀ j ∈ c.jobs, ¬ Recognised c j := by
  have hi := inert_of_run h
  refine ⟨fun hc => ?_,fun j _ => ?_⟩
  · have hl : c.tvs.state = .loaded := hi.tile.mpr hc.tile
    refine ⟨hl,hi.caches.2,fun hz => ?_⟩
    exact absurd (hl.symm.trans hz.1) (by decide)
  · simp [Recognised,hi.weakQueue]

/-- Load a tile, show it in a view, request a zoom, and let the one job finish. -/
def firstZoom : List (Action Unit Unit) :=
  [.tileLoaded (),.setViewData,.setZoom ⟨fun _ => some (),fun _ _ _ => some ()⟩ 0,
    .advance 0,.advance 0,.advance 0]

def afterFirstZoom : Config Unit Unit where
  tvs := {
    state := .loaded, desiredState := .done, queue := some 0, tile := some (), tbvd := true
    lo := some ⟨fun _ => some (),fun _ _ _ => some ()⟩, lifeTimeManager := true }
  nextQueue := 1

theorem firstZoom_run : run step firstZoom {} = some afterFirstZoom := by rfl

theorem settled_never_done_firstZoom :
    (Settled afterFirstZoom → afterFirstZoom.tvs.state = .loaded ∧
      afterFirstZoom.tvs.zoomCache = none ∧ ¬ CachesZoom firstZoom afterFirstZoom) ∧
      ∀ j ∈ afterFirstZoom.jobs, ¬ Recognised afterFirstZoom j :=
  settled_never_done firstZoom afterFirstZoom firstZoom_run

theorem firstZoom_stuck :
    ¬ ∀ (as : List (Action Unit Unit)) (c : Config Unit Unit), run step as {} = some c →
      Settled c → CachesZoom as c := by
  intro h
  have hz := h firstZoom afterFirstZoom firstZoom_run ⟨rfl,rfl,rfl,rfl,rfl⟩
  exact absurd hz.1 (by decide)

end TileViewState
end Scroom
