import Mathlib.Algebra.BigOperators.Group.List.Basic
import Scroom.Layer
import Scroom.Transitions

/-! Fetching the rows of a layer. Each row is fetched by a job of its own, which hands its
successor to a queue jumper, or schedules it when the turn of the queue jumper has passed. Any number
of workers take the jobs from the pool, in any order. -/
namespace Scroom
namespace DataFetcher
open Transitions

/-- What the source and the tiles of the layer see. -/
inductive Event
  | initialized (row x : ℕ)
  | filled (row : ℕ) (startLine lineCount : ℤ)
  | finished (row x : ℕ)
  | done
  | onFinished
  deriving DecidableEq

/-- Where a `DataFetcher` is in `operator()`. -/
inductive Phase
  | create | initializeTiles (x : ℕ) | fillTiles | reportFinished (x : ℕ) | setWork | schedule | done
  | onFinished | returned
  deriving DecidableEq

/-- A `DataFetcher` that is executed, with the row it was made for and its queue jumper. -/
structure Fetcher where
  row : ℕ
  jumper : ℕ := 0
  phase : Phase := .create
  deriving DecidableEq

/-- The work is known by the row it fetches. The last two fields only record what has happened:
what `setWork` returned, and which fetcher `operator()` has executed. As long as that is executed the
mutex is held. -/
structure QueueJumper where
  inQueue : Bool := true
  isSet : Bool := false
  fn : ℕ := 0
  result : Option Bool := none
  executed : Option ℕ := none
  deriving DecidableEq

inductive Job
  | fetch (row : ℕ)
  | jump (j : ℕ)
  deriving DecidableEq

structure Config where
  jobs : List Job := [.fetch 0]
  alive : Bool := true
  jumpers : List QueueJumper := []
  fetchers : List Fetcher := []
  events : List Event := []
  deriving DecidableEq

def setFetcher (c : Config) (i : ℕ) (f : Fetcher) : Config := { c with fetchers := c.fetchers.set i f }

def setJumper (c : Config) (j : ℕ) (qj : QueueJumper) : Config := { c with jumpers := c.jumpers.set j qj }

def emit (c : Config) (e : Event) : Config := { c with events := c.events ++ [e] }

/-- A worker begins to execute a `DataFetcher`. -/
def start (c : Config) (row : ℕ) : Config := { c with fetchers := c.fetchers ++ [{ row := row }] }

/-- `operator()` of the queue jumper executes work. -/
def QueueJumper.running (qj : QueueJumper) : Bool := qj.inQueue && qj.executed.isSome

/-- `qj->setWork(successor)`. If it is refused the successor has still to be scheduled. -/
def setWork (c : Config) (i : ℕ) (f : Fetcher) : Option Config :=
  (c.jumpers[f.jumper]?).bind fun qj =>
    if qj.running then none
    else if qj.inQueue then
      some (setFetcher (setJumper c f.jumper { qj with fn := f.row+1, isSet := true, result := some true }) i
        { f with phase := .returned })
    else
      some (setFetcher (setJumper c f.jumper { qj with result := some false }) i { f with phase := .schedule })

/-- `QueueJumper::operator()`, up to the execution of the work. -/
def jump (c : Config) (j : ℕ) : Option Config :=
  (c.jumpers[j]?).map fun qj =>
    if qj.isSet then setJumper (start c qj.fn) j { qj with executed := some c.fetchers.length }
    else setJumper c j { qj with inQueue := false }

/-- A worker takes a job. If the queue is gone it is skipped. -/
def pop (c : Config) (job : Job) : Option Config :=
  if job ∈ c.jobs then
    let c := { c with jobs := c.jobs.erase job }
    if c.alive then
      match job with
      | .fetch row => some (start c row)
      | .jump j => jump c j
    else some c
  else none

/-- The end of `QueueJumper::operator()`, when the work has been executed. -/
def jumped (c : Config) (j : ℕ) : Option Config :=
  (c.jumpers[j]?).bind fun qj =>
    if qj.running ∧ (qj.executed.bind fun i => (c.fetchers[i]?).map (·.phase)) = some .returned then
      some (setJumper c j { qj with inQueue := false })
    else none

section Fetch
variable (horTileCount verTileCount : ℕ) (height : ℤ)

def lineCount (row : ℕ) : ℤ := min tileSize (height-row*tileSize)

/-- The next step of a `DataFetcher`. -/
def fetch (c : Config) (i : ℕ) (f : Fetcher) : Option Config :=
  match f.phase with
  | .create =>
    let j := c.jumpers.length
    some (setFetcher { c with jumpers := c.jumpers ++ [{}], jobs := c.jobs ++ [.jump j] } i
      { f with jumper := j, phase := .initializeTiles 0 })
  | .initializeTiles x =>
    if x < horTileCount then
      some (setFetcher (emit c (.initialized f.row x)) i { f with phase := .initializeTiles (x+1) })
    else some (setFetcher c i { f with phase := .fillTiles })
  | .fillTiles =>
    some (setFetcher (emit c (.filled f.row (f.row*tileSize) (lineCount height f.row))) i
      { f with phase := .reportFinished 0 })
  | .reportFinished x =>
    if x < horTileCount then
      some (setFetcher (emit c (.finished f.row x)) i { f with phase := .reportFinished (x+1) })
    else some (setFetcher c i { f with phase := .setWork })
  | .setWork =>
    if f.row+1 < verTileCount then setWork c i f else some (setFetcher c i { f with phase := .done })
  | .schedule =>
    some (setFetcher { c with jobs := c.jobs ++ [.fetch (f.row+1)] } i { f with phase := .returned })
  | .done => some (setFetcher (emit c .done) i { f with phase := .onFinished })
  | .onFinished => some (setFetcher (emit c .onFinished) i { f with phase := .returned })
  | .returned => none

/-- The steps: a worker takes a job, a fetcher goes on, a queue jumper is done, the queue is
deleted. -/
inductive Action
  | pop (job : Job)
  | fetch (i : ℕ)
  | jumped (j : ℕ)
  | deleteQueue

def step (c : Config) : Action → Option Config
  | .pop job => pop c job
  | .fetch i => (c.fetchers[i]?).bind (fetch horTileCount verTileCount height c i)
  | .jumped j => jumped c j
  | .deleteQueue => if c.alive then some { c with alive := false } else none

/-! ### The events of a whole fetch -/

def initialized (row x : ℕ) : List Event := (List.range x).map (.initialized row)

def finished (row x : ℕ) : List Event := (List.range x).map (.finished row)

/-- All tiles of a row are initialised, the row is filled, and all tiles are reported finished. -/
def rowEvents (row : ℕ) : List Event :=
  initialized row horTileCount ++ .filled row (row*tileSize) (lineCount height row)::finished row horTileCount

/-- The first rows, one after the other. -/
def rowsEvents (rows : ℕ) : List Event := (List.range rows).flatMap (rowEvents horTileCount height)

/-- All rows, and then the source and the caller hear about it. -/
def allEvents : List Event := rowsEvents horTileCount height verTileCount ++ [.done,.onFinished]

/-- Nothing is left to do. -/
def Settled (c : Config) : Prop := c.jobs = [] ∧ ∀ f ∈ c.fetchers, f.phase = .returned

structure OnceEach (c : Config) : Prop where
  ordered : c.events <+: allEvents horTileCount verTileCount height
  complete : c.alive = true → Settled c → c.events = allEvents horTileCount verTileCount height
  goesOn : ¬Settled c → ∃ a d, a ≠ .deleteQueue ∧ step horTileCount verTileCount height c a = some d
  executed : ∀ qj ∈ c.jumpers, ∀ i, qj.executed = some i →
    qj.result = some true ∧ (c.fetchers[i]?).map (·.row) = some qj.fn
  accepted : c.alive = true → Settled c → ∀ qj ∈ c.jumpers, qj.result = some true → qj.executed.isSome = true

/-! ### What holds between any two steps -/

/-- What has happened when a fetcher is where it is. -/
def Fetcher.trace (f : Fetcher) : List Event :=
  match f.phase with
  | .create => rowsEvents horTileCount height f.row
  | .initializeTiles x => rowsEvents horTileCount height f.row ++ initialized f.row x
  | .fillTiles => rowsEvents horTileCount height f.row ++ initialized f.row horTileCount
  | .reportFinished x => rowsEvents horTileCount height f.row ++ (initialized f.row horTileCount ++
      .filled f.row (f.row*tileSize) (lineCount height f.row)::finished f.row x)
  | .setWork => rowsEvents horTileCount height (f.row+1)
  | .schedule => rowsEvents horTileCount height (f.row+1)
  | .done => rowsEvents horTileCount height verTileCount
  | .onFinished => rowsEvents horTileCount height verTileCount ++ [.done]
  | .returned => []

/-- The bounds of the loops, and why a successor is scheduled. -/
def Fetcher.Fits (f : Fetcher) : Prop :=
  match f.phase with
  | .initializeTiles x => x ≤ horTileCount
  | .reportFinished x => x ≤ horTileCount
  | .schedule => f.row+1 < verTileCount
  | _ => True

/-- The fetcher has a queue jumper, and has not handed it any work. -/
def Fetcher.Owns (f : Fetcher) (jumpers : List QueueJumper) : Prop :=
  match f.phase with
  | .initializeTiles _ | .fillTiles | .reportFinished _ | .setWork =>
    ∃ qj, jumpers[f.jumper]? = some qj ∧ qj.result = none
  | _ => True

/-- Who is to fetch the next row: a job of the pool, a queue jumper that waits, a fetcher that is
executed, or nobody, because all rows are done or the queue was deleted. -/
inductive Stage
  | scheduled (row : ℕ)
  | handed (j : ℕ)
  | running (i : ℕ)
  | finished
  | lost

def At (c : Config) : Stage → Prop
  | .scheduled row => row < verTileCount ∧ .fetch row ∈ c.jobs ∧ c.events = rowsEvents horTileCount height row
  | .handed j => .jump j ∈ c.jobs ∧ ∃ qj, c.jumpers[j]? = some qj ∧ qj.isSet = true ∧
      qj.executed = none ∧ qj.fn < verTileCount ∧ c.events = rowsEvents horTileCount height qj.fn
  | .running i => ∃ f, c.fetchers[i]? = some f ∧ f.phase ≠ .returned ∧ f.row < verTileCount ∧
      f.Fits horTileCount verTileCount ∧ f.Owns c.jumpers ∧ c.events = f.trace horTileCount verTileCount height
  | .finished => c.events = allEvents horTileCount verTileCount height
  | .lost => c.alive = false ∧ c.events <+: allEvents horTileCount verTileCount height

/-- What a queue jumper says about itself is right. -/
structure QueueJumper.Sound (qj : QueueJumper) (rows : List ℕ) : Prop where
  accepted : qj.result = some true ↔ qj.isSet = true
  refused : qj.result = some false → qj.inQueue = false
  executed : ∀ i, qj.executed = some i → qj.isSet = true ∧ rows[i]? = some qj.fn
  passed : qj.inQueue = false → qj.isSet = true → qj.executed ≠ none

structure Inv (c : Config) (stage : Stage) : Prop where
  here : At horTileCount verTileCount height c stage
  nodup : c.jobs.Nodup
  fetchJob : ∀ row, .fetch row ∈ c.jobs → stage = .scheduled row
  live : ∀ (i : ℕ) (f : Fetcher), c.fetchers[i]? = some f → f.phase ≠ .returned → stage = .running i
  handed : c.alive = true → ∀ (j : ℕ) (qj : QueueJumper), c.jumpers[j]? = some qj → qj.isSet = true →
    qj.executed = none →
    stage = .handed j
  sound : ∀ (j : ℕ) (qj : QueueJumper), c.jumpers[j]? = some qj → qj.Sound (c.fetchers.map (·.row))
  queued : ∀ j, .jump j ∈ c.jobs → ∃ qj, c.jumpers[j]? = some qj ∧ qj.inQueue = true ∧ qj.executed = none
  waits : c.alive = true → ∀ (j : ℕ) (qj : QueueJumper), c.jumpers[j]? = some qj → qj.inQueue = true →
    qj.executed = none →
    .jump j ∈ c.jobs

end Fetch

variable {horTileCount verTileCount : ℕ} {height : ℤ} {c d : Config} {stage : Stage} {i j row : ℕ}
variable {f f' : Fetcher} {qj qj' : QueueJumper}

theorem inv_initial (hv : 0 < verTileCount) :
    Inv horTileCount verTileCount height {} (.scheduled 0) where
  here := ⟨hv,by simp,by simp [rowsEvents]⟩
  nodup := by simp
  fetchJob := by simp
  live := by simp
  handed := by simp
  sound := by simp
  queued := by simp
  waits := by simp

theorem rowsEvents_succ (row : ℕ) : rowsEvents horTileCount height (row+1) =
    rowsEvents horTileCount height row ++ rowEvents horTileCount height row := by
  simp [rowsEvents,List.range_succ]

theorem rowsEvents_isPrefix {rows : ℕ} (h : row ≤ rows) :
    rowsEvents horTileCount height row <+: rowsEvents horTileCount height rows := by
  induction h with
  | refl => exact List.prefix_rfl
  | step _ ih => exact ih.trans (rowsEvents_succ _ ▸ List.prefix_append _ _)

theorem rowsEvents_isPrefix_all (h : row ≤ verTileCount) :
    rowsEvents horTileCount height row <+: allEvents horTileCount verTileCount height :=
  (rowsEvents_isPrefix h).trans (List.prefix_append _ _)

@[simp] theorem initialized_succ (row x : ℕ) :
    initialized row (x+1) = initialized row x ++ [.initialized row x] := by
  simp [initialized,List.range_succ]

@[simp] theorem finished_succ (row x : ℕ) : finished row (x+1) = finished row x ++ [.finished row x] := by
  simp [finished,List.range_succ]

theorem map_range_isPrefix {E : Type*} (g : ℕ → E) {m n : ℕ} (h : m ≤ n) :
    (List.range m).map g <+: (List.range n).map g := by
  induction h with
  | refl => exact List.prefix_rfl
  | step _ ih => exact ih.trans (by simp [List.range_succ])

/-- Whatever a fetcher does, it is the beginning of the whole. -/
theorem Fetcher.trace_isPrefix (hrow : f.row < verTileCount) (hfits : f.Fits horTileCount verTileCount) :
    f.trace horTileCount verTileCount height <+: allEvents horTileCount verTileCount height := by
  have hnext : rowsEvents horTileCount height (f.row+1) <+: allEvents horTileCount verTileCount height :=
    rowsEvents_isPrefix_all hrow
  rw [rowsEvents_succ,rowEvents] at hnext
  unfold Fetcher.trace
  cases hp : f.phase with
  | create => exact rowsEvents_isPrefix_all hrow.le
  | initializeTiles x =>
    simp only [Fits,hp] at hfits
    refine List.IsPrefix.trans ((List.prefix_append_right_inj _).mpr ?_) hnext
    exact (map_range_isPrefix _ hfits).trans (List.prefix_append _ _)
  | fillTiles =>
    refine List.IsPrefix.trans ((List.prefix_append_right_inj _).mpr ?_) hnext
    exact List.prefix_append _ _
  | reportFinished x =>
    simp only [Fits,hp] at hfits
    refine List.IsPrefix.trans ((List.prefix_append_right_inj _).mpr ?_) hnext
    refine (List.prefix_append_right_inj _).mpr ?_
    exact (List.prefix_cons_inj _).mpr (map_range_isPrefix _ hfits)
  | setWork => exact rowsEvents_isPrefix_all hrow
  | schedule => exact rowsEvents_isPrefix_all hrow
  | done => exact List.prefix_append _ _
  | onFinished => exact ⟨[.onFinished],by simp [allEvents]⟩
  | returned => exact List.nil_prefix

theorem Inv.ordered (hi : Inv horTileCount verTileCount height c stage) :
    c.events <+: allEvents horTileCount verTileCount height := by
  have hh := hi.here
  cases stage with
  | scheduled row =>
    obtain ⟨hrow,-,he⟩ := hh
    exact he ▸ rowsEvents_isPrefix_all hrow.le
  | handed j =>
    obtain ⟨-,qj,-,-,-,hrow,he⟩ := hh
    exact he ▸ rowsEvents_isPrefix_all hrow.le
  | running i =>
    obtain ⟨f,-,-,hrow,hfits,-,he⟩ := hh
    exact he ▸ f.trace_isPrefix hrow hfits
  | finished => exact hh ▸ List.prefix_rfl
  | lost => exact hh.2

/-! ### The steps -/

theorem rows_set (hf : c.fetchers[i]? = some f) (hrow : f'.row = f.row) :
    (c.fetchers.set i f').map (·.row) = c.fetchers.map (·.row) := by
  obtain ⟨hlt,rfl⟩ := List.getElem?_eq_some_iff.mp hf
  rw [List.map_set,hrow,← List.getElem_map Fetcher.row (h := by simpa using hlt),List.set_getElem_self]

theorem Inv.sound_set (hi : Inv horTileCount verTileCount height c stage) (hf : c.fetchers[i]? = some f)
    (hrow : f'.row = f.row) (hj : c.jumpers[j]? = some qj) :
    qj.Sound ((c.fetchers.set i f').map (·.row)) := by
  rw [rows_set hf hrow]
  exact hi.sound j qj hj

theorem Inv.live_running (hi : Inv horTileCount verTileCount height c (.running i)) (hf : c.fetchers[i]? = some f)
    {k : ℕ} {g : Fetcher} (hg : (c.fetchers.set i f')[k]? = some g) (hp : g.phase ≠ .returned) :
    Stage.running i = .running k := by
  rcases getElem?_set_cases hf hg with ⟨rfl,-⟩ | ⟨-,hg⟩
  · rfl
  · exact hi.live k g hg hp

theorem Inv.goOn (hi : Inv horTileCount verTileCount height c (.running i)) (hf : c.fetchers[i]? = some f)
    (phase : Phase) (hphase : phase ≠ .returned) {events : List Event}
    (hfits : Fetcher.Fits horTileCount verTileCount { f with phase := phase })
    (howns : f.Owns c.jumpers → Fetcher.Owns { f with phase := phase } c.jumpers)
    (hevents : f.row < verTileCount → f.Fits horTileCount verTileCount →
      c.events = f.trace horTileCount verTileCount height →
        events = Fetcher.trace horTileCount verTileCount height { f with phase := phase }) :
    Inv horTileCount verTileCount height (setFetcher { c with events := events } i { f with phase := phase })
      (.running i) where
  here := by
    obtain ⟨g,hg,-,hlt,hfit,hown,he⟩ := hi.here
    cases hf.symm.trans hg
    exact ⟨_,getElem?_set_of_getElem? hf,hphase,hlt,hfits,howns hown,hevents hlt hfit he⟩
  nodup := hi.nodup
  fetchJob := hi.fetchJob
  live := fun _ _ => hi.live_running hf
  handed := hi.handed
  sound := fun j qj hj => hi.sound_set hf rfl hj
  queued := hi.queued
  waits := hi.waits

theorem Inv.create (hi : Inv horTileCount verTileCount height c (.running i)) (hf : c.fetchers[i]? = some f)
    (hp : f.phase = .create) :
    Inv horTileCount verTileCount height
      (setFetcher { c with
        jumpers := c.jumpers ++ [{}]
        jobs := c.jobs ++ [.jump c.jumpers.length] } i
        { f with jumper := c.jumpers.length, phase := .initializeTiles 0 }) (.running i) where
  here := by
    obtain ⟨g,hg,-,hlt,-,-,he⟩ := hi.here
    cases hf.symm.trans hg
    refine ⟨_,getElem?_set_of_getElem? hf,by simp,hlt,Nat.zero_le _,?_,?_⟩
    · exact ⟨{},List.getElem?_concat_length,rfl⟩
    · simpa [Fetcher.trace,hp,initialized,setFetcher] using he
  nodup := by
    refine List.nodup_append.mpr ⟨hi.nodup,List.nodup_singleton _,?_⟩
    intro job hjob job' hjob' he
    rw [List.mem_singleton.mp hjob'] at he
    subst he
    obtain ⟨qj,hqj,-⟩ := hi.queued _ hjob
    simp at hqj
  fetchJob := fun row hr => hi.fetchJob row (by simpa [setFetcher] using hr)
  live := fun _ _ => hi.live_running hf
  handed := fun ha j qj hj hset he => by
    rcases getElem?_append_singleton hj with hj | ⟨-,rfl⟩
    · exact hi.handed ha j qj hj hset he
    · cases hset
  sound := fun j qj hj => by
    rcases getElem?_append_singleton hj with hj | ⟨-,rfl⟩
    · exact hi.sound_set hf rfl hj
    · exact ⟨by simp,by simp,by simp,by simp⟩
  queued := fun j hj => by
    rcases List.mem_append.mp hj with hj | hj
    · obtain ⟨qj,hqj,hrest⟩ := hi.queued j hj
      exact ⟨qj,getElem?_append_of_getElem? hqj,hrest⟩
    · cases List.mem_singleton.mp hj
      exact ⟨{},List.getElem?_concat_length,rfl,rfl⟩
  waits := fun ha j qj hj hin he => by
    rcases getElem?_append_singleton hj with hj | ⟨rfl,rfl⟩
    · exact List.mem_append_left _ (hi.waits ha j qj hj hin he)
    · simp [setFetcher]

theorem Inv.live_returned (hi : Inv horTileCount verTileCount height c (.running i)) (hf : c.fetchers[i]? = some f)
    {k : ℕ} {g : Fetcher} (hg : (c.fetchers.set i { f with phase := .returned })[k]? = some g) :
    g.phase = .returned := by
  rcases getElem?_set_cases hf hg with ⟨-,rfl⟩ | ⟨hne,hg⟩
  · rfl
  · by_contra hp
    cases hi.live k g hg hp
    exact hne rfl

theorem Inv.schedule (hi : Inv horTileCount verTileCount height c (.running i)) (hf : c.fetchers[i]? = some f)
    (hp : f.phase = .schedule) :
    Inv horTileCount verTileCount height
      (setFetcher { c with jobs := c.jobs ++ [.fetch (f.row+1)] } i { f with phase := .returned })
      (.scheduled (f.row+1)) where
  here := by
    obtain ⟨g,hg,-,hlt,hfits,-,he⟩ := hi.here
    cases hf.symm.trans hg
    simp only [Fetcher.Fits,hp] at hfits
    simp only [Fetcher.trace,hp] at he
    exact ⟨hfits,by simp [setFetcher],he⟩
  nodup := by
    refine List.nodup_append.mpr ⟨hi.nodup,List.nodup_singleton _,?_⟩
    intro job hjob job' hjob' he
    rw [List.mem_singleton.mp hjob'] at he
    subst he
    cases hi.fetchJob _ hjob
  fetchJob := fun row hr => by
    rcases List.mem_append.mp hr with hr | hr
    · cases hi.fetchJob row hr
    · cases List.mem_singleton.mp hr
      rfl
  live := fun k g hg hphase => absurd (hi.live_returned hf hg) hphase
  handed := fun ha j qj hj hset he => by cases hi.handed ha j qj hj hset he
  sound := fun j qj hj => hi.sound_set hf rfl hj
  queued := fun j hj => hi.queued j (by simpa [setFetcher] using hj)
  waits := fun ha j qj hj hin he => List.mem_append_left _ (hi.waits ha j qj hj hin he)

theorem Inv.finish (hi : Inv horTileCount verTileCount height c (.running i)) (hf : c.fetchers[i]? = some f)
    (hp : f.phase = .onFinished) :
    Inv horTileCount verTileCount height (setFetcher (emit c .onFinished) i { f with phase := .returned })
      .finished where
  here := by
    obtain ⟨g,hg,-,hlt,-,-,he⟩ := hi.here
    cases hf.symm.trans hg
    simp only [Fetcher.trace,hp] at he
    change c.events ++ [.onFinished] = _
    simp [he,allEvents]
  nodup := hi.nodup
  fetchJob := fun row hr => by cases hi.fetchJob row hr
  live := fun k g hg hphase => absurd (hi.live_returned hf hg) hphase
  handed := fun ha j qj hj hset he => by cases hi.handed ha j qj hj hset he
  sound := fun j qj hj => hi.sound_set hf rfl hj
  queued := hi.queued
  waits := hi.waits

theorem Inv.owned (hi : Inv horTileCount verTileCount height c (.running i)) (hf : c.fetchers[i]? = some f)
    (hp : f.phase = .setWork) : ∃ qj, c.jumpers[f.jumper]? = some qj ∧ qj.result = none ∧
      qj.isSet = false ∧ qj.executed = none := by
  obtain ⟨g,hg,-,-,-,hown,-⟩ := hi.here
  cases hf.symm.trans hg
  simp only [Fetcher.Owns,hp] at hown
  obtain ⟨qj,hqj,hr⟩ := hown
  have hs := hi.sound _ qj hqj
  have hset : qj.isSet = false := by
    by_contra h
    rw [hs.accepted.mpr (by simpa using h)] at hr
    cases hr
  refine ⟨qj,hqj,hr,hset,?_⟩
  by_contra hne
  obtain ⟨k,hk⟩ := Option.ne_none_iff_exists'.mp hne
  rw [(hs.executed k hk).1] at hset
  cases hset

theorem Inv.refused (hi : Inv horTileCount verTileCount height c (.running i)) (hf : c.fetchers[i]? = some f)
    (hp : f.phase = .setWork) (hnext : f.row+1 < verTileCount) (hj : c.jumpers[f.jumper]? = some qj)
    (hin : qj.inQueue = false) :
    Inv horTileCount verTileCount height
      (setFetcher (setJumper c f.jumper { qj with result := some false }) i { f with phase := .schedule })
      (.running i) := by
  obtain ⟨qj',hqj',-,hset,hexec⟩ := hi.owned hf hp
  cases hj.symm.trans hqj'
  exact {
    here := by
      obtain ⟨g,hg,-,hlt,-,-,he⟩ := hi.here
      cases hf.symm.trans hg
      refine ⟨_,getElem?_set_of_getElem? hf,by simp,hlt,hnext,trivial,?_⟩
      simpa [Fetcher.trace,hp,setFetcher,setJumper] using he
    nodup := hi.nodup
    fetchJob := hi.fetchJob
    live := fun _ _ => hi.live_running hf
    handed := fun ha j x hx hxset he => by
      rcases getElem?_set_cases hj hx with ⟨-,rfl⟩ | ⟨-,hx⟩
      · rw [hset] at hxset
        cases hxset
      · exact hi.handed ha j x hx hxset he
    sound := fun j x hx => by
      rcases getElem?_set_cases hj hx with ⟨-,rfl⟩ | ⟨-,hx⟩
      · exact ⟨by simp [hset],fun _ => hin,by simp [hexec],by simp [hset]⟩
      · exact hi.sound_set hf rfl hx
    queued := fun j hm => by
      obtain ⟨x,hx,hxin,hxe⟩ := hi.queued j hm
      by_cases hk : f.jumper = j
      · subst hk
        cases hj.symm.trans hx
        rw [hin] at hxin
        cases hxin
      · exact ⟨x,(List.getElem?_set_ne hk).trans hx,hxin,hxe⟩
    waits := fun ha j x hx hxin hxe => by
      rcases getElem?_set_cases hj hx with ⟨-,rfl⟩ | ⟨-,hx⟩
      · rw [hin] at hxin
        cases hxin
      · exact hi.waits ha j x hx hxin hxe }

/-- The queue jumper takes the successor. If its job was skipped when the queue was deleted, then
the chain ends here. -/
theorem Inv.accepted (hi : Inv horTileCount verTileCount height c (.running i)) (hf : c.fetchers[i]? = some f)
    (hp : f.phase = .setWork) (hnext : f.row+1 < verTileCount) (hj : c.jumpers[f.jumper]? = some qj)
    (hin : qj.inQueue = true)
    (hstage : stage = .handed f.jumper ∧ .jump f.jumper ∈ c.jobs ∨ stage = .lost ∧ c.alive = false) :
    Inv horTileCount verTileCount height
      (setFetcher (setJumper c f.jumper { qj with fn := f.row+1, isSet := true, result := some true }) i
        { f with phase := .returned }) stage := by
  obtain ⟨qj',hqj',-,hset,hexec⟩ := hi.owned hf hp
  cases hj.symm.trans hqj'
  exact {
    here := by
      rcases hstage with ⟨rfl,hm⟩ | ⟨rfl,ha⟩
      · obtain ⟨g,hg,-,hlt,-,-,he⟩ := hi.here
        cases hf.symm.trans hg
        simp only [Fetcher.trace,hp] at he
        exact ⟨hm,_,getElem?_set_of_getElem? hj,rfl,hexec,hnext,he⟩
      · exact ⟨ha,hi.ordered⟩
    nodup := hi.nodup
    fetchJob := fun row hr => by cases hi.fetchJob row hr
    live := fun k g hg hphase => absurd (hi.live_returned hf hg) hphase
    handed := fun ha j x hx hxset hxe => by
      rcases getElem?_set_cases hj hx with ⟨rfl,-⟩ | ⟨-,hx⟩
      · exact (hstage.resolve_right fun h => by simp [setFetcher,setJumper,h.2] at ha).1
      · cases hi.handed ha j x hx hxset hxe
    sound := fun j x hx => by
      rcases getElem?_set_cases hj hx with ⟨-,rfl⟩ | ⟨-,hx⟩
      · exact ⟨by simp,by simp,by simp [hexec],by simp [hin]⟩
      · exact hi.sound_set hf rfl hx
    queued := fun j hm => by
      obtain ⟨x,hx,hxin,hxe⟩ := hi.queued j hm
      by_cases hk : f.jumper = j
      · subst hk
        exact ⟨_,getElem?_set_of_getElem? hj,hin,hexec⟩
      · exact ⟨x,(List.getElem?_set_ne hk).trans hx,hxin,hxe⟩
    waits := fun ha j x hx hxin hxe => by
      rcases getElem?_set_cases hj hx with ⟨rfl,-⟩ | ⟨-,hx⟩
      · exact hi.waits ha _ qj hj hin hexec
      · exact hi.waits ha j x hx hxin hxe }

theorem Inv.setWork (hi : Inv horTileCount verTileCount height c (.running i)) (hf : c.fetchers[i]? = some f)
    (hp : f.phase = .setWork) (hnext : f.row+1 < verTileCount) (h : setWork c i f = some d) :
    ∃ stage, Inv horTileCount verTileCount height d stage := by
  obtain ⟨qj,hj,h⟩ := Option.bind_eq_some_iff.mp h
  split_ifs at h with hrun hin
  · cases h
    by_cases hm : .jump f.jumper ∈ c.jobs
    · exact ⟨.handed f.jumper,hi.accepted hf hp hnext hj hin (.inl ⟨rfl,hm⟩)⟩
    · refine ⟨.lost,hi.accepted hf hp hnext hj hin (.inr ⟨rfl,?_⟩)⟩
      by_contra ha
      obtain ⟨qj',hqj',-,-,hexec⟩ := hi.owned hf hp
      cases hj.symm.trans hqj'
      exact hm (hi.waits (by simpa using ha) _ qj hj hin hexec)
  · cases h
    exact ⟨_,hi.refused hf hp hnext hj (by simpa using hin)⟩

theorem Inv.fetch (hi : Inv horTileCount verTileCount height c stage) (hf : c.fetchers[i]? = some f)
    (h : fetch horTileCount verTileCount height c i f = some d) :
    ∃ stage, Inv horTileCount verTileCount height d stage := by
  have hlive : f.phase ≠ .returned := by
    intro hp
    simp [DataFetcher.fetch,hp] at h
  cases hi.live i f hf hlive
  unfold DataFetcher.fetch at h
  cases hp : f.phase with
  | create =>
    simp only [hp,Option.some.injEq] at h
    exact ⟨_,h ▸ hi.create hf hp⟩
  | initializeTiles x =>
    have howns (y : ℕ) : f.Owns c.jumpers → Fetcher.Owns { f with phase := .initializeTiles y } c.jumpers := by
      simp [Fetcher.Owns,hp]
    simp only [hp] at h
    split_ifs at h with hx
    · cases h
      refine ⟨_,hi.goOn hf (.initializeTiles (x+1)) (by simp) hx (howns _) fun _ _ he => ?_⟩
      simp [he,Fetcher.trace,hp]
    · cases h
      refine ⟨_,hi.goOn hf .fillTiles (by simp) trivial (howns x) fun _ hfits he => ?_⟩
      simp only [Fetcher.Fits,hp] at hfits
      have hlast : x = horTileCount := by omega
      simp [he,Fetcher.trace,hp,hlast]
  | fillTiles =>
    simp only [hp,Option.some.injEq] at h
    subst h
    refine ⟨_,hi.goOn hf (.reportFinished 0) (by simp) (Nat.zero_le _) (by simp [Fetcher.Owns,hp]) fun _ _ he => ?_⟩
    simp [he,Fetcher.trace,hp,finished]
  | reportFinished x =>
    simp only [hp] at h
    split_ifs at h with hx
    · cases h
      refine ⟨_,hi.goOn hf (.reportFinished (x+1)) (by simp) hx (by simp [Fetcher.Owns,hp]) fun _ _ he => ?_⟩
      simp [he,Fetcher.trace,hp]
    · cases h
      refine ⟨_,hi.goOn hf .setWork (by simp) trivial (by simp [Fetcher.Owns,hp]) fun _ hfits he => ?_⟩
      simp only [Fetcher.Fits,hp] at hfits
      have hlast : x = horTileCount := by omega
      simp [he,Fetcher.trace,hp,hlast,rowsEvents_succ,rowEvents]
  | setWork =>
    simp only [hp] at h
    split_ifs at h with hnext
    · exact hi.setWork hf hp hnext h
    · cases h
      refine ⟨_,hi.goOn hf .done (by simp) trivial (fun _ => trivial) fun hlt _ he => ?_⟩
      have hlast : f.row+1 = verTileCount := by omega
      simpa [Fetcher.trace,hp,hlast] using he
  | schedule =>
    simp only [hp,Option.some.injEq] at h
    exact ⟨_,h ▸ hi.schedule hf hp⟩
  | done =>
    simp only [hp,Option.some.injEq] at h
    subst h
    refine ⟨_,hi.goOn hf .onFinished (by simp) trivial (fun _ => trivial) fun _ _ he => ?_⟩
    simp [he,Fetcher.trace,hp]
  | onFinished =>
    simp only [hp,Option.some.injEq] at h
    exact ⟨_,h ▸ hi.finish hf hp⟩
  | returned => exact absurd hp hlive

theorem QueueJumper.Sound.append {rows : List ℕ} (hs : qj.Sound rows) (row : ℕ) : qj.Sound (rows ++ [row]) where
  accepted := hs.accepted
  refused := hs.refused
  executed := fun i he => (hs.executed i he).imp_right getElem?_append_of_getElem?
  passed := hs.passed

theorem Inv.sound_start (hi : Inv horTileCount verTileCount height c stage) (hj : c.jumpers[j]? = some qj)
    (row : ℕ) : qj.Sound ((DataFetcher.start c row).fetchers.map (·.row)) := by
  rw [DataFetcher.start,List.map_append]
  exact (hi.sound j qj hj).append row

theorem Inv.start (hi : Inv horTileCount verTileCount height c (.scheduled row)) :
    Inv horTileCount verTileCount height (start { c with jobs := c.jobs.erase (.fetch row) } row)
      (.running c.fetchers.length) where
  here := ⟨_,List.getElem?_concat_length,by simp,hi.here.1,trivial,trivial,hi.here.2.2⟩
  nodup := hi.nodup.erase _
  fetchJob := fun row' hr => by
    cases hi.fetchJob row' (List.mem_of_mem_erase hr)
    exact absurd hr hi.nodup.not_mem_erase
  live := fun k g hg hp => by
    rcases getElem?_append_singleton hg with hg | ⟨rfl,-⟩
    · cases hi.live k g hg hp
    · rfl
  handed := fun ha j qj hj hset he => by cases hi.handed ha j qj hj hset he
  sound := fun j qj hj => hi.sound_start hj row
  queued := fun j hj => hi.queued j (List.mem_of_mem_erase hj)
  waits := fun ha j qj hj hin he => (List.mem_erase_of_ne (by simp)).mpr (hi.waits ha j qj hj hin he)

theorem Inv.startJump (hi : Inv horTileCount verTileCount height c (.handed j)) (hj : c.jumpers[j]? = some qj) :
    Inv horTileCount verTileCount height
      (setJumper (DataFetcher.start { c with jobs := c.jobs.erase (.jump j) } qj.fn) j
        { qj with executed := some c.fetchers.length })
      (.running c.fetchers.length) := by
  obtain ⟨-,qj',hqj',hset,hexec,hrow,hevents⟩ := hi.here
  cases hj.symm.trans hqj'
  exact {
    here := ⟨_,List.getElem?_concat_length,by simp,hrow,trivial,trivial,hevents⟩
    nodup := hi.nodup.erase _
    fetchJob := fun row' hr => by cases hi.fetchJob row' (List.mem_of_mem_erase hr)
    live := fun k g hg hp => by
      rcases getElem?_append_singleton hg with hg | ⟨rfl,-⟩
      · cases hi.live k g hg hp
      · rfl
    handed := fun ha k x hx hxset hxe => by
      rcases getElem?_set_cases hj hx with ⟨-,rfl⟩ | ⟨hne,hx⟩
      · cases hxe
      · cases hi.handed ha k x hx hxset hxe
        exact absurd rfl hne
    sound := fun k x hx => by
      rcases getElem?_set_cases hj hx with ⟨-,rfl⟩ | ⟨-,hx⟩
      · have hs := hi.sound_start hj qj.fn
        refine ⟨hs.accepted,hs.refused,fun i he => ?_,fun _ _ => by simp⟩
        cases he
        exact ⟨hset,by simp [DataFetcher.start,setJumper]⟩
      · exact hi.sound_start hx qj.fn
    queued := fun k hk => by
      obtain ⟨x,hx,hrest⟩ := hi.queued k (List.mem_of_mem_erase hk)
      have hne : j ≠ k := by
        rintro rfl
        exact hi.nodup.not_mem_erase hk
      exact ⟨x,(List.getElem?_set_ne hne).trans hx,hrest⟩
    waits := fun ha k x hx hin hxe => by
      rcases getElem?_set_cases hj hx with ⟨-,rfl⟩ | ⟨hne,hx⟩
      · cases hxe
      · exact (List.mem_erase_of_ne (by simpa using hne)).mpr (hi.waits ha k x hx hin hxe) }

theorem Fetcher.Owns.set {jumpers : List QueueJumper} (ho : f.Owns jumpers) (hj : jumpers[j]? = some qj)
    (hr : qj'.result = qj.result) : f.Owns (jumpers.set j qj') := by
  unfold Fetcher.Owns at ho ⊢
  split at ho <;> try trivial
  all_goals
    obtain ⟨x,hx,hxr⟩ := ho
    by_cases hk : j = f.jumper
    · subst hk
      cases hj.symm.trans hx
      exact ⟨qj',getElem?_set_of_getElem? hj,hr.trans hxr⟩
    · exact ⟨x,(List.getElem?_set_ne hk).trans hx,hxr⟩

/-- A queue jumper is over, as it never had any work or has executed it. -/
theorem Inv.passes (hi : Inv horTileCount verTileCount height c stage) (hj : c.jumpers[j]? = some qj)
    (hdone : qj.isSet = true → qj.executed ≠ none) :
    Inv horTileCount verTileCount height
      (setJumper { c with jobs := c.jobs.erase (.jump j) } j { qj with inQueue := false }) stage where
  here := by
    have hh := hi.here
    cases stage with
    | scheduled row => exact ⟨hh.1,(List.mem_erase_of_ne (by simp)).mpr hh.2.1,hh.2.2⟩
    | handed k =>
      obtain ⟨hm,x,hx,hset,hexec,hrest⟩ := hh
      have hne : j ≠ k := by
        rintro rfl
        cases hj.symm.trans hx
        exact hdone hset hexec
      exact ⟨(List.mem_erase_of_ne (by simpa using hne.symm)).mpr hm,x,
        (List.getElem?_set_ne hne).trans hx,hset,hexec,hrest⟩
    | running i =>
      obtain ⟨f,hf,hp,hrow,hfits,howns,he⟩ := hh
      exact ⟨f,hf,hp,hrow,hfits,howns.set hj rfl,he⟩
    | finished => exact hh
    | lost => exact hh
  nodup := hi.nodup.erase _
  fetchJob := fun row hr => hi.fetchJob row (List.mem_of_mem_erase hr)
  live := hi.live
  handed := fun ha k x hx hset he => by
    rcases getElem?_set_cases hj hx with ⟨-,rfl⟩ | ⟨-,hx⟩
    · exact absurd he (hdone hset)
    · exact hi.handed ha k x hx hset he
  sound := fun k x hx => by
    rcases getElem?_set_cases hj hx with ⟨-,rfl⟩ | ⟨-,hx⟩
    · have hs := hi.sound j qj hj
      exact ⟨hs.accepted,fun _ => rfl,hs.executed,fun _ => hdone⟩
    · exact hi.sound k x hx
  queued := fun k hk => by
    obtain ⟨x,hx,hrest⟩ := hi.queued k (List.mem_of_mem_erase hk)
    have hne : j ≠ k := by
      rintro rfl
      exact hi.nodup.not_mem_erase hk
    exact ⟨x,(List.getElem?_set_ne hne).trans hx,hrest⟩
  waits := fun ha k x hx hin he => by
    rcases getElem?_set_cases hj hx with ⟨-,rfl⟩ | ⟨hne,hx⟩
    · cases hin
    · exact (List.mem_erase_of_ne (by simpa using hne)).mpr (hi.waits ha k x hx hin he)

/-- When the queue is gone a job is skipped, and with it the rest of the chain if it was to go on
there. -/
theorem Inv.skip (hi : Inv horTileCount verTileCount height c stage) (ha : c.alive = false) (job : Job) :
    ∃ stage, Inv horTileCount verTileCount height { c with jobs := c.jobs.erase job } stage := by
  have hkeep (stage' : Stage) (here : At horTileCount verTileCount height { c with jobs := c.jobs.erase job } stage')
      (hfetch : ∀ row, .fetch row ∈ c.jobs.erase job → stage' = .scheduled row)
      (hlive : ∀ i, stage = .running i → stage' = .running i) :
      Inv horTileCount verTileCount height { c with jobs := c.jobs.erase job } stage' := {
    here := here
    nodup := hi.nodup.erase _
    fetchJob := hfetch
    live := fun i f hf hp => hlive i (hi.live i f hf hp)
    handed := fun h => by simp [ha] at h
    sound := hi.sound
    queued := fun j hj => hi.queued j (List.mem_of_mem_erase hj)
    waits := fun h => by simp [ha] at h }
  have hfetch (row : ℕ) (hr : .fetch row ∈ c.jobs.erase job) : stage = .scheduled row ∧ .fetch row ≠ job := by
    refine ⟨hi.fetchJob row (List.mem_of_mem_erase hr),?_⟩
    rintro rfl
    exact hi.nodup.not_mem_erase hr
  have hh := hi.here
  cases stage with
  | scheduled row =>
    by_cases he : job = .fetch row
    · refine ⟨.lost,hkeep .lost ⟨ha,hi.ordered⟩ (fun row' hr => ?_) (fun i h => by cases h)⟩
      obtain ⟨h,hne⟩ := hfetch row' hr
      cases h
      exact absurd he.symm hne
    · have hm := (List.mem_erase_of_ne (Ne.symm he)).mpr hh.2.1
      exact ⟨_,hkeep (.scheduled row) ⟨hh.1,hm,hh.2.2⟩ (fun row' hr => (hfetch row' hr).1) (fun i h => h)⟩
  | handed j =>
    by_cases he : job = .jump j
    · exact ⟨.lost,hkeep .lost ⟨ha,hi.ordered⟩ (fun row' hr => by cases (hfetch row' hr).1) (fun i h => by cases h)⟩
    · have hm := (List.mem_erase_of_ne (Ne.symm he)).mpr hh.1
      exact ⟨_,hkeep (.handed j) ⟨hm,hh.2⟩ (fun row' hr => (hfetch row' hr).1) (fun i h => h)⟩
  | running i => exact ⟨_,hkeep (.running i) hh (fun row' hr => (hfetch row' hr).1) (fun i h => h)⟩
  | finished => exact ⟨_,hkeep .finished hh (fun row' hr => (hfetch row' hr).1) (fun i h => h)⟩
  | lost => exact ⟨_,hkeep .lost hh (fun row' hr => (hfetch row' hr).1) (fun i h => h)⟩

theorem Inv.pop (hi : Inv horTileCount verTileCount height c stage) {job : Job} (h : pop c job = some d) :
    ∃ stage, Inv horTileCount verTileCount height d stage := by
  obtain ⟨hm,h⟩ := Option.ite_none_right_eq_some.mp h
  dsimp only at h
  split_ifs at h with ha
  case neg =>
    cases h
    exact hi.skip (by simpa using ha) job
  case pos =>
    cases job with
    | fetch row =>
      cases hi.fetchJob row hm
      cases h
      exact ⟨_,hi.start⟩
    | jump j =>
      obtain ⟨qj,hj,rfl⟩ := Option.map_eq_some_iff.mp h
      obtain ⟨qj',hqj',-,hexec⟩ := hi.queued j hm
      cases hj.symm.trans hqj'
      split_ifs with hset
      · cases hi.handed ha j qj hj hset hexec
        exact ⟨_,hi.startJump hj⟩
      · exact ⟨_,hi.passes hj fun h => absurd h hset⟩

theorem Inv.jumped (hi : Inv horTileCount verTileCount height c stage) (h : jumped c j = some d) :
    Inv horTileCount verTileCount height d stage := by
  obtain ⟨qj,hj,h⟩ := Option.bind_eq_some_iff.mp h
  obtain ⟨⟨hrun,-⟩,⟨⟩⟩ := Option.ite_none_right_eq_some.mp h
  obtain ⟨-,hexec⟩ := Bool.and_eq_true_iff.mp hrun
  have hm : .jump j ∉ c.jobs := by
    intro hm
    obtain ⟨qj',hqj',-,hn⟩ := hi.queued j hm
    cases hj.symm.trans hqj'
    simp [hn] at hexec
  have hp := hi.passes hj fun _ hn => by simp [hn] at hexec
  rw [List.erase_of_not_mem hm] at hp
  exact hp

theorem Inv.deleteQueue (hi : Inv horTileCount verTileCount height c stage) :
    Inv horTileCount verTileCount height { c with alive := false } stage where
  here := by
    have hh := hi.here
    cases stage with
    | lost => exact ⟨rfl,hh.2⟩
    | _ => exact hh
  nodup := hi.nodup
  fetchJob := hi.fetchJob
  live := hi.live
  handed := fun h => by cases h
  sound := hi.sound
  queued := hi.queued
  waits := fun h => by cases h

theorem Inv.step (hi : Inv horTileCount verTileCount height c stage) {a : Action}
    (h : step horTileCount verTileCount height c a = some d) :
    ∃ stage, Inv horTileCount verTileCount height d stage := by
  cases a with
  | pop job => exact hi.pop h
  | fetch i =>
    obtain ⟨f,hf,h⟩ := Option.bind_eq_some_iff.mp h
    exact hi.fetch hf h
  | jumped j => exact ⟨_,hi.jumped h⟩
  | deleteQueue =>
    obtain ⟨-,⟨⟩⟩ := Option.ite_none_right_eq_some.mp h
    exact ⟨_,hi.deleteQueue⟩

/-! ### The whole fetch -/

/-- As long as something is left to do, something can be done. -/
theorem Inv.goesOn (hi : Inv horTileCount verTileCount height c stage) (hs : ¬Settled c) :
    ∃ a d, a ≠ .deleteQueue ∧ DataFetcher.step horTileCount verTileCount height c a = some d := by
  by_cases hjobs : c.jobs = []
  · have hlive : ∃ f ∈ c.fetchers, f.phase ≠ .returned := by
      by_contra hall
      push Not at hall
      exact hs ⟨hjobs,hall⟩
    obtain ⟨f,hm,hp⟩ := hlive
    obtain ⟨i,hf⟩ := List.getElem?_of_mem hm
    cases hi.live i f hf hp
    have hfetch : ∃ d, DataFetcher.fetch horTileCount verTileCount height c i f = some d := by
      unfold DataFetcher.fetch
      cases hph : f.phase with
      | initializeTiles x =>
        dsimp only
        split <;> exact ⟨_,rfl⟩
      | reportFinished x =>
        dsimp only
        split <;> exact ⟨_,rfl⟩
      | setWork =>
        obtain ⟨qj,hqj,-,-,hexec⟩ := hi.owned hf hph
        have hrun : qj.running = false := by simp [QueueJumper.running,hexec]
        simp only [DataFetcher.setWork,hqj,Option.bind_some,hrun,Bool.false_eq_true,if_false]
        split
        · split <;> exact ⟨_,rfl⟩
        · exact ⟨_,rfl⟩
      | returned => exact absurd hph hp
      | _ =>
        dsimp only
        exact ⟨_,rfl⟩
    obtain ⟨d,hd⟩ := hfetch
    exact ⟨.fetch i,d,by simp,by simp [DataFetcher.step,hf,hd]⟩
  · obtain ⟨job,hm⟩ := List.exists_mem_of_ne_nil _ hjobs
    have hpop : ∃ d, DataFetcher.pop c job = some d := by
      simp only [DataFetcher.pop,hm,if_true]
      split
      · cases job with
        | fetch row => exact ⟨_,rfl⟩
        | jump j =>
          obtain ⟨qj,hqj,-⟩ := hi.queued j hm
          exact ⟨_,congrArg (Option.map _) hqj⟩
      · exact ⟨_,rfl⟩
    obtain ⟨d,hd⟩ := hpop
    exact ⟨.pop job,d,by simp,hd⟩

theorem Inv.toOnceEach (hi : Inv horTileCount verTileCount height c stage) :
    OnceEach horTileCount verTileCount height c where
  ordered := hi.ordered
  complete := fun ha hs => by
    have hh := hi.here
    cases stage with
    | scheduled row => exact absurd hh.2.1 (by simp [hs.1])
    | handed j => exact absurd hh.1 (by simp [hs.1])
    | running i =>
      obtain ⟨f,hf,hp,-⟩ := hh
      exact absurd (hs.2 f (List.mem_of_getElem? hf)) hp
    | finished => exact hh
    | lost => simp [hh.1] at ha
  goesOn := hi.goesOn
  executed := fun qj hm i he => by
    obtain ⟨j,hj⟩ := List.getElem?_of_mem hm
    have hsound := hi.sound j qj hj
    obtain ⟨hset,hrow⟩ := hsound.executed i he
    exact ⟨hsound.accepted.mpr hset,by simpa using hrow⟩
  accepted := fun ha hs qj hm hr => by
    obtain ⟨j,hj⟩ := List.getElem?_of_mem hm
    have hsound := hi.sound j qj hj
    have hset := hsound.accepted.mp hr
    by_contra hexec
    have hnone : qj.executed = none := by simpa using hexec
    have hin : qj.inQueue = true := by
      by_contra hin
      exact hsound.passed (by simpa using hin) hset hnone
    have hjob := hi.waits ha j qj hj hin hnone
    simp [hs.1] at hjob

section Cost
variable (horTileCount verTileCount)

/-- The steps that are left after a row. -/
def rest (row : ℕ) : ℕ := (verTileCount-1-row)*(2*horTileCount+9)

def jobCost : Job → ℕ
  | .fetch row => rest horTileCount verTileCount row+2*horTileCount+10
  | .jump _ => 1

def fetcherCost (f : Fetcher) : ℕ :=
  match f.phase with
  | .create => rest horTileCount verTileCount f.row+2*horTileCount+9
  | .initializeTiles x => rest horTileCount verTileCount f.row+horTileCount+6+(horTileCount-x)
  | .fillTiles => rest horTileCount verTileCount f.row+horTileCount+5
  | .reportFinished x => rest horTileCount verTileCount f.row+4+(horTileCount-x)
  | .setWork => rest horTileCount verTileCount f.row+3
  | .schedule => rest horTileCount verTileCount (f.row+1)+2*horTileCount+11
  | .done => 2
  | .onFinished => 1
  | .returned => 0

def jumperCost (qj : QueueJumper) : ℕ :=
  if qj.inQueue then
    if qj.isSet ∧ qj.executed = none then jobCost horTileCount verTileCount (.fetch qj.fn)+1 else 1
  else 0

def cost (c : Config) : ℕ :=
  (c.jobs.map (jobCost horTileCount verTileCount)).sum+
    (c.fetchers.map (fetcherCost horTileCount verTileCount)).sum+
    (c.jumpers.map (jumperCost horTileCount verTileCount)).sum+c.alive.toNat

theorem rest_succ {row : ℕ} (h : row+1 < verTileCount) :
    rest horTileCount verTileCount row = rest horTileCount verTileCount (row+1)+2*horTileCount+9 := by
  have he : verTileCount-1-row = (verTileCount-1-(row+1))+1 := by omega
  rw [rest,he,Nat.succ_mul]
  rfl

theorem cost_setFetcher (hf : c.fetchers[i]? = some f) (f' : Fetcher) :
    cost horTileCount verTileCount (setFetcher c i f')+fetcherCost horTileCount verTileCount f =
      cost horTileCount verTileCount c+fetcherCost horTileCount verTileCount f' := by
  have hs := sum_map_set_add (b := f') (fetcherCost horTileCount verTileCount) hf
  simp only [cost,setFetcher]
  omega

theorem cost_goOn (hf : c.fetchers[i]? = some f) (hsame : d.fetchers = c.fetchers) {f' : Fetcher}
    (hlt : cost horTileCount verTileCount d+fetcherCost horTileCount verTileCount f' <
      cost horTileCount verTileCount c+fetcherCost horTileCount verTileCount f) :
    cost horTileCount verTileCount (setFetcher d i f') < cost horTileCount verTileCount c := by
  have hcf := cost_setFetcher horTileCount verTileCount (c := d) (i := i) (hsame ▸ hf) f'
  omega

theorem cost_setJumper (hj : c.jumpers[j]? = some qj) (qj' : QueueJumper) :
    cost horTileCount verTileCount (setJumper c j qj')+jumperCost horTileCount verTileCount qj =
      cost horTileCount verTileCount c+jumperCost horTileCount verTileCount qj' := by
  have hs := sum_map_set_add (b := qj') (jumperCost horTileCount verTileCount) hj
  simp only [cost,setJumper]
  omega

@[simp] theorem cost_emit (e : Event) :
    cost horTileCount verTileCount (emit c e) = cost horTileCount verTileCount c := rfl

theorem cost_addJob (job : Job) : cost horTileCount verTileCount { c with jobs := c.jobs ++ [job] } =
    cost horTileCount verTileCount c+jobCost horTileCount verTileCount job := by
  simp only [cost,List.map_append,List.map_cons,List.map_nil,List.sum_append,List.sum_singleton]
  omega

theorem cost_addJumper (qj : QueueJumper) :
    cost horTileCount verTileCount { c with jumpers := c.jumpers ++ [qj] } =
      cost horTileCount verTileCount c+jumperCost horTileCount verTileCount qj := by
  simp only [cost,List.map_append,List.map_cons,List.map_nil,List.sum_append,List.sum_singleton]
  omega

theorem cost_start (row : ℕ) : cost horTileCount verTileCount (start c row)+1 =
    cost horTileCount verTileCount c+jobCost horTileCount verTileCount (.fetch row) := by
  simp only [cost,start,List.map_append,List.map_cons,List.map_nil,List.sum_append,List.sum_singleton,
    fetcherCost,jobCost]
  omega

theorem cost_erase {job : Job} (hm : job ∈ c.jobs) :
    cost horTileCount verTileCount { c with jobs := c.jobs.erase job }+jobCost horTileCount verTileCount job =
      cost horTileCount verTileCount c := by
  have hs := List.sum_map_erase (jobCost horTileCount verTileCount) hm
  simp only [cost]
  omega

end Cost

theorem setWork_cost (hf : c.fetchers[i]? = some f) (hp : f.phase = .setWork) (hnext : f.row+1 < verTileCount)
    (h : setWork c i f = some d) : cost horTileCount verTileCount d < cost horTileCount verTileCount c := by
  obtain ⟨qj,hj,h⟩ := Option.bind_eq_some_iff.mp h
  have hrest := rest_succ horTileCount verTileCount hnext
  split_ifs at h with hrun hin
  · cases h
    have hcj := cost_setJumper horTileCount verTileCount hj
      { qj with fn := f.row+1, isSet := true, result := some true }
    have hexec : qj.executed = none := by simpa [QueueJumper.running,hin] using hrun
    have hpos : 1 ≤ jumperCost horTileCount verTileCount qj := by
      unfold jumperCost
      split_ifs <;> omega
    have hnew : jumperCost horTileCount verTileCount { qj with fn := f.row+1, isSet := true, result := some true } =
        jobCost horTileCount verTileCount (.fetch (f.row+1))+1 := by
      simp [jumperCost,hin,hexec]
    refine cost_goOn horTileCount verTileCount hf (by rfl) ?_
    simp only [fetcherCost,hp]
    simp only [jobCost] at hnew
    omega
  · cases h
    have hcj := cost_setJumper horTileCount verTileCount hj { qj with result := some false }
    have hnew : jumperCost horTileCount verTileCount { qj with result := some false } =
        jumperCost horTileCount verTileCount qj := rfl
    refine cost_goOn horTileCount verTileCount hf (by rfl) ?_
    simp only [fetcherCost,hp]
    omega

theorem create_cost (hf : c.fetchers[i]? = some f) (hp : f.phase = .create) :
    cost horTileCount verTileCount (setFetcher { c with
      jumpers := c.jumpers ++ [{}]
      jobs := c.jobs ++ [.jump c.jumpers.length] } i
        { f with jumper := c.jumpers.length, phase := .initializeTiles 0 }) < cost horTileCount verTileCount c := by
  have hcq := cost_addJob horTileCount verTileCount (c := { c with jumpers := c.jumpers ++ [{}] })
    (.jump c.jumpers.length)
  have hcj := cost_addJumper horTileCount verTileCount (c := c) {}
  have hnew : jumperCost horTileCount verTileCount {} = 1 := by simp [jumperCost]
  refine cost_goOn horTileCount verTileCount hf (by rfl) ?_
  simp only [fetcherCost,hp]
  simp only [jobCost] at hcq
  omega

theorem fetch_cost (hf : c.fetchers[i]? = some f) (h : fetch horTileCount verTileCount height c i f = some d) :
    cost horTileCount verTileCount d < cost horTileCount verTileCount c := by
  unfold fetch at h
  cases hp : f.phase with
  | create =>
    simp only [hp,Option.some.injEq] at h
    exact h ▸ create_cost hf hp
  | initializeTiles x =>
    simp only [hp] at h
    split_ifs at h with hx <;> cases h <;> refine cost_goOn horTileCount verTileCount hf (by rfl) ?_
    · simp only [cost_emit,fetcherCost,hp]
      omega
    · simp only [fetcherCost,hp]
      omega
  | fillTiles =>
    simp only [hp,Option.some.injEq] at h
    subst h
    refine cost_goOn horTileCount verTileCount hf (by rfl) ?_
    simp only [cost_emit,fetcherCost,hp]
    omega
  | reportFinished x =>
    simp only [hp] at h
    split_ifs at h with hx <;> cases h <;> refine cost_goOn horTileCount verTileCount hf (by rfl) ?_
    · simp only [cost_emit,fetcherCost,hp]
      omega
    · simp only [fetcherCost,hp]
      omega
  | setWork =>
    simp only [hp] at h
    split_ifs at h with hnext
    · exact setWork_cost hf hp hnext h
    · cases h
      refine cost_goOn horTileCount verTileCount hf (by rfl) ?_
      simp only [fetcherCost,hp]
      omega
  | schedule =>
    simp only [hp,Option.some.injEq] at h
    subst h
    refine cost_goOn horTileCount verTileCount hf (by rfl) ?_
    rw [cost_addJob]
    simp only [fetcherCost,hp,jobCost]
    omega
  | done =>
    simp only [hp,Option.some.injEq] at h
    subst h
    refine cost_goOn horTileCount verTileCount hf (by rfl) ?_
    simp only [cost_emit,fetcherCost,hp]
    omega
  | onFinished =>
    simp only [hp,Option.some.injEq] at h
    subst h
    refine cost_goOn horTileCount verTileCount hf (by rfl) ?_
    simp only [cost_emit,fetcherCost,hp]
    omega
  | returned => simp [hp] at h

theorem Inv.pop_cost (hi : Inv horTileCount verTileCount height c stage) {job : Job}
    (h : DataFetcher.pop c job = some d) :
    cost horTileCount verTileCount d < cost horTileCount verTileCount c := by
  obtain ⟨hm,h⟩ := Option.ite_none_right_eq_some.mp h
  have herase := cost_erase horTileCount verTileCount hm
  dsimp only at h
  split_ifs at h with ha
  case neg =>
    cases h
    have hpos : 0 < jobCost horTileCount verTileCount job := by cases job <;> simp [jobCost]
    omega
  case pos =>
    cases job with
    | fetch row =>
      cases h
      have hstart := cost_start horTileCount verTileCount (c := { c with jobs := c.jobs.erase (.fetch row) }) row
      omega
    | jump j =>
      obtain ⟨qj,hj,rfl⟩ := Option.map_eq_some_iff.mp h
      obtain ⟨qj',hqj',hin,hexec⟩ := hi.queued j hm
      cases hj.symm.trans hqj'
      split_ifs with hset
      · have hstart := cost_start horTileCount verTileCount (c := { c with jobs := c.jobs.erase (.jump j) }) qj.fn
        have hcj := cost_setJumper horTileCount verTileCount
          (c := DataFetcher.start { c with jobs := c.jobs.erase (.jump j) } qj.fn) (j := j) hj
          { qj with executed := some c.fetchers.length }
        have hold : jumperCost horTileCount verTileCount qj = jobCost horTileCount verTileCount (.fetch qj.fn)+1 := by
          simp [jumperCost,hin,hset,hexec]
        have hnew : jumperCost horTileCount verTileCount { qj with executed := some c.fetchers.length } = 1 := by
          simp [jumperCost,hin]
        simp only [jobCost] at herase
        dsimp only
        omega
      · have hcj :=
          cost_setJumper horTileCount verTileCount (c := { c with jobs := c.jobs.erase (.jump j) }) (j := j) hj
          { qj with inQueue := false }
        have hnew : jumperCost horTileCount verTileCount { qj with inQueue := false } = 0 := by simp [jumperCost]
        simp only [jobCost] at herase
        omega

theorem Inv.step_cost (hi : Inv horTileCount verTileCount height c stage) {a : Action}
    (h : DataFetcher.step horTileCount verTileCount height c a = some d) :
    cost horTileCount verTileCount d < cost horTileCount verTileCount c := by
  cases a with
  | pop job => exact hi.pop_cost h
  | fetch i =>
    obtain ⟨f,hf,h⟩ := Option.bind_eq_some_iff.mp h
    exact fetch_cost hf h
  | jumped j =>
    obtain ⟨qj,hj,h⟩ := Option.bind_eq_some_iff.mp h
    obtain ⟨⟨hrun,-⟩,⟨⟩⟩ := Option.ite_none_right_eq_some.mp h
    obtain ⟨hin,hexec⟩ := Bool.and_eq_true_iff.mp hrun
    have hcj := cost_setJumper horTileCount verTileCount hj { qj with inQueue := false }
    have hnew : jumperCost horTileCount verTileCount { qj with inQueue := false } = 0 := by simp [jumperCost]
    have hpos : 1 ≤ jumperCost horTileCount verTileCount qj := by
      unfold jumperCost
      split_ifs <;> omega
    omega
  | deleteQueue =>
    obtain ⟨ha,⟨⟩⟩ := Option.ite_none_right_eq_some.mp h
    simp [cost,ha]

/-- However the queue jumpers and the workers take turns, the chain fetches each row once, one after
the other, and comes to an end. -/
theorem onceEach (hv : 0 < verTileCount) (as : List Action) (c : Config)
    (h : run (step horTileCount verTileCount height) as {} = some c) :
    OnceEach horTileCount verTileCount height c ∧ as.length ≤ verTileCount*(2*horTileCount+9)+2 := by
  have hstep : ∀ (s : Config) (a : Action) (s' : Config),
      (∃ stage, Inv horTileCount verTileCount height s stage) →
        step horTileCount verTileCount height s a = some s' →
          (∃ stage, Inv horTileCount verTileCount height s' stage) ∧
            cost horTileCount verTileCount s' < cost horTileCount verTileCount s :=
    fun _ _ _ ⟨_,hi⟩ ht => ⟨hi.step ht,hi.step_cost ht⟩
  obtain ⟨stage,hi⟩ := run_invariant (fun s a s' hs ht => (hstep s a s' hs ht).1) ⟨_,inv_initial hv⟩ h
  refine ⟨hi.toOnceEach,?_⟩
  have hlen := run_length_le hstep ⟨_,inv_initial hv⟩ h
  have hinit : cost horTileCount verTileCount {} = verTileCount*(2*horTileCount+9)+2 := by
    obtain ⟨n,rfl⟩ := Nat.exists_eq_succ_of_ne_zero hv.ne'
    simp [cost,jobCost,rest]
    ring
  omega

/-- Two rows, the second of which is fetched by the queue jumper of the first. -/
theorem onceEach_twoRows :
    let c := (run (step 1 2 5000) (.pop (.fetch 0)::List.replicate 7 (.fetch 0) ++ .pop (.jump 0)::
      List.replicate 9 (.fetch 1) ++ [.jumped 0,.pop (.jump 1)]) {}).get rfl
    OnceEach 1 2 5000 c ∧ c.events = [.initialized 0 0,.filled 0 0 4096,.finished 0 0,
      .initialized 1 0,.filled 1 4096 904,.finished 1 0,.done,.onFinished] :=
  ⟨(onceEach (by decide) _ _ (Option.some_get _).symm).1,by decide⟩

end DataFetcher
end Scroom
