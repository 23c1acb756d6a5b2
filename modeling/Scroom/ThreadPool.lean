import Scroom.BucketQueue
import Scroom.Transitions

/-! The workers of a thread pool and the jobs they have in common. What is done under the mutex is
one step, and waiting for the condition is a place to be in. -/
namespace Scroom
namespace ThreadPool
open Transitions BucketQueue

/-- A worker waits for the mutex in `work`, is parked in the wait for the condition, waits for the
mutex in `do_one`, executes its job, or has returned from `work`. -/
inductive Worker
  | ready | parked | claimed | executing | exited
  deriving DecidableEq

/-- Jobs are known by their place in the order of scheduling. The last three fields only record
what has happened: the jobs that were scheduled and those that were taken, with their priorities,
and whether a worker ever found no job. -/
structure Config where
  jobcount : ℕ := 0
  alive : Bool := true
  jobs : List (ℤ × List ℕ) := []
  workers : List Worker := []
  scheduled : List (ℤ × ℕ) := []
  popped : List (ℤ × ℕ) := []
  defect : Bool := false
  deriving DecidableEq

def setWorker (c : Config) (i : ℕ) (worker : Worker) : Config :=
  { c with workers := c.workers.set i worker }

/-- `cond.notify_one()`: if some worker is parked, then one of those wakes up. -/
def notifyOne (workers : List Worker) (k : ℕ) : Option (List Worker) :=
  if .parked ∈ workers then
    if workers[k]? = some .parked then some (workers.set k .ready) else none
  else some workers

def notifyAll (workers : List Worker) : List Worker :=
  workers.map fun worker => if worker = .parked then .ready else worker

def schedule (c : Config) (priority : ℤ) (k : ℕ) : Option Config :=
  (notifyOne c.workers k).map fun workers =>
    let job := c.scheduled.length
    { c with
      jobs := emplace priority job c.jobs
      jobcount := c.jobcount+1
      workers := workers
      scheduled := c.scheduled ++ [(priority,job)] }

/-- A worker has the mutex in `work`. The second loop is only reached when the pool is gone, and
that does not change. -/
def work (completeAllJobsBeforeDestruction : Bool) (c : Config) (i : ℕ) : Config :=
  if c.alive then
    if 0 < c.jobcount then setWorker { c with jobcount := c.jobcount-1 } i .claimed
    else setWorker c i .parked
  else if completeAllJobsBeforeDestruction then
    if 0 < c.jobcount then setWorker { c with jobcount := c.jobcount-1 } i .claimed
    else setWorker c i .exited
  else setWorker c i .exited

def doOne (c : Config) (i : ℕ) : Config :=
  match pop c.jobs with
  | some (job,jobs) => setWorker { c with jobs := jobs, popped := c.popped ++ [job] } i .executing
  | none => setWorker { c with jobs := eraseEmpty c.jobs, defect := true } i .executing

/-- `~ThreadPool` -/
def destroy (c : Config) : Config := { c with alive := false, workers := notifyAll c.workers }

/-- The steps: a worker is added, a job is scheduled and a parked worker notified, a parked worker
wakes up for no reason, a worker has the mutex, a job is done, the pool is destroyed. -/
inductive Action
  | add
  | schedule (priority : ℤ) (k : ℕ)
  | wake (k : ℕ)
  | work (i : ℕ)
  | doOne (i : ℕ)
  | finish (i : ℕ)
  | destroy

/-- Nobody has the pool any more after it is destroyed, so nothing is scheduled from then on. -/
def step (completeAllJobsBeforeDestruction : Bool) (c : Config) : Action → Option Config
  | .add => if c.alive then some { c with workers := c.workers ++ [.ready] } else none
  | .schedule priority k => if c.alive then schedule c priority k else none
  | .wake k => if c.workers[k]? = some .parked then some (setWorker c k .ready) else none
  | .work i =>
    if c.workers[i]? = some .ready then some (work completeAllJobsBeforeDestruction c i) else none
  | .doOne i => if c.workers[i]? = some .claimed then some (doOne c i) else none
  | .finish i => if c.workers[i]? = some .executing then some (setWorker c i .ready) else none
  | .destroy => if c.alive then some (destroy c) else none

def waiting (c : Config) : List (ℤ × ℕ) := items c.jobs

/-- The jobs are accounted for. -/
structure Accounted (completeAllJobsBeforeDestruction : Bool) (c : Config) : Prop where
  total : (waiting c).length = c.jobcount+c.workers.count .claimed
  noDefect : c.defect = false
  scheduled : ∀ job ∈ c.popped, job ∈ c.scheduled
  once : c.popped.Nodup
  first : ∀ i, c.workers[i]? = some .claimed → ∃ job d,
    step completeAllJobsBeforeDestruction c (.doOne i) = some d ∧ d.popped = c.popped ++ [job] ∧
      job ∈ waiting c ∧
      ∀ other ∈ waiting c, job.1 < other.1 ∨ job.1 = other.1 ∧ job.2 ≤ other.2
  awake : c.alive = true → 0 < c.jobcount → c.workers ≠ [] → ∃ worker ∈ c.workers, worker ≠ .parked
  completed : completeAllJobsBeforeDestruction = true → c.workers ≠ [] →
    (∀ worker ∈ c.workers, worker = .exited) → waiting c = []

/-- What holds between any two steps. While some worker is parked, each job that nobody has claimed
has a worker that is on its way to the test of the loop. -/
structure Inv (completeAllJobsBeforeDestruction : Bool) (c : Config) : Prop where
  sorted : Sorted (· < ·) c.jobs
  total : (waiting c).length = c.jobcount+c.workers.count .claimed
  noDefect : c.defect = false
  perm : (c.popped ++ waiting c).Perm c.scheduled
  numbered : c.scheduled.map (·.2) = List.range c.scheduled.length
  awake : c.alive = true → .parked ∈ c.workers → c.jobcount ≤ c.workers.count .ready
  exited : .exited ∈ c.workers → c.alive = false ∧
    (completeAllJobsBeforeDestruction = true → c.jobcount = 0)

variable {completeAll : Bool} {c d : Config} {i k : ℕ}

theorem inv_initial : Inv completeAll {} where
  sorted := ⟨List.Pairwise.nil,by simp⟩
  total := by simp [waiting]
  noDefect := rfl
  perm := by simp [waiting]
  numbered := rfl
  awake := by simp
  exited := by simp

theorem Inv.nodup (hi : Inv completeAll c) : c.scheduled.Nodup := by
  refine List.Nodup.of_map (·.2) ?_
  rw [hi.numbered]
  exact List.nodup_range

theorem Inv.pop (hi : Inv completeAll c) (hw : c.workers[i]? = some .claimed) :
    ∃ job jobs, pop c.jobs = some (job,jobs) := by
  apply pop_isSome
  have hpos : 0 < c.workers.count .claimed := List.count_pos_iff.mpr (List.mem_of_getElem? hw)
  have ht := hi.total
  intro hnil
  rw [waiting,hnil,List.length_nil] at ht
  omega

theorem Inv.first (hi : Inv completeAll c) (hw : c.workers[i]? = some .claimed) : ∃ job d,
    step completeAll c (.doOne i) = some d ∧ d.popped = c.popped ++ [job] ∧ job ∈ waiting c ∧
      ∀ other ∈ waiting c, job.1 < other.1 ∨ job.1 = other.1 ∧ job.2 ≤ other.2 := by
  obtain ⟨job,jobs,hp⟩ := hi.pop hw
  have hitems := pop_items hp
  have hsorted := hi.sorted.items
  rw [hitems,List.pairwise_cons] at hsorted
  refine ⟨job,doOne c i,by simp [step,hw],by simp [doOne,hp,setWorker],by simp [waiting,hitems],?_⟩
  intro other ho
  rw [waiting,hitems,List.mem_cons] at ho
  rcases ho with rfl | ho
  · exact .inr ⟨rfl,le_refl _⟩
  · rcases Prod.lex_def.mp (hsorted.1 other ho) with hlt | ⟨he,hlt⟩
    · exact .inl hlt
    · exact .inr ⟨he,hlt.le⟩

theorem Inv.toAccounted (hi : Inv completeAll c) : Accounted completeAll c where
  total := hi.total
  noDefect := hi.noDefect
  scheduled := fun job hj => hi.perm.mem_iff.mp (List.mem_append_left _ hj)
  once := (List.nodup_append.mp (hi.perm.nodup_iff.mpr hi.nodup)).1
  first := fun i hw => hi.first hw
  awake := fun ha hpos hne => by
    by_contra hall
    push Not at hall
    obtain ⟨worker,hw⟩ := List.exists_mem_of_ne_nil _ hne
    have hle := hi.awake ha (hall worker hw ▸ hw)
    have hzero : c.workers.count .ready = 0 :=
      List.count_eq_zero.mpr fun hr => by cases hall _ hr
    omega
  completed := fun hc hne hall => by
    obtain ⟨worker,hw⟩ := List.exists_mem_of_ne_nil _ hne
    have hjobs := (hi.exited (hall worker hw ▸ hw)).2 hc
    have hzero : c.workers.count .claimed = 0 :=
      List.count_eq_zero.mpr fun hr => by cases hall _ hr
    have ht := hi.total
    exact List.length_eq_zero_iff.mp (by omega)

/-! ### The steps -/

variable {workers : List Worker} {worker worker' w : Worker}

theorem count_set (hw : workers[i]? = some worker) (worker' w : Worker) :
    (workers.set i worker').count w+(if worker = w then 1 else 0) =
      workers.count w+if worker' = w then 1 else 0 := by
  have h := countP_set_add (p := (· == w)) (b := worker') hw
  simp only [beq_iff_eq] at h
  exact h

theorem mem_set_of_ne (h : w ∈ workers.set i worker') (hne : worker' ≠ w) : w ∈ workers :=
  (List.mem_or_eq_of_mem_set h).resolve_right hne.symm

theorem Inv.moved (hi : Inv completeAll c) (hw : c.workers[i]? = some worker) {jobcount : ℕ}
    {jobs : List (ℤ × List ℕ)} {popped : List (ℤ × ℕ)} (hsorted : Sorted (· < ·) jobs)
    (hperm : (popped ++ items jobs).Perm (c.popped ++ waiting c))
    (htotal : (items jobs).length+c.jobcount+(if worker = .claimed then 1 else 0) =
      (waiting c).length+jobcount+if worker' = .claimed then 1 else 0)
    (hawake : c.alive = true → jobcount = 0 ∨ worker' ≠ .parked ∧
      jobcount+(if worker = .ready then 1 else 0) ≤ c.jobcount+if worker' = .ready then 1 else 0)
    (hexited : .exited ∈ c.workers ∨ worker' = .exited →
      c.alive = false ∧ (completeAll = true → jobcount = 0)) :
    Inv completeAll (setWorker { c with jobcount := jobcount, jobs := jobs, popped := popped } i worker') where
  sorted := hsorted
  total := by
    have ht := hi.total
    have hc := count_set hw worker' .claimed
    change (items jobs).length = jobcount+(c.workers.set i worker').count .claimed
    omega
  noDefect := hi.noDefect
  perm := hperm.trans hi.perm
  numbered := hi.numbered
  awake := fun ha hp => by
    change jobcount ≤ (c.workers.set i worker').count .ready
    rcases hawake ha with hz | ⟨hne,hle⟩
    · exact hz ▸ Nat.zero_le _
    · have hready := hi.awake ha (mem_set_of_ne hp hne)
      have hc := count_set hw worker' .ready
      omega
  exited := fun he => by
    apply hexited
    rcases List.mem_or_eq_of_mem_set he with he | he
    · exact .inl he
    · exact .inr he.symm

theorem Inv.goOn (hi : Inv completeAll c) (hw : c.workers[i]? = some worker)
    (hclaimed : worker ≠ .claimed) (hready : worker ≠ .ready) :
    Inv completeAll (setWorker c i .ready) := by
  refine hi.moved hw hi.sorted (List.Perm.refl _) ?_ (fun _ => .inr ⟨by simp,?_⟩) fun he => ?_
  · simp [hclaimed,waiting]
  · simp [hready]
  · exact hi.exited (he.resolve_right (by simp))

theorem Inv.claim (hi : Inv completeAll c) (hw : c.workers[i]? = some .ready) (hpos : 0 < c.jobcount) :
    Inv completeAll (setWorker { c with jobcount := c.jobcount-1 } i .claimed) := by
  refine hi.moved hw hi.sorted (List.Perm.refl _) ?_ (fun _ => .inr ⟨by simp,?_⟩) fun he => ?_
  · simp only [waiting,reduceCtorEq,if_true,if_false]
    omega
  · simp only [reduceCtorEq,if_true,if_false]
    omega
  · obtain ⟨ha,hz⟩ := hi.exited (he.resolve_right (by simp))
    exact ⟨ha,fun hc => by simp [hz hc]⟩

theorem Inv.work (hi : Inv completeAll c) (hw : c.workers[i]? = some .ready) :
    Inv completeAll (work completeAll c i) := by
  unfold ThreadPool.work
  split_ifs with ha hpos hc hpos
  · exact hi.claim hw hpos
  · refine hi.moved hw hi.sorted (List.Perm.refl _) (by simp [waiting]) (fun _ => .inl (by omega)) fun he => ?_
    exact hi.exited (he.resolve_right (by simp))
  · exact hi.claim hw hpos
  · refine hi.moved hw hi.sorted (List.Perm.refl _) (by simp [waiting]) (fun _ => .inl (by omega)) fun _ => ?_
    exact ⟨by simpa using ha,fun _ => by omega⟩
  · refine hi.moved hw hi.sorted (List.Perm.refl _) (by simp [waiting]) (fun h => absurd h ha) fun _ => ?_
    exact ⟨by simpa using ha,fun h => absurd h hc⟩

theorem Inv.doOne (hi : Inv completeAll c) (hw : c.workers[i]? = some .claimed) :
    Inv completeAll (doOne c i) := by
  obtain ⟨job,jobs,hp⟩ := hi.pop hw
  have hitems := pop_items hp
  simp only [ThreadPool.doOne,hp]
  refine hi.moved hw (hi.sorted.pop hp) ?_ ?_ (fun _ => .inr ⟨by simp,by simp⟩) fun he => ?_
  · simp [waiting,hitems]
  · simp only [waiting,hitems,List.length_cons,reduceCtorEq,if_true,if_false]
    omega
  · exact hi.exited (he.resolve_right (by simp))

theorem notifyOne_spec {workers' : List Worker} (h : notifyOne workers k = some workers') :
    workers'.count .claimed = workers.count .claimed ∧ (.exited ∈ workers' → .exited ∈ workers) ∧
      (.parked ∈ workers' → .parked ∈ workers ∧ workers'.count .ready = workers.count .ready+1) := by
  unfold notifyOne at h
  split_ifs at h with hp hk <;> cases h
  · refine ⟨?_,fun he => mem_set_of_ne he (by simp),fun _ => ⟨hp,?_⟩⟩
    · simpa using count_set hk .ready .claimed
    · simpa using count_set hk .ready .ready
  · exact ⟨rfl,id,fun h => absurd h hp⟩

/-- Waking up is no matter to the other workers. -/
theorem count_notifyAll (hparked : w ≠ .parked) (hready : w ≠ .ready) :
    (notifyAll workers).count w = workers.count w := by
  rw [notifyAll,List.count,List.countP_map]
  refine List.countP_congr fun worker _ => ?_
  cases worker <;> simp [hparked.symm,hready.symm]

theorem Inv.schedule (hi : Inv completeAll c) (ha : c.alive = true) {priority : ℤ}
    (h : schedule c priority k = some d) : Inv completeAll d := by
  obtain ⟨workers,hn,rfl⟩ := Option.map_eq_some_iff.mp h
  obtain ⟨hclaimed,hexited,hparked⟩ := notifyOne_spec hn
  have hitems := items_emplace priority c.scheduled.length c.jobs
  exact {
    sorted := hi.sorted.emplace priority fun job hj => by
      have hm : job ∈ c.scheduled := hi.perm.mem_iff.mp (List.mem_append_right _ hj)
      have hr : job.2 ∈ c.scheduled.map (·.2) := List.mem_map.mpr ⟨job,hm,rfl⟩
      rw [hi.numbered] at hr
      exact List.mem_range.mp hr
    total := by
      have ht := hi.total
      have hl := hitems.length_eq
      simp only [waiting,List.length_cons] at ht hl ⊢
      omega
    noDefect := hi.noDefect
    perm := by
      refine (hitems.append_left _).trans (List.perm_middle.trans ?_)
      exact (hi.perm.cons _).trans (List.perm_append_singleton _ _).symm
    numbered := by simp [hi.numbered,List.range_succ]
    awake := fun _ hp => by
      obtain ⟨hp,hc⟩ := hparked hp
      have hle := hi.awake ha hp
      simp only [hc]
      omega
    exited := fun he => by
      have hf := (hi.exited (hexited he)).1
      simp [ha] at hf }

theorem Inv.add (hi : Inv completeAll c) : Inv completeAll { c with workers := c.workers ++ [.ready] } where
  sorted := hi.sorted
  total := by simpa [waiting] using hi.total
  noDefect := hi.noDefect
  perm := hi.perm
  numbered := hi.numbered
  awake := fun ha hp => by
    have hle := hi.awake ha (by simpa using hp)
    simp only [List.count_append,List.count_singleton_self]
    omega
  exited := fun he => hi.exited (by simpa using he)

theorem Inv.destroy (hi : Inv completeAll c) : Inv completeAll (destroy c) where
  sorted := hi.sorted
  total := by
    change (waiting c).length = c.jobcount+(notifyAll c.workers).count .claimed
    rw [count_notifyAll (by simp) (by simp)]
    exact hi.total
  noDefect := hi.noDefect
  perm := hi.perm
  numbered := hi.numbered
  awake := fun ha => by cases ha
  exited := fun he => by
    have hpos : 0 < (notifyAll c.workers).count .exited := List.count_pos_iff.mpr he
    rw [count_notifyAll (by simp) (by simp)] at hpos
    exact ⟨rfl,(hi.exited (List.count_pos_iff.mp hpos)).2⟩

theorem Inv.step (hi : Inv completeAll c) {a : Action} (h : step completeAll c a = some d) :
    Inv completeAll d := by
  cases a with
  | add =>
    obtain ⟨-,⟨⟩⟩ := Option.ite_none_right_eq_some.mp h
    exact hi.add
  | schedule priority k =>
    obtain ⟨ha,h⟩ := Option.ite_none_right_eq_some.mp h
    exact hi.schedule ha h
  | wake k =>
    obtain ⟨hw,⟨⟩⟩ := Option.ite_none_right_eq_some.mp h
    exact hi.goOn hw (by simp) (by simp)
  | work i =>
    obtain ⟨hw,⟨⟩⟩ := Option.ite_none_right_eq_some.mp h
    exact hi.work hw
  | doOne i =>
    obtain ⟨hw,⟨⟩⟩ := Option.ite_none_right_eq_some.mp h
    exact hi.doOne hw
  | finish i =>
    obtain ⟨hw,⟨⟩⟩ := Option.ite_none_right_eq_some.mp h
    exact hi.goOn hw (by simp) (by simp)
  | destroy =>
    obtain ⟨-,⟨⟩⟩ := Option.ite_none_right_eq_some.mp h
    exact hi.destroy

/-- Whatever the workers do, and whoever schedules jobs or destroys the pool, the jobs are accounted
for. -/
theorem accounted (as : List Action) (c : Config) (h : run (step completeAll) as {} = some c) :
    Accounted completeAll c :=
  (run_invariant (fun _ _ _ hi h => Inv.step hi h) inv_initial h).toAccounted

/-- A worker is parked, and woken by a job that has to wait for a more important one. The pool is
destroyed before the second job is counted down. -/
theorem accounted_destroyed :
    let c := (run (step true) [.add,.work 0,.schedule 3 0,.schedule 1 0,.work 0,.doOne 0,.destroy,
      .finish 0,.work 0,.doOne 0,.finish 0,.work 0] {}).get rfl
    Accounted true c ∧ c.popped = [(1,1),(3,0)] ∧ c.workers = [.exited] :=
  ⟨accounted _ _ (Option.some_get _).symm,by decide,by decide⟩

theorem noWorkers_waiting : ∃ c, run (step true) [.schedule 0 0] {} = some c ∧ c.alive = true ∧
    0 < c.jobcount ∧ ∀ worker ∈ c.workers, worker = .parked :=
  ⟨_,(Option.some_get (x := run (step true) [.schedule 0 0] {}) rfl).symm,by decide⟩

end ThreadPool
end Scroom
