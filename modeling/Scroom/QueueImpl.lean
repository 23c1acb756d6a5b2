import Scroom.Transitions

/-! Deleting a queue of the thread pool while its jobs are being executed. Each job runs on a
worker of its own, `deletingQueue` on threads that run none of them; what a function does under the
mutex is one step, and waiting for the condition is a place to be in. -/
namespace Scroom
namespace QueueImpl
open Transitions

/-- Where a worker is in `do_one`, after it took the job from the thread pool. -/
inductive Phase
  | popped | locked | running | finished | exited
  deriving DecidableEq

/-- A job of the queue with the `QueueLock` around its body. The last two fields only record
what has happened: the lock was taken after the deletion, and the body was started. -/
structure Job where
  phase : Phase := .popped
  isValid : Bool := false
  late : Bool := false
  started : Bool := false
  deriving DecidableEq

/-- Where a thread is in `deletingQueue`. -/
inductive Deleter
  | waiting | woken | returned
  deriving DecidableEq

structure Config where
  count : ℤ := 0
  isDeleted : Bool := false
  jobs : List Job := []
  deleters : List Deleter := []
  deriving DecidableEq

/-- The lock exists: it has been constructed, and not yet destroyed. -/
def Job.live (job : Job) : Bool :=
  match job.phase with
  | .locked => true
  | .running => true
  | .finished => true
  | _ => false

def setJob (c : Config) (i : ℕ) (job : Job) : Config := { c with jobs := c.jobs.set i job }

def jobStarted (c : Config) (i : ℕ) (job : Job) : Config :=
  setJob { c with count := c.count+1 } i
    { job with phase := .locked, isValid := !c.isDeleted, late := c.isDeleted }

def notifyAll (deleters : List Deleter) : List Deleter :=
  deleters.map fun deleter => if deleter = .waiting then .woken else deleter

def jobFinished (c : Config) (i : ℕ) (job : Job) : Config :=
  setJob { c with count := c.count-1, deleters := notifyAll c.deleters } i { job with phase := .exited }

/-- The next step of a worker. The body is executed if the lock is valid. -/
def doOne (c : Config) (i : ℕ) (job : Job) : Option Config :=
  match job.phase with
  | .popped => some (jobStarted c i job)
  | .locked =>
    some (setJob c i
      (if job.isValid then { job with phase := .running, started := true }
      else { job with phase := .finished }))
  | .running => some (setJob c i { job with phase := .finished })
  | .finished => some (jobFinished c i job)
  | .exited => none

/-- The test of the loop in `deletingQueue`. -/
def waitForJobs (c : Config) : Deleter := if c.count ≠ 0 then .waiting else .returned

def deletingQueue (c : Config) : Config :=
  { c with isDeleted := true, deleters := c.deleters ++ [waitForJobs c] }

/-- The steps: a worker takes a job from the pool, a worker goes on, a thread calls
`deletingQueue`, one that waits wakes up for no reason, one that woke up has the mutex again. -/
inductive Action
  | pop
  | doOne (i : ℕ)
  | deletingQueue
  | wake (k : ℕ)
  | resume (k : ℕ)

def step (c : Config) : Action → Option Config
  | .pop => some { c with jobs := c.jobs ++ [{}] }
  | .doOne i => (c.jobs[i]?).bind (doOne c i)
  | .deletingQueue => some (deletingQueue c)
  | .wake k =>
    if c.deleters[k]? = some .waiting then some { c with deleters := c.deleters.set k .woken } else none
  | .resume k =>
    if c.deleters[k]? = some .woken then some { c with deleters := c.deleters.set k (waitForJobs c) }
    else none

/-- The deletion is a barrier. When `deletingQueue` has returned, no body is running or about to
run; a body is not started under a lock that was taken after the deletion; the count is that of the
locks; and nobody waits for jobs when there are none. -/
structure Barrier (c : Config) : Prop where
  returned : .returned ∈ c.deleters → ∀ job ∈ c.jobs, job.phase ≠ .running ∧
    (job.phase = .locked → job.isValid = false)
  late : ∀ job ∈ c.jobs, job.late = true → job.started = false
  counted : c.count = c.jobs.countP Job.live
  nonneg : 0 ≤ c.count
  awake : .waiting ∈ c.deleters → c.count ≠ 0

structure Inv (c : Config) : Prop where
  counted : c.count = c.jobs.countP Job.live
  awake : .waiting ∈ c.deleters → c.count ≠ 0
  running : ∀ job ∈ c.jobs, job.phase = .running → job.isValid = true
  idle : ∀ job ∈ c.jobs, job.phase = .popped → job.started = false
  late : ∀ job ∈ c.jobs, job.late = true → job.isValid = false ∧ job.started = false
  deleted : ∀ deleter ∈ c.deleters, c.isDeleted = true
  returned : .returned ∈ c.deleters → ∀ job ∈ c.jobs, job.live = true → job.isValid = false

theorem inv_initial : Inv {} where
  counted := by simp
  awake := by simp
  running := by simp
  idle := by simp
  late := by simp
  deleted := by simp
  returned := by simp

variable {c d : Config} {i : ℕ} {job job' : Job}

theorem Inv.barrier (hi : Inv c) : Barrier c where
  returned := fun hr job hj => by
    constructor
    · intro hp
      have hv := hi.returned hr job hj (by simp [Job.live,hp])
      simp [hi.running job hj hp] at hv
    · intro hp
      exact hi.returned hr job hj (by simp [Job.live,hp])
  late := fun job hj hl => (hi.late job hj hl).2
  counted := hi.counted
  nonneg := hi.counted ▸ Int.natCast_nonneg _
  awake := hi.awake

theorem Inv.moved (hi : Inv c) (hj : c.jobs[i]? = some job) {count : ℤ} {deleters : List Deleter}
    (hcount : count+(if job.live then 1 else 0) = c.count+if job'.live then 1 else 0)
    (hrunning : job'.phase = .running → job'.isValid = true) (hphase : job'.phase ≠ .popped)
    (hlate : job'.late = true → job'.isValid = false ∧ job'.started = false)
    (hawake : .waiting ∈ deleters → count ≠ 0) (hdeleted : ∀ deleter ∈ deleters, c.isDeleted = true)
    (hreturned : .returned ∈ deleters → .returned ∈ c.deleters)
    (hvalid : .returned ∈ c.deleters → job'.live = true → job'.isValid = false) :
    Inv (setJob { c with count := count, deleters := deleters } i job') where
  counted := by
    have hc := hi.counted
    have hset := countP_set_add (p := Job.live) (b := job') hj
    have hset' : ((c.jobs.set i job').countP Job.live : ℤ)+(if job.live then 1 else 0) =
        c.jobs.countP Job.live+if job'.live then 1 else 0 := by exact_mod_cast hset
    simp only [setJob]
    linarith
  awake := hawake
  running := forall_mem_set hi.running hrunning
  idle := forall_mem_set hi.idle fun h => absurd h hphase
  late := forall_mem_set hi.late hlate
  deleted := hdeleted
  returned := fun hr => forall_mem_set (hi.returned (hreturned hr)) (hvalid (hreturned hr))

theorem mem_notifyAll {deleters : List Deleter} {deleter : Deleter} (h : deleter ∈ notifyAll deleters) :
    deleter ≠ .waiting ∧ (deleter = .returned → .returned ∈ deleters) ∧ deleters ≠ [] := by
  obtain ⟨x,hx,he⟩ := List.mem_map.mp h
  refine ⟨?_,?_,List.ne_nil_of_mem hx⟩
  · cases x <;> simp_all
    all_goals rw [← he]; simp
  · rintro rfl
    cases x <;> simp_all

theorem Inv.doOne (hi : Inv c) (hj : c.jobs[i]? = some job) (h : doOne c i job = some d) : Inv d := by
  have hm := List.mem_of_getElem? hj
  unfold QueueImpl.doOne at h
  cases hp : job.phase with
  | popped =>
    simp only [hp,Option.some.injEq] at h
    subst h
    have hpos := Int.natCast_nonneg (c.jobs.countP Job.live)
    refine hi.moved hj (by simp [Job.live,hp]) (by simp) (by simp) ?_ ?_ hi.deleted id ?_
    · intro hl
      have hd : c.isDeleted = true := hl
      have hs : job.started = false := hi.idle job hm hp
      simp [hd,hs]
    · intro _
      have hc := hi.counted
      omega
    · intro hr _
      simp [hi.deleted _ hr]
  | locked =>
    simp only [hp,Option.some.injEq] at h
    subst h
    by_cases hv : job.isValid = true
    · rw [if_pos hv]
      refine hi.moved hj (by simp [Job.live,hp]) (fun _ => hv) (by simp) ?_ hi.awake hi.deleted id
        fun hr _ => hi.returned hr job hm (by simp [Job.live,hp])
      intro hl
      simp [(hi.late job hm hl).1] at hv
    · rw [if_neg hv]
      exact hi.moved hj (by simp [Job.live,hp]) (by simp) (by simp) (hi.late job hm) hi.awake hi.deleted id
        fun hr _ => hi.returned hr job hm (by simp [Job.live,hp])
  | running =>
    simp only [hp,Option.some.injEq] at h
    subst h
    exact hi.moved hj (by simp [Job.live,hp]) (by simp) (by simp) (hi.late job hm) hi.awake hi.deleted id
      fun hr _ => hi.returned hr job hm (by simp [Job.live,hp])
  | finished =>
    simp only [hp,Option.some.injEq] at h
    subst h
    refine hi.moved hj (by simp [Job.live,hp]) (by simp) (by simp) (hi.late job hm) ?_ ?_ ?_ (by simp [Job.live])
    · exact fun hw => absurd rfl (mem_notifyAll hw).1
    · intro deleter hd
      obtain ⟨x,hx⟩ := List.exists_mem_of_ne_nil _ (mem_notifyAll hd).2.2
      exact hi.deleted x hx
    · exact fun hr => (mem_notifyAll hr).2.1 rfl
  | exited => simp [hp] at h

theorem Inv.waited (hi : Inv c) {deleters : List Deleter}
    (hsub : ∀ deleter ∈ deleters, deleter ∈ c.deleters ∨ deleter = waitForJobs c ∨ deleter = .woken) :
    Inv { c with isDeleted := true, deleters := deleters } where
  counted := hi.counted
  awake := fun hw => by
    rcases hsub _ hw with hw | hw | hw
    · exact hi.awake hw
    · simp only [waitForJobs] at hw
      split at hw
      case isTrue hc => exact hc
      case isFalse => cases hw
    · cases hw
  running := hi.running
  late := hi.late
  idle := hi.idle
  deleted := fun _ _ => rfl
  returned := fun hr job hj hl => by
    rcases hsub _ hr with hr | hr | hr
    · exact hi.returned hr job hj hl
    · have hz : c.count = 0 := by
        simp only [waitForJobs] at hr
        split at hr
        case isTrue => cases hr
        case isFalse hc => simpa using hc
      have hc := hi.counted
      rw [hz] at hc
      have hnone : c.jobs.countP Job.live = 0 := by exact_mod_cast hc.symm
      exact absurd hl (List.countP_eq_zero.mp hnone job hj)
    · cases hr

theorem Inv.setDeleter (hi : Inv c) {k : ℕ} {deleter deleter' : Deleter}
    (hk : c.deleters[k]? = some deleter) (h : deleter' = waitForJobs c ∨ deleter' = .woken) :
    Inv { c with deleters := c.deleters.set k deleter' } := by
  have hd : c.isDeleted = true := hi.deleted _ (List.mem_of_getElem? hk)
  have hw := hi.waited (forall_mem_set (i := k) (fun x hx => Or.inl hx) (Or.inr h))
  rw [← hd] at hw
  exact hw

theorem wake_eq_some {k : ℕ} (h : step c (.wake k) = some d) :
    c.deleters[k]? = some .waiting ∧ d = { c with deleters := c.deleters.set k .woken } := by
  simp only [QueueImpl.step,Option.ite_none_right_eq_some,Option.some.injEq] at h
  exact ⟨h.1,h.2.symm⟩

theorem resume_eq_some {k : ℕ} (h : step c (.resume k) = some d) :
    c.deleters[k]? = some .woken ∧ d = { c with deleters := c.deleters.set k (waitForJobs c) } := by
  simp only [QueueImpl.step,Option.ite_none_right_eq_some,Option.some.injEq] at h
  exact ⟨h.1,h.2.symm⟩

theorem Inv.step (hi : Inv c) {a : Action} (h : step c a = some d) : Inv d := by
  cases a with
  | pop =>
    cases h
    have hnew : ∀ {Q : Job → Prop}, (∀ job ∈ c.jobs, Q job) → Q {} →
        ∀ job ∈ c.jobs ++ [({} : Job)], Q job :=
      fun hall hq job hj => by
        rcases List.mem_append.mp hj with hj | hj
        · exact hall job hj
        · exact List.mem_singleton.mp hj ▸ hq
    exact { hi with
      counted := by
        rw [List.countP_append]
        simpa [Job.live] using hi.counted
      running := hnew hi.running (by simp)
      late := hnew hi.late (by simp)
      idle := hnew hi.idle (by simp)
      returned := fun hr => hnew (hi.returned hr) (by simp [Job.live]) }
  | doOne i =>
    obtain ⟨job,hj,h⟩ := Option.bind_eq_some_iff.mp h
    exact hi.doOne hj h
  | deletingQueue =>
    cases h
    exact hi.waited fun deleter hd => by
      rcases List.mem_append.mp hd with hd | hd
      · exact Or.inl hd
      · exact Or.inr (Or.inl (List.mem_singleton.mp hd))
  | wake k =>
    obtain ⟨hk,rfl⟩ := wake_eq_some h
    exact hi.setDeleter hk (Or.inr rfl)
  | resume k =>
    obtain ⟨hk,rfl⟩ := resume_eq_some h
    exact hi.setDeleter hk (Or.inl rfl)

/-! ### After the barrier -/

/-- No body has been started since the jobs were `jobs`, and none may be. -/
structure Frozen (jobs : List Job) (c : Config) : Prop where
  returned : .returned ∈ c.deleters
  length : jobs.length ≤ c.jobs.length
  started : ∀ (i : ℕ) job, c.jobs[i]? = some job → job.started = (jobs[i]?).any (·.started)

theorem Frozen.moved {jobs : List Job} (hf : Frozen jobs c) (hj : c.jobs[i]? = some job)
    (hs : job'.started = job.started) {count : ℤ} {deleters : List Deleter}
    (hr : .returned ∈ deleters) :
    Frozen jobs (setJob { c with count := count, deleters := deleters } i job') where
  returned := hr
  length := by simpa [setJob] using hf.length
  started := fun j x hx => by
    rcases getElem?_set_cases hj hx with ⟨rfl,rfl⟩ | ⟨-,hx⟩
    · exact hs.trans (hf.started j job hj)
    · exact hf.started j x hx

theorem returned_mem_notifyAll {deleters : List Deleter} (h : .returned ∈ deleters) :
    .returned ∈ notifyAll deleters := List.mem_map.mpr ⟨.returned,h,rfl⟩

theorem returned_mem_set {deleters : List Deleter} (h : .returned ∈ deleters) {k : ℕ}
    {deleter deleter' : Deleter} (hk : deleters[k]? = some deleter) (hne : deleter ≠ .returned) :
    .returned ∈ deleters.set k deleter' := by
  obtain ⟨j,hj⟩ := List.mem_iff_getElem?.mp h
  have hkj : k ≠ j := by
    rintro rfl
    exact hne (Option.some.inj (hk.symm.trans hj))
  exact List.mem_iff_getElem?.mpr ⟨j,by rw [List.getElem?_set_ne hkj,hj]⟩

theorem Frozen.doOne {jobs : List Job} (hf : Frozen jobs c) (hi : Inv c) (hj : c.jobs[i]? = some job)
    (h : doOne c i job = some d) : Frozen jobs d := by
  unfold QueueImpl.doOne at h
  cases hp : job.phase with
  | popped =>
    simp only [hp,Option.some.injEq] at h
    subst h
    exact hf.moved hj (by simp) hf.returned
  | locked =>
    have hv := hi.returned hf.returned job (List.mem_of_getElem? hj) (by simp [Job.live,hp])
    simp only [hp,hv,Option.some.injEq] at h
    subst h
    exact hf.moved hj (by simp) hf.returned
  | running =>
    simp only [hp,Option.some.injEq] at h
    subst h
    exact hf.moved hj (by simp) hf.returned
  | finished =>
    simp only [hp,Option.some.injEq] at h
    subst h
    exact hf.moved hj (by simp) (returned_mem_notifyAll hf.returned)
  | exited => simp [hp] at h

theorem Frozen.step {jobs : List Job} (hf : Frozen jobs c) (hi : Inv c) {a : Action}
    (h : step c a = some d) : Frozen jobs d := by
  cases a with
  | pop =>
    cases h
    exact {
      returned := hf.returned
      length := by
        have hl := hf.length
        simp only [List.length_append]
        omega
      started := fun j x hx => by
        rcases getElem?_append_singleton hx with hx | ⟨rfl,rfl⟩
        · exact hf.started j x hx
        · rw [List.getElem?_eq_none hf.length]
          rfl }
  | doOne i =>
    obtain ⟨job,hj,h⟩ := Option.bind_eq_some_iff.mp h
    exact hf.doOne hi hj h
  | deletingQueue =>
    cases h
    exact { hf with returned := List.mem_append_left _ hf.returned }
  | wake k =>
    obtain ⟨hk,rfl⟩ := wake_eq_some h
    exact { hf with returned := returned_mem_set hf.returned hk (by simp) }
  | resume k =>
    obtain ⟨hk,rfl⟩ := resume_eq_some h
    exact { hf with returned := returned_mem_set hf.returned hk (by simp) }

theorem inv_run {as : List Action} (h : run step as {} = some c) : Inv c :=
  run_invariant (fun _ _ _ hi hs => hi.step hs) inv_initial h

/-- In every state that can be reached the deletion is a barrier, and once `deletingQueue` has
returned, no body is started any more: the jobs that were not started by then, and those that are
taken from the pool later, never are. -/
theorem deletingQueue_barrier (as : List Action) (c : Config) (h : run step as {} = some c) :
    Barrier c ∧ (.returned ∈ c.deleters → ∀ bs d, run step bs c = some d →
      ∀ (i : ℕ) job, d.jobs[i]? = some job → job.started = (c.jobs[i]?).any (·.started)) := by
  have hi := inv_run h
  refine ⟨hi.barrier,fun hr bs d hd => ?_⟩
  have hf : Frozen c.jobs c := ⟨hr,le_refl _,fun i job hj => by simp [hj]⟩
  have hstep : ∀ e a e', Inv e ∧ Frozen c.jobs e → step e a = some e' → Inv e' ∧ Frozen c.jobs e' :=
    fun _ _ _ he ht => ⟨he.1.step ht,he.2.step he.1 ht⟩
  exact (run_invariant hstep ⟨hi,hf⟩ hd).2.started

/-- A job starts, the deletion waits for it, and a second job comes too late. -/
theorem deletingQueue_barrier_late :
    let c := (run step [.pop,.doOne 0,.doOne 0,.deletingQueue,.pop,.doOne 1,.doOne 0,.doOne 0,.doOne 1,
      .doOne 1,.resume 0] {}).get rfl
    .returned ∈ c.deleters ∧ Barrier c ∧ c.jobs.map (·.started) = [true,false] := by
  refine ⟨by decide,(deletingQueue_barrier _ _ (Option.some_get _).symm).1,by decide⟩

end QueueImpl
end Scroom
