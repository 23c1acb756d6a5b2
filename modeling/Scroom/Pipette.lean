import Scroom.Transitions

/-! The handler of the pipette: the calls of the user interface, and the computations that a worker makes one
after the other. One flag and one mutex are shared by both. -/
namespace Scroom
namespace PipetteHandler
open Transitions

inductive Thread
  | ui | worker
  deriving DecidableEq

/-- What the current call on the UI thread does next: clear the flag in `onEnable`, schedule a job in
`onSelectionEnd`, or unlock the mutex. -/
inductive Ui
  | idle | clear | schedule | unlock
  deriving DecidableEq

/-- What became of a computation. A ghost says whether the tool was disabled between the selection and the test
of the flag. -/
structure Outcome where
  supported : Bool
  displayed : Bool
  disabled : Bool
  deriving DecidableEq

/-- Where `computeValues` stands, once it has locked the mutex. -/
inductive Phase
  | locked (disabled : Bool)
  | supported (disabled : Bool)
  | unsupported (disabled : Bool)
  | display (disabled : Bool)
  | clear (outcome : Outcome)
  | unlock (outcome : Outcome)
  deriving DecidableEq

/-- The tool is disabled before the flag has been tested. -/
def Phase.disable : Phase → Phase
  | .locked _ => .locked true
  | .supported _ => .supported true
  | .unsupported _ => .unsupported true
  | phase => phase

/-- A queued job is known by whether the tool was disabled since its selection. -/
structure Config where
  enabled : Bool := false
  wasDisabled : Bool := false
  jobMutex : Option Thread := none
  ui : Ui := .idle
  currentJob : List Bool := []
  computing : Option Phase := none
  outcomes : List Outcome := []
  deriving DecidableEq

/-- A call continues if `try_lock` succeeds, and is over otherwise. -/
def tryLock (next : Ui) (c : Config) : Config :=
  if c.jobMutex = none then { c with jobMutex := some .ui, ui := next } else c

def onEnable (c : Config) : Config := tryLock .clear { c with enabled := true }

def onDisable (c : Config) : Config :=
  { c with
    enabled := false
    wasDisabled := true
    currentJob := c.currentJob.map fun _ => true
    computing := c.computing.map Phase.disable }

def onSelectionUpdate (c : Config) : Config := if c.enabled then tryLock .unlock c else c

def onSelectionEnd (c : Config) : Config := if c.enabled then tryLock .schedule c else c

/-- The rest of a call that holds the mutex. -/
def uiStep (c : Config) : Option Config :=
  match c.ui with
  | .idle => none
  | .clear => some { c with wasDisabled := false, ui := .unlock }
  | .schedule => some { c with currentJob := c.currentJob ++ [false], ui := .unlock }
  | .unlock => some { c with jobMutex := none, ui := .idle }

/-- `computeValues`. A status message is set by the UI thread, between two calls. -/
def computeValues (supported : Bool) (c : Config) : Option Config :=
  match c.computing with
  | none =>
    match c.currentJob,c.jobMutex with
    | disabled::jobs,none =>
      some { c with jobMutex := some .worker, currentJob := jobs, computing := some (.locked disabled) }
    | _,_ => none
  | some (.locked disabled) =>
    if c.ui = .idle then
      some { c with computing := some (if supported then .supported disabled else .unsupported disabled) }
    else none
  | some (.supported disabled) =>
    some { c with
      wasDisabled := true
      computing := some (if c.wasDisabled then .clear ⟨true,false,disabled⟩ else .display disabled) }
  | some (.unsupported disabled) =>
    if c.ui = .idle then some { c with computing := some (.unlock ⟨false,false,disabled⟩) } else none
  | some (.display disabled) =>
    if c.ui = .idle then some { c with computing := some (.clear ⟨true,true,disabled⟩) } else none
  | some (.clear outcome) => some { c with wasDisabled := false, computing := some (.unlock outcome) }
  | some (.unlock outcome) =>
    some { c with jobMutex := none, computing := none, outcomes := outcome::c.outcomes }

/-- A call, a step inside one, or a step of the worker, with the answer that the presentation gives if it is
asked. -/
inductive Action
  | onEnable | onDisable | onSelectionUpdate | onSelectionEnd
  | ui
  | worker (supported : Bool)
  deriving DecidableEq

def step (c : Config) : Action → Option Config
  | .onEnable => if c.ui = .idle then some (onEnable c) else none
  | .onDisable => if c.ui = .idle then some (onDisable c) else none
  | .onSelectionUpdate => if c.ui = .idle then some (onSelectionUpdate c) else none
  | .onSelectionEnd => if c.ui = .idle then some (onSelectionEnd c) else none
  | .ui => uiStep c
  | .worker supported => computeValues supported c

/-- A result is displayed exactly when it is wanted. -/
def Outcome.Right (o : Outcome) : Prop := o.displayed = true ↔ o.supported = true ∧ o.disabled = false

instance (o : Outcome) : Decidable o.Right := inferInstanceAs (Decidable (_ ↔ _))

/-- What is promised: the results so far, and a clear flag when the tool is enabled and nothing is going on. -/
structure Exact (c : Config) : Prop where
  outcomes : ∀ o ∈ c.outcomes, o.Right
  clear : c.enabled = true → c.ui = .idle → c.currentJob = [] → c.computing = none → c.wasDisabled = false

/-- Calls and computations go on, and no new call is made. -/
def Action.Continues : Action → Prop
  | .ui => True
  | .worker _ => True
  | _ => False

/-- The promise is kept however the computations go on. -/
def Lasting (c : Config) : Prop := Henceforth step Action.Continues Exact c

/-- The computations that have not tested the flag yet. -/
def Phase.pending : Phase → List Bool
  | .locked disabled => [disabled]
  | .supported disabled => [disabled]
  | _ => []

def pending (c : Config) : List Bool := (c.computing.map Phase.pending).getD [] ++ c.currentJob

/-- The computation has tested the flag and not cleared it yet. -/
def Phase.Tested : Phase → Prop
  | .display _ => True
  | .clear _ => True
  | _ => False

def Tested (c : Config) : Prop := ∃ phase ∈ c.computing, phase.Tested

/-- The presentation is known to support the pipette, and the flag has not been cleared yet. -/
def Phase.Clears : Phase → Prop
  | .supported _ => True
  | phase => phase.Tested

instance : DecidablePred Phase.Tested
  | .locked _ => isFalse id
  | .supported _ => isFalse id
  | .unsupported _ => isFalse id
  | .display _ => isTrue trivial
  | .clear _ => isTrue trivial
  | .unlock _ => isFalse id

instance : DecidablePred Phase.Clears
  | .locked _ => isFalse id
  | .supported _ => isTrue trivial
  | .unsupported _ => isFalse id
  | .display _ => isTrue trivial
  | .clear _ => isTrue trivial
  | .unlock _ => isFalse id

instance (c : Config) : Decidable (Tested c) := inferInstanceAs (Decidable (∃ _ ∈ _, _))

/-- The tool is disabled only while at most one computation has yet to clear the flag. It is enabled, when the
flag is set, only while no computation is queued or one is running that will clear the flag. -/
def Allowed (c : Config) : Action → Prop
  | .onDisable => (pending c).length+(if Tested c then 1 else 0) ≤ 1
  | .onEnable => c.wasDisabled = true →
    if c.jobMutex = none then pending c = [] else ∃ phase ∈ c.computing, phase.Clears
  | _ => True

instance : ∀ c a, Decidable (Allowed c a)
  | _, .onDisable => inferInstanceAs (Decidable (_ ≤ 1))
  | _, .onEnable => inferInstanceAs (Decidable (_ → _))
  | _, .onSelectionUpdate => isTrue trivial
  | _, .onSelectionEnd => isTrue trivial
  | _, .ui => isTrue trivial
  | _, .worker _ => isTrue trivial

/-- Who holds the mutex, and what the worker knows about the flag while it does. -/
structure Inv (c : Config) : Prop where
  ui_iff : c.jobMutex = some .ui ↔ c.ui ≠ .idle
  worker_iff : c.jobMutex = some .worker ↔ c.computing.isSome
  enabled : c.ui ≠ .idle → c.enabled = true
  tested : ∀ phase ∈ c.computing, phase.Tested → c.wasDisabled = true

theorem inv_initial : Inv {} := ⟨by decide,by decide,by decide,by simp⟩

variable {c d : Config} {a : Action}

theorem Inv.idle_of_computing (hi : Inv c) (h : c.computing.isSome) : c.ui = .idle := by
  by_contra hui
  have hu := hi.ui_iff.mpr hui
  rw [hi.worker_iff.mpr h] at hu
  cases hu

theorem Inv.computing_of_ui (hi : Inv c) (h : c.ui ≠ .idle) : c.computing = none :=
  Option.not_isSome_iff_eq_none.mp fun hs => h (hi.idle_of_computing hs)

theorem Inv.computing_of_free (hi : Inv c) (h : c.jobMutex = none) : c.computing = none :=
  Option.not_isSome_iff_eq_none.mp fun hs => by simpa [h] using hi.worker_iff.mpr hs

/-! What `computeValues` does next. -/

section ComputeValues
variable {supported disabled : Bool} {jobs : List Bool} {outcome : Outcome}

theorem computeValues_lock (hc : c.computing = none) (hjobs : c.currentJob = disabled::jobs)
    (hfree : c.jobMutex = none) : computeValues supported c = some
      { c with jobMutex := some .worker, currentJob := jobs, computing := some (.locked disabled) } := by
  simp [computeValues,hc,hjobs,hfree]

theorem computeValues_locked (hc : c.computing = some (.locked disabled)) (hui : c.ui = .idle) :
    computeValues supported c = some
      { c with computing := some (if supported then .supported disabled else .unsupported disabled) } := by
  simp [computeValues,hc,hui]

theorem computeValues_supported (hc : c.computing = some (.supported disabled)) :
    computeValues supported c = some
      { c with
        wasDisabled := true
        computing := some (if c.wasDisabled then .clear ⟨true,false,disabled⟩ else .display disabled) } := by
  simp [computeValues,hc]

theorem computeValues_unsupported (hc : c.computing = some (.unsupported disabled)) (hui : c.ui = .idle) :
    computeValues supported c = some { c with computing := some (.unlock ⟨false,false,disabled⟩) } := by
  simp [computeValues,hc,hui]

theorem computeValues_display (hc : c.computing = some (.display disabled)) (hui : c.ui = .idle) :
    computeValues supported c = some { c with computing := some (.clear ⟨true,true,disabled⟩) } := by
  simp [computeValues,hc,hui]

theorem computeValues_clear (hc : c.computing = some (.clear outcome)) :
    computeValues supported c = some { c with wasDisabled := false, computing := some (.unlock outcome) } := by
  simp [computeValues,hc]

theorem computeValues_unlock (hc : c.computing = some (.unlock outcome)) : computeValues supported c = some
    { c with jobMutex := none, computing := none, outcomes := outcome::c.outcomes } := by
  simp [computeValues,hc]

end ComputeValues

theorem Inv.computeValues_cases {motive : Config → Prop} {supported : Bool} (hi : Inv c)
    (h : computeValues supported c = some d)
    (lock : ∀ disabled jobs, c.computing = none → c.currentJob = disabled::jobs → c.jobMutex = none → c.ui = .idle →
      motive { c with jobMutex := some .worker, currentJob := jobs, computing := some (.locked disabled) })
    (locked : ∀ disabled, c.computing = some (.locked disabled) → c.ui = .idle →
      motive { c with computing := some (if supported then .supported disabled else .unsupported disabled) })
    (test : ∀ disabled, c.computing = some (.supported disabled) → motive { c with
      wasDisabled := true
      computing := some (if c.wasDisabled then .clear ⟨true,false,disabled⟩ else .display disabled) })
    (unsupported : ∀ disabled, c.computing = some (.unsupported disabled) → c.ui = .idle →
      motive { c with computing := some (.unlock ⟨false,false,disabled⟩) })
    (display : ∀ disabled, c.computing = some (.display disabled) → c.ui = .idle →
      motive { c with computing := some (.clear ⟨true,true,disabled⟩) })
    (clear : ∀ outcome, c.computing = some (.clear outcome) →
      motive { c with wasDisabled := false, computing := some (.unlock outcome) })
    (unlock : ∀ outcome, c.computing = some (.unlock outcome) → c.ui = .idle →
      motive { c with jobMutex := none, computing := none, outcomes := outcome::c.outcomes }) : motive d := by
  cases hc : c.computing with
  | none =>
    cases hjobs : c.currentJob with
    | nil => simp [computeValues,hc,hjobs] at h
    | cons disabled jobs =>
      cases hfree : c.jobMutex with
      | some t => simp [computeValues,hc,hjobs,hfree] at h
      | none =>
        have hui : c.ui = .idle := by
          by_contra hne
          simpa [hfree] using hi.ui_iff.mpr hne
        rw [computeValues_lock hc hjobs hfree] at h
        cases h
        exact lock _ _ hc hjobs hfree hui
  | some phase =>
    have hui := hi.idle_of_computing (by simp [hc])
    cases phase with
    | locked disabled =>
      rw [computeValues_locked hc hui] at h
      cases h
      exact locked _ hc hui
    | supported disabled =>
      rw [computeValues_supported hc] at h
      cases h
      exact test _ hc
    | unsupported disabled =>
      rw [computeValues_unsupported hc hui] at h
      cases h
      exact unsupported _ hc hui
    | display disabled =>
      rw [computeValues_display hc hui] at h
      cases h
      exact display _ hc hui
    | clear outcome =>
      rw [computeValues_clear hc] at h
      cases h
      exact clear _ hc
    | unlock outcome =>
      rw [computeValues_unlock hc] at h
      cases h
      exact unlock _ hc hui

theorem Inv.tryLock {next : Ui} (hi : Inv c) (he : c.enabled = true) (hne : next ≠ .idle) :
    Inv (tryLock next c) := by
  unfold PipetteHandler.tryLock
  split
  · rename_i hfree
    exact ⟨by simp [hne],by simp [hi.computing_of_free hfree],fun _ => he,hi.tested⟩
  · exact hi

theorem Inv.computeValues {supported : Bool} (hi : Inv c) (h : computeValues supported c = some d) : Inv d := by
  have hbusy : ∀ (wasDisabled : Bool) phase', c.computing.isSome → (phase'.Tested → wasDisabled = true) →
      Inv { c with wasDisabled := wasDisabled, computing := some phase' } := fun wasDisabled phase' hc ht =>
    ⟨hi.ui_iff,by simp [hi.worker_iff.mpr hc],hi.enabled,by simpa using ht⟩
  refine hi.computeValues_cases h ?_ ?_ ?_ ?_ ?_ ?_ ?_
  · intro disabled jobs hc hjobs hfree hui
    exact ⟨by simp [hui],by simp,fun hne => absurd hui hne,by simp [Phase.Tested]⟩
  · intro disabled hc hui
    refine hbusy c.wasDisabled _ (by simp [hc]) ?_
    cases supported <;> simp [Phase.Tested]
  · exact fun disabled hc => hbusy true _ (by simp [hc]) fun _ => rfl
  · exact fun disabled hc hui => hbusy c.wasDisabled (.unlock _) (by simp [hc]) False.elim
  · exact fun disabled hc hui => hbusy c.wasDisabled (.clear _) (by simp [hc]) fun _ => hi.tested _ hc trivial
  · exact fun outcome hc => hbusy false (.unlock _) (by simp [hc]) False.elim
  · intro outcome hc hui
    exact ⟨by simp [hui],by simp,fun hne => absurd hui hne,by simp⟩

theorem Inv.step (hi : Inv c) (h : step c a = some d) : Inv d := by
  cases a with
  | onEnable =>
    simp only [PipetteHandler.step,Option.ite_none_right_eq_some,Option.some.injEq] at h
    obtain ⟨hui,rfl⟩ := h
    have he : Inv { c with enabled := true } := ⟨hi.ui_iff,hi.worker_iff,fun _ => rfl,hi.tested⟩
    exact he.tryLock rfl (by decide)
  | onDisable =>
    simp only [PipetteHandler.step,Option.ite_none_right_eq_some,Option.some.injEq] at h
    obtain ⟨hui,rfl⟩ := h
    refine ⟨hi.ui_iff,?_,fun hne => absurd hui hne,fun _ _ _ => rfl⟩
    rw [onDisable,Option.isSome_map]
    exact hi.worker_iff
  | onSelectionUpdate =>
    simp only [PipetteHandler.step,Option.ite_none_right_eq_some,Option.some.injEq] at h
    obtain ⟨hui,rfl⟩ := h
    unfold onSelectionUpdate
    split
    · exact hi.tryLock ‹_› (by decide)
    · exact hi
  | onSelectionEnd =>
    simp only [PipetteHandler.step,Option.ite_none_right_eq_some,Option.some.injEq] at h
    obtain ⟨hui,rfl⟩ := h
    unfold onSelectionEnd
    split
    · exact hi.tryLock ‹_› (by decide)
    · exact hi
  | ui =>
    simp only [PipetteHandler.step,uiStep] at h
    cases hui : c.ui with
    | idle => simp [hui] at h
    | clear =>
      have hnone := hi.computing_of_ui (by simp [hui])
      obtain rfl := Option.some.inj (by simpa [hui] using h)
      exact ⟨by simp [hi.ui_iff,hui],by simp [hi.worker_iff],fun _ => hi.enabled (by simp [hui]),by simp [hnone]⟩
    | schedule =>
      obtain rfl := Option.some.inj (by simpa [hui] using h)
      exact ⟨by simp [hi.ui_iff,hui],by simp [hi.worker_iff],fun _ => hi.enabled (by simp [hui]),hi.tested⟩
    | unlock =>
      have hnone := hi.computing_of_ui (by simp [hui])
      obtain rfl := Option.some.inj (by simpa [hui] using h)
      exact ⟨by simp,by simp [hnone],by simp,by simp [hnone]⟩
  | worker supported => exact hi.computeValues h

/-- What is known of the result while the computation goes on. -/
def Phase.Right : Phase → Prop
  | .display disabled => disabled = false
  | .clear outcome => outcome.Right
  | .unlock outcome => outcome.Right
  | _ => True

/-- The flag says of every computation whether the tool was disabled, and will be clear in time. -/
structure Safe (c : Config) : Prop where
  outcomes : ∀ o ∈ c.outcomes, o.Right
  result : ∀ phase ∈ c.computing, phase.Right
  clear : c.wasDisabled = false ∨ Tested c → ∀ disabled ∈ pending c, disabled = false
  set : c.wasDisabled = true → ¬Tested c → pending c = [] ∨ pending c = [true]
  enabled : c.wasDisabled = true → ¬Tested c → c.enabled = true →
    c.ui = .clear ∧ pending c = [] ∨ ∃ phase ∈ c.computing, phase.Clears

theorem safe_initial : Safe {} := ⟨by simp,by simp,by simp [pending],by simp,by simp⟩

theorem Safe.exact (hs : Safe c) : Exact c where
  outcomes := hs.outcomes
  clear := by
    intro he hui hjobs hc
    by_contra hset
    rcases hs.enabled (by simpa using hset) (by simp [Tested,hc]) he with ⟨hclear,-⟩ | ⟨phase,hp,-⟩
    · simp [hui] at hclear
    · simp [hc] at hp

theorem Safe.tryLock {next : Ui} (hs : Safe c) (hui : c.ui = .idle) : Safe (tryLock next c) := by
  unfold PipetteHandler.tryLock
  split
  · exact ⟨hs.outcomes,hs.result,hs.clear,hs.set,fun hset ht he =>
      (hs.enabled hset ht he).imp (fun h => by simp [hui] at h) id⟩
  · exact hs

theorem Safe.onEnable (hs : Safe c) (hok : Allowed c .onEnable) : Safe (onEnable c) := by
  unfold PipetteHandler.onEnable PipetteHandler.tryLock
  split
  · rename_i hfree
    refine ⟨hs.outcomes,hs.result,hs.clear,hs.set,fun hset _ _ => .inl ⟨rfl,?_⟩⟩
    have hnone := hok hset
    rwa [if_pos hfree] at hnone
  · rename_i hbusy
    refine ⟨hs.outcomes,hs.result,hs.clear,hs.set,fun hset _ _ => .inr ?_⟩
    have hsome := hok hset
    rwa [if_neg hbusy] at hsome

theorem pending_onDisable (c : Config) : pending (onDisable c) = (pending c).map fun _ => true := by
  simp only [pending,onDisable,List.map_append]
  cases c.computing with
  | none => rfl
  | some phase => cases phase <;> rfl

theorem tested_onDisable : Tested (onDisable c) ↔ Tested c := by
  simp only [Tested,onDisable]
  cases c.computing with
  | none => simp
  | some phase => cases phase <;> simp [Phase.disable,Phase.Tested]

theorem Safe.onDisable (hs : Safe c) (hok : Allowed c .onDisable) : Safe (onDisable c) where
  outcomes := hs.outcomes
  result := by
    intro phase hp
    obtain ⟨before,hbefore,rfl⟩ := Option.mem_map.mp hp
    have hr := hs.result before hbefore
    cases before <;> exact hr
  clear := by
    rintro (hset | ht) disabled hd
    · cases hset
    · rw [tested_onDisable] at ht
      have hempty : pending c = [] := by
        have hle : (pending c).length+(if Tested c then 1 else 0) ≤ 1 := hok
        rw [if_pos ht] at hle
        exact List.length_eq_zero_iff.mp (by omega)
      simp [pending_onDisable,hempty] at hd
  set := by
    intro _ ht
    rw [tested_onDisable] at ht
    have hle : (pending c).length+(if Tested c then 1 else 0) ≤ 1 := hok
    rw [if_neg ht] at hle
    rw [pending_onDisable]
    rcases Nat.le_one_iff_eq_zero_or_eq_one.mp hle with h | h
    · simp [List.length_eq_zero_iff.mp h]
    · obtain ⟨disabled,hd⟩ := List.length_eq_one_iff.mp h
      simp [hd]
  enabled := by
    intro _ _ he
    cases he

theorem Safe.uiStep (hi : Inv c) (hs : Safe c) (h : uiStep c = some d) : Safe d := by
  unfold PipetteHandler.uiStep at h
  split at h
  · cases h
  · rename_i hui
    cases h
    have hnone := hi.computing_of_ui (by simp [hui])
    have hfalse : ∀ disabled ∈ pending c, disabled = false := by
      by_cases hset : c.wasDisabled = true
      · rcases hs.enabled hset (by simp [Tested,hnone]) (hi.enabled (by simp [hui])) with ⟨-,hempty⟩ | ⟨phase,hp,-⟩
        · simp [hempty]
        · simp [hnone] at hp
      · exact hs.clear (.inl (by simpa using hset))
    exact ⟨hs.outcomes,hs.result,fun _ => hfalse,fun hset => by simp at hset,fun hset => by simp at hset⟩
  · rename_i hui
    cases h
    have hnone := hi.computing_of_ui (by simp [hui])
    have hunset : c.wasDisabled = false := by
      by_contra hset
      rcases hs.enabled (by simpa using hset) (by simp [Tested,hnone]) (hi.enabled (by simp [hui])) with
        ⟨hclear,-⟩ | ⟨phase,hp,-⟩
      · simp [hui] at hclear
      · simp [hnone] at hp
    refine ⟨hs.outcomes,hs.result,fun _ => ?_,fun hset => by simp [hunset] at hset,fun hset => by simp [hunset] at hset⟩
    have hfalse := hs.clear (.inl hunset)
    intro disabled hd
    simp only [pending,← List.append_assoc,List.mem_append,List.mem_singleton] at hd hfalse
    exact hd.elim (hfalse disabled) id
  · rename_i hui
    cases h
    refine ⟨hs.outcomes,hs.result,hs.clear,hs.set,fun hset ht he => ?_⟩
    exact (hs.enabled hset ht he).imp (fun hclear => by simp [hui] at hclear) id

section Worker
variable {disabled : Bool} {outcome : Outcome}

theorem Safe.lockMutex {jobs : List Bool} (hs : Safe c) (hc : c.computing = none)
    (hjobs : c.currentJob = disabled::jobs)
    (hui : c.ui = .idle) :
    Safe { c with jobMutex := some .worker, currentJob := jobs, computing := some (.locked disabled) } := by
  have hpending : pending c = disabled::jobs := by simp [pending,hc,hjobs]
  have hno : ¬(c.wasDisabled = true ∧ c.enabled = true) := by
    rintro ⟨hset,he⟩
    rcases hs.enabled hset (by simp [Tested,hc]) he with ⟨hclear,-⟩ | ⟨phase,hp,-⟩
    · simp [hui] at hclear
    · simp [hc] at hp
  have hclear := hs.clear
  have hset := hs.set
  simp only [hpending,Tested,hc] at hclear hset
  refine ⟨hs.outcomes,by simp [Phase.Right],fun hd => ?_,fun hd ht => ?_,fun hd _ he => absurd ⟨hd,he⟩ hno⟩
  · exact hclear (hd.imp id (by simp [Tested,Phase.Tested]))
  · exact hset hd (by simp)

theorem Safe.askSupported (hs : Safe c) (hc : c.computing = some (.locked disabled)) (hui : c.ui = .idle)
    (supported : Bool) :
    Safe { c with computing := some (if supported then .supported disabled else .unsupported disabled) } := by
  have ht : ¬Tested c := by simp [Tested,hc,Phase.Tested]
  have hno : ¬(c.wasDisabled = true ∧ c.enabled = true) := by
    rintro ⟨hset,he⟩
    rcases hs.enabled hset ht he with ⟨hclear,-⟩ | ⟨phase,hp,hp'⟩
    · simp [hui] at hclear
    · simp only [hc,Option.mem_some] at hp
      subst hp
      exact hp'
  have hpending : pending c = disabled::c.currentJob := by simp [pending,hc,Phase.pending]
  have hclear := fun hd => hs.clear (.inl hd)
  have hset := fun hd => hs.set hd ht
  rw [hpending] at hclear hset
  cases supported with
  | false =>
    refine ⟨hs.outcomes,by simp [Phase.Right],fun hd => ?_,fun hd _ => ?_,fun hd _ he => absurd ⟨hd,he⟩ hno⟩
    · have hunset := hd.resolve_right (by simp [Tested,Phase.Tested])
      simpa [pending,Phase.pending] using fun x hx => hclear hunset x (List.mem_cons_of_mem _ hx)
    · refine .inl ?_
      have hone := hset hd
      simp only [reduceCtorEq,List.cons.injEq,false_or] at hone
      simp [pending,Phase.pending,hone.2]
  | true =>
    refine ⟨hs.outcomes,by simp [Phase.Right],fun hd => ?_,fun hd _ => hset hd,fun hd _ he => absurd ⟨hd,he⟩ hno⟩
    exact hclear (hd.resolve_right (by simp [Tested,Phase.Tested]))

theorem Safe.testFlag (hs : Safe c) (hc : c.computing = some (.supported disabled)) : Safe { c with
    wasDisabled := true
    computing := some (if c.wasDisabled then .clear ⟨true,false,disabled⟩ else .display disabled) } := by
  have ht : ¬Tested c := by simp [Tested,hc,Phase.Tested]
  have hpending : pending c = disabled::c.currentJob := by simp [pending,hc,Phase.pending]
  have hclear := fun hd => hs.clear (.inl hd)
  have hset := fun hd => hs.set hd ht
  rw [hpending] at hclear hset
  cases hd : c.wasDisabled with
  | false =>
    have hfalse := hclear hd
    refine ⟨hs.outcomes,?_,fun _ => ?_,fun _ hn => absurd ?_ hn,fun _ hn => absurd ?_ hn⟩
    · simpa [Phase.Right] using hfalse disabled List.mem_cons_self
    · simpa [pending,Phase.pending] using fun x hx => hfalse x (List.mem_cons_of_mem _ hx)
    · simp [Tested,Phase.Tested]
    · simp [Tested,Phase.Tested]
  | true =>
    have hone := hset hd
    simp only [reduceCtorEq,List.cons.injEq,false_or] at hone
    refine ⟨hs.outcomes,?_,fun _ => ?_,fun _ hn => absurd ?_ hn,fun _ hn => absurd ?_ hn⟩
    · simp [Phase.Right,Outcome.Right,hone.1]
    · simp [pending,Phase.pending,hone.2]
    · simp [Tested,Phase.Tested]
    · simp [Tested,Phase.Tested]

theorem Safe.notSupported (hs : Safe c) (hc : c.computing = some (.unsupported disabled)) (hui : c.ui = .idle) :
    Safe { c with computing := some (.unlock ⟨false,false,disabled⟩) } := by
  have ht : ¬Tested c := by simp [Tested,hc,Phase.Tested]
  have hpending : pending c = c.currentJob := by simp [pending,hc,Phase.pending]
  have hclear := hs.clear
  rw [hpending] at hclear
  refine ⟨hs.outcomes,by simp [Phase.Right,Outcome.Right],fun hd => ?_,fun hd _ => ?_,fun hd _ he => ?_⟩
  · have hunset := hd.resolve_right (by simp [Tested,Phase.Tested])
    exact hclear (.inl hunset)
  · exact hpending ▸ hs.set hd ht
  · have hclears := hs.enabled hd ht he
    simp [hui,hc,Phase.Clears,Phase.Tested] at hclears

theorem Safe.displayValues (hs : Safe c) (hc : c.computing = some (.display disabled)) :
    Safe { c with computing := some (.clear ⟨true,true,disabled⟩) } := by
  have ht : Tested c := by simp [Tested,hc,Phase.Tested]
  have hpending : pending c = c.currentJob := by simp [pending,hc,Phase.pending]
  have hclear := hs.clear
  rw [hpending] at hclear
  have hdisabled : disabled = false := hs.result _ hc
  refine ⟨hs.outcomes,by simp [Phase.Right,Outcome.Right,hdisabled],fun _ => ?_,fun _ hn => absurd ?_ hn,
    fun _ hn => absurd ?_ hn⟩
  · exact hclear (.inr ht)
  · simp [Tested,Phase.Tested]
  · simp [Tested,Phase.Tested]

theorem Safe.clearFlag (hs : Safe c) (hc : c.computing = some (.clear outcome)) :
    Safe { c with wasDisabled := false, computing := some (.unlock outcome) } := by
  have ht : Tested c := by simp [Tested,hc,Phase.Tested]
  have hpending : pending c = c.currentJob := by simp [pending,hc,Phase.pending]
  have hclear := hs.clear
  rw [hpending] at hclear
  have hright : outcome.Right := hs.result _ hc
  refine ⟨hs.outcomes,by simpa [Phase.Right] using hright,fun _ => ?_,fun hd => by simp at hd,fun hd => by simp at hd⟩
  exact hclear (.inr ht)

theorem Safe.unlockMutex (hs : Safe c) (hc : c.computing = some (.unlock outcome)) (hui : c.ui = .idle) :
    Safe { c with jobMutex := none, computing := none, outcomes := outcome::c.outcomes } := by
  have ht : ¬Tested c := by simp [Tested,hc,Phase.Tested]
  have hpending : pending c = c.currentJob := by simp [pending,hc,Phase.pending]
  have hclear := hs.clear
  rw [hpending] at hclear
  have hright : outcome.Right := hs.result _ hc
  refine ⟨?_,by simp,fun hd => ?_,fun hd _ => ?_,fun hd _ he => ?_⟩
  · simpa using ⟨hright,hs.outcomes⟩
  · have hunset := hd.resolve_right (by simp [Tested])
    exact hclear (.inl hunset)
  · exact hpending ▸ hs.set hd ht
  · have hclears := hs.enabled hd ht he
    simp [hui,hc,Phase.Clears,Phase.Tested] at hclears

end Worker

theorem Safe.computeValues {supported : Bool} (hi : Inv c) (hs : Safe c)
    (h : computeValues supported c = some d) : Safe d :=
  hi.computeValues_cases h (fun _ _ hc hjobs _ hui => hs.lockMutex hc hjobs hui)
    (fun _ hc hui => hs.askSupported hc hui supported) (fun _ hc => hs.testFlag hc)
    (fun _ hc hui => hs.notSupported hc hui) (fun _ hc _ => hs.displayValues hc) (fun _ hc => hs.clearFlag hc)
    (fun _ hc hui => hs.unlockMutex hc hui)

theorem Safe.step (hi : Inv c) (hs : Safe c) (hok : Allowed c a) (h : step c a = some d) : Safe d := by
  cases a with
  | onEnable =>
    simp only [PipetteHandler.step,Option.ite_none_right_eq_some,Option.some.injEq] at h
    obtain ⟨-,rfl⟩ := h
    exact hs.onEnable hok
  | onDisable =>
    simp only [PipetteHandler.step,Option.ite_none_right_eq_some,Option.some.injEq] at h
    obtain ⟨-,rfl⟩ := h
    exact hs.onDisable hok
  | onSelectionUpdate =>
    simp only [PipetteHandler.step,Option.ite_none_right_eq_some,Option.some.injEq] at h
    obtain ⟨hui,rfl⟩ := h
    unfold onSelectionUpdate
    split
    · exact hs.tryLock hui
    · exact hs
  | onSelectionEnd =>
    simp only [PipetteHandler.step,Option.ite_none_right_eq_some,Option.some.injEq] at h
    obtain ⟨hui,rfl⟩ := h
    unfold onSelectionEnd
    split
    · exact hs.tryLock hui
    · exact hs
  | ui => exact hs.uiStep hi h
  | worker supported => exact hs.computeValues hi h

theorem Action.Continues.allowed (h : a.Continues) : Allowed c a := by
  cases a with
  | ui => exact trivial
  | worker supported => exact trivial
  | _ => exact h.elim

/-! A call that is not allowed leads to a wrong result, or to a flag that stays set. -/

theorem Lasting.of_step (hl : Lasting c) (ha : a.Continues) (h : PipetteHandler.step c a = some d) : Lasting d :=
  Henceforth.of_step hl ha h

theorem Lasting.worker (hl : Lasting c) (supported : Bool) (h : computeValues supported c = some d) : Lasting d :=
  hl.of_step (a := .worker supported) trivial h

section NotLasting
variable {disabled other : Bool} {jobs : List Bool} {outcome : Outcome}

theorem Lasting.not_unset (hl : Lasting c) (hc : c.computing = none) (hfree : c.jobMutex = none) (hui : c.ui = .idle)
    (hunset : c.wasDisabled = false) (hjobs : c.currentJob = true::jobs) : False := by
  have hlocked := hl.worker true (computeValues_lock hc hjobs hfree)
  have hsupported := hlocked.worker true (computeValues_locked rfl hui)
  have htested := hsupported.worker true (computeValues_supported rfl)
  simp only [hunset] at htested
  have hdisplayed := htested.worker true (computeValues_display rfl hui)
  have hcleared := hdisplayed.worker true (computeValues_clear rfl)
  have hunlocked := hcleared.worker true (computeValues_unlock rfl)
  exact absurd (hunlocked.now.outcomes _ List.mem_cons_self) (by decide)

theorem Lasting.not_clear (hl : Lasting c) (hc : c.computing = some (.clear outcome)) (hui : c.ui = .idle)
    (hjobs : c.currentJob = true::jobs) : False := by
  have hcleared := hl.worker true (computeValues_clear hc)
  have hunlocked := hcleared.worker true (computeValues_unlock rfl)
  exact hunlocked.not_unset rfl rfl hui rfl hjobs

theorem Lasting.not_supported (hl : Lasting c) (hc : c.computing = some (.supported disabled)) (hui : c.ui = .idle)
    (hset : c.wasDisabled = true) (hjobs : c.currentJob = true::jobs) : False := by
  have htested := hl.worker true (computeValues_supported hc)
  simp only [hset] at htested
  exact htested.not_clear rfl hui hjobs

theorem Lasting.not_locked (hl : Lasting c) (hc : c.computing = some (.locked disabled)) (hui : c.ui = .idle)
    (hset : c.wasDisabled = true) (hjobs : c.currentJob = true::jobs) : False := by
  have hsupported := hl.worker true (computeValues_locked hc hui)
  exact hsupported.not_supported rfl hui hset hjobs

theorem Lasting.not_two (hl : Lasting c) (hc : c.computing = none) (hfree : c.jobMutex = none) (hui : c.ui = .idle)
    (hset : c.wasDisabled = true) (hjobs : c.currentJob = disabled::true::jobs) : False := by
  have hlocked := hl.worker true (computeValues_lock hc hjobs hfree)
  exact hlocked.not_locked rfl hui hset rfl

theorem Lasting.not_set (hl : Lasting c) (hc : c.computing = none) (hui : c.ui = .idle) (hset : c.wasDisabled = true)
    (he : c.enabled = true) (hjobs : c.currentJob = []) : False := by
  have hunset := hl.now.clear he hui hjobs hc
  simp [hset] at hunset

theorem Lasting.not_unlock (hl : Lasting c) (hc : c.computing = some (.unlock outcome)) (hui : c.ui = .idle)
    (hset : c.wasDisabled = true) (he : c.enabled = true) (hjobs : c.currentJob = []) : False := by
  have hunlocked := hl.worker true (computeValues_unlock hc)
  exact hunlocked.not_set rfl hui hset he hjobs

theorem Lasting.not_unsupported (hl : Lasting c) (hc : c.computing = some (.unsupported disabled)) (hui : c.ui = .idle)
    (hset : c.wasDisabled = true) (he : c.enabled = true) (hjobs : c.currentJob = []) : False := by
  have hunlock := hl.worker true (computeValues_unsupported hc hui)
  exact hunlock.not_unlock rfl hui hset he hjobs

theorem Lasting.not_enabled (hl : Lasting c) (hc : c.computing = some (.locked disabled)) (hui : c.ui = .idle)
    (hset : c.wasDisabled = true) (he : c.enabled = true) (hjobs : c.currentJob = []) : False := by
  have hunsupported := hl.worker false (computeValues_locked hc hui)
  exact hunsupported.not_unsupported rfl hui hset he hjobs

theorem Lasting.not_one (hl : Lasting c) (hc : c.computing = none) (hfree : c.jobMutex = none) (hui : c.ui = .idle)
    (hset : c.wasDisabled = true) (he : c.enabled = true) (hjobs : c.currentJob = [disabled]) : False := by
  have hlocked := hl.worker true (computeValues_lock hc hjobs hfree)
  exact hlocked.not_enabled rfl hui hset he rfl

end NotLasting

theorem Lasting.allowed_onDisable (hi : Inv c) (hui : c.ui = .idle) (hl : Lasting (onDisable c)) :
    Allowed c .onDisable := by
  by_contra hno
  have hlt : 1 < (pending c).length+(if Tested c then 1 else 0) := Nat.lt_of_not_le hno
  have hone : 0 < c.currentJob.length → ∃ jobs, (onDisable c).currentJob = true::jobs := by
    intro hlen
    obtain ⟨job,jobs,hjobs⟩ := List.exists_cons_of_length_pos hlen
    exact ⟨jobs.map fun _ => true,by simp [onDisable,hjobs]⟩
  have htwo : 1 < c.currentJob.length → ∃ jobs, (onDisable c).currentJob = true::true::jobs := by
    intro hlen
    obtain ⟨job,rest,hrest⟩ := List.exists_cons_of_length_pos (show 0 < c.currentJob.length by omega)
    rw [hrest,List.length_cons] at hlen
    obtain ⟨job',jobs,rfl⟩ := List.exists_cons_of_length_pos (show 0 < rest.length by omega)
    exact ⟨jobs.map fun _ => true,by simp [onDisable,hrest]⟩
  cases hc : c.computing with
  | none =>
    have hfree : c.jobMutex = none := by
      cases hm : c.jobMutex with
      | none => rfl
      | some t =>
        cases t with
        | ui => exact absurd hui (hi.ui_iff.mp hm)
        | worker => simpa [hc] using hi.worker_iff.mp hm
    simp only [pending,Tested,hc] at hlt
    obtain ⟨jobs,hjobs⟩ := htwo (by simpa using hlt)
    exact hl.not_two (by simp [onDisable,hc]) hfree hui rfl hjobs
  | some phase =>
    have hafter : (onDisable c).computing = some phase.disable := by simp [onDisable,hc]
    simp only [pending,Tested,hc] at hlt
    cases phase with
    | locked disabled =>
      obtain ⟨jobs,hjobs⟩ := hone (by simpa [Phase.pending,Phase.Tested] using hlt)
      exact hl.not_locked hafter hui rfl hjobs
    | supported disabled =>
      obtain ⟨jobs,hjobs⟩ := hone (by simpa [Phase.pending,Phase.Tested] using hlt)
      exact hl.not_supported hafter hui rfl hjobs
    | unsupported disabled =>
      obtain ⟨jobs,hjobs⟩ := htwo (by simpa [Phase.pending,Phase.Tested] using hlt)
      have hunlock := hl.worker true (computeValues_unsupported hafter hui)
      have hfree := hunlock.worker true (computeValues_unlock rfl)
      exact hfree.not_two rfl rfl hui rfl hjobs
    | display disabled =>
      obtain ⟨jobs,hjobs⟩ := hone (by simpa [Phase.pending,Phase.Tested] using hlt)
      have hclear := hl.worker true (computeValues_display hafter hui)
      exact hclear.not_clear rfl hui hjobs
    | clear outcome =>
      obtain ⟨jobs,hjobs⟩ := hone (by simpa [Phase.pending,Phase.Tested] using hlt)
      exact hl.not_clear hafter hui hjobs
    | unlock outcome =>
      obtain ⟨jobs,hjobs⟩ := htwo (by simpa [Phase.pending,Phase.Tested] using hlt)
      have hfree := hl.worker true (computeValues_unlock hafter)
      exact hfree.not_two rfl rfl hui rfl hjobs

theorem Lasting.allowed_onEnable (hi : Inv c) (hs : Safe c) (hui : c.ui = .idle) (hl : Lasting (onEnable c)) :
    Allowed c .onEnable := by
  intro hset
  split_ifs with hfree
  · have hc := hi.computing_of_free hfree
    have hpending : pending c = c.currentJob := by simp [pending,hc]
    by_contra hne
    have hjobs := (hs.set hset (by simp [Tested,hc])).resolve_left hne
    rw [onEnable,PipetteHandler.tryLock,if_pos hfree] at hl
    have hcleared := hl.of_step (a := .ui) trivial rfl
    have hunlocked := hcleared.of_step (a := .ui) trivial rfl
    exact hunlocked.not_unset hc rfl rfl rfl (hpending ▸ hjobs)
  · by_contra hno
    rw [onEnable,PipetteHandler.tryLock,if_neg hfree] at hl
    cases hc : c.computing with
    | none =>
      cases hm : c.jobMutex with
      | none => exact hfree hm
      | some t =>
        cases t with
        | ui => exact hi.ui_iff.mp hm hui
        | worker => simpa [hc] using hi.worker_iff.mp hm
    | some phase =>
      cases phase with
      | locked disabled =>
        have hjobs := hs.set hset (by simp [Tested,hc,Phase.Tested])
        simp only [pending,hc,Option.map_some,Option.getD_some,Phase.pending,List.singleton_append,reduceCtorEq,
          List.cons.injEq,false_or] at hjobs
        exact hl.not_enabled hc hui hset rfl hjobs.2
      | unsupported disabled =>
        have hjobs := hs.set hset (by simp [Tested,hc,Phase.Tested])
        simp only [pending,hc,Option.map_some,Option.getD_some,Phase.pending,List.nil_append] at hjobs
        rcases hjobs with hjobs | hjobs
        · exact hl.not_unsupported hc hui hset rfl hjobs
        · have hunlock := hl.worker true (computeValues_unsupported hc hui)
          have hunlocked := hunlock.worker true (computeValues_unlock rfl)
          exact hunlocked.not_one rfl rfl hui hset rfl hjobs
      | unlock outcome =>
        have hjobs := hs.set hset (by simp [Tested,hc,Phase.Tested])
        simp only [pending,hc,Option.map_some,Option.getD_some,Phase.pending,List.nil_append] at hjobs
        rcases hjobs with hjobs | hjobs
        · exact hl.not_unlock hc hui hset rfl hjobs
        · have hunlocked := hl.worker true (computeValues_unlock hc)
          exact hunlocked.not_one rfl rfl hui hset rfl hjobs
      | _ => exact hno ⟨_,hc,trivial⟩

theorem Lasting.allowed (hi : Inv c) (hs : Safe c) (h : PipetteHandler.step c a = some d) (hl : Lasting d) :
    Allowed c a := by
  cases a with
  | onEnable =>
    simp only [PipetteHandler.step,Option.ite_none_right_eq_some,Option.some.injEq] at h
    obtain ⟨hui,rfl⟩ := h
    exact hl.allowed_onEnable hi hs hui
  | onDisable =>
    simp only [PipetteHandler.step,Option.ite_none_right_eq_some,Option.some.injEq] at h
    obtain ⟨hui,rfl⟩ := h
    exact hl.allowed_onDisable hi hui
  | _ => exact trivial

/-- In a run whose calls are all allowed, the results that are displayed are the wanted ones, in every state. The
condition is exact: it singles out the runs in which this is so however the computations of each state go on. -/
theorem results_wanted (as : List Action) (c : Config) (h : run step as {} = some c) :
    (Within step Allowed as {} → Always step Exact as {}) ∧
      (Within step Allowed as {} ↔ Always step Lasting as {}) :=
  always_henceforth_iff_within (I := fun c => Inv c ∧ Safe c) (fun _ hc => hc.2.exact) (fun _ _ ha => ha.allowed)
    (fun _ _ _ hc hok hd => ⟨hc.1.step hd,hc.2.step hc.1 hok hd⟩)
    (fun _ _ _ hc hd hl => Lasting.allowed hc.1 hc.2 hd hl)
    ⟨inv_initial,safe_initial⟩ h

/-- The tool is disabled and enabled again while a computation runs. -/
theorem results_wanted_whileRunning :
    let as : List Action := [.onEnable,.ui,.ui,.onSelectionEnd,.ui,.ui,.worker true,.worker true,.onDisable,.onEnable,
      .worker true,.worker true,.worker true]
    Always step Exact as {} :=
  (results_wanted _ ((run step _ {}).get rfl) (Option.some_get _).symm).1 (by decide)

/-- The tool is disabled and enabled again while a computation is queued, whose result is displayed. When this
happens while a presentation turns out not to support the pipette, the flag stays set. -/
theorem result_unwanted :
    (let as : List Action := [.onEnable,.ui,.ui,.onSelectionEnd,.ui,.ui,.onDisable,.onEnable,.ui,.ui,.worker true,
      .worker true,.worker true,.worker true,.worker true,.worker true]
    ¬Always step Exact as {}) ∧
    let as : List Action := [.onEnable,.ui,.ui,.onSelectionEnd,.ui,.ui,.worker false,.worker false,.onDisable,.onEnable,
      .worker false,.worker false]
    ¬Always step Exact as {} := by
  constructor
  · intro as h
    exact absurd ((h.of_run rfl).outcomes _ List.mem_cons_self) (by decide)
  · intro as h
    exact absurd ((h.of_run rfl).clear rfl rfl rfl rfl) (by decide)

end PipetteHandler
end Scroom
