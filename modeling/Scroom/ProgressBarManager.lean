import Mathlib.Tactic
import Scroom.LinkedList
import Scroom.ProgressBroadcaster

/-! Progress bars that pulse while something waits: the list that a timer goes round, and the managers that put
their bars on it and take them off. -/
namespace Scroom
open LinkedList (Iterator)

/-- What may go wrong: an iterator is used that points nowhere, or `defect()` is called. -/
inductive Fault
  | undefined | defect
  deriving DecidableEq

/-- Among the bars `none` is a null pointer. -/
structure ProgressBarPulser (B : Type) where
  progressbars : LinkedList (Option B) := {}
  current : Iterator := .singular

namespace ProgressBarPulser
variable {B : Type} {p q : ProgressBarPulser B} {k : ℕ} {bar : Option B}

/-- Whether a timer is added along with the bar. -/
def start (p : ProgressBarPulser B) (progressBar : Option B) : ProgressBarPulser B × Bool :=
  let progressbars := p.progressbars.pushBack progressBar
  if progressbars.nodes.length = 1 then ({ progressbars, current := progressbars.begin },true)
  else ({ p with progressbars },false)

def stop [DecidableEq B] (p : ProgressBarPulser B) (progressBar : Option B) : ProgressBarPulser B :=
  { p with progressbars := p.progressbars.map fun bar => if bar = progressBar then none else bar }

/-- The node at the current position, to be read, erased or passed. -/
def node (p : ProgressBarPulser B) : Except Fault (ℕ × Option B) :=
  match p.current with
  | .node k =>
    match p.progressbars.find k with
    | some bar => .ok (k,bar)
    | none => .error .undefined
  | _ => .error .undefined

/-- `current == progressbars.end()` -/
def isEnd (p : ProgressBarPulser B) : Except Fault Bool :=
  match p.current with
  | .past => .ok true
  | _ => p.node.map fun _ => false

/-- The condition of the loop in `doWork`. -/
def skips (p : ProgressBarPulser B) : Except Fault Bool := do
  if ← p.isEnd then return true
  else return (← p.node).2.isNone

@[simp] theorem start_progressbars : (p.start bar).1.progressbars = p.progressbars.pushBack bar := by
  rw [start]
  split <;> rfl

@[simp] theorem start_timer : (p.start bar).2 = decide (p.progressbars.nodes = []) := by
  rw [start]
  split <;> simp_all

theorem start_valid (h : p.progressbars.nodes ≠ [] → p.progressbars.Valid p.current) :
    (p.start bar).1.progressbars.Valid (p.start bar).1.current := by
  by_cases hn : p.progressbars.nodes = []
  · have hs : p.start bar = (⟨p.progressbars.pushBack bar,(p.progressbars.pushBack bar).begin⟩,true) := by
      simp [start,hn]
    rw [hs]
    exact LinkedList.valid_begin
  · have hs : p.start bar = ({ p with progressbars := p.progressbars.pushBack bar },false) := by simp [start,hn]
    rw [hs]
    exact (h hn).pushBack

/-- What a turn of the loop leads to: another turn, or the end of `doWork`. If it returns true, the bar is there
that was pulsed. -/
inductive Turn (B : Type)
  | again (p : ProgressBarPulser B)
  | returns (p : ProgressBarPulser B) (pulsed : Option (Option B))

/-- One turn of the loop in `doWork`, or what follows it. -/
def turn (p : ProgressBarPulser B) : Except Fault (Turn B) := do
  if ← p.skips then
    if p.progressbars.nodes.isEmpty then return .returns p none
    else if ← p.isEnd then return .again { p with current := p.progressbars.begin }
    else
      let (k,bar) ← p.node
      if bar.isNone then
        return .again { progressbars := p.progressbars.erase k, current := p.progressbars.next k }
      else throw .defect
  else
    let (k,bar) ← p.node
    return .returns { p with current := p.progressbars.next k } (some bar)

/-- How many turns there may be. -/
def work (p : ProgressBarPulser B) : ℕ := 2*p.progressbars.nodes.length+if p.current = .past then 1 else 0

theorem node_of_find (hk : p.current = .node k) (hf : p.progressbars.find k = some bar) : p.node = .ok (k,bar) := by
  simp [node,hk,hf]

theorem isEnd_of_find (hk : p.current = .node k) (hf : p.progressbars.find k = some bar) : p.isEnd = .ok false := by
  simp [isEnd,hk,node_of_find hk hf,Except.map]

theorem turn_past (h : p.current = .past) : p.turn = .ok (if p.progressbars.nodes.isEmpty then .returns p none
    else .again { p with current := p.progressbars.begin }) := by
  have he : p.isEnd = .ok true := by simp [isEnd,h]
  cases hb : p.progressbars.nodes.isEmpty <;> simp [turn,skips,he,hb,bind,Except.bind,pure,Except.pure]

theorem turn_null (hk : p.current = .node k) (hf : p.progressbars.find k = some none) :
    p.turn = .ok (.again { progressbars := p.progressbars.erase k, current := p.progressbars.next k }) := by
  have hb : p.progressbars.nodes.isEmpty = false := by
    rw [List.isEmpty_eq_false_iff]
    exact List.ne_nil_of_mem (LinkedList.find_eq_some_iff.mp hf)
  simp [turn,skips,isEnd_of_find hk hf,node_of_find hk hf,hb,bind,Except.bind,pure,Except.pure]

theorem turn_bar {b : B} (hk : p.current = .node k) (hf : p.progressbars.find k = some (some b)) :
    p.turn = .ok (.returns { p with current := p.progressbars.next k } (some (some b))) := by
  simp [turn,skips,isEnd_of_find hk hf,node_of_find hk hf,bind,Except.bind,pure,Except.pure]

theorem turn_invalid (h : ¬ p.progressbars.Valid p.current) : p.turn = .error .undefined := by
  have hn : p.node = .error .undefined := by
    cases hc : p.current with
    | singular => simp [node,hc]
    | past => simp [node,hc]
    | node k =>
      cases hf : p.progressbars.find k with
      | none => simp [node,hc,hf]
      | some bar => exact absurd (hc ▸ LinkedList.valid_iff_find.mpr ⟨bar,hf⟩) h
  have he : p.isEnd = .error .undefined := by
    cases hc : p.current with
    | past => exact absurd (hc ▸ trivial) h
    | _ => simp [isEnd,hc,hn,Except.map]
  simp [turn,skips,he,bind,Except.bind]

theorem valid_cases (h : p.progressbars.Valid p.current) :
    p.current = .past ∨ ∃ k bar, p.current = .node k ∧ p.progressbars.find k = some bar := by
  cases hc : p.current with
  | singular =>
    rw [hc] at h
    exact h.elim
  | past => exact .inl rfl
  | node k =>
    obtain ⟨bar,hf⟩ := LinkedList.valid_iff_find.mp (hc ▸ h)
    exact .inr ⟨k,bar,rfl,hf⟩

theorem work_lt (h : p.turn = .ok (.again q)) : q.work < p.work := by
  by_cases hv : p.progressbars.Valid p.current
  · obtain hc | ⟨k,bar,hc,hf⟩ := valid_cases hv
    · rw [turn_past hc] at h
      split_ifs at h with hb
      · cases h
      · obtain rfl := Turn.again.inj (Except.ok.inj h)
        have hne := LinkedList.begin_ne_past (List.isEmpty_eq_false_iff.mp (eq_false_of_ne_true hb))
        simp [work,hc,hne]
    · cases bar with
      | none =>
        rw [turn_null hc hf] at h
        obtain rfl := Turn.again.inj (Except.ok.inj h)
        have hlen := LinkedList.length_erase (LinkedList.valid_iff_find.mpr ⟨none,hf⟩)
        simp only [work]
        split_ifs <;> omega
      | some b =>
        rw [turn_bar hc hf] at h
        cases h
  · rw [turn_invalid hv] at h
    cases h

/-- The loop ends, as every turn leaves less work. -/
def doWork (p : ProgressBarPulser B) : Except Fault (ProgressBarPulser B × Option (Option B)) :=
  match _h : p.turn with
  | .error fault => .error fault
  | .ok (.again q) => doWork q
  | .ok (.returns q pulsed) => .ok (q,pulsed)
termination_by p.work
decreasing_by exact work_lt _h

theorem doWork_again (h : p.turn = .ok (.again q)) : p.doWork = q.doWork := by
  rw [doWork]
  split <;> simp_all

theorem doWork_returns {pulsed : Option (Option B)} (h : p.turn = .ok (.returns q pulsed)) :
    p.doWork = .ok (q,pulsed) := by
  rw [doWork]
  split <;> simp_all

/-- What `doWork` does from a good position: it pulses a bar that is on the list, or there is none. -/
structure Sweeps (p q : ProgressBarPulser B) (pulsed : Option (Option B)) : Prop where
  doWork : p.doWork = .ok (q,pulsed)
  mem_iff : ∀ b, some b ∈ q.progressbars.values ↔ some b ∈ p.progressbars.values
  pulses : q.progressbars.nodes = [] ∧ pulsed = none ∨
    q.progressbars.nodes ≠ [] ∧ ∃ b, some b ∈ p.progressbars.values ∧ pulsed = some (some b)
  valid : q.progressbars.Valid q.current

theorem Sweeps.of_again {q r : ProgressBarPulser B} {pulsed : Option (Option B)} (ht : p.turn = .ok (.again q))
    (hmem : ∀ b, some b ∈ q.progressbars.values ↔ some b ∈ p.progressbars.values) (h : Sweeps q r pulsed) :
    Sweeps p r pulsed where
  doWork := (doWork_again ht).trans h.doWork
  mem_iff := fun b => (h.mem_iff b).trans (hmem b)
  pulses := h.pulses.imp id fun ⟨hne,b,hb,he⟩ => ⟨hne,b,(hmem b).mp hb,he⟩
  valid := h.valid

theorem exists_sweeps (p : ProgressBarPulser B) (hv : p.progressbars.Valid p.current) :
    ∃ q pulsed, Sweeps p q pulsed := by
  induction hn : p.work using Nat.strong_induction_on generalizing p with
  | h n ih =>
    subst hn
    have again : ∀ q, p.turn = .ok (.again q) → q.progressbars.Valid q.current →
        (∀ b, some b ∈ q.progressbars.values ↔ some b ∈ p.progressbars.values) → ∃ r pulsed, Sweeps p r pulsed := by
      intro q ht hq hmem
      obtain ⟨r,pulsed,h⟩ := ih q.work (work_lt ht) q hq rfl
      exact ⟨r,pulsed,h.of_again ht hmem⟩
    obtain hc | ⟨k,bar,hc,hf⟩ := valid_cases hv
    · have ht := turn_past hc
      split_ifs at ht with hb
      · have hnil := List.isEmpty_iff.mp hb
        exact ⟨p,none,doWork_returns ht,fun b => Iff.rfl,.inl ⟨hnil,rfl⟩,hv⟩
      · exact again _ ht LinkedList.valid_begin fun b => Iff.rfl
    · have hmem := LinkedList.find_eq_some_iff.mp hf
      have hnode := LinkedList.valid_iff_find.mpr ⟨bar,hf⟩
      cases bar with
      | none =>
        refine again _ (turn_null hc hf) (LinkedList.valid_erase_next hnode) fun b => ?_
        have hperm := LinkedList.values_perm_erase hf
        simp [hperm.mem_iff]
      | some b =>
        exact ⟨_,_,doWork_returns (turn_bar hc hf),fun b => Iff.rfl,
          .inr ⟨List.ne_nil_of_mem hmem,b,LinkedList.mem_values.mpr ⟨k,hmem⟩,rfl⟩,LinkedList.valid_next hnode⟩

end ProgressBarPulser

structure ProgressBarManager (B : Type) where
  progressBar : Option B
  isWaiting : Bool := false

namespace ProgressBarManager
open Transitions
variable {M B P : Type}

/-- A call on the pulser -/
inductive Call (B : Type)
  | start (bar : Option B)
  | stop (bar : Option B)

/-- The bar is started, and not stopped since; the latest call is the first. -/
def Waiting (b : B) : List (Call B) → Prop
  | [] => False
  | .start bar::calls => bar = some b ∨ Waiting b calls
  | .stop bar::calls => bar ≠ some b ∧ Waiting b calls

/-- What the managers share: the pulser, how many timers are installed for it, and the bars. The other fields
record what has happened: the bars that were pulsed, the fractions that were set and the calls on the pulser,
each with the latest first, and what went wrong. -/
structure Shared (B P : Type) where
  pulser : ProgressBarPulser B := {}
  timers : ℕ := 0
  pulsed : List (Option B) := []
  fractions : List (Option B × P) := []
  calls : List (Call B) := []
  fault : Option Fault := none

namespace Shared

def start (s : Shared B P) (progressBar : Option B) : Shared B P :=
  let (pulser,timer) := s.pulser.start progressBar
  { s with pulser, timers := if timer then s.timers+1 else s.timers, calls := .start progressBar::s.calls }

def stop [DecidableEq B] (s : Shared B P) (progressBar : Option B) : Shared B P :=
  { s with pulser := s.pulser.stop progressBar, calls := .stop progressBar::s.calls }

/-- A timer calls `on_idle`, and is removed if that returns false. -/
def tick (s : Shared B P) : Shared B P :=
  match s.pulser.doWork with
  | .error fault => { s with fault := some fault }
  | .ok (pulser,some bar) => { s with pulser, pulsed := bar::s.pulsed }
  | .ok (pulser,none) => { s with pulser, timers := s.timers-1 }

/-- There is one timer while there are bars on the list, and a position to go on from; nothing went wrong. -/
structure Kept (s : Shared B P) : Prop where
  timers : s.timers = if s.pulser.progressbars.nodes = [] then 0 else 1
  current : s.pulser.progressbars.nodes ≠ [] → s.pulser.progressbars.Valid s.pulser.current
  fault : s.fault = none

structure Inv (s : Shared B P) : Prop extends Kept s where
  mem_iff : ∀ b, some b ∈ s.pulser.progressbars.values ↔ Waiting b s.calls

/-- A tick pulses one bar that waits, or there is none and the list and the timer go. -/
structure Ticks (s t : Shared B P) : Prop where
  returns : ∃ result, s.pulser.doWork = .ok result
  pulses : (∃ b, Waiting b s.calls ∧ t.pulsed = some b::s.pulsed ∧ t.timers = s.timers) ∨
    (∀ b, ¬ Waiting b s.calls) ∧ t.pulsed = s.pulsed ∧ t.pulser.progressbars.nodes = [] ∧ t.timers = 0

variable {s t : Shared B P} {bar : Option B}

theorem inv_initial : Inv ({} : Shared B P) where
  timers := rfl
  current := by simp
  fault := rfl
  mem_iff := by simp [Waiting,LinkedList.values]

theorem Inv.with_fractions (h : Inv s) (fractions : List (Option B × P)) : Inv { s with fractions } :=
  ⟨⟨h.timers,h.current,h.fault⟩,h.mem_iff⟩

theorem Inv.start (h : Inv s) (bar : Option B) : Inv (s.start bar) where
  timers := by
    have ht := h.timers
    by_cases hn : s.pulser.progressbars.nodes = []
    · rw [if_pos hn] at ht
      simp [Shared.start,hn,ht]
    · rw [if_neg hn] at ht
      simp [Shared.start,hn,ht]
  current := by
    intro _
    exact ProgressBarPulser.start_valid h.current
  fault := h.fault
  mem_iff := by
    intro b
    simp only [Shared.start,ProgressBarPulser.start_progressbars,LinkedList.values_pushBack,List.mem_append,
      List.mem_singleton,h.mem_iff,Waiting]
    rw [eq_comm,or_comm]

theorem Inv.stop [DecidableEq B] (h : Inv s) (bar : Option B) : Inv (s.stop bar) where
  timers := by simpa [Shared.stop,ProgressBarPulser.stop] using h.timers
  current := by
    simp only [Shared.stop,ProgressBarPulser.stop,ne_eq,LinkedList.nodes_map_eq_nil]
    exact fun hn => (h.current hn).map
  fault := h.fault
  mem_iff := by
    intro b
    simp only [Shared.stop,ProgressBarPulser.stop,LinkedList.values_map,Waiting,← h.mem_iff b,List.mem_map]
    constructor
    · rintro ⟨x,hx,he⟩
      split_ifs at he with hb
      exact ⟨fun hbar => hb (he.trans hbar.symm),he ▸ hx⟩
    · rintro ⟨hb,hx⟩
      exact ⟨some b,hx,if_neg fun he => hb he.symm⟩

theorem Inv.tick (h : Inv s) (ht : 0 < s.timers) : Inv s.tick ∧ Ticks s s.tick := by
  have hn : s.pulser.progressbars.nodes ≠ [] := by
    intro hn
    have hz := h.timers
    rw [if_pos hn] at hz
    omega
  have hone : s.timers = 1 := by simpa [hn] using h.timers
  obtain ⟨q,pulsed,hq⟩ := ProgressBarPulser.exists_sweeps s.pulser (h.current hn)
  have hmem : ∀ b, some b ∈ q.progressbars.values ↔ Waiting b s.calls := fun b => (hq.mem_iff b).trans (h.mem_iff b)
  obtain ⟨hnil,rfl⟩ | ⟨hne,b,hb,rfl⟩ := hq.pulses
  · have htick : s.tick = { s with pulser := q, timers := 0 } := by simp [Shared.tick,hq.doWork,hone]
    rw [htick]
    refine ⟨⟨⟨?_,fun _ => hq.valid,h.fault⟩,hmem⟩,⟨_,hq.doWork⟩,.inr ⟨fun b hw => ?_,rfl,hnil,rfl⟩⟩
    · exact (if_pos hnil).symm
    · have hb := (hmem b).mpr hw
      simp [LinkedList.values,hnil] at hb
  · have htick : s.tick = { s with pulser := q, pulsed := some b::s.pulsed } := by simp [Shared.tick,hq.doWork]
    rw [htick]
    refine ⟨⟨⟨?_,fun _ => hq.valid,h.fault⟩,hmem⟩,⟨_,hq.doWork⟩,.inl ⟨b,(h.mem_iff b).mp hb,rfl,rfl⟩⟩
    exact hone.trans (if_neg hne).symm

/-- What a step may do to what the managers share. -/
inductive Moves [DecidableEq B] (s : Shared B P) : Shared B P → Prop
  | fractions (fractions : List (Option B × P)) : Moves s { s with fractions }
  | start (bar : Option B) : Moves s (s.start bar)
  | stop (bar : Option B) (fractions : List (Option B × P)) : Moves s { s.stop bar with fractions }
  | tick (ht : 0 < s.timers) : Moves s s.tick

theorem Inv.moves [DecidableEq B] (h : Inv s) (hm : Moves s t) : Inv t := by
  cases hm with
  | fractions fractions => exact h.with_fractions fractions
  | start bar => exact h.start bar
  | stop bar fractions => exact (h.stop bar).with_fractions fractions
  | tick ht => exact (h.tick ht).1

end Shared

variable [DecidableEq B] [Zero P]

def startWaiting (m : ProgressBarManager B) (s : Shared B P) : ProgressBarManager B × Shared B P :=
  if m.isWaiting then (m,s) else ({ m with isWaiting := true },s.start m.progressBar)

def stopWaiting (m : ProgressBarManager B) (s : Shared B P) : ProgressBarManager B × Shared B P :=
  if m.isWaiting then ({ m with isWaiting := false },s.stop m.progressBar) else (m,s)

def setProgressBar (progressBar : Option B) (m : ProgressBarManager B) (s : Shared B P) :
    ProgressBarManager B × Shared B P :=
  let (m,s) := m.stopWaiting s
  ({ m with progressBar },s)

def setWorking (progress : P) (m : ProgressBarManager B) (s : Shared B P) : ProgressBarManager B × Shared B P :=
  let (m,s) := m.stopWaiting s
  (m,{ s with fractions := (m.progressBar,progress)::s.fractions })

def setIdle (m : ProgressBarManager B) (s : Shared B P) : ProgressBarManager B × Shared B P := m.setWorking 0 s

def setFinished (m : ProgressBarManager B) (s : Shared B P) : ProgressBarManager B × Shared B P := m.setIdle s

/-- What the managers are called for. -/
def receive : ProgressInterface P → ProgressBarManager B → Shared B P → ProgressBarManager B × Shared B P
  | .setIdle => setIdle
  | .setWaiting _ => startWaiting
  | .setWorking progress => setWorking progress
  | .setFinished => setFinished

structure Config (M B P : Type) where
  managers : M → Option (ProgressBarManager B) := fun _ => none
  shared : Shared B P := {}

inductive Action (M B P : Type)
  | create (m : M) (progressBar : Option B)
  | setProgressBar (m : M) (progressBar : Option B)
  | call (m : M) (call : ProgressInterface P)
  | destroy (m : M)
  | tick

variable [DecidableEq M]

/-- A manager that is there handles a call. -/
def handle (s : Config M B P) (m : M)
    (f : ProgressBarManager B → Shared B P → ProgressBarManager B × Shared B P) : Option (Config M B P) :=
  (s.managers m).map fun manager =>
    let (manager,shared) := f manager s.shared
    { managers := Function.update s.managers m (some manager), shared }

def step (s : Config M B P) : Action M B P → Option (Config M B P)
  | .create m progressBar =>
    if (s.managers m).isNone then
      some { s with managers := Function.update s.managers m (some { progressBar }) }
    else none
  | .setProgressBar m progressBar => handle s m (setProgressBar progressBar)
  | .call m call => handle s m (receive call)
  | .destroy m => (s.managers m).map fun manager =>
    { managers := Function.update s.managers m none, shared := (manager.stopWaiting s.shared).2 }
  | .tick => if 0 < s.shared.timers then some { s with shared := s.shared.tick } else none

variable {s t : Config M B P} {a : Action M B P}

omit [Zero P] [DecidableEq M] in
theorem startWaiting_moves (m : ProgressBarManager B) (s : Shared B P) : s.Moves (m.startWaiting s).2 := by
  rw [startWaiting]
  split
  · exact .fractions s.fractions
  · exact .start m.progressBar

omit [Zero P] [DecidableEq M] in
theorem stopWaiting_moves (m : ProgressBarManager B) (s : Shared B P) : s.Moves (m.stopWaiting s).2 := by
  rw [stopWaiting]
  split
  · exact .stop m.progressBar s.fractions
  · exact .fractions s.fractions

omit [Zero P] [DecidableEq M] in
theorem setWorking_moves (progress : P) (m : ProgressBarManager B) (s : Shared B P) :
    s.Moves (m.setWorking progress s).2 := by
  simp only [setWorking,stopWaiting]
  split
  · exact .stop m.progressBar _
  · exact .fractions _

omit [DecidableEq M] in
theorem receive_moves (call : ProgressInterface P) (m : ProgressBarManager B) (s : Shared B P) :
    s.Moves (receive call m s).2 := by
  cases call with
  | setIdle => exact setWorking_moves 0 m s
  | setWaiting progress => exact startWaiting_moves m s
  | setWorking progress => exact setWorking_moves progress m s
  | setFinished => exact setWorking_moves 0 m s

/-- Whatever a manager is called for, the others see one move. -/
theorem step_moves (h : step s a = some t) : s.shared.Moves t.shared := by
  cases a with
  | create m progressBar =>
    simp only [step,Option.ite_none_right_eq_some,Option.some.injEq] at h
    exact h.2 ▸ .fractions s.shared.fractions
  | setProgressBar m progressBar =>
    obtain ⟨manager,-,rfl⟩ := Option.map_eq_some_iff.mp h
    exact stopWaiting_moves manager s.shared
  | call m call =>
    obtain ⟨manager,-,rfl⟩ := Option.map_eq_some_iff.mp h
    exact receive_moves call manager s.shared
  | destroy m =>
    obtain ⟨manager,-,rfl⟩ := Option.map_eq_some_iff.mp h
    exact stopWaiting_moves manager s.shared
  | tick =>
    simp only [step,Option.ite_none_right_eq_some,Option.some.injEq] at h
    exact h.2 ▸ .tick h.1

theorem inv_of_run {actions : List (Action M B P)} (h : run step actions {} = some t) : t.shared.Inv := by
  have hstep : ∀ (s : Config M B P) (a : Action M B P) (t : Config M B P), s.shared.Inv → step s a = some t →
      t.shared.Inv := fun s a t hi hs => hi.moves (step_moves hs)
  exact run_invariant hstep Shared.inv_initial h

/-- After every run of calls and ticks: there is one timer if and only if there are bars on the list, the next tick
finds a position to go on from, and it pulses one bar that waits, or empties the list and goes. -/
theorem timer_kept (actions : List (Action M B P)) (t : Config M B P) (h : run step actions {} = some t) :
    t.shared.Kept ∧ ∀ u, step t .tick = some u → t.shared.Ticks u.shared := by
  have hi := inv_of_run h
  refine ⟨hi.toKept,fun u hu => ?_⟩
  simp only [step,Option.ite_none_right_eq_some,Option.some.injEq] at hu
  obtain ⟨ht,rfl⟩ := hu
  exact (hi.tick ht).2

theorem timer_kept_twoBars : ∃ t : Config ℕ ℕ ℚ,
    run step [.create 0 (some 7),.create 1 (some 8),.call 0 (.setWaiting 0),.call 1 (.setWaiting 0),.tick,
      .call 0 .setIdle] {} = some t ∧
    t.shared.Kept ∧ ∀ u, step t .tick = some u → t.shared.Ticks u.shared := by
  obtain ⟨t,ht⟩ : ∃ t : Config ℕ ℕ ℚ, run step [.create 0 (some 7),.create 1 (some 8),.call 0 (.setWaiting 0),
    .call 1 (.setWaiting 0),.tick,.call 0 .setIdle] {} = some t := ⟨_,rfl⟩
  exact ⟨t,ht,timer_kept _ t ht⟩

end ProgressBarManager
end Scroom
