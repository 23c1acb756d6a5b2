import Mathlib.Data.Rat.Init
import Mathlib.Algebra.Order.BigOperators.Group.List
import Mathlib.Order.Bounds.Basic
import Scroom.ProgressBroadcaster

/-! The multiplexer that reports to one parent how far along its children are together. Doubles are those of Lean,
which round as the ones of the source do. -/
namespace Scroom

/-- The order in which the states count for the parent. -/
def State.rank : State → ℕ
  | .idle => 0
  | .finished => 1
  | .waiting => 2
  | .working => 3

theorem State.rank_injective : Function.Injective State.rank := by
  intro s t h
  cases s <;> cases t <;> first | rfl | cases h

instance : LinearOrder State := LinearOrder.lift' State.rank State.rank_injective

namespace ProgressInterfaceMultiplexer
open Transitions

/-- What the source does with doubles -/
class Arithmetic (P : Type) extends Zero P, One P, Add P, Div P, NatCast P

scoped instance : Arithmetic Float where
  natCast := Float.ofNat

/-- Doubles without rounding -/
scoped instance : Arithmetic ℚ where

variable {P : Type} [Arithmetic P]

structure ChildData (P : Type) [Arithmetic P] where
  state : State := .idle
  progress : P := 0
  deriving DecidableEq

/-- `ChildData::setProgress`, called through `ProgressInterfaceFromProgressStateInterface` -/
def ChildData.ofCall (call : ProgressInterface P) : ChildData P := ⟨call.toState.1,call.toState.2⟩

def ChildData.clearFinished (child : ChildData P) : ChildData P := if child.state = .finished then {} else child

/-- The `ChildData` objects, the set of those that count in the order in which it is iterated, and the
`Child` objects that exist, each with the number of its data. The last fields record what the parent was
told, the latest first, and the last call of each child. -/
structure Config (P : Type) [Arithmetic P] where
  data : ℕ → ChildData P := fun _ => {}
  created : ℕ := 0
  children : List ℕ := []
  interfaces : List ℕ := []
  told : List (ProgressInterface (Option P)) := []
  last : ℕ → ProgressInterface P := fun _ => .setIdle

def addChild : State × P × ℕ → ChildData P → State × P × ℕ
  | (state,progress,workers), child =>
    match child.state with
    | .idle => (state,progress,workers)
    | .waiting =>
      (if state = .idle ∨ state = .finished then .waiting else state,progress+child.progress,workers+1)
    | .working => (if state ≠ .working then .working else state,progress+child.progress,workers+1)
    | .finished => (if state = .idle then .finished else state,progress+1,workers+1)

/-- The quotient of floating point numbers, which is no number if there are no workers. -/
def divide (progress : P) (workers : ℕ) : Option P := if workers = 0 then none else some (progress/workers)

def clear (data : ℕ → ChildData P) (i : ℕ) : ℕ → ChildData P := Function.update data i (data i).clearFinished

def updateProgressState (c : Config P) : Config P :=
  let (state,progress,workers) := (c.children.map c.data).foldl addChild (.idle,0,0)
  { c with
    told := setProgress state (divide progress workers)::c.told
    data := if state = .finished then c.children.foldl clear c.data else c.data }

/-- The set is ordered by address, which may be anywhere among those of the other children. -/
def createProgressInterface (c : Config P) (position : ℕ) : Config P :=
  { c with
    data := Function.update c.data c.created {}
    created := c.created+1
    children := c.children.take position ++ c.created::c.children.drop position
    interfaces := c.created::c.interfaces
    last := Function.update c.last c.created .setIdle }

/-- `Child::setProgress` -/
def update (c : Config P) (i : ℕ) (call : ProgressInterface P) : Config P :=
  updateProgressState
    { c with data := Function.update c.data i (.ofCall call), last := Function.update c.last i call }

def unsubscribe (c : Config P) (i : ℕ) : Config P := { c with children := c.children.erase i }

/-- `~Child` -/
def destroy (c : Config P) (i : ℕ) : Config P :=
  updateProgressState (unsubscribe { c with interfaces := c.interfaces.erase i } i)

inductive Action (P : Type)
  | create (position : ℕ)
  | update (i : ℕ) (call : ProgressInterface P)
  | destroy (i : ℕ)

def step (c : Config P) : Action P → Option (Config P)
  | .create position => some (createProgressInterface c position)
  | .update i call => if i ∈ c.interfaces then some (update c i call) else none
  | .destroy i => if i ∈ c.interfaces then some (destroy c i) else none

/-! ### What the parent is told -/

def ChildData.share (child : ChildData P) : P := if child.state = .finished then 1 else child.progress

def counting (l : List (ChildData P)) : List (ChildData P) := l.filter (·.state ≠ .idle)

/-- Adding up in the order of the list, then dividing -/
def quotient (l : List (ChildData P)) : P :=
  ((counting l).map ChildData.share).foldl (·+·) 0/((counting l).length : P)

def mean (l : List (ChildData ℚ)) : ℚ := ((counting l).map ChildData.share).sum/(counting l).length

/-- The highest state among the children, which is idle if there are none. -/
def Highest (l : List (ChildData P)) (state : State) : Prop :=
  IsGreatest (insert State.idle {s | ∃ child ∈ l, child.state = s}) state

/-- The live children after an action, before any of them is reset. -/
def reporting (c : Config P) : Action P → List (ChildData P)
  | .create _ => c.interfaces.map c.data
  | .update i call => c.interfaces.map (Function.update c.data i (.ofCall call))
  | .destroy i => (c.interfaces.erase i).map c.data

/-- The parent is told the highest state and the quotient in some order of the children. -/
def Tells (c : Config P) (a : Action P) (d : Config P) : Prop :=
  match a with
  | .create _ => d.told = c.told
  | _ => ∃ state, Highest (reporting c a) state ∧ ∃ l, l.Perm (reporting c a) ∧
      d.told = setProgress state (some (quotient l))::c.told

def TellsMean (c : Config ℚ) (a : Action ℚ) (d : Config ℚ) : Prop :=
  match a with
  | .create _ => d.told = c.told
  | _ => ∃ state, Highest (reporting c a) state ∧ d.told = setProgress state (some (mean (reporting c a)))::c.told

theorem addChild_eq (acc : State × P × ℕ) (child : ChildData P) :
    addChild acc child = (max acc.1 child.state,
      if child.state = .idle then acc.2 else (acc.2.1+child.share,acc.2.2+1)) := by
  obtain ⟨state,progress,workers⟩ := acc
  obtain ⟨s,p⟩ := child
  cases s <;> cases state <;> rfl

theorem foldl_addChild (l : List (ChildData P)) (s : State) (p : P) (n : ℕ) :
    l.foldl addChild (s,p,n) = (l.foldl (fun s child => max s child.state) s,
      ((counting l).map ChildData.share).foldl (·+·) p,n+(counting l).length) := by
  induction l generalizing s p n with
  | nil => simp [counting]
  | cons child l ih =>
    rw [List.foldl_cons,addChild_eq]
    by_cases hidle : child.state = .idle
    · simp only [if_pos hidle,ih]
      simp [counting,hidle]
    · simp only [if_neg hidle,ih]
      simp [counting,hidle,add_assoc,add_comm]

theorem isGreatest_foldl_max (l : List (ChildData P)) (s : State) :
    IsGreatest (insert s {t | ∃ child ∈ l, child.state = t})
      (l.foldl (fun s child => max s child.state) s) := by
  induction l generalizing s with
  | nil => simp
  | cons child l ih =>
    obtain ⟨hm,hub⟩ := ih (max s child.state)
    rw [List.foldl_cons]
    constructor
    · rcases hm with he | ⟨x,hx,he⟩
      · rw [he]
        rcases max_choice s child.state with hmax | hmax
        · exact .inl hmax
        · exact .inr ⟨child,List.mem_cons_self,hmax.symm⟩
      · exact .inr ⟨x,List.mem_cons_of_mem _ hx,he⟩
    · have hmax := hub (Set.mem_insert _ _)
      rintro t (rfl | ⟨x,hx,rfl⟩)
      · exact (le_max_left _ _).trans hmax
      · rcases List.mem_cons.mp hx with rfl | hx
        · exact (le_max_right _ _).trans hmax
        · exact hub (.inr ⟨x,hx,rfl⟩)

theorem setProgress_divide {l : List (ChildData P)} {state : State} (h : Highest l state) :
    setProgress state (divide (((counting l).map ChildData.share).foldl (·+·) 0) (counting l).length) =
      setProgress state (some (quotient l)) := by
  by_cases hidle : state = .idle
  · subst hidle
    rfl
  · obtain ⟨child,hm,he⟩ := h.1.resolve_left hidle
    have hmem : child ∈ counting l := List.mem_filter.mpr ⟨hm,by simpa [he] using hidle⟩
    have hne : (counting l).length ≠ 0 := (List.length_pos_of_mem hmem).ne'
    rw [divide,if_neg hne,quotient]

theorem Highest.perm {l l' : List (ChildData P)} {state : State} (h : Highest l state) (hp : l.Perm l') :
    Highest l' state := by
  simpa only [Highest,hp.mem_iff] using h

variable {c d : Config P} {a : Action P} {i : ℕ}

theorem foldl_clear (l : List ℕ) (data : ℕ → ChildData P) :
    l.foldl clear data = fun i => if i ∈ l then (data i).clearFinished else data i := by
  induction l generalizing data with
  | nil => simp
  | cons j l ih =>
    rw [List.foldl_cons,ih]
    funext i
    by_cases he : i = j
    · subst he
      simp only [clear,Function.update_self,List.mem_cons_self,if_true,ite_eq_right_iff]
      intro _
      unfold ChildData.clearFinished
      split_ifs <;> simp_all
    · simp [clear,he]

/-- What holds between any two calls. -/
structure Inv (c : Config P) : Prop where
  perm : c.children.Perm c.interfaces
  own : ∀ i, c.data i = .ofCall (c.last i) ∨ c.data i = {} ∧ c.last i = .setFinished
  reset : c.told.head? = some .setFinished → ∀ i ∈ c.interfaces, c.data i = {}
  defined : ∀ call ∈ c.told, call ≠ .setWaiting none ∧ call ≠ .setWorking none

theorem inv_initial : Inv ({} : Config P) where
  perm := .nil
  own := fun _ => .inl rfl
  reset := by simp
  defined := by simp

theorem clearFinished_eq (call : ProgressInterface P) (h : (ChildData.ofCall call).state ≤ .finished) :
    (ChildData.ofCall call).clearFinished = {} := by
  cases call with
  | setIdle => rfl
  | setWaiting progress => exact absurd h (by decide : ¬State.waiting ≤ State.finished)
  | setWorking progress => exact absurd h (by decide : ¬State.working ≤ State.finished)
  | setFinished => rfl

theorem own_clearFinished {child : ChildData P} {call : ProgressInterface P}
    (h : child = .ofCall call ∨ child = {} ∧ call = .setFinished) :
    child.clearFinished = .ofCall call ∨ child.clearFinished = {} ∧ call = .setFinished := by
  rcases h with rfl | ⟨rfl,rfl⟩
  · cases call with
    | setFinished => exact .inr ⟨rfl,rfl⟩
    | _ => exact .inl rfl
  · exact .inr ⟨rfl,rfl⟩

theorem exists_updateProgressState (hperm : c.children.Perm c.interfaces) :
    ∃ state, Highest (c.interfaces.map c.data) state ∧
      (updateProgressState c).told = setProgress state (some (quotient (c.children.map c.data)))::c.told ∧
      (updateProgressState c).data =
        if state = .finished then fun i => if i ∈ c.interfaces then (c.data i).clearFinished else c.data i
        else c.data := by
  have hh : Highest _ _ := isGreatest_foldl_max (c.children.map c.data) .idle
  refine ⟨_,hh.perm (hperm.map c.data),?_⟩
  simp only [updateProgressState,foldl_addChild,zero_add,setProgress_divide hh,foldl_clear,hperm.mem_iff,true_and]

theorem inv_updateProgressState (hperm : c.children.Perm c.interfaces)
    (hown : ∀ i, c.data i = .ofCall (c.last i) ∨ c.data i = {} ∧ c.last i = .setFinished)
    (hdefined : ∀ call ∈ c.told, call ≠ .setWaiting none ∧ call ≠ .setWorking none) :
    Inv (updateProgressState c) := by
  obtain ⟨state,hh,htold,hdata⟩ := exists_updateProgressState hperm
  refine ⟨hperm,fun i => ?_,fun hhead i hm => ?_,fun call hm => ?_⟩
  · rw [hdata]
    split_ifs with hf
    · dsimp only
      split_ifs with hm
      · exact own_clearFinished (hown i)
      · exact hown i
    · exact hown i
  · have hf : state = .finished := by
      rw [htold,List.head?_cons,Option.some.injEq] at hhead
      cases state <;> first | rfl | cases hhead
    subst hf
    have hm : i ∈ c.interfaces := hm
    have hle : (c.data i).state ≤ .finished := hh.2 (.inr ⟨_,List.mem_map_of_mem hm,rfl⟩)
    simp only [hdata,if_true,hm]
    rcases hown i with he | ⟨he,-⟩
    · rw [he] at hle ⊢
      exact clearFinished_eq _ hle
    · rw [he]
      rfl
  · rw [htold] at hm
    rcases List.mem_cons.mp hm with rfl | hm
    · cases state <;> simp [setProgress]
    · exact hdefined call hm

theorem Inv.create (hi : Inv c) (position : ℕ) : Inv (createProgressInterface c position) where
  perm := by
    have hp : (c.children.take position ++ c.created::c.children.drop position).Perm (c.created::c.children) := by
      conv_rhs => rw [← List.take_append_drop position c.children]
      exact List.perm_middle
    exact hp.trans (hi.perm.cons _)
  own := fun i => by
    by_cases he : i = c.created
    · subst he
      exact .inl (by simp [createProgressInterface,ChildData.ofCall,ProgressInterface.toState])
    · simpa [createProgressInterface,he] using hi.own i
  reset := fun hhead i hm => by
    by_cases he : i = c.created
    · simp [createProgressInterface,he]
    · have hm : i ∈ c.interfaces := by simpa [createProgressInterface,he] using hm
      simpa [createProgressInterface,he] using hi.reset hhead i hm
  defined := hi.defined

theorem Inv.update (hi : Inv c) (i : ℕ) (call : ProgressInterface P) : Inv (update c i call) := by
  refine inv_updateProgressState hi.perm (fun j => ?_) hi.defined
  by_cases he : j = i
  · subst he
    exact .inl (by simp)
  · simpa [he] using hi.own j

theorem Inv.destroy (hi : Inv c) (i : ℕ) : Inv (destroy c i) :=
  inv_updateProgressState (hi.perm.erase i) hi.own hi.defined

theorem Inv.step (hi : Inv c) (h : step c a = some d) : Inv d := by
  cases a with
  | create position =>
    cases h
    exact hi.create position
  | update i call =>
    obtain ⟨-,⟨⟩⟩ := Option.ite_none_right_eq_some.mp h
    exact hi.update i call
  | destroy i =>
    obtain ⟨-,⟨⟩⟩ := Option.ite_none_right_eq_some.mp h
    exact hi.destroy i

theorem Inv.tells (hi : Inv c) (h : ProgressInterfaceMultiplexer.step c a = some d) : Tells c a d := by
  cases a with
  | create position =>
    cases h
    rfl
  | update i call =>
    obtain ⟨-,⟨⟩⟩ := Option.ite_none_right_eq_some.mp h
    obtain ⟨state,hh,htold,-⟩ := exists_updateProgressState
      (c := { c with data := Function.update c.data i (.ofCall call), last := Function.update c.last i call }) hi.perm
    exact ⟨state,hh,_,hi.perm.map _,htold⟩
  | destroy i =>
    obtain ⟨-,⟨⟩⟩ := Option.ite_none_right_eq_some.mp h
    have hperm : (c.children.erase i).Perm (c.interfaces.erase i) := hi.perm.erase i
    obtain ⟨state,hh,htold,-⟩ := exists_updateProgressState
      (c := unsubscribe { c with interfaces := c.interfaces.erase i } i) hperm
    exact ⟨state,hh,_,hperm.map _,htold⟩

structure Aggregated (c : Config P) : Prop where
  tells : ∀ a d, step c a = some d → Tells c a d
  own : ∀ i, c.data i = .ofCall (c.last i) ∨ c.data i = {} ∧ c.last i = .setFinished
  defined : ∀ call ∈ c.told, call ≠ .setWaiting none ∧ call ≠ .setWorking none
  reset : c.told.head? = some .setFinished → ∀ i ∈ c.interfaces, c.data i = {}

theorem Inv.toAggregated (hi : Inv c) : Aggregated c where
  tells := fun _ _ h => hi.tells h
  own := hi.own
  defined := hi.defined
  reset := hi.reset

theorem aggregated_of_run {as : List (Action P)} (h : run step as {} = some c) : Aggregated c := by
  have hi : Inv c := run_invariant (s := {}) (fun _ _ _ hi h => hi.step h) inv_initial h
  exact hi.toAggregated

/-! ### Exact arithmetic -/

theorem quotient_eq_mean {l l' : List (ChildData ℚ)} (h : l.Perm l') : quotient l = mean l' := by
  have hp : (counting l).Perm (counting l') := h.filter _
  rw [quotient,mean,← List.sum_eq_foldl,(hp.map _).sum_eq,hp.length_eq]

theorem Tells.mean {c d : Config ℚ} {a : Action ℚ} (h : Tells c a d) : TellsMean c a d := by
  cases a with
  | create position => exact h
  | update i call =>
    obtain ⟨state,hh,l,hp,htold⟩ := h
    exact ⟨state,hh,by rw [htold,quotient_eq_mean hp]⟩
  | destroy i =>
    obtain ⟨state,hh,l,hp,htold⟩ := h
    exact ⟨state,hh,by rw [htold,quotient_eq_mean hp]⟩

theorem foldl_addChild_perm {l l' : List (ChildData ℚ)} (h : l.Perm l') (acc : State × ℚ × ℕ) :
    l.foldl addChild acc = l'.foldl addChild acc := by
  have : RightCommutative (addChild (P := ℚ)) := ⟨fun acc x y => by
    simp only [addChild_eq,max_right_comm]
    split_ifs <;> simp [add_right_comm]⟩
  exact h.foldl_eq acc

theorem updateProgressState_perm {c : Config ℚ} {order : List ℕ} (h : order.Perm c.children) :
    updateProgressState { c with children := order } =
      { updateProgressState c with children := order } := by
  simp only [updateProgressState,foldl_addChild_perm (h.map c.data),foldl_clear,h.mem_iff]

structure Exact (c : Config ℚ) : Prop where
  tells : ∀ a d, step c a = some d → TellsMean c a d
  order : ∀ data order, order.Perm c.children → updateProgressState { c with data := data, children := order } =
    { updateProgressState { c with data := data } with children := order }

theorem Aggregated.exact {c : Config ℚ} (h : Aggregated c) : Exact c where
  tells := fun a d hs => (h.tells a d hs).mean
  order := fun data _ h => updateProgressState_perm (c := { c with data := data }) h

/-- After any calls of any children, and wherever each of them is in the order of the set, the parent has been
told the highest state and the quotient of what the children add up to in that order; in exact arithmetic that is
the mean, in whatever order. -/
theorem aggregated :
    (∀ (as : List (Action Float)) (c : Config Float), run step as {} = some c → Aggregated c) ∧
    ∀ (as : List (Action ℚ)) (c : Config ℚ), run step as {} = some c → Aggregated c ∧ Exact c :=
  ⟨fun _ _ h => aggregated_of_run h,fun _ _ h => ⟨aggregated_of_run h,(aggregated_of_run h).exact⟩⟩

/-- Two children, of which one finishes before the other, and then starts again. -/
theorem aggregated_twoChildren :
    let as : List (Action ℚ) := [.create 0,.create 0,.update 0 (.setWorking 0),.update 1 .setFinished,
      .update 0 .setFinished,.update 1 (.setWaiting (1/4))]
    let c := (run step as {}).get rfl
    let d := (run step [.create 0,.update 0 (.setWorking (0.1 : Float))] {}).get rfl
    (Aggregated c ∧ Exact c) ∧ Aggregated d ∧
      c.told = [.setWaiting (some (1/4)),.setFinished,.setWorking (some (1/2)),.setWorking (some 0)] :=
  ⟨aggregated.2 _ _ (Option.some_get _).symm,aggregated.1 _ _ (Option.some_get _).symm,by decide +kernel⟩

/-- Three children at 0.1, 0.2 and 0.3, in one order and in the opposite one: rounding makes two different means. -/
theorem threeChildren_orderMatters :
    let calls : List (Action Float) := [.update 0 (.setWorking 0.1),.update 1 (.setWorking 0.2),
      .update 2 (.setWorking 0.3)]
    let c := (run step ([.create 0,.create 1,.create 2] ++ calls) {}).get rfl
    let d := (run step ([.create 0,.create 0,.create 0] ++ calls) {}).get rfl
    c.children.Perm d.children ∧ c.children.map c.data = c.children.map d.data ∧
      c.told.head? = some (.setWorking (some 0.20000000000000004)) ∧
      d.told.head? = some (.setWorking (some 0.19999999999999998)) ∧
      (0.20000000000000004 : Float) ≠ 0.19999999999999998 := by
  decide +kernel

end ProgressInterfaceMultiplexer
end Scroom
