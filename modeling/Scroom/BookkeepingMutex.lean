import Scroom.Bookkeeping

/-! The mutex of a map, and the scopes of its operations. References that an operation holds in local
variables go before the mutex is released, and with the last one goes the token, which calls the map. -/
namespace Scroom
namespace MapBase
open Transitions
open Bookkeeping (Token useCount Counted Takes lockToken lockValue lockKey setPhase)

inductive Operation (K : Type*)
  | reserve (k : K)
  | reReserve (k : K)
  | removeToken (k : K) (wt : ℕ)
  | remove (k : K)
  deriving DecidableEq

/-- What a thread has still to do: to lock the mutex for a call, the part of the call under the lock, the
comparison of two tokens in the last part of `remove`, the end of the scopes of a local token, of a local value
and of the lock, where the call returns, and what follows the body of the destructor of a token. -/
inductive Frame (K : Type*)
  | lock (op : Operation K)
  | body (op : Operation K)
  | compare (k : K) (id : ℕ) (t : Option ℕ)
  | token (i : ℕ)
  | value (id : ℕ)
  | unlock (result : Option ℕ)
  | members (i : ℕ)
  deriving DecidableEq

/-- The references to tokens outside of the map and of its operations are listed with repetitions. -/
structure Config (K V : Type*) where
  map : Bookkeeping.Config K V := {}
  mutex : Option ℕ := none
  threads : ℕ → List (Frame K) := fun _ => []
  external : List ℕ := []

section Map
variable {K V : Type*} [DecidableEq K]

/-- A reference to a token goes, and with the last one its destructor is called. -/
def releaseToken (c : Bookkeeping.Config K V) (i : ℕ) : Option (Bookkeeping.Config K V × List (Frame K)) :=
  (c.tokens[i]?).bind fun token => (Bookkeeping.drop c i).map fun d =>
    (d,if token.phase = .held 1 then [.lock (.removeToken token.key i),.members i] else [])

/-- A local variable that refers to a value. -/
def holdValue (c : Bookkeeping.Config K V) (id : ℕ) : Bookkeeping.Config K V := { c with lvalues := id::c.lvalues }

/-- A local variable that may refer to a token. -/
def holdToken (c : Bookkeeping.Config K V) : Option ℕ → Bookkeeping.Config K V
  | some i => Bookkeeping.copy c i
  | none => c

/-- The end of its scope. -/
def leaveToken (t : Option ℕ) : List (Frame K) := t.toList.map .token

/-! What the operations do under the lock, and the scopes that they have to leave then. A new token has another
local reference while it is created, next to the one that is returned. -/

def reserve [Inhabited V] (c : Bookkeeping.Config K V) (k : K) : Bookkeeping.Config K V × List (Frame K) :=
  match Bookkeeping.reserve c k with
  | (.ok i,d) => (holdValue d c.cells.length,[.value c.cells.length,.unlock (some i)])
  | (.error _,d) => (d,[.unlock none])

def reReserve [Inhabited V] (c : Bookkeeping.Config K V) (k : K) : Bookkeeping.Config K V × List (Frame K) :=
  let id := ((lockKey c k).map Prod.fst).getD c.cells.length
  let (i,d) := Bookkeeping.reReserve c k
  (holdValue d id,[.value id,.unlock (some i)])

def removeToken (c : Bookkeeping.Config K V) (k : K) (wt : ℕ) : Bookkeeping.Config K V × List (Frame K) :=
  match c.map k with
  | some id =>
    match lockValue c id with
    | some _ =>
      let t := lockToken c wt
      (holdToken (holdValue c id) t,.compare k id t::(leaveToken t ++ [.value id,.unlock none]))
    | none => (Bookkeeping.erase c k,[.unlock none])
  | none => (c,[.unlock none])

def remove (c : Bookkeeping.Config K V) (k : K) : Bookkeeping.Config K V × List (Frame K) :=
  (Bookkeeping.remove c k,[.unlock none])

def body [Inhabited V] (c : Bookkeeping.Config K V) : Operation K → Bookkeeping.Config K V × List (Frame K)
  | .reserve k => reserve c k
  | .reReserve k => reReserve c k
  | .removeToken k wt => removeToken c k wt
  | .remove k => remove c k

/-- The last part of `remove(k, wt)`, once `t` is there. The token of the value may expire until then. -/
def compareTokens (c : Bookkeeping.Config K V) (k : K) (id : ℕ) (t : Option ℕ) :
    Bookkeeping.Config K V × List (Frame K) :=
  let tOrig := ((c.cells[id]?).bind (·.token)).bind (lockToken c)
  let d := holdToken c tOrig
  (if t = tOrig then Bookkeeping.erase d k else d,leaveToken tOrig)

def members (c : Bookkeeping.Config K V) (i : ℕ) : Option (Bookkeeping.Config K V) :=
  (c.tokens[i]?).bind fun token => if token.pending then some (setPhase c i token .gone) else none

def Config.setThread (c : Config K V) (t : ℕ) (frames : List (Frame K)) : Config K V :=
  { c with threads := Function.update c.threads t frames }

/-- One step of a thread. The mutex is not recursive: a thread waits for it also if it has it itself. -/
def advance [Inhabited V] (c : Config K V) (thread : ℕ) (frames : List (Frame K)) : Frame K → Option (Config K V)
  | .lock op =>
    if c.mutex = none then some { c.setThread thread (.body op::frames) with mutex := some thread } else none
  | .body op => some { c.setThread thread ((body c.map op).2 ++ frames) with map := (body c.map op).1 }
  | .compare k id t =>
    some { c.setThread thread ((compareTokens c.map k id t).2 ++ frames) with map := (compareTokens c.map k id t).1 }
  | .token i => (releaseToken c.map i).map fun (map,destructor) =>
    { c.setThread thread (destructor ++ frames) with map := map }
  | .value id => some { c.setThread thread frames with map := { c.map with lvalues := c.map.lvalues.erase id } }
  | .unlock result => some { c.setThread thread frames with mutex := none, external := result.toList ++ c.external }
  | .members i => (members c.map i).map fun map => { c.setThread thread frames with map := map }

end Map

/-- A thread that does nothing calls an operation, or gives up a reference to a token. -/
inductive Action (K : Type*)
  | call (t : ℕ) (op : Operation K)
  | copy (i : ℕ)
  | drop (t i : ℕ)
  | advance (t : ℕ)

def step {K V : Type*} [DecidableEq K] [Inhabited V] (c : Config K V) : Action K → Option (Config K V)
  | .call t op => if c.threads t = [] then some (c.setThread t [.lock op]) else none
  | .copy i =>
    if i ∈ c.external then some { c with map := Bookkeeping.copy c.map i, external := i::c.external } else none
  | .drop t i =>
    if c.threads t = [] ∧ i ∈ c.external then (releaseToken c.map i).map fun (map,destructor) =>
      { c.setThread t destructor with map := map, external := c.external.erase i }
    else none
  | .advance t =>
    match c.threads t with
    | [] => none
    | frame::frames => advance c t frames frame

variable {K V : Type*}

/-- What the thread that has the mutex has still to do. -/
def locals (c : Config K V) : List (Frame K) := (c.mutex.map c.threads).getD []

def Frame.IsLock : Frame K → Prop
  | .lock _ => True
  | _ => False

instance : DecidablePred (Frame.IsLock (K := K))
  | .lock _ => isTrue trivial
  | .body _ | .compare .. | .token _ | .value _ | .unlock _ | .members _ => isFalse fun h => h

/-- A thread is to lock the mutex that it has. -/
def SelfLock (c : Config K V) : Prop := ∃ frame ∈ (locals c).head?, frame.IsLock

instance (c : Config K V) : Decidable (SelfLock c) := inferInstanceAs (Decidable (∃ frame ∈ (locals c).head?, _))

/-- No reference is given up while a local one is left, unless there are others than the local ones. -/
def Allowed (c : Config K V) : Action K → Prop
  | .drop _ i => .token i ∉ locals c ∨ 1 < c.external.count i
  | _ => True

instance [DecidableEq K] (c : Config K V) : ∀ a, Decidable (Allowed c a)
  | .drop _ i => inferInstanceAs (Decidable (.token i ∉ locals c ∨ 1 < c.external.count i))
  | .call _ _ | .copy _ | .advance _ => isTrue trivial

/-- The steps of calls and destructors that are running. -/
def Action.Advances : Action K → Prop
  | .advance _ => True
  | _ => False

/-- However the calls and destructors that are running go on, no thread is to lock the mutex that it has. -/
def NeverSelfLocks [DecidableEq K] [Inhabited V] (c : Config K V) : Prop :=
  Henceforth step Action.Advances (fun c => ¬SelfLock c) c

/-- The references in a local variable, or on their way to the caller. -/
def Frame.refs : Frame K → List ℕ
  | .token i => [i]
  | .unlock result => result.toList
  | _ => []

def refs (frames : List (Frame K)) : List ℕ := frames.flatMap Frame.refs

/-- A thread that does not have the mutex. -/
def Outside (frames : List (Frame K)) : Prop :=
  ∀ frame ∈ frames, (∃ op, frame = .lock op) ∨ ∃ i, frame = .members i

/-- A thread that has the mutex. With local tokens it has none to return. -/
def Inside : List (Frame K) → Prop
  | .body _::frames => Outside frames
  | .unlock _::frames => Outside frames
  | .value _::frames => Inside frames
  | .compare ..::frames => Inside frames ∧ ∀ i, .unlock (some i) ∉ frames
  | .token _::frames => Inside frames ∧ ∀ i, .unlock (some i) ∉ frames
  | _ => False

structure Inv (c : Config K V) : Prop where
  counted : Counted c.map
  count : ∀ i, useCount c.map i = c.external.count i + (refs (locals c)).count i
  owner : ∀ t, c.mutex = some t → Inside (c.threads t)
  other : ∀ t, c.mutex ≠ some t → Outside (c.threads t)

/-- No local reference is the last one. -/
def Safe (c : Config K V) : Prop := ∀ i, .token i ∈ locals c → i ∈ c.external

theorem inv_initial : Inv ({} : Config K V) where
  counted := by simp [Bookkeeping.Counted]
  count := by simp [useCount,locals,refs]
  owner := by simp
  other := by simp [Outside]

theorem safe_initial : Safe ({} : Config K V) := by simp [Safe,locals]

section Frames
variable {frame : Frame K} {frames rest : List (Frame K)}

@[simp] theorem refs_nil : refs ([] : List (Frame K)) = [] := rfl

@[simp] theorem refs_cons : refs (frame::frames) = frame.refs ++ refs frames := rfl

@[simp] theorem refs_append : refs (frames ++ rest) = refs frames ++ refs rest := List.flatMap_append

theorem Outside.refs (h : Outside frames) : refs frames = [] := by
  refine List.flatMap_eq_nil_iff.mpr fun frame hm => ?_
  rcases h frame hm with ⟨op,rfl⟩ | ⟨i,rfl⟩ <;> rfl

theorem Outside.tail (h : Outside (frame::frames)) : Outside frames :=
  fun x hx => h x (List.mem_cons_of_mem _ hx)

theorem mem_refs {i : ℕ} : i ∈ refs frames ↔ .token i ∈ frames ∨ .unlock (some i) ∈ frames := by
  unfold refs
  rw [List.mem_flatMap]
  constructor
  · rintro ⟨frame,hm,hi⟩
    cases frame with
    | token j =>
      rw [List.mem_singleton.mp hi]
      exact .inl hm
    | unlock result =>
      rw [Option.mem_toList.mp hi] at hm
      exact .inr hm
    | _ => cases hi
  · rintro (hm | hm)
    · exact ⟨_,hm,List.mem_singleton_self i⟩
    · exact ⟨_,hm,List.mem_singleton_self i⟩

theorem Outside.token_not_mem (h : Outside frames) (i : ℕ) : .token i ∉ frames :=
  fun hm => by simpa [h.refs] using mem_refs.mpr (.inl hm)

theorem Outside.unlock_not_mem (h : Outside frames) (i : ℕ) : .unlock (some i) ∉ frames :=
  fun hm => by simpa [h.refs] using mem_refs.mpr (.inr hm)

theorem leaveToken_append (t : Option ℕ) (h : Inside rest) (hno : ∀ i, .unlock (some i) ∉ rest) :
    Inside (leaveToken t ++ rest) ∧ ∀ i, .unlock (some i) ∉ leaveToken t ++ rest := by
  cases t with
  | none => exact ⟨h,hno⟩
  | some i => exact ⟨⟨h,hno⟩,fun j hm => (List.mem_cons.mp hm).elim nofun (hno j)⟩

@[simp] theorem refs_leaveToken (t : Option ℕ) : refs (leaveToken t : List (Frame K)) = t.toList := by
  cases t <;> rfl

/-- The steps that are left under the lock. -/
def Frame.steps : Frame K → ℕ
  | .compare .. => 2
  | _ => 1

theorem steps_leaveToken (t : Option ℕ) : ((leaveToken t : List (Frame K)).map Frame.steps).sum ≤ 1 := by
  cases t <;> simp [leaveToken,Frame.steps]

end Frames

/-! What the parts of the operations do to the references. -/

/-- Local references are taken, to tokens that are live. -/
structure Part (c d : Bookkeeping.Config K V) (frames : List (Frame K)) : Prop where
  takes : Takes c d (refs frames)
  live : ∀ i, .token i ∈ frames → 0 < useCount c i

section Part
variable {c d : Bookkeeping.Config K V} {frames : List (Frame K)} {i : ℕ} {k : K}

theorem Part.of_tokens (h : d.tokens = c.tokens) : Part c d [.unlock none] := ⟨.of_tokens h,by simp⟩

theorem part_leaveToken {t : Option ℕ} (h : ∀ i ∈ t, 0 < useCount c i) : Part c (holdToken c t) (leaveToken t) := by
  cases t with
  | none => exact ⟨.of_tokens rfl,by simp [leaveToken]⟩
  | some i => exact ⟨Bookkeeping.takes_copy (h i rfl),by simpa [leaveToken] using h i rfl⟩

theorem lockToken_live (hc : Counted c) : ∀ j ∈ lockToken c i, 0 < useCount c j :=
  fun _ hj => (Bookkeeping.useCount_of_lockToken hc hj).2

section Map
variable [DecidableEq K]

theorem part_reserve [Inhabited V] : Part c (reserve c k).1 (reserve c k).2 := by
  unfold reserve
  split
  next i d h => exact ⟨(Bookkeeping.takes_reserve h).of_tokens_right rfl,by simp⟩
  next e d h =>
    unfold Bookkeeping.reserve at h
    split at h
    · cases h
      exact .of_tokens rfl
    · cases h

theorem part_reReserve [Inhabited V] (hc : Counted c) : Part c (reReserve c k).1 (reReserve c k).2 :=
  ⟨(Bookkeeping.takes_reReserve hc rfl).of_tokens_right rfl,by simp [reReserve]⟩

theorem part_removeToken (hc : Counted c) : Part c (removeToken c k i).1 (removeToken c k i).2 := by
  unfold removeToken
  split
  next id _ =>
    split
    next =>
      have hv : Takes c (holdValue c id) [] := .of_tokens rfl
      have hlive : ∀ j ∈ lockToken c i, 0 < useCount (holdValue c id) j := lockToken_live hc
      have h := part_leaveToken hlive
      refine ⟨?_,fun j hm => h.live j (by simpa using hm)⟩
      simpa [Frame.refs] using hv.trans h.takes
    next => exact .of_tokens rfl
  next => exact .of_tokens rfl

theorem part_body [Inhabited V] (hc : Counted c) (op : Operation K) : Part c (body c op).1 (body c op).2 := by
  cases op with
  | reserve k => exact part_reserve
  | reReserve k => exact part_reReserve hc
  | removeToken k wt => exact part_removeToken hc
  | remove k => exact ⟨Bookkeeping.takes_remove,by simp [body,remove]⟩

theorem inside_body [Inhabited V] (op : Operation K) {rest : List (Frame K)} (h : Outside rest) :
    Inside ((body c op).2 ++ rest) := by
  cases op with
  | reserve k =>
    simp only [body,reserve]
    split <;> exact h
  | reReserve k => exact h
  | removeToken k wt =>
    simp only [body,removeToken]
    split
    next id _ =>
      split
      next =>
        have hin : Inside (.value id::.unlock none::rest) := h
        have hl := leaveToken_append (lockToken c wt) hin (by simpa using h.unlock_not_mem)
        simpa [Inside] using hl
      next => exact h
    next => exact h
  | remove k => exact h

theorem part_compareTokens (hc : Counted c) (k : K) (id : ℕ) (t : Option ℕ) :
    Part c (compareTokens c k id t).1 (compareTokens c k id t).2 := by
  have h := part_leaveToken (c := c) (t := ((c.cells[id]?).bind (·.token)).bind (lockToken c)) ?_
  · refine ⟨?_,h.live⟩
    dsimp only [compareTokens]
    split_ifs
    · exact h.takes.of_tokens_right rfl
    · exact h.takes
  · intro i hi
    obtain ⟨_,-,hi⟩ := Option.bind_eq_some_iff.mp hi
    exact lockToken_live hc i hi

end Map
end Part

theorem releaseToken_eq_some {c d : Bookkeeping.Config K V} {i : ℕ} {frames : List (Frame K)}
    (hc : Counted c) (h : releaseToken c i = some (d,frames)) :
    Takes d c [i] ∧ Counted d ∧ (useCount c i = 1 ∧ (∃ k, frames = [.lock (.removeToken k i),.members i]) ∨
      1 < useCount c i ∧ frames = []) := by
  obtain ⟨token,hget,h⟩ := Option.bind_eq_some_iff.mp h
  obtain ⟨d',hd,he⟩ := Option.map_eq_some_iff.mp h
  cases he
  obtain ⟨token',n,hget',hp,-⟩ := Bookkeeping.drop_eq_some_iff.mp hd
  cases hget.symm.trans hget'
  refine ⟨Bookkeeping.takes_of_drop hc hd,hc.drop hd,?_⟩
  have hn : n ≠ 0 := fun h0 => hc i token hget (h0 ▸ hp)
  have hcount : useCount c i = n := by rw [Bookkeeping.useCount_eq hget,hp]; rfl
  rw [hcount]
  split_ifs with hone
  · rw [hp,Bookkeeping.Phase.held.injEq] at hone
    exact .inl ⟨hone,_,rfl⟩
  · rw [hp,Bookkeeping.Phase.held.injEq] at hone
    exact .inr ⟨by omega,rfl⟩

theorem releaseToken_isSome {c : Bookkeeping.Config K V} {i : ℕ} (h : 0 < useCount c i) :
    ∃ d, releaseToken c i = some d := by
  obtain ⟨d,hd⟩ := Bookkeeping.drop_of_useCount h
  obtain ⟨token,n,hget,-,-⟩ := Bookkeeping.drop_eq_some_iff.mp hd
  exact ⟨_,by rw [releaseToken,hget,Option.bind_some,hd]; rfl⟩

theorem takes_members {c d : Bookkeeping.Config K V} {i : ℕ} (h : members c i = some d) : Takes c d [] := by
  obtain ⟨token,hget,h⟩ := Option.bind_eq_some_iff.mp h
  obtain ⟨hp,⟨⟩⟩ := Option.ite_none_right_eq_some.mp h
  have hexpired : token.phase = .expired := by simpa [Token.pending] using hp
  exact Bookkeeping.takes_setPhase hget (by simp [hexpired,Bookkeeping.Phase.useCount]) rfl (by simp)

variable {c d : Config K V} {t i : ℕ} {frame : Frame K} {frames : List (Frame K)}

theorem locals_owner (hm : c.mutex = some t) : locals c = c.threads t := by simp [locals,hm]

theorem locals_setThread (hm : c.mutex = some t) {map : Bookkeeping.Config K V} :
    locals { c.setThread t frames with map := map } = frames := by
  simp [locals,Config.setThread,hm]

theorem locals_setThread_of_ne (hm : c.mutex ≠ some t) {map : Bookkeeping.Config K V} {external : List ℕ} :
    locals { c.setThread t frames with map := map, external := external } = locals c := by
  cases hx : c.mutex with
  | none => simp [locals,Config.setThread,hx]
  | some t' =>
    have hne : t' ≠ t := fun he => hm (he ▸ hx)
    simp [locals,Config.setThread,hx,hne]

theorem Inv.owned (hi : Inv c) (hm : c.mutex = some t) {map : Bookkeeping.Config K V} (hc : Counted map)
    (hcount : ∀ i, useCount map i = c.external.count i + (refs frames).count i) (hin : Inside frames) :
    Inv { c.setThread t frames with map := map } where
  counted := hc
  count := fun i => by
    rw [locals_setThread hm]
    exact hcount i
  owner := fun t' ht' => by
    cases hm.symm.trans ht'
    simpa [Config.setThread] using hin
  other := fun t' ht' => by
    have hne : t' ≠ t := fun he => ht' (he ▸ hm)
    simpa [Config.setThread,hne] using hi.other t' ht'

theorem Inv.unowned (hi : Inv c) (hm : c.mutex ≠ some t) {map : Bookkeeping.Config K V} (hc : Counted map)
    {external : List ℕ} (hcount : ∀ i, useCount map i = external.count i + (refs (locals c)).count i)
    (hout : Outside frames) :
    Inv { c.setThread t frames with map := map, external := external } where
  counted := hc
  count := fun i => by
    rw [locals_setThread_of_ne hm]
    exact hcount i
  owner := fun t' ht' => by
    have hne : t' ≠ t := fun he => hm (he ▸ ht')
    simpa [Config.setThread,hne] using hi.owner t' ht'
  other := fun t' ht' => by
    by_cases he : t' = t
    · subst he
      simpa [Config.setThread] using hout
    · simpa [Config.setThread,he] using hi.other t' ht'

theorem Inv.not_selfLock (hi : Inv c) : ¬SelfLock c := by
  rintro ⟨frame,hm,hl⟩
  cases hmutex : c.mutex with
  | none => simp [locals,hmutex] at hm
  | some t =>
    have hin := hi.owner t hmutex
    rw [locals_owner hmutex] at hm
    cases hframes : c.threads t with
    | nil => simp [hframes] at hm
    | cons top frames =>
      simp only [hframes,List.head?_cons,Option.mem_some] at hm
      subst hm
      rw [hframes] at hin
      cases top with
      | lock op => exact hin
      | _ => exact hl

theorem Inv.idle (hi : Inv c) (ht : c.threads t = []) : c.mutex ≠ some t := by
  intro hm
  have hin := hi.owner t hm
  rw [ht] at hin
  exact hin

theorem Safe.owned (hm : c.mutex = some t) {map : Bookkeeping.Config K V}
    (h : ∀ i, .token i ∈ frames → i ∈ c.external) : Safe { c.setThread t frames with map := map } := by
  intro i hi
  rw [locals_setThread hm] at hi
  exact h i hi

theorem Safe.unowned (hs : Safe c) (hm : c.mutex ≠ some t) {map : Bookkeeping.Config K V} {external : List ℕ}
    (h : ∀ i, .token i ∈ locals c → i ∈ c.external → i ∈ external) :
    Safe { c.setThread t frames with map := map, external := external } := by
  intro i hi
  rw [locals_setThread_of_ne hm] at hi
  exact h i hi (hs i hi)

theorem Safe.two (hi : Inv c) (hs : Safe c) (hm : .token i ∈ locals c) : 1 < useCount c.map i := by
  have hext : 0 < c.external.count i := List.count_pos_iff.mpr (hs i hm)
  have hloc : 0 < (refs (locals c)).count i := List.count_pos_iff.mpr (mem_refs.mpr (.inl hm))
  rw [hi.count]
  omega

variable [DecidableEq K] [Inhabited V]

/-- The steps of the thread that has the mutex, for a proof by cases: a part of an operation under the lock, the end
of the scope of a local token, which may be the last reference, and the end of the lock. -/
theorem Inv.advance_cases {motive : Config K V → Prop} (hi : Inv c) (hm : c.mutex = some t)
    (h : MapBase.step c (.advance t) = some d)
    (part : ∀ frame frames map frames', c.threads t = frame::frames → frame.refs = [] → Part c.map map frames' →
      Inside (frames' ++ frames) → (∀ i, .token i ∈ frames' → ∀ j, .unlock (some j) ∉ frames) →
      motive { c.setThread t (frames' ++ frames) with map := map })
    (last : ∀ i frames, c.threads t = .token i::frames → useCount c.map i = 1 → SelfLock d → motive d)
    (token : ∀ i frames map, c.threads t = .token i::frames → 1 < useCount c.map i → Takes map c.map [i] →
      Counted map → Inside frames → motive { c.setThread t frames with map := map })
    (unlock : ∀ result frames, c.threads t = .unlock result::frames → Outside frames →
      motive { c.setThread t frames with mutex := none, external := result.toList ++ c.external }) : motive d := by
  have hin := hi.owner t hm
  cases ht : c.threads t with
  | nil =>
    rw [ht] at hin
    exact hin.elim
  | cons frame frames =>
    rw [ht] at hin
    simp only [MapBase.step,ht] at h
    cases frame with
    | lock op => exact hin.elim
    | members i => exact hin.elim
    | body op =>
      cases h
      exact part _ _ _ _ ht rfl (part_body hi.counted op) (inside_body op hin) fun _ _ => Outside.unlock_not_mem hin
    | compare k id t' =>
      cases h
      exact part _ _ _ _ ht rfl (part_compareTokens hi.counted k id t') (leaveToken_append _ hin.1 hin.2).1
        fun _ _ => hin.2
    | value id =>
      cases h
      exact part _ _ _ [] ht rfl ⟨.of_tokens rfl,by simp⟩ hin (by simp)
    | unlock result =>
      cases h
      exact unlock _ _ ht hin
    | token i =>
      obtain ⟨⟨map,destructor⟩,hr,rfl⟩ := Option.map_eq_some_iff.mp h
      obtain ⟨htakes,hcounted,⟨hone,k,rfl⟩ | ⟨hlt,rfl⟩⟩ := releaseToken_eq_some hi.counted hr
      · exact last _ _ ht hone (by simp [SelfLock,locals,Config.setThread,hm,Frame.IsLock])
      · exact token _ _ _ ht hlt htakes hcounted hin.1

theorem Inv.advanceOwner (hi : Inv c) (hm : c.mutex = some t) (h : MapBase.step c (.advance t) = some d)
    (hno : ∀ i frames, c.threads t = .token i::frames → useCount c.map i ≠ 1) : Inv d := by
  have hcount := hi.count
  rw [locals_owner hm] at hcount
  refine hi.advance_cases hm h ?_ ?_ ?_ ?_
  · intro frame frames map frames' ht hrefs hpart hin _
    refine hi.owned hm (hpart.takes.counted hi.counted) (fun i => ?_) hin
    rw [hpart.takes.count,hcount i,ht,refs_append,refs_cons,hrefs,List.nil_append,List.count_append]
    omega
  · intro i frames ht hone _
    exact absurd hone (hno i frames ht)
  · intro i frames map ht _ htakes hcounted hin
    refine hi.owned hm hcounted (fun j => ?_) hin
    have hj := hcount j
    rw [htakes.count,ht,refs_cons,List.count_append,Frame.refs] at hj
    omega
  · intro result frames ht hout
    refine ⟨hi.counted,fun i => ?_,by simp,fun t' _ => ?_⟩
    · have hi := hcount i
      rw [ht,refs_cons,Outside.refs hout] at hi
      simpa [Frame.refs,locals,Config.setThread,Nat.add_comm] using hi
    · by_cases he : t' = t
      · subst he
        simpa [Config.setThread] using hout
      · have hne : c.mutex ≠ some t' := fun hm' => he (Option.some.inj (hm'.symm.trans hm))
        simpa [Config.setThread,he] using hi.other t' hne

theorem Inv.advanceOther_cases {motive : Config K V → Prop} (hi : Inv c) (hm : c.mutex ≠ some t)
    (h : MapBase.step c (.advance t) = some d)
    (lock : ∀ op frames, c.mutex = none → Outside frames →
      motive { c.setThread t (.body op::frames) with mutex := some t })
    (members : ∀ frames map, Takes c.map map [] → Outside frames → motive { c.setThread t frames with map := map }) :
    motive d := by
  have hout := hi.other t hm
  cases ht : c.threads t with
  | nil => simp [MapBase.step,ht] at h
  | cons frame frames =>
    rw [ht] at hout
    rcases hout frame List.mem_cons_self with ⟨op,rfl⟩ | ⟨i,rfl⟩
    · simp only [MapBase.step,ht,advance,Option.ite_none_right_eq_some,Option.some.injEq] at h
      obtain ⟨hfree,rfl⟩ := h
      exact lock op frames hfree hout.tail
    · simp only [MapBase.step,ht,advance] at h
      obtain ⟨map,hmap,rfl⟩ := Option.map_eq_some_iff.mp h
      exact members frames map (takes_members hmap) hout.tail

theorem Inv.advanceOther (hi : Inv c) (hm : c.mutex ≠ some t) (h : MapBase.step c (.advance t) = some d) : Inv d := by
  refine hi.advanceOther_cases hm h ?_ ?_
  · intro op frames hfree hout
    refine ⟨hi.counted,fun i => ?_,fun t' ht' => ?_,fun t' ht' => ?_⟩
    · have hcount := hi.count i
      simpa [locals,hfree,Config.setThread,Outside.refs hout,Frame.refs] using hcount
    · cases ht'
      simpa [Config.setThread] using show Inside (.body op::frames) from hout
    · have hne : t' ≠ t := fun he => ht' (he ▸ rfl)
      have hfree' : c.mutex ≠ some t' := by simp [hfree]
      simpa [Config.setThread,hne] using hi.other t' hfree'
  · intro frames map htakes hout
    refine hi.unowned hm (htakes.counted hi.counted) (fun j => ?_) hout
    rw [htakes.count,hi.count]
    rfl

theorem Inv.step (hi : Inv c) (hs : Safe c) {a : Action K} (h : step c a = some d) : Inv d := by
  cases a with
  | call t op =>
    obtain ⟨ht,⟨⟩⟩ := Option.ite_none_right_eq_some.mp h
    exact hi.unowned (hi.idle ht) hi.counted hi.count (by simp [Outside])
  | copy i =>
    obtain ⟨hm,⟨⟩⟩ := Option.ite_none_right_eq_some.mp h
    have htakes := Bookkeeping.takes_copy (Bookkeeping.useCount_pos hi.count hm)
    exact ⟨htakes.counted hi.counted,htakes.cons hi.count,hi.owner,hi.other⟩
  | drop t i =>
    obtain ⟨⟨ht,hm⟩,h⟩ := Option.ite_none_right_eq_some.mp h
    obtain ⟨⟨map,destructor⟩,hr,rfl⟩ := Option.map_eq_some_iff.mp h
    obtain ⟨htakes,hcounted,hframes⟩ := releaseToken_eq_some hi.counted hr
    refine hi.unowned (hi.idle ht) hcounted (htakes.erase hi.count hm) ?_
    rcases hframes with ⟨-,k,rfl⟩ | ⟨-,rfl⟩ <;> simp [Outside]
  | advance t =>
    by_cases hm : c.mutex = some t
    · refine hi.advanceOwner hm h fun i frames ht => ?_
      have htwo := hs.two hi (i := i) (by simp [locals_owner hm,ht])
      omega
    · exact hi.advanceOther hm h

theorem Safe.advanceOwner (hi : Inv c) (hs : Safe c) (hm : c.mutex = some t)
    (h : MapBase.step c (.advance t) = some d) : Safe d := by
  have hcount := hi.count
  have hlocals := locals_owner hm
  refine hi.advance_cases hm h ?_ ?_ ?_ ?_
  · intro frame frames map frames' ht hrefs hpart _ hno
    have hrest : ∀ i, .token i ∈ frames → i ∈ c.external := fun i hi =>
      hs i (by rw [hlocals,ht]; exact List.mem_cons_of_mem _ hi)
    refine Safe.owned hm fun i hi' => (List.mem_append.mp hi').elim (fun hnew => ?_) (hrest i)
    -- what is live has a reference outside, or a local one, for which there is one outside
    have hlive := hpart.live i hnew
    rw [hcount,hlocals,ht,refs_cons,hrefs,List.nil_append,← List.count_append] at hlive
    rcases List.mem_append.mp (List.count_pos_iff.mp hlive) with hext | hloc
    · exact hext
    · exact hrest i ((mem_refs.mp hloc).resolve_right (hno i hnew i))
  · intro i frames ht hone _
    have htwo := hs.two hi (i := i) (by simp [hlocals,ht])
    omega
  · intro i frames map ht _ _ _ _
    exact Safe.owned hm fun j hj => hs j (by rw [hlocals,ht]; exact List.mem_cons_of_mem _ hj)
  · intro result frames _ _
    simp [Safe,locals]

theorem Safe.advanceOther (hi : Inv c) (hs : Safe c) (hm : c.mutex ≠ some t)
    (h : MapBase.step c (.advance t) = some d) : Safe d := by
  refine hi.advanceOther_cases hm h ?_ ?_
  · intro op frames _ hout i hmem
    simp [locals,Config.setThread,hout.token_not_mem i] at hmem
  · intro frames map _ _
    exact hs.unowned hm fun i _ hext => hext

theorem Safe.step (hi : Inv c) (hs : Safe c) {a : Action K} (hok : Allowed c a) (h : MapBase.step c a = some d) :
    Safe d := by
  cases a with
  | call t op =>
    obtain ⟨ht,⟨⟩⟩ := Option.ite_none_right_eq_some.mp h
    exact hs.unowned (hi.idle ht) fun i _ hext => hext
  | copy i =>
    obtain ⟨hm,⟨⟩⟩ := Option.ite_none_right_eq_some.mp h
    exact fun j hj => List.mem_cons_of_mem _ (hs j hj)
  | drop t i =>
    obtain ⟨⟨ht,hm⟩,h⟩ := Option.ite_none_right_eq_some.mp h
    obtain ⟨⟨map,destructor⟩,hr,rfl⟩ := Option.map_eq_some_iff.mp h
    refine hs.unowned (hi.idle ht) fun j hloc hext => ?_
    by_cases hj : j = i
    · subst hj
      have htwo := hok.resolve_left (not_not_intro hloc)
      exact List.count_pos_iff.mp (by rw [List.count_erase_self]; omega)
    · exact (List.mem_erase_of_ne hj).mpr hext
  | advance t =>
    by_cases hm : c.mutex = some t
    · exact hs.advanceOwner hi hm h
    · exact hs.advanceOther hi hm h

/-! Without other references, the local ones go one by one. -/

theorem NeverSelfLocks.advance (hl : NeverSelfLocks c) (h : MapBase.step c (.advance t) = some d) : NeverSelfLocks d :=
  Henceforth.of_step hl (a := .advance t) (show Action.Advances (.advance t) from trivial) h

theorem step_advance (ht : c.threads t = frame::frames) :
    MapBase.step c (.advance t) = MapBase.advance c t frames frame := by
  simp only [MapBase.step,ht]

theorem NeverSelfLocks.mem_external (hi : Inv c) (hl : NeverSelfLocks c) (hm : c.mutex = some t)
    (hmem : .token i ∈ c.threads t) : i ∈ c.external := by
  induction hn : ((c.threads t).map Frame.steps).sum using Nat.strong_induction_on generalizing c with
  | _ n ih =>
    subst hn
    have hin := hi.owner t hm
    cases ht : c.threads t with
    | nil =>
      rw [ht] at hin
      exact hin.elim
    | cons frame frames =>
      rw [ht] at hin hmem ih
      have hnext : ∀ {map : Bookkeeping.Config K V} {frames' : List (Frame K)},
          MapBase.step c (.advance t) = some { c.setThread t frames' with map := map } →
          Inv { c.setThread t frames' with map := map } → .token i ∈ frames' →
          (frames'.map Frame.steps).sum < ((frame::frames).map Frame.steps).sum → i ∈ c.external := by
        intro map frames' hd hi' hmem' hlt
        exact ih _ hlt (c := { c.setThread t frames' with map := map }) hi' (hl.advance hd) hm
          (by simpa [Config.setThread] using hmem') (by simp [Config.setThread])
      cases frame with
      | lock op => exact hin.elim
      | members j => exact hin.elim
      | body op => exact absurd ((List.mem_cons.mp hmem).resolve_left nofun) (Outside.token_not_mem hin i)
      | unlock result => exact absurd ((List.mem_cons.mp hmem).resolve_left nofun) (Outside.token_not_mem hin i)
      | compare k id t' =>
        have hd := step_advance ht
        have hmem' := (List.mem_cons.mp hmem).resolve_left nofun
        refine hnext hd (hi.advanceOwner hm hd (by simp [ht])) (List.mem_append_right _ hmem') ?_
        have hle := steps_leaveToken (K := K) (((c.map.cells[id]?).bind (·.token)).bind (lockToken c.map))
        simp only [compareTokens,List.map_append,List.sum_append,List.map_cons,List.sum_cons,Frame.steps]
        omega
      | value id =>
        have hd := step_advance ht
        have hmem' := (List.mem_cons.mp hmem).resolve_left nofun
        exact hnext hd (hi.advanceOwner hm hd (by simp [ht])) hmem' (by simp [Frame.steps])
      | token j =>
        have hcount := hi.count
        simp only [locals_owner hm,ht,refs_cons,Frame.refs,List.count_append,List.count_singleton] at hcount
        have hj := hcount j
        obtain ⟨⟨map,destructor⟩,hr⟩ := releaseToken_isSome (c := c.map) (i := j) (by simp at hj; omega)
        have hd := step_advance ht
        simp only [MapBase.advance,hr,Option.map_some] at hd
        have hno := (hl.advance hd).now
        obtain ⟨-,-,⟨-,k,rfl⟩ | ⟨hlt,rfl⟩⟩ := releaseToken_eq_some hi.counted hr
        · exact absurd (by simp [SelfLock,locals,Config.setThread,hm,Frame.IsLock]) hno
        · have hi' := hi.advanceOwner hm hd fun j' frames' he => by
            cases ht.symm.trans he
            omega
          rcases List.mem_cons.mp hmem with he | hmem'
          · cases he
            -- the local reference may be the only one that is left
            by_cases hmem' : .token i ∈ frames
            · exact hnext hd hi' hmem' (by simp [Frame.steps])
            · have hrest : i ∉ refs frames := fun hr => (mem_refs.mp hr).elim hmem' (hin.2 i)
              rw [List.count_eq_zero_of_not_mem hrest] at hj
              refine List.count_pos_iff.mp ?_
              simp at hj
              omega
          · exact hnext hd hi' hmem' (by simp [Frame.steps])

theorem NeverSelfLocks.allowed (hi : Inv c) (hs : Safe c) {a : Action K} (h : MapBase.step c a = some d)
    (hl : NeverSelfLocks d) : Allowed c a := by
  cases a with
  | drop t i =>
    have hi' := hi.step hs h
    obtain ⟨⟨ht,hm⟩,h⟩ := Option.ite_none_right_eq_some.mp h
    obtain ⟨⟨map,destructor⟩,hr,rfl⟩ := Option.map_eq_some_iff.mp h
    by_cases hloc : .token i ∈ locals c
    · cases hmutex : c.mutex with
      | none => simp [locals,hmutex] at hloc
      | some t' =>
        rw [locals_owner hmutex] at hloc
        have hne : t' ≠ t := fun he => hi.idle ht (he ▸ hmutex)
        have hloc' : .token i ∈ (c.setThread t destructor).threads t' := by simpa [Config.setThread,hne] using hloc
        have hleft : i ∈ c.external.erase i := hl.mem_external hi' hmutex hloc'
        have hpos := List.count_pos_iff.mpr hleft
        rw [List.count_erase_self] at hpos
        exact .inr (by omega)
    · exact .inl hloc
  | _ => exact trivial

/-- In a run in which no reference is given up while a local one is left, unless there are others, no thread is
ever to lock the mutex that it has. The condition is exact: it singles out the runs in which this is so however
the calls and destructors of each state go on. -/
theorem never_selfLocks (as : List (Action K)) (c : Config K V) (h : run step as {} = some c) :
    (Within step Allowed as ({} : Config K V) → Always step (fun c => ¬SelfLock c) as ({} : Config K V)) ∧
      (Within step Allowed as ({} : Config K V) ↔ Always step NeverSelfLocks as ({} : Config K V)) :=
  always_henceforth_iff_within (I := fun c => Inv c ∧ Safe c) (fun _ hc => hc.1.not_selfLock)
    (fun _ a ha => by cases a <;> first | exact trivial | exact ha.elim)
    (fun _ _ _ hc hok hd => ⟨hc.1.step hc.2 hd,hc.2.step hc.1 hok hd⟩)
    (fun _ _ _ hc hd hl => NeverSelfLocks.allowed hc.1 hc.2 hd hl) ⟨inv_initial,safe_initial⟩ h

/-- A token is given up while the cleanup of an earlier one of its key has a copy, and so has the one who called
for the cleanup. -/
theorem never_selfLocks_copied :
    let as : List (Action ℕ) := [.call 0 (.reserve 1),.advance 0,.advance 0,.advance 0,.advance 0,.drop 0 0,
      .call 1 (.reReserve 1),.advance 1,.advance 1,.advance 1,.advance 1,.copy 1,.advance 0,.advance 0,.advance 0,
      .drop 1 1,.advance 0,.advance 0,.advance 0,.advance 0,.drop 1 1]
    Always step (fun c => ¬SelfLock c) as ({} : Config ℕ ℕ) :=
  (never_selfLocks _ ((run step _ {}).get rfl) (Option.some_get _).symm).1 (by decide)

/-- The only reference to a token is given up while the cleanup of an earlier one of its key has a copy. The
thread that cleans up waits for itself then. -/
theorem selfLock_cleanup :
    ∃ c, run step [.call 0 (.reserve 1),.advance 0,.advance 0,.advance 0,.advance 0,.drop 0 0,
        .call 1 (.reReserve 1),.advance 1,.advance 1,.advance 1,.advance 1,.advance 0,.advance 0,.advance 0,
        .drop 1 1,.advance 0] ({} : Config ℕ ℕ) = some c ∧
      SelfLock c ∧ c.mutex = some 0 ∧
      c.threads 0 = [.lock (.removeToken 1 1),.members 1,.value 0,.unlock none,.members 0] ∧
      step c (.advance 0) = none :=
  ⟨_,rfl,by decide,rfl,rfl,rfl⟩

end MapBase
end Scroom
