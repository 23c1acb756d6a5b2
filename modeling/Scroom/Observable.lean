import Scroom.BookkeepingView

/-! Observers that are registered with an observable, always by a weak pointer, as long as the tokens last that
were handed out for them. -/
namespace Scroom
namespace Observable
open Transitions
open Bookkeeping (useCount Counted Takes Grows keyOf)

/-- `o` refers to the observer if it was registered by a strong pointer. -/
structure Registration (O : Type*) where
  o : Option O := none
  observer : O
  deriving DecidableEq

def Registration.set {O : Type*} (_ : Registration O) (observer : O) : Registration O :=
  { o := none, observer := observer }

/-- A call in progress, and how it ended: `registerObserver` with its token, and `getObservers` with what it has
still to look at and what it has found. The last fields of the latter only record which observers there were to
be found, if no destructor had still to run. -/
inductive Call (O : Type*)
  | reReserved (observer : O) (t : ℕ)
  | got (observer : O) (t : ℕ) (r : Option ℕ)
  | added (observer : O) (t : ℕ)
  | registered (observer : O) (t : ℕ)
  | threw (what : String)
  | values (registrations : List (Option ℕ)) (result : List O) (wanted : Option (List O))
  | observers (result : List O) (wanted : Option (List O))
  | crashed
  deriving DecidableEq

/-- The map goes from observers to pointers to registrations, which may be null. The references to tokens outside
of the calls are listed with repetitions. -/
structure Config (O : Type*) where
  registrationMap : Bookkeeping.Config O (Option ℕ) := {}
  registrations : List (Registration O) := []
  destroyed : List O := []
  calls : List (Call O) := []
  external : List ℕ := []

section Map
variable {O : Type*} [DecidableEq O]

/-- The observers that are alive and have a live token. -/
def wanted (c : Config O) : List O :=
  ((c.registrationMap.tokens.filter (·.live)).map (·.key)).dedup.filter fun o => o ∉ c.destroyed

/-- The reference in the local variable goes with the exception. -/
def throwing (c : Config O) (t : ℕ) (what : String) : Option (Config O × Call O) :=
  (Bookkeeping.drop c.registrationMap t).map fun map => ({ c with registrationMap := map },.threw what)

/-- The calls, one operation of the map at a time. A null pointer crashes the program. -/
def advance (c : Config O) : Call O → Option (Config O × Call O)
  | .reReserved observer t =>
    match Bookkeeping.get c.registrationMap observer with
    | .ok r => some (c,.got observer t r)
    | .error what => throwing c t what
  | .got observer t (some r) =>
    some ({ c with registrations := c.registrations.modify r (·.set observer) },.added observer t)
  | .got observer t none =>
    match Bookkeeping.set c.registrationMap observer (some c.registrations.length) with
    | (.ok _,map) => some ({ c with
        registrationMap := map
        registrations := c.registrations ++ [{ observer := observer }] },.added observer t)
    | (.error what,_) => throwing c t what
  | .added observer t =>
    -- the argument of `observerAdded` is a strong pointer
    if observer ∈ c.destroyed then throwing c t "bad_weak_ptr"
    else some ({ c with external := t::c.external },.registered observer t)
  | .values [] result wanted => some (c,.observers result wanted)
  | .values (none::_) _ _ => some (c,.crashed)
  | .values (some r::registrations) result wanted =>
    (c.registrations[r]?).map fun registration => (c,.values registrations
      (if registration.observer ∈ c.destroyed then result else result ++ [registration.observer]) wanted)
  | _ => none

def registerObserver (c : Config O) (observer : O) : Config O :=
  let (t,map) := Bookkeeping.reReserve c.registrationMap observer
  { c with registrationMap := map, calls := c.calls ++ [.reReserved observer t] }

def getObservers (c : Config O) : Config O :=
  { c with calls := c.calls ++ [.values (Bookkeeping.values c.registrationMap) []
      (if c.registrationMap.tokens.all (!·.pending) then some (wanted c) else none)] }

end Map

/-- Calls begin, and go on; tokens are copied and given up, and have a destructor; observers are destroyed. -/
inductive Action (O : Type*)
  | registerObserver (observer : O)
  | getObservers
  | advance (j : ℕ)
  | copy (i : ℕ)
  | drop (i : ℕ)
  | destroy (i : ℕ)
  | release (i : ℕ)
  | destroyObserver (observer : O)

def step {O : Type*} [DecidableEq O] (c : Config O) : Action O → Option (Config O)
  | .registerObserver observer => some (registerObserver c observer)
  | .getObservers => some (getObservers c)
  | .advance j => (c.calls[j]?).bind fun call => (advance c call).map fun (d,call') =>
    { d with calls := c.calls.set j call' }
  | .copy i =>
    if i ∈ c.external then
      some { c with registrationMap := Bookkeeping.copy c.registrationMap i, external := i::c.external }
    else none
  | .drop i =>
    if i ∈ c.external then (Bookkeeping.drop c.registrationMap i).map fun map =>
      { c with registrationMap := map, external := c.external.erase i }
    else none
  | .destroy i => (Bookkeeping.destroy c.registrationMap i).map fun map => { c with registrationMap := map }
  | .release i => (Bookkeeping.release c.registrationMap i).map fun map => { c with registrationMap := map }
  | .destroyObserver observer => some { c with destroyed := observer::c.destroyed }

variable {O : Type*}

/-- A registration ends with a token for the observer, or as the observer is no more. The observers that are
found are wanted, and include all that are wanted still, each once. -/
def Call.Right (c : Config O) : Call O → Prop
  | .registered observer t => keyOf c.registrationMap t = some observer
  | .threw what => what ≠ "Invalid key"
  | .observers result wanted => result.Nodup ∧
    ∀ os ∈ wanted, (∀ o ∈ result, o ∈ os) ∧ ∀ o ∈ os, o ∉ c.destroyed → o ∈ result
  | .crashed => False
  | _ => True

def Call.ended : Call O → Bool
  | .registered .. | .threw _ | .observers .. | .crashed => true
  | _ => false

/-- Every call goes on until it ends, and ends right, and the live tokens of an observer are one. -/
structure Right [DecidableEq O] (c : Config O) : Prop where
  calls : ∀ call ∈ c.calls, call.Right c
  advance : ∀ call ∈ c.calls, call.ended = false → (advance c call).isSome = true
  token : ∀ i j o, keyOf c.registrationMap i = some o → keyOf c.registrationMap j = some o →
    0 < useCount c.registrationMap i → 0 < useCount c.registrationMap j → i = j

/-- The observer of a registration that has still to be set. -/
def Call.first : Call O → Option O
  | .reReserved observer _ => some observer
  | .got observer _ none => some observer
  | _ => none

/-- No observers are asked for while one is in the map for which nothing has been set yet. -/
def Allowed [DecidableEq O] (c : Config O) : Action O → Prop
  | .getObservers => ∀ call ∈ c.calls, ∀ o ∈ call.first, Bookkeeping.get c.registrationMap o ≠ .ok none
  | _ => True

instance [DecidableEq O] (c : Config O) : ∀ a, Decidable (Allowed c a)
  | .getObservers =>
    inferInstanceAs (Decidable (∀ call ∈ c.calls, ∀ o ∈ call.first, Bookkeeping.get c.registrationMap o ≠ .ok none))
  | .registerObserver _ | .advance _ | .copy _ | .drop _ | .destroy _ | .release _ | .destroyObserver _ =>
    isTrue trivial

/-- The steps of calls that are in progress. -/
def Action.Advances : Action O → Prop
  | .advance _ => True
  | _ => False

/-- However the calls in progress go on, they are right. -/
def StaysRight [DecidableEq O] (c : Config O) : Prop := Henceforth step Action.Advances Right c

/-- The reference that a call holds. -/
def Call.token : Call O → Option ℕ
  | .reReserved _ t => some t
  | .got _ t _ => some t
  | .added _ t => some t
  | _ => none

def observerOf (c : Config O) (r : ℕ) : Option O := (c.registrations[r]?).map (·.observer)

/-- Where `getObservers` is, with the observers that it has still to look at. -/
def Collecting (c : Config O) (result os : List O) (wanted : Option (List O)) : Prop :=
  (result ++ os).Nodup ∧ ∀ ws ∈ wanted, (∀ o ∈ result, o ∈ ws) ∧ (∀ o ∈ os, o ∉ c.destroyed → o ∈ ws) ∧
    ∀ o ∈ ws, o ∉ c.destroyed → o ∈ result ++ os

/-- What a call relies on. What `getObservers` has still to look at are registrations of observers. -/
def Call.Inv (c : Config O) : Call O → Prop
  | .reReserved o t => keyOf c.registrationMap t = some o
  | .got o t r => keyOf c.registrationMap t = some o ∧ ∀ r' ∈ r, observerOf c r' = some o
  | .added o t => keyOf c.registrationMap t = some o
  | .values rs result wanted =>
    ∃ os, List.Forall₂ (fun r o => ∃ r' ∈ r, observerOf c r' = some o) rs os ∧ Collecting c result os wanted
  | call => call.Right c

structure Inv (c : Config O) : Prop where
  map : Bookkeeping.Inv c.registrationMap
  counted : Counted c.registrationMap
  current : ∀ token ∈ c.registrationMap.tokens, token.current = true
  count : ∀ i, useCount c.registrationMap i = c.external.count i + c.calls.countP fun call => call.token = some i
  null : ∀ o, Bookkeeping.get c.registrationMap o = .ok none → ∃ call ∈ c.calls, call.first = some o
  set : ∀ o r, Bookkeeping.get c.registrationMap o = .ok (some r) → observerOf c r = some o
  calls : ∀ call ∈ c.calls, call.Inv c

theorem inv_initial : Inv ({} : Config O) where
  map := Bookkeeping.inv_initial
  counted := by simp [Counted]
  current := by simp
  count := by simp [useCount]
  null := by simp [Bookkeeping.get,Bookkeeping.lockKey]
  set := by simp [Bookkeeping.get,Bookkeeping.lockKey]
  calls := by simp

variable {c d : Config O} {call : Call O} {o : O} {i j t r : ℕ}

section Collecting
variable {result os : List O} {wanted : Option (List O)}

theorem Collecting.mono (h : Collecting c result os wanted) (hdest : ∀ o ∈ c.destroyed, o ∈ d.destroyed) :
    Collecting d result os wanted := by
  refine ⟨h.1,fun ws hws => ?_⟩
  obtain ⟨h₁,h₂,h₃⟩ := h.2 ws hws
  exact ⟨h₁,fun o ho hd => h₂ o ho (mt (hdest o) hd),fun o ho hd => h₃ o ho (mt (hdest o) hd)⟩

theorem Collecting.skip (h : Collecting c result (o::os) wanted) (hd : o ∈ c.destroyed) :
    Collecting c result os wanted := by
  refine ⟨h.1.sublist (List.Sublist.append_left (List.sublist_cons_self _ _) _),fun ws hws => ?_⟩
  obtain ⟨h₁,h₂,h₃⟩ := h.2 ws hws
  refine ⟨h₁,fun x hx => h₂ x (List.mem_cons_of_mem _ hx),fun x hx hxd => ?_⟩
  have hne : x ≠ o := fun he => hxd (he ▸ hd)
  simpa [hne] using h₃ x hx hxd

theorem Collecting.take (h : Collecting c result (o::os) wanted) (hd : o ∉ c.destroyed) :
    Collecting c (result ++ [o]) os wanted := by
  refine ⟨by simpa using h.1,fun ws hws => ?_⟩
  obtain ⟨h₁,h₂,h₃⟩ := h.2 ws hws
  refine ⟨fun x hx => ?_,fun x hx => h₂ x (List.mem_cons_of_mem _ hx),fun x hx hxd => by simpa using h₃ x hx hxd⟩
  rcases List.mem_append.mp hx with hx | hx
  · exact h₁ x hx
  · rw [List.mem_singleton.mp hx]
    exact h₂ o List.mem_cons_self hd

theorem Collecting.done (h : Collecting c result [] wanted) : (Call.observers result wanted).Inv c := by
  obtain ⟨hnodup,hw⟩ := h
  rw [List.append_nil] at hnodup hw
  exact ⟨hnodup,fun ws hws => ⟨(hw ws hws).1,(hw ws hws).2.2⟩⟩

end Collecting

theorem Call.Inv.mono (h : call.Inv c)
    (hkey : ∀ t o, keyOf c.registrationMap t = some o → keyOf d.registrationMap t = some o)
    (hregs : ∀ r o, observerOf c r = some o → observerOf d r = some o) (hdest : ∀ o ∈ c.destroyed, o ∈ d.destroyed) :
    call.Inv d := by
  cases call with
  | reReserved o t => exact hkey t o h
  | got o t r => exact ⟨hkey t o h.1,fun r' hr => hregs r' o (h.2 r' hr)⟩
  | added o t => exact hkey t o h
  | registered o t => exact hkey t o h
  | threw what => exact h
  | values rs result wanted =>
    obtain ⟨os,hos,hcollect⟩ := h
    exact ⟨os,hos.imp fun r o ⟨r',hr,ho⟩ => ⟨r',hr,hregs r' o ho⟩,hcollect.mono hdest⟩
  | observers result wanted =>
    refine ⟨h.1,fun ws hws => ?_⟩
    obtain ⟨h₁,h₂⟩ := h.2 ws hws
    exact ⟨h₁,fun o ho hd => h₂ o ho (mt (hdest o) hd)⟩
  | crashed => exact h

theorem Inv.frame (hi : Inv c) {map : Bookkeeping.Config O (Option ℕ)} {external : List ℕ}
    (hmap : Bookkeeping.Inv map) (hcounted : Counted map) (hgrows : Grows c.registrationMap map)
    (hcount : ∀ i, useCount map i = external.count i + c.calls.countP fun call => call.token = some i)
    (hget : ∀ o r, Bookkeeping.get map o = .ok r → Bookkeeping.get c.registrationMap o = .ok r) :
    Inv { c with registrationMap := map, external := external } where
  map := hmap
  counted := hcounted
  current := hgrows.current hi.current
  count := hcount
  null := fun o ho => hi.null o (hget o _ ho)
  set := fun o r ho => hi.set o r (hget o _ ho)
  calls := fun call hm => (hi.calls call hm).mono hgrows.key (fun _ _ h => h) fun _ h => h

theorem Inv.setCall (hi : Inv c) (hget : c.calls[j]? = some call) {map : Bookkeeping.Config O (Option ℕ)}
    {registrations : List (Registration O)} {external : List ℕ} {call' : Call O}
    (hd : d = { c with registrationMap := map, registrations := registrations, external := external })
    (hmap : Bookkeeping.Inv map) (hcounted : Counted map) (hgrows : Grows c.registrationMap map)
    (hcount : ∀ i, useCount map i + c.external.count i + (if call.token = some i then 1 else 0) =
      useCount c.registrationMap i + external.count i + if call'.token = some i then 1 else 0)
    (hregs : ∀ r o, observerOf c r = some o → observerOf d r = some o)
    (hnull : ∀ o, Bookkeeping.get map o = .ok none →
      Bookkeeping.get c.registrationMap o = .ok none ∧ (call.first = some o → call'.first = some o))
    (hset : ∀ o r, Bookkeeping.get map o = .ok (some r) → observerOf d r = some o)
    (hcall : call'.Inv d) : Inv { d with calls := c.calls.set j call' } where
  map := by rw [hd]; exact hmap
  counted := by rw [hd]; exact hcounted
  current := by rw [hd]; exact hgrows.current hi.current
  count := fun i => by
    have hset := countP_set_add (p := fun call : Call O => call.token = some i) (b := call') hget
    have hold := hi.count i
    have hnew := hcount i
    simp only [decide_eq_true_eq] at hset
    rw [hd]
    dsimp only
    omega
  null := fun o ho => by
    rw [hd] at ho
    obtain ⟨hold,hfirst⟩ := hnull o ho
    obtain ⟨x,hx,hxo⟩ := hi.null o hold
    obtain ⟨k,hk⟩ := List.getElem?_of_mem hx
    by_cases hj : j = k
    · subst hj
      cases hget.symm.trans hk
      exact ⟨call',List.mem_of_getElem? (getElem?_set_of_getElem? hget),hfirst hxo⟩
    · exact ⟨x,List.mem_of_getElem? ((List.getElem?_set_ne hj).trans hk),hxo⟩
  set := fun o r ho => by
    refine hset o r ?_
    rw [hd] at ho
    exact ho
  calls := by
    refine forall_mem_set (fun x hx => (hi.calls x hx).mono ?_ hregs ?_) hcall
    · rw [hd]
      exact hgrows.key
    · rw [hd]
      exact fun _ h => h

theorem Inv.replaceCall (hi : Inv c) (hget : c.calls[j]? = some call) {call' : Call O} (ht : call.token = call'.token)
    (hfirst : ∀ o, Bookkeeping.get c.registrationMap o = .ok none → call.first = some o → call'.first = some o)
    (hcall : call'.Inv c) : Inv { c with calls := c.calls.set j call' } :=
  hi.setCall hget rfl hi.map hi.counted (.of_tokens rfl) (fun i => by rw [ht]) (fun _ _ h => h)
    (fun o ho => ⟨ho,hfirst o ho⟩) hi.set hcall

theorem Inv.throwing (hi : Inv c) (hget : c.calls[j]? = some call) (ht : call.token = some t)
    (hfirst : call.first = none) {what : String} (hwhat : what ≠ "Invalid key") {call' : Call O}
    (h : throwing c t what = some (d,call')) : Inv { d with calls := c.calls.set j call' } := by
  obtain ⟨map,hdrop,he⟩ := Option.map_eq_some_iff.mp h
  cases he
  have htakes := Bookkeeping.takes_of_drop hi.counted hdrop
  refine hi.setCall hget rfl (hi.map.drop hdrop) (hi.counted.drop hdrop) (Bookkeeping.grows_drop hdrop) (fun i => ?_)
    (fun _ _ h => h) (fun o ho => ⟨(hi.map.get_drop hdrop).mp ho,by simp [hfirst]⟩)
    (fun o r ho => hi.set o r ((hi.map.get_drop hdrop).mp ho)) hwhat
  rw [htakes.count i,List.count_singleton,ht]
  simp [Call.token]
  omega

theorem observerOf_modify (hr : observerOf c r = some o) {r' : ℕ} {o' : O} (h : observerOf c r' = some o') :
    observerOf { c with registrations := c.registrations.modify r (·.set o) } r' = some o' := by
  obtain ⟨registration,hget,rfl⟩ := Option.map_eq_some_iff.mp h
  by_cases he : r = r'
  · subst he
    simp only [observerOf,hget,Option.map_some,Option.some.injEq] at hr
    simp [observerOf,hget,Registration.set,hr]
  · simp [observerOf,hget,he]

/-- The value may be null only as long as the call is to set it. -/
theorem Inv.get (hi : Inv c) (hget : c.calls[j]? = some (.reReserved o t)) {r : Option ℕ}
    (hr : Bookkeeping.get c.registrationMap o = .ok r) : Inv { c with calls := c.calls.set j (.got o t r) } := by
  refine hi.replaceCall hget rfl (fun o' ho hfirst => ?_)
    ⟨hi.calls _ (List.mem_of_getElem? hget),fun r' hr' => hi.set o r' (Option.mem_def.mp hr' ▸ hr)⟩
  cases hfirst
  cases hr.symm.trans ho
  rfl

theorem Inv.setAgain (hi : Inv c) (hget : c.calls[j]? = some (.got o t (some r))) :
    Inv { c with
      registrations := c.registrations.modify r (·.set o)
      calls := c.calls.set j (.added o t) } := by
  obtain ⟨hkey,hr⟩ := hi.calls _ (List.mem_of_getElem? hget)
  have hregs : ∀ r' o', observerOf c r' = some o' →
      observerOf { c with registrations := c.registrations.modify r (·.set o) } r' = some o' :=
    fun _ _ h => observerOf_modify (hr r rfl) h
  refine hi.setCall hget rfl hi.map hi.counted (.of_tokens rfl) (fun i => ?_) hregs (fun o' ho => ⟨ho,nofun⟩)
    (fun o' r' h => hregs r' o' (hi.set o' r' h)) hkey
  rfl

theorem Inv.live (hi : Inv c) (hm : call ∈ c.calls) (ht : call.token = some t) : 0 < useCount c.registrationMap t := by
  have hpos : 0 < c.calls.countP fun call => call.token = some t := List.countP_pos_iff.mpr ⟨call,hm,by simp [ht]⟩
  rw [hi.count]
  omega

variable [DecidableEq O]

theorem Inv.get_of_token (hi : Inv c) (hm : call ∈ c.calls) (ht : call.token = some t)
    (hk : keyOf c.registrationMap t = some o) : ∃ r, Bookkeeping.get c.registrationMap o = .ok r := by
  obtain ⟨token,hget,rfl⟩ := Option.map_eq_some_iff.mp hk
  have hlive := (Bookkeeping.live_iff hi.counted hget).mpr (hi.live hm ht)
  have hmem := List.mem_of_getElem? hget
  obtain ⟨r,hr,-⟩ := hi.map.toAgree.value token hmem hlive (hi.current token hmem)
  exact ⟨r,hr⟩

theorem Inv.right (hi : Inv c) : Right c where
  calls := fun call hm => by
    have hcall := hi.calls call hm
    cases call with
    | reReserved o t => trivial
    | got o t r => trivial
    | added o t => trivial
    | values rs result wanted => trivial
    | _ => exact hcall
  advance := fun call hm hend => by
    have hcall := hi.calls call hm
    cases call with
    | reReserved o t =>
      obtain ⟨r,hr⟩ := hi.get_of_token hm rfl hcall
      simp [Observable.advance,hr]
    | got o t r =>
      cases r with
      | some r => rfl
      | none =>
        obtain ⟨w,hw⟩ := hi.get_of_token hm rfl hcall.1
        obtain ⟨map,hset,-⟩ := hi.map.set_of_get hw (some c.registrations.length)
        simp [Observable.advance,hset]
    | added o t =>
      obtain ⟨map,hdrop⟩ := Bookkeeping.drop_of_useCount (hi.live hm rfl)
      simp only [Observable.advance,Observable.throwing,hdrop]
      split <;> rfl
    | values rs result wanted =>
      obtain ⟨os,hos,-⟩ := hcall
      cases hos with
      | nil => rfl
      | cons hr _ =>
        obtain ⟨r,rfl,ho⟩ := hr
        obtain ⟨registration,hr,-⟩ := Option.map_eq_some_iff.mp ho
        simp [Observable.advance,hr]
    | _ => cases hend
  token := fun i j o hki hkj hpi hpj => by
    obtain ⟨token,hget,rfl⟩ := Option.map_eq_some_iff.mp hki
    obtain ⟨token',hget',hkey⟩ := Option.map_eq_some_iff.mp hkj
    exact hi.map.token_unique hget hget' ((Bookkeeping.live_iff hi.counted hget).mpr hpi)
      ((Bookkeeping.live_iff hi.counted hget').mpr hpj) (hi.current token (List.mem_of_getElem? hget))
      (hi.current token' (List.mem_of_getElem? hget')) hkey.symm

theorem Inv.setNew (hi : Inv c) (hget : c.calls[j]? = some (.got o t none)) {map : Bookkeeping.Config O (Option ℕ)}
    (hset : Bookkeeping.set c.registrationMap o (some c.registrations.length) = (.ok (),map))
    (hmap : ∀ k r, Bookkeeping.get map k = .ok r ↔
      if k = o then some c.registrations.length = r else Bookkeeping.get c.registrationMap k = .ok r) :
    Inv { c with
      registrationMap := map
      registrations := c.registrations ++ [{ observer := o }]
      calls := c.calls.set j (.added o t) } := by
  have hkey := (hi.calls _ (List.mem_of_getElem? hget)).1
  have hinv := hi.map.set o (some c.registrations.length)
  have htakes := Bookkeeping.takes_set (c := c.registrationMap) o (some c.registrations.length)
  have hgrows := Bookkeeping.grows_set (c := c.registrationMap) o (some c.registrations.length)
  rw [hset] at hinv htakes hgrows
  have hregs : ∀ r' o', observerOf c r' = some o' →
      observerOf { c with registrations := c.registrations ++ [{ observer := o }] } r' = some o' := by
    intro r' o' h
    obtain ⟨registration,hr',rfl⟩ := Option.map_eq_some_iff.mp h
    simp [observerOf,getElem?_append_of_getElem? hr']
  refine hi.setCall hget rfl hinv (htakes.counted hi.counted) hgrows (fun i => ?_) hregs (fun o' ho => ?_)
    (fun o' r' h => ?_) (hgrows.key t o hkey)
  · rw [htakes.count]
    rfl
  · have ho' := (hmap o' none).mp ho
    split_ifs at ho' with he
    exact ⟨ho',fun hf => absurd (Option.some.inj hf).symm he⟩
  · have h' := (hmap o' (some r')).mp h
    split_ifs at h' with he
    · cases h'
      simp [observerOf,he]
    · exact hregs r' o' (hi.set o' r' h')

theorem Inv.advance (hi : Inv c) (hget : c.calls[j]? = some call) {call' : Call O}
    (h : Observable.advance c call = some (d,call')) : Inv { d with calls := c.calls.set j call' } := by
  have hm := List.mem_of_getElem? hget
  have hcall := hi.calls call hm
  cases call with
  | reReserved o t =>
    obtain ⟨r,hr⟩ := hi.get_of_token hm rfl hcall
    simp only [Observable.advance,hr,Option.some.injEq,Prod.mk.injEq] at h
    obtain ⟨rfl,rfl⟩ := h
    exact hi.get hget hr
  | got o t r =>
    cases r with
    | some r =>
      simp only [Observable.advance,Option.some.injEq,Prod.mk.injEq] at h
      obtain ⟨rfl,rfl⟩ := h
      exact hi.setAgain hget
    | none =>
      obtain ⟨w,hw⟩ := hi.get_of_token hm rfl hcall.1
      obtain ⟨map,hset,hmap⟩ := hi.map.set_of_get hw (some c.registrations.length)
      simp only [Observable.advance,hset,Option.some.injEq,Prod.mk.injEq] at h
      obtain ⟨rfl,rfl⟩ := h
      exact hi.setNew hget hset hmap
  | added o t =>
    simp only [Observable.advance] at h
    split_ifs at h with hd
    · exact hi.throwing hget rfl rfl (by decide) h
    · simp only [Option.some.injEq,Prod.mk.injEq] at h
      obtain ⟨rfl,rfl⟩ := h
      refine hi.setCall hget rfl hi.map hi.counted (.of_tokens rfl) (fun i => ?_) (fun _ _ h => h)
        (fun o' ho => ⟨ho,nofun⟩) hi.set hcall
      simp only [Call.token,List.count_cons,Option.some.injEq,reduceCtorEq,if_false,beq_iff_eq]
      omega
  | values rs result wanted =>
    obtain ⟨os,hos,hcollect⟩ := hcall
    cases hos with
    | nil =>
      simp only [Observable.advance,Option.some.injEq,Prod.mk.injEq] at h
      obtain ⟨rfl,rfl⟩ := h
      exact hi.replaceCall hget rfl (fun _ _ => nofun) hcollect.done
    | cons hr hos =>
      obtain ⟨r,rfl,ho⟩ := hr
      obtain ⟨registration,hr,rfl⟩ := Option.map_eq_some_iff.mp ho
      simp only [Observable.advance,hr,Option.map_some,Option.some.injEq,Prod.mk.injEq] at h
      obtain ⟨rfl,rfl⟩ := h
      refine hi.replaceCall hget rfl (fun _ _ => nofun) ⟨_,hos,?_⟩
      split_ifs with hd
      · exact hcollect.skip hd
      · exact hcollect.take hd
  | registered o t => cases h
  | threw what => cases h
  | observers result wanted => cases h
  | crashed => cases h

theorem Inv.registerObserver (hi : Inv c) (o : O) : Inv (registerObserver c o) := by
  have htakes : Takes c.registrationMap (Bookkeeping.reReserve c.registrationMap o).2
      [(Bookkeeping.reReserve c.registrationMap o).1] := Bookkeeping.takes_reReserve hi.counted rfl
  have hgrows := Bookkeeping.grows_reReserve (c := c.registrationMap) o
  refine ⟨hi.map.reReserve o,htakes.counted hi.counted,hgrows.current hi.current,fun i => ?_,fun o' ho => ?_,
    fun o' r ho => ?_,fun call hm => ?_⟩
  · refine (htakes.count i).trans ?_
    simp [hi.count,Observable.registerObserver,Call.token,List.count_singleton,Nat.add_assoc]
  · rcases (hi.map.get_reReserve o).mp ho with ho | ⟨rfl,-⟩
    · obtain ⟨call,hm,hfirst⟩ := hi.null o' ho
      exact ⟨call,List.mem_append_left _ hm,hfirst⟩
    · exact ⟨_,List.mem_append_right _ (List.mem_singleton_self _),rfl⟩
  · rcases (hi.map.get_reReserve o).mp ho with ho | ⟨-,hr,-⟩
    · exact hi.set o' r ho
    · cases hr
  · rcases List.mem_append.mp hm with hm | hm
    · exact (hi.calls call hm).mono hgrows.key (fun _ _ h => h) fun _ h => h
    · rw [List.mem_singleton.mp hm]
      exact hi.map.keyOf_reReserve o

theorem mem_wanted : o ∈ wanted c ↔
    (∃ token ∈ c.registrationMap.tokens, token.live = true ∧ token.key = o) ∧ o ∉ c.destroyed := by
  simp [wanted,and_assoc]

theorem Inv.getObservers (hi : Inv c) (hok : Allowed c .getObservers) : Inv (getObservers c) := by
  refine ⟨hi.map,hi.counted,hi.current,fun i => ?_,fun o ho => ?_,hi.set,fun call hm => ?_⟩
  · simpa [Observable.getObservers,Call.token] using hi.count i
  · obtain ⟨call,hm,hfirst⟩ := hi.null o ho
    exact ⟨call,List.mem_append_left _ hm,hfirst⟩
  · rcases List.mem_append.mp hm with hm | hm
    · exact (hi.calls call hm).mono (fun _ _ h => h) (fun _ _ h => h) fun _ h => h
    · rw [List.mem_singleton.mp hm]
      refine ⟨_,hi.map.forall₂_values.imp fun r o hr => ?_,Bookkeeping.keys_nodup _,fun ws hws => ?_⟩
      · cases r with
        | none =>
          obtain ⟨call,hm,hfirst⟩ := hi.null o hr
          exact absurd hr (hok call hm o hfirst)
        | some r => exact ⟨r,rfl,hi.set o r hr⟩
      · obtain ⟨hpending,⟨⟩⟩ := Option.ite_none_right_eq_some.mp hws
        have hentry : ∀ o, o ∈ Bookkeeping.keys c.registrationMap ↔
            ∃ token ∈ c.registrationMap.tokens, token.live = true ∧ token.key = o := by
          intro o
          rw [hi.map.mem_keys,hi.map.toAgree.present (by simpa using hpending)]
          refine exists_congr fun token => and_congr_right fun hm => ?_
          simp [hi.current token hm,and_comm]
        refine ⟨by simp,fun o ho hd => mem_wanted.mpr ⟨(hentry o).mp ho,hd⟩,fun o ho _ => ?_⟩
        exact (hentry o).mpr (mem_wanted.mp ho).1

theorem Inv.step (hi : Inv c) {a : Action O} (hok : Allowed c a) (h : step c a = some d) : Inv d := by
  cases a with
  | registerObserver o =>
    cases h
    exact hi.registerObserver o
  | getObservers =>
    cases h
    exact hi.getObservers hok
  | advance j =>
    obtain ⟨call,hget,h⟩ := Option.bind_eq_some_iff.mp h
    obtain ⟨⟨d',call'⟩,hadvance,rfl⟩ := Option.map_eq_some_iff.mp h
    exact hi.advance hget hadvance
  | copy i =>
    obtain ⟨hm,⟨⟩⟩ := Option.ite_none_right_eq_some.mp h
    have htakes := Bookkeeping.takes_copy (Bookkeeping.useCount_pos hi.count hm)
    exact hi.frame (hi.map.copy i) (htakes.counted hi.counted) (Bookkeeping.grows_copy i) (htakes.cons hi.count)
      fun o r => hi.map.get_copy.mp
  | drop i =>
    obtain ⟨hm,h⟩ := Option.ite_none_right_eq_some.mp h
    obtain ⟨map,hdrop,rfl⟩ := Option.map_eq_some_iff.mp h
    have htakes := Bookkeeping.takes_of_drop hi.counted hdrop
    exact hi.frame (hi.map.drop hdrop) (hi.counted.drop hdrop) (Bookkeeping.grows_drop hdrop)
      (htakes.erase hi.count hm) fun o r => (hi.map.get_drop hdrop).mp
  | destroy i =>
    obtain ⟨map,hdestroy,rfl⟩ := Option.map_eq_some_iff.mp h
    have htakes := Bookkeeping.takes_destroy hdestroy
    refine hi.frame (hi.map.destroy hdestroy) (htakes.counted hi.counted) (Bookkeeping.grows_destroy hdestroy)
      (fun j => ?_) fun o r => hi.map.get_destroy hdestroy
    rw [htakes.count,hi.count]
    rfl
  | release i =>
    obtain ⟨map,hrelease,rfl⟩ := Option.map_eq_some_iff.mp h
    have htakes := Bookkeeping.takes_release hrelease
    refine hi.frame (hi.map.release hrelease) (htakes.counted hi.counted) (Bookkeeping.grows_release hrelease)
      (fun j => ?_) fun o r => (hi.map.get_release hrelease).mp
    rw [htakes.count,hi.count]
    rfl
  | destroyObserver o =>
    cases h
    exact ⟨hi.map,hi.counted,hi.current,hi.count,hi.null,hi.set,fun call hm =>
      (hi.calls call hm).mono (fun _ _ h => h) (fun _ _ h => h) fun _ => List.mem_cons_of_mem _⟩

/-! A null pointer among the registrations is reached in the end. -/

theorem StaysRight.advance (hl : StaysRight c) (h : Observable.step c (.advance j) = some d) : StaysRight d :=
  Henceforth.of_step hl (a := .advance j) (show Action.Advances (.advance j) from trivial) h

theorem StaysRight.no_null {rs : List (Option ℕ)} {result : List O} {wanted : Option (List O)} (hl : StaysRight c)
    (hget : c.calls[j]? = some (.values rs result wanted)) (hregs : ∀ r, some r ∈ rs → ∃ o, observerOf c r = some o) :
    none ∉ rs := by
  induction rs generalizing c result with
  | nil => simp
  | cons r rs ih =>
    cases r with
    | none =>
      have hd : Observable.step c (.advance j) = some { c with calls := c.calls.set j .crashed } := by
        simp [Observable.step,hget,Observable.advance]
      have hcrashed := (hl.advance hd).now.calls _ (List.mem_of_getElem? (getElem?_set_of_getElem? hget))
      exact hcrashed.elim
    | some r =>
      obtain ⟨o,ho⟩ := hregs r List.mem_cons_self
      obtain ⟨registration,hr,rfl⟩ := Option.map_eq_some_iff.mp ho
      have hd : Observable.step c (.advance j) = some { c with calls := c.calls.set j (.values rs
          (if registration.observer ∈ c.destroyed then result else result ++ [registration.observer]) wanted) } := by
        simp only [Observable.step,hget,Option.bind_some,Observable.advance,hr,Option.map_some]
      have hrest := ih (hl.advance hd) (getElem?_set_of_getElem? hget)
        fun r' hr' => hregs r' (List.mem_cons_of_mem _ hr')
      simpa using hrest

theorem StaysRight.allowed (hi : Inv c) {a : Action O} (h : Observable.step c a = some d) (hl : StaysRight d) :
    Allowed c a := by
  cases a with
  | getObservers =>
    cases h
    have hnull := hl.no_null List.getElem?_concat_length fun r hr => ?_
    · intro call hm o ho hget
      exact hnull (hi.map.mem_values.mpr ⟨o,hget⟩)
    · obtain ⟨o,ho⟩ := hi.map.mem_values.mp hr
      exact ⟨o,hi.set o r ho⟩
  | _ => exact trivial

/-- In a run in which no observers are asked for between the two halves of a registration, every call is right, in
every state. The condition is exact: it singles out the runs in which this is so however the calls in progress of
each state go on. -/
theorem observers_registered (as : List (Action O)) (c : Config O) (h : run step as {} = some c) :
    (Within step Allowed as ({} : Config O) → Always step Right as ({} : Config O)) ∧
      (Within step Allowed as ({} : Config O) ↔ Always step StaysRight as ({} : Config O)) :=
  always_henceforth_iff_within (I := Inv) (fun _ hc => hc.right)
    (fun _ a ha => by cases a <;> first | exact trivial | exact ha.elim)
    (fun _ _ _ hc hok hd => hc.step hok hd) (fun _ _ _ hc hd hl => StaysRight.allowed hc hd hl) inv_initial h

/-- An observer is registered twice, another one is registered while the token of its first registration has still
to be cleaned up, and a third one is destroyed. -/
theorem observers_registered_again :
    let as : List (Action ℕ) := [.registerObserver 7,.registerObserver 7,.advance 0,.advance 1,.advance 0,.advance 1,
      .advance 0,.advance 1,.drop 0,.registerObserver 8,.advance 2,.advance 2,.advance 2,.drop 1,.registerObserver 8,
      .advance 3,.destroy 1,.advance 3,.advance 3,.registerObserver 9,.advance 4,.destroyObserver 9,.advance 4,
      .advance 4,.destroy 3,.getObservers,.advance 5,.advance 5,.advance 5]
    Always step Right as ({} : Config ℕ) ∧ (run step as ({} : Config ℕ)).map (·.calls) =
      some [.registered 7 0,.registered 7 0,.registered 8 1,.registered 8 2,.threw "bad_weak_ptr",
        .observers [7,8] (some [7,8])] := by
  intro as
  have hrun : (run step as ({} : Config ℕ)).isSome = true := by decide +kernel
  exact ⟨(observers_registered as ((run step as {}).get hrun) (Option.some_get _).symm).1 (by decide +kernel),
    by decide +kernel⟩

/-- The observers are asked for before anything is set for the one that is being registered. -/
theorem observers_crashed :
    ∃ c, run step [.registerObserver 7,.getObservers,.advance 1] ({} : Config ℕ) = some c ∧
      c.calls = [.reReserved 7 0,.crashed] ∧ wanted c = [7] ∧ ¬Right c := by
  refine ⟨_,rfl,rfl,rfl,fun h => ?_⟩
  exact h.calls .crashed (by decide)

end Observable
end Scroom
