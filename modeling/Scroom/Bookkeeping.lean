import Mathlib.Logic.Function.Basic
import Scroom.Transitions

/-! Maps whose entries last as long as the tokens that were handed out for them. A token cleans up
some time after its last reference is gone, and the key may have been reserved again by then. -/
namespace Scroom
namespace Bookkeeping
open Transitions

/-- What is left of a token: references, a destructor that has still to remove the key, one that
has still to release what the token holds, nothing. -/
inductive Phase
  | held (useCount : ℕ) | expired | removed | gone
  deriving DecidableEq

/-- A token and the value that it holds. The last two fields only record what has happened: the key
was not removed explicitly since the token was handed out, and what was last set while it was live. -/
structure Token (K V : Type*) where
  key : K
  cell : ℕ
  phase : Phase := .held 1
  current : Bool := true
  lastSet : Option V := none
  deriving DecidableEq

structure ValueType (V : Type*) where
  value : V
  token : Option ℕ := none
  deriving DecidableEq

/-- The map refers to values, the values to tokens, both weakly. An `LValue` is a reference to a
value. -/
structure Config (K V : Type*) where
  map : K → Option ℕ := fun _ => none
  cells : List (ValueType V) := []
  tokens : List (Token K V) := []
  lvalues : List ℕ := []

/-- There are references. -/
def Token.live {K V : Type*} (token : Token K V) : Bool :=
  match token.phase with
  | .held _ => true
  | _ => false

/-- The destructor has still to remove the key. -/
def Token.pending {K V : Type*} (token : Token K V) : Bool := token.phase = .expired

section Map
variable {K V : Type*} [DecidableEq K]

def lockToken (c : Config K V) (i : ℕ) : Option ℕ := if (c.tokens[i]?).any Token.live then some i else none

/-- A value exists as long as some token or some `LValue` refers to it. -/
def lockValue (c : Config K V) (id : ℕ) : Option (ℕ × ValueType V) :=
  if c.tokens.any (fun token => token.cell = id ∧ token.phase ≠ .gone) ∨ id ∈ c.lvalues then
    (c.cells[id]?).map fun pv => (id,pv)
  else none

/-- The value of a key, if it has one. -/
def lockKey (c : Config K V) (k : K) : Option (ℕ × ValueType V) := (c.map k).bind (lockValue c)

/-- Hand out a new token that holds a value and is the token of it. -/
def createToken (c : Config K V) (k : K) (id : ℕ) (value : V) : Config K V :=
  { c with
    map := Function.update c.map k (some id)
    cells := c.cells.set id { value := value, token := some c.tokens.length }
    tokens := c.tokens ++ [{ key := k, cell := id }] }

/-- A new value, to be the value of a key. -/
def createValue [Inhabited V] (c : Config K V) : Config K V := { c with cells := c.cells ++ [{ value := default }] }

def reserve [Inhabited V] (c : Config K V) (k : K) : Except String ℕ × Config K V :=
  match c.map k with
  | some _ => (.error "Key already exists",c)
  | none => (.ok c.tokens.length,createToken (createValue c) k c.cells.length default)

def setPhase (c : Config K V) (i : ℕ) (token : Token K V) (phase : Phase) : Config K V :=
  { c with tokens := c.tokens.set i { token with phase := phase } }

/-- One more reference to a token. -/
def copy (c : Config K V) (i : ℕ) : Config K V :=
  match c.tokens[i]? with
  | some token =>
    match token.phase with
    | .held useCount => setPhase c i token (.held (useCount+1))
    | _ => c
  | none => c

def reReserve [Inhabited V] (c : Config K V) (k : K) : ℕ × Config K V :=
  match lockKey c k with
  | some (id,pv) =>
    match pv.token.bind (lockToken c) with
    | some i => (i,copy c i)
    | none => (c.tokens.length,createToken c k id pv.value)
  | none => (c.tokens.length,createToken (createValue c) k c.cells.length default)

def erase (c : Config K V) (k : K) : Config K V := { c with map := Function.update c.map k none }

/-- `remove(k, wt)`. Two pointers to no token at all are equal. -/
def removeToken (c : Config K V) (k : K) (wt : ℕ) : Config K V :=
  match c.map k with
  | some id =>
    match lockValue c id with
    | some (_,pv) => if lockToken c wt = pv.token.bind (lockToken c) then erase c k else c
    | none => erase c k
  | none => c

def remove (c : Config K V) (k : K) : Config K V :=
  { erase c k with
    tokens := c.tokens.map fun token => if token.key = k then { token with current := false } else token }

/-- Set a value, and record it with its token. -/
def assign (c : Config K V) (id : ℕ) (v : V) : Config K V :=
  match c.cells[id]? with
  | some pv =>
    { c with
      cells := c.cells.modify id fun pv => { pv with value := v }
      tokens :=
        match pv.token.bind (lockToken c) with
        | some i => c.tokens.modify i fun token => { token with lastSet := some v }
        | none => c.tokens }
  | none => c

def at' (c : Config K V) (k : K) : Except String ℕ × Config K V :=
  match lockKey c k with
  | some (id,_) => (.ok id,{ c with lvalues := id::c.lvalues })
  | none => (.error "Invalid key",c)

def set (c : Config K V) (k : K) (v : V) : Except String Unit × Config K V :=
  match lockKey c k with
  | some (id,_) => (.ok (),assign c id v)
  | none => (.error "Invalid key",c)

def get (c : Config K V) (k : K) : Except String V :=
  match lockKey c k with
  | some (_,pv) => .ok pv.value
  | none => .error "Invalid key"

/-- One reference to a token less. With the last one the token expires. -/
def drop (c : Config K V) (i : ℕ) : Option (Config K V) :=
  (c.tokens[i]?).bind fun token =>
    match token.phase with
    | .held useCount => some (setPhase c i token (if useCount = 1 then .expired else .held (useCount-1)))
    | _ => none

/-- The body of `~MapTokenImpl` -/
def destroy (c : Config K V) (i : ℕ) : Option (Config K V) :=
  (c.tokens[i]?).bind fun token =>
    if token.pending then some (setPhase (removeToken c token.key i) i token .removed) else none

/-- The rest of the destructor, where the token releases the value. -/
def release (c : Config K V) (i : ℕ) : Option (Config K V) :=
  (c.tokens[i]?).bind fun token =>
    if token.phase = .removed then some (setPhase c i token .gone) else none

end Map

inductive Action (K V : Type*)
  | reserve (k : K)
  | reReserve (k : K)
  | copy (i : ℕ)
  | drop (i : ℕ)
  | destroy (i : ℕ)
  | release (i : ℕ)
  | remove (k : K)
  | set (k : K) (v : V)
  | get (k : K)
  | at' (k : K)
  | assign (j : ℕ) (v : V)
  | forget (j : ℕ)

/-- A call that throws is a step, too. -/
def step {K V : Type*} [DecidableEq K] [Inhabited V] (c : Config K V) : Action K V → Option (Config K V)
  | .reserve k => some (reserve c k).2
  | .reReserve k => some (reReserve c k).2
  | .copy i => if (c.tokens[i]?).any Token.live then some (copy c i) else none
  | .drop i => drop c i
  | .destroy i => destroy c i
  | .release i => release c i
  | .remove k => some (remove c k)
  | .set k v => some (set c k v).2
  | .get _ => some c
  | .at' k => some (at' c k).2
  | .assign j v => (c.lvalues[j]?).map fun id => assign c id v
  | .forget j => some { c with lvalues := c.lvalues.eraseIdx j }

variable {K V : Type*}

/-- What holds between any two steps: the token of an entry is live, or has still to remove it. -/
structure Inv (c : Config K V) : Prop where
  owner : ∀ id (pv : ValueType V) i, c.cells[id]? = some pv → pv.token = some i →
    ∃ token, c.tokens[i]? = some token ∧ token.cell = id
  entry : ∀ k id, c.map k = some id → ∃ pv i token, c.cells[id]? = some pv ∧ pv.token = some i ∧
    c.tokens[i]? = some token ∧ token.key = k ∧ token.current = true ∧
    (token.live = true ∨ token.pending = true)
  current : ∀ i (token : Token K V), c.tokens[i]? = some token → token.live = true →
    token.current = true → c.map token.key = some token.cell ∧
      ∃ pv, c.cells[token.cell]? = some pv ∧ pv.token = some i ∧ ∀ v, token.lastSet = some v → pv.value = v

theorem inv_initial : Inv ({} : Config K V) where
  owner := by simp
  entry := by simp
  current := by simp

variable {c d : Config K V} {k : K} {v : V} {i id : ℕ} {token : Token K V} {pv : ValueType V}

theorem lockToken_eq_some {j : ℕ} :
    lockToken c i = some j ↔ i = j ∧ ∃ token, c.tokens[i]? = some token ∧ token.live = true := by
  rw [lockToken,Option.ite_none_right_eq_some,Option.any_eq_true]
  simp [and_comm]

theorem drop_eq_some_iff : drop c i = some d ↔ ∃ token useCount, c.tokens[i]? = some token ∧
    token.phase = .held useCount ∧ d = setPhase c i token (if useCount = 1 then .expired else .held (useCount-1)) := by
  rw [drop,Option.bind_eq_some_iff]
  constructor
  · rintro ⟨token,hget,h⟩
    split at h
    next n hp =>
      cases h
      exact ⟨token,n,hget,hp,rfl⟩
    next => cases h
  · rintro ⟨token,n,hget,hp,rfl⟩
    exact ⟨token,hget,by simp [hp]⟩

theorem copy_map (c : Config K V) (i : ℕ) : (copy c i).map = c.map := by
  unfold copy
  (repeat' split) <;> rfl

theorem copy_cells (c : Config K V) (i : ℕ) : (copy c i).cells = c.cells := by
  unfold copy
  (repeat' split) <;> rfl

/-- The phase of a token matters only while it is live, or its destructor has still to run. -/
theorem Inv.setPhase (hi : Inv c) (hget : c.tokens[i]? = some token) {phase : Phase}
    (hlive : ({ token with phase := phase } : Token K V).live = true → token.live = true)
    (hentry : (({ token with phase := phase } : Token K V).live = true ∨
        ({ token with phase := phase } : Token K V).pending = true) ∨
      ∀ k id (pv : ValueType V), c.map k = some id → c.cells[id]? = some pv → pv.token ≠ some i) :
    Inv (setPhase c i token phase) where
  owner := fun id pv j hpv ht => by
    obtain ⟨x,hx,hcell⟩ := hi.owner id pv j hpv ht
    by_cases hj : i = j
    · subst hj
      cases hget.symm.trans hx
      exact ⟨_,getElem?_set_of_getElem? hget,hcell⟩
    · exact ⟨x,by simpa [Bookkeeping.setPhase,List.getElem?_set_ne hj] using hx,hcell⟩
  entry := fun k id hk => by
    obtain ⟨pv,j,x,hpv,ht,hx,hkey,hcurrent,hphase⟩ := hi.entry k id hk
    refine ⟨pv,j,?_⟩
    by_cases hj : i = j
    · subst hj
      cases hget.symm.trans hx
      have hphase' := hentry.resolve_right fun h => h k id pv hk hpv ht
      exact ⟨_,hpv,ht,getElem?_set_of_getElem? hget,hkey,hcurrent,hphase'⟩
    · exact ⟨x,hpv,ht,by simpa [Bookkeeping.setPhase,List.getElem?_set_ne hj] using hx,hkey,hcurrent,hphase⟩
  current := fun j x hx hl hcurrent => by
    by_cases hj : i = j
    · subst hj
      cases (getElem?_set_of_getElem? hget).symm.trans hx
      exact hi.current i token hget (hlive hl) hcurrent
    · exact hi.current j x (by simpa [Bookkeeping.setPhase,List.getElem?_set_ne hj] using hx) hl hcurrent

theorem lockToken_of_not_live (hget : c.tokens[i]? = some token) (h : token.live = false) :
    lockToken c i = none := by
  simp [lockToken,hget,h]

theorem Inv.lockValue (hi : Inv c) (hk : c.map k = some id) (hpv : c.cells[id]? = some pv) :
    lockValue c id = some (id,pv) := by
  obtain ⟨pv',i,token,hpv',ht,hget,-,-,hphase⟩ := hi.entry k id hk
  cases hpv.symm.trans hpv'
  obtain ⟨token',hget',hcell⟩ := hi.owner id pv i hpv ht
  cases hget.symm.trans hget'
  have hne : token.phase ≠ .gone := by
    intro hg
    simp [Token.live,Token.pending,hg] at hphase
  have hany : c.tokens.any (fun token => token.cell = id ∧ token.phase ≠ .gone) = true :=
    List.any_eq_true.mpr ⟨token,List.mem_of_getElem? hget,by simp [hcell,hne]⟩
  rw [Bookkeeping.lockValue,if_pos (.inl hany),hpv]
  rfl

theorem Inv.lockKey (hi : Inv c) (hk : c.map k = some id) (hpv : c.cells[id]? = some pv) :
    lockKey c k = some (id,pv) := by
  rw [Bookkeeping.lockKey,hk]
  exact hi.lockValue hk hpv

theorem Inv.token_unique {j : ℕ} (hi : Inv c) {token' : Token K V} (hget : c.tokens[i]? = some token)
    (hget' : c.tokens[j]? = some token') (hlive : token.live = true) (hlive' : token'.live = true)
    (hcurrent : token.current = true) (hcurrent' : token'.current = true) (hkey : token.key = token'.key) : i = j := by
  obtain ⟨hk,pv,hpv,ht,-⟩ := hi.current i token hget hlive hcurrent
  obtain ⟨hk',pv',hpv',ht',-⟩ := hi.current j token' hget' hlive' hcurrent'
  rw [hkey,hk',Option.some.injEq] at hk
  rw [hk,hpv,Option.some.injEq] at hpv'
  rw [← hpv',ht] at ht'
  exact Option.some.inj ht'

theorem Inv.map_injective {k' : K} (hi : Inv c) (hk : c.map k = some id) (hk' : c.map k' = some id) : k = k' := by
  obtain ⟨pv,i,token,hpv,ht,hget,rfl,-⟩ := hi.entry k id hk
  obtain ⟨pv',i',token',hpv',ht',hget',rfl,-⟩ := hi.entry k' id hk'
  cases hpv.symm.trans hpv'
  cases ht.symm.trans ht'
  cases hget.symm.trans hget'
  rfl

theorem Inv.withLValues (hi : Inv c) (lvalues : List ℕ) : Inv { c with lvalues := lvalues } :=
  ⟨hi.owner,hi.entry,hi.current⟩

theorem Inv.createValue [Inhabited V] (hi : Inv c) : Inv (createValue c) where
  owner := fun id pv i hpv ht => by
    rcases getElem?_append_singleton hpv with hpv | ⟨-,rfl⟩
    · exact hi.owner id pv i hpv ht
    · cases ht
  entry := fun k id hk => by
    obtain ⟨pv,i,token,hpv,hrest⟩ := hi.entry k id hk
    exact ⟨pv,i,token,getElem?_append_of_getElem? hpv,hrest⟩
  current := fun i token hget hlive hcurrent => by
    obtain ⟨hk,pv,hpv,hrest⟩ := hi.current i token hget hlive hcurrent
    exact ⟨hk,pv,getElem?_append_of_getElem? hpv,hrest⟩

/-- A token as it is after a value was set, which may be that of the token. -/
def Token.note (token : Token K V) (own : Prop) [Decidable own] (v : V) : Token K V :=
  if own then { token with lastSet := some v } else token

section Note
variable (token : Token K V) (own : Prop) [Decidable own] (v : V)

@[simp] theorem Token.note_key : (token.note own v).key = token.key := by unfold note; split <;> rfl
@[simp] theorem Token.note_cell : (token.note own v).cell = token.cell := by unfold note; split <;> rfl
@[simp] theorem Token.note_current : (token.note own v).current = token.current := by unfold note; split <;> rfl
@[simp] theorem Token.note_phase : (token.note own v).phase = token.phase := by unfold note; split <;> rfl
@[simp] theorem Token.note_live : (token.note own v).live = token.live := by unfold note; split <;> rfl
@[simp] theorem Token.note_pending : (token.note own v).pending = token.pending := by unfold note; split <;> rfl

end Note

/-- Only the token of the value notices, if it is live. -/
theorem assign_tokens (hpv : c.cells[id]? = some pv) (j : ℕ) :
    (assign c id v).tokens[j]? =
      (c.tokens[j]?).map fun token => token.note (pv.token = some j ∧ token.live = true) v := by
  simp only [assign,hpv]
  cases hl : pv.token.bind (lockToken c) with
  | none =>
    cases hget : c.tokens[j]? with
    | none => simp
    | some token =>
      have hne : ¬(pv.token = some j ∧ token.live = true) := by
        rintro ⟨ht,hlive⟩
        rw [ht,Option.bind_some,lockToken_eq_some.mpr ⟨rfl,token,hget,hlive⟩] at hl
        cases hl
      simp [Token.note,hne]
  | some i =>
    obtain ⟨i',ht,hi⟩ := Option.bind_eq_some_iff.mp hl
    obtain ⟨rfl,token,hget,hlive⟩ := lockToken_eq_some.mp hi
    simp only [List.getElem?_modify,ht,Option.some.injEq]
    by_cases hj : i' = j
    · subst hj
      simp [Token.note,hget,hlive]
    · simp [Token.note,hj]

theorem assign_cells (hpv : c.cells[id]? = some pv) (j : ℕ) :
    (assign c id v).cells[j]? = (c.cells[j]?).map fun pv => if id = j then { pv with value := v } else pv := by
  simp [assign,hpv,List.getElem?_modify]

theorem Inv.assign_some (hi : Inv c) (hpv : c.cells[id]? = some pv) : Inv (assign c id v) where
  owner := fun id' pv' i hpv' ht => by
    rw [assign_cells hpv] at hpv'
    obtain ⟨old,hold,rfl⟩ := Option.map_eq_some_iff.mp hpv'
    obtain ⟨token,hget,hcell⟩ := hi.owner id' old i hold (by split at ht <;> exact ht)
    exact ⟨_,by rw [assign_tokens hpv,hget]; rfl,by simpa using hcell⟩
  entry := fun k id' hk => by
    have hk' : c.map k = some id' := by simpa [assign,hpv] using hk
    obtain ⟨old,i,token,hold,ht,hget,hrest⟩ := hi.entry k id' hk'
    refine ⟨_,i,_,by rw [assign_cells hpv,hold]; rfl,?_,by rw [assign_tokens hpv,hget]; rfl,?_⟩
    · split <;> exact ht
    · simpa using hrest
  current := fun i token hget hlive hcurrent => by
    rw [assign_tokens hpv] at hget
    obtain ⟨old,hold,rfl⟩ := Option.map_eq_some_iff.mp hget
    simp only [Token.note_live,Token.note_current] at hlive hcurrent
    obtain ⟨hk,pv',hpv',ht,hset⟩ := hi.current i old hold hlive hcurrent
    have hmap : (assign c id v).map = c.map := by simp [assign,hpv]
    simp only [Token.note_key,Token.note_cell,hmap,assign_cells hpv,hpv',Option.map_some]
    refine ⟨hk,_,rfl,?_⟩
    by_cases hid : id = old.cell
    · subst hid
      cases hpv.symm.trans hpv'
      simp [Token.note,ht,hlive]
    · have hown : ¬(pv.token = some i ∧ old.live = true) := by
        rintro ⟨hown,-⟩
        obtain ⟨token,htoken,hcell⟩ := hi.owner id pv i hpv hown
        cases hold.symm.trans htoken
        exact hid hcell.symm
      simpa [Token.note,hid,hown] using ⟨ht,hset⟩

theorem Inv.assign (hi : Inv c) (id : ℕ) (v : V) : Inv (assign c id v) := by
  cases hpv : c.cells[id]? with
  | none => simpa [Bookkeeping.assign,hpv] using hi
  | some pv => exact hi.assign_some hpv

theorem Inv.copy (hi : Inv c) (i : ℕ) : Inv (copy c i) := by
  unfold Bookkeeping.copy
  split
  next token hget =>
    split
    next useCount hp =>
      exact hi.setPhase hget (fun _ => by simp [Token.live,hp]) (.inl (.inl rfl))
    next => exact hi
  next => exact hi

theorem Inv.drop (hi : Inv c) (h : drop c i = some d) : Inv d := by
  obtain ⟨token,useCount,hget,hp,rfl⟩ := drop_eq_some_iff.mp h
  refine hi.setPhase hget (fun _ => by simp [Token.live,hp]) (.inl ?_)
  split
  · exact .inr rfl
  · exact .inl rfl

theorem Inv.release (hi : Inv c) (h : release c i = some d) : Inv d := by
  obtain ⟨token,hget,h⟩ := Option.bind_eq_some_iff.mp h
  obtain ⟨hp,⟨⟩⟩ := Option.ite_none_right_eq_some.mp h
  refine hi.setPhase hget (by simp [Token.live]) (.inr fun k id pv hk hpv ht => ?_)
  obtain ⟨pv',j,x,hpv',ht',hx,-,-,hphase⟩ := hi.entry k id hk
  cases hpv.symm.trans hpv'
  cases ht.symm.trans ht'
  cases hget.symm.trans hx
  simp [Token.live,Token.pending,hp] at hphase

theorem not_live_of_pending (h : token.pending = true) : token.live = false := by
  simp only [Token.pending,decide_eq_true_eq] at h
  simp [Token.live,h]

theorem Inv.at' (hi : Inv c) (k : K) : Inv (at' c k).2 := by
  unfold Bookkeeping.at'
  split
  · exact hi.withLValues _
  · exact hi

theorem Inv.set (hi : Inv c) (k : K) (v : V) : Inv (set c k v).2 := by
  unfold Bookkeeping.set
  split
  · exact hi.assign _ _
  · exact hi

section Map
variable [DecidableEq K]

theorem Inv.erase (hi : Inv c) (hfree : ∀ (i : ℕ) (token : Token K V), c.tokens[i]? = some token →
      token.live = true → token.current = true → token.key ≠ k) : Inv (erase c k) where
  owner := hi.owner
  entry := fun k' id hk => by
    have hne : k' ≠ k := by
      rintro rfl
      simp [Bookkeeping.erase] at hk
    exact hi.entry k' id (by simpa [Bookkeeping.erase,hne] using hk)
  current := fun i token hget hlive hcurrent => by
    have hne := hfree i token hget hlive hcurrent
    have hc := hi.current i token hget hlive hcurrent
    simpa [Bookkeeping.erase,hne] using hc

theorem Inv.createToken (hi : Inv c) (hid : id < c.cells.length)
    (hfree : ∀ (i : ℕ) (token : Token K V), c.tokens[i]? = some token → token.live = true →
      token.current = true → token.key ≠ k)
    (hother : ∀ k', k' ≠ k → c.map k' ≠ some id) : Inv (createToken c k id v) where
  owner := fun id' pv i hpv ht => by
    simp only [Bookkeeping.createToken] at hpv ⊢
    by_cases he : id = id'
    · subst he
      rw [List.getElem?_set_self hid] at hpv
      cases hpv
      cases ht
      exact ⟨_,List.getElem?_concat_length,rfl⟩
    · rw [List.getElem?_set_ne he] at hpv
      obtain ⟨token,hget,hcell⟩ := hi.owner id' pv i hpv ht
      exact ⟨token,getElem?_append_of_getElem? hget,hcell⟩
  entry := fun k' id' hk => by
    simp only [Bookkeeping.createToken] at hk ⊢
    by_cases he : k' = k
    · subst he
      simp only [Function.update_self,Option.some.injEq] at hk
      subst hk
      exact ⟨_,_,_,List.getElem?_set_self hid,rfl,List.getElem?_concat_length,rfl,rfl,.inl rfl⟩
    · rw [Function.update_of_ne he] at hk
      obtain ⟨pv,i,token,hpv,ht,hget,hrest⟩ := hi.entry k' id' hk
      have hne : id ≠ id' := fun h => hother k' he (h ▸ hk)
      exact ⟨pv,i,token,by rwa [List.getElem?_set_ne hne],ht,getElem?_append_of_getElem? hget,hrest⟩
  current := fun i token hget hlive hcurrent => by
    simp only [Bookkeeping.createToken] at hget ⊢
    rcases getElem?_append_singleton hget with hget | ⟨rfl,rfl⟩
    · obtain ⟨hk,pv,hpv,ht,hset⟩ := hi.current i token hget hlive hcurrent
      have hkey := hfree i token hget hlive hcurrent
      have hne : id ≠ token.cell := fun h => hother _ hkey (h ▸ hk)
      exact ⟨by rwa [Function.update_of_ne hkey],pv,by rwa [List.getElem?_set_ne hne],ht,hset⟩
    · exact ⟨Function.update_self ..,_,List.getElem?_set_self hid,rfl,by simp⟩

/-- The destructor of a token removes the entry of its key if that has no live token, and does
nothing otherwise. -/
theorem Inv.removeToken (hi : Inv c) (hexpired : lockToken c i = none) :
    (removeToken c k i = Bookkeeping.erase c k ∧ ∀ (j : ℕ) (token : Token K V), c.tokens[j]? = some token →
        token.live = true → token.current = true → token.key ≠ k) ∨
      removeToken c k i = c ∧ ∀ id (pv : ValueType V), c.map k = some id → c.cells[id]? = some pv →
        pv.token.bind (lockToken c) ≠ none := by
  unfold Bookkeeping.removeToken
  cases hk : c.map k with
  | none => exact .inr ⟨rfl,fun id pv h => by cases h⟩
  | some id =>
    obtain ⟨pv,j,token,hpv,ht,hget,-⟩ := hi.entry k id hk
    simp only [hi.lockValue hk hpv,hexpired]
    split_ifs with he
    · refine .inl ⟨rfl,fun i' token' hget' hlive hcurrent hkey => ?_⟩
      obtain ⟨hk',pv',hpv',ht',-⟩ := hi.current i' token' hget' hlive hcurrent
      rw [hkey,hk,Option.some.injEq] at hk'
      rw [← hk',hpv,Option.some.injEq] at hpv'
      rw [hpv',ht',Option.bind_some,lockToken_eq_some.mpr ⟨rfl,token',hget',hlive⟩] at he
      cases he
    · refine .inr ⟨rfl,fun id' pv' hk' hpv' hn => he ?_⟩
      cases hk'
      cases hpv.symm.trans hpv'
      exact hn.symm

theorem Inv.destroy (hi : Inv c) (h : destroy c i = some d) : Inv d := by
  obtain ⟨token,hget,h⟩ := Option.bind_eq_some_iff.mp h
  obtain ⟨hpending,⟨⟩⟩ := Option.ite_none_right_eq_some.mp h
  have hexpired := lockToken_of_not_live hget (not_live_of_pending hpending)
  rcases hi.removeToken (k := token.key) hexpired with ⟨he,hfree⟩ | ⟨he,hlocked⟩
  · rw [he]
    refine (hi.erase hfree).setPhase hget (by simp [Token.live]) (.inr fun k id pv hk hpv ht => ?_)
    have hne : k ≠ token.key := by
      rintro rfl
      simp [Bookkeeping.erase] at hk
    obtain ⟨pv',j,x,hpv',ht',hx,hkey,-⟩ := hi.entry k id (by simpa [Bookkeeping.erase,hne] using hk)
    cases hpv.symm.trans hpv'
    cases ht.symm.trans ht'
    cases hget.symm.trans hx
    exact hne hkey.symm
  · rw [he]
    refine hi.setPhase hget (by simp [Token.live]) (.inr fun k id pv hk hpv ht => ?_)
    obtain ⟨pv',j,x,hpv',ht',hx,hkey,-⟩ := hi.entry k id hk
    cases hpv.symm.trans hpv'
    cases ht.symm.trans ht'
    cases hget.symm.trans hx
    exact hlocked id pv (hkey ▸ hk) hpv (by rw [ht,Option.bind_some,hexpired])

theorem Inv.kept (hi : Inv c) (h : Bookkeeping.destroy c i = some d) (hk : c.map k = some id)
    (hpv : c.cells[id]? = some pv) {j : ℕ} (hj : pv.token.bind (lockToken c) = some j) :
    d.map k = some id := by
  obtain ⟨token,hget,h⟩ := Option.bind_eq_some_iff.mp h
  obtain ⟨hpending,⟨⟩⟩ := Option.ite_none_right_eq_some.mp h
  have hexpired := lockToken_of_not_live hget (not_live_of_pending hpending)
  rcases hi.removeToken (k := token.key) hexpired with ⟨he,hfree⟩ | ⟨he,-⟩
  · obtain ⟨pv',i',x,hpv',ht,hx,rfl,hcurrent,-⟩ := hi.entry k id hk
    cases hpv.symm.trans hpv'
    rw [ht,Option.bind_some] at hj
    obtain ⟨rfl,x',hx',hlive⟩ := lockToken_eq_some.mp hj
    cases hx.symm.trans hx'
    have hne := hfree i' x hx hlive hcurrent
    simp [Bookkeeping.setPhase,he,Bookkeeping.erase,hne,hk]
  · simp [Bookkeeping.setPhase,he,hk]

theorem Inv.remove (hi : Inv c) (k : K) : Inv (remove c k) where
  owner := fun id pv i hpv ht => by
    obtain ⟨token,hget,hcell⟩ := hi.owner id pv i hpv ht
    refine ⟨_,by rw [Bookkeeping.remove,List.getElem?_map,hget]; rfl,?_⟩
    dsimp only
    split <;> exact hcell
  entry := fun k' id hk => by
    have hne : k' ≠ k := by
      rintro rfl
      simp [Bookkeeping.remove,Bookkeeping.erase] at hk
    obtain ⟨pv,i,token,hpv,ht,hget,rfl,hrest⟩ :=
      hi.entry k' id (by simpa [Bookkeeping.remove,Bookkeeping.erase,hne] using hk)
    exact ⟨pv,i,token,hpv,ht,by simp [Bookkeeping.remove,hget,hne],rfl,hrest⟩
  current := fun i token hget hlive hcurrent => by
    simp only [Bookkeeping.remove,List.getElem?_map] at hget ⊢
    obtain ⟨old,hold,he⟩ := Option.map_eq_some_iff.mp hget
    split_ifs at he with hkey
    · rw [← he] at hcurrent
      cases hcurrent
    · subst he
      have hc := hi.current i old hold hlive hcurrent
      simpa [Bookkeeping.erase,hkey] using hc

theorem Inv.renew (hi : Inv c) (hk : c.map k = some id) (hpv : c.cells[id]? = some pv)
    (hl : pv.token.bind (lockToken c) = none) : Inv (Bookkeeping.createToken c k id v) := by
  obtain ⟨pv',j,x,hpv',ht,hx,hkey,-⟩ := hi.entry k id hk
  cases hpv.symm.trans hpv'
  rw [ht,Option.bind_some] at hl
  refine hi.createToken (List.getElem?_eq_some_iff.mp hpv).1 ?_ ?_
  · rintro i token hget hlive hcurrent rfl
    obtain ⟨hk',other,hother,hi',-⟩ := hi.current i token hget hlive hcurrent
    cases hk.symm.trans hk'
    cases hpv.symm.trans hother
    cases ht.symm.trans hi'
    rw [lockToken_eq_some.mpr ⟨rfl,token,hget,hlive⟩] at hl
    cases hl
  · exact fun k' hne hk' => hne (hi.map_injective hk' hk)

section Reserve
variable [Inhabited V]

theorem Inv.createEntry (hi : Inv c) (hk : c.map k = none) (v : V) :
    Inv (Bookkeeping.createToken (Bookkeeping.createValue c) k c.cells.length v) := by
  refine hi.createValue.createToken (by simp [Bookkeeping.createValue]) ?_ ?_
  · rintro i token hget hlive hcurrent rfl
    have hc := (hi.current i token hget hlive hcurrent).1
    rw [hk] at hc
    cases hc
  · intro k' _ hk'
    obtain ⟨pv,i,token,hpv,-⟩ := hi.entry k' c.cells.length hk'
    simp at hpv

theorem Inv.reserve (hi : Inv c) (k : K) : Inv (reserve c k).2 := by
  unfold Bookkeeping.reserve
  cases hk : c.map k with
  | none => exact hi.createEntry hk default
  | some id => exact hi

theorem Inv.reReserve (hi : Inv c) (k : K) : Inv (reReserve c k).2 := by
  unfold Bookkeeping.reReserve
  cases hk : c.map k with
  | none =>
    have hl : Bookkeeping.lockKey c k = none := by simp [Bookkeeping.lockKey,hk]
    simp only [hl]
    exact hi.createEntry hk default
  | some id =>
    obtain ⟨pv,-,-,hpv,-⟩ := hi.entry k id hk
    simp only [hi.lockKey hk hpv]
    split
    next i _ => exact hi.copy i
    next hl => exact hi.renew hk hpv hl

theorem Inv.step (hi : Inv c) {a : Action K V} (h : step c a = some d) : Inv d := by
  cases a with
  | reserve k =>
    cases h
    exact hi.reserve k
  | reReserve k =>
    cases h
    exact hi.reReserve k
  | copy i =>
    obtain ⟨-,⟨⟩⟩ := Option.ite_none_right_eq_some.mp h
    exact hi.copy i
  | drop i => exact hi.drop h
  | destroy i => exact hi.destroy h
  | release i => exact hi.release h
  | remove k =>
    cases h
    exact hi.remove k
  | set k v =>
    cases h
    exact hi.set k v
  | get k =>
    cases h
    exact hi
  | at' k =>
    cases h
    exact hi.at' k
  | assign j v =>
    obtain ⟨id,-,rfl⟩ := Option.map_eq_some_iff.mp h
    exact hi.assign id v
  | forget j =>
    cases h
    exact hi.withLValues _

end Reserve
end Map

/-! The references to tokens that there are, counted. -/

def Phase.useCount : Phase → ℕ
  | .held useCount => useCount
  | _ => 0

def useCount (c : Config K V) (i : ℕ) : ℕ := ((c.tokens[i]?).map (·.phase.useCount)).getD 0

/-- A token that is held has references. -/
def Counted (c : Config K V) : Prop := ∀ (i : ℕ) (token : Token K V), c.tokens[i]? = some token → token.phase ≠ .held 0

/-- There are references more in `d` than in `c`. -/
structure Takes (c d : Config K V) (refs : List ℕ) : Prop where
  count : ∀ i, useCount d i = useCount c i + refs.count i
  counted : Counted c → Counted d

variable {e : Config K V} {refs refs' : List ℕ} {j : ℕ}

theorem useCount_eq (hget : c.tokens[i]? = some token) : useCount c i = token.phase.useCount := by
  simp [useCount,hget]

theorem live_iff (hc : Counted c) (hget : c.tokens[i]? = some token) : token.live = true ↔ 0 < useCount c i := by
  have hne := hc i token hget
  rw [useCount_eq hget]
  cases hp : token.phase with
  | held n => simpa [Token.live,hp,Phase.useCount,Nat.pos_iff_ne_zero] using hne
  | _ => simp [Token.live,hp,Phase.useCount]

theorem useCount_of_lockToken (hc : Counted c) (h : lockToken c i = some j) : i = j ∧ 0 < useCount c j := by
  obtain ⟨rfl,token,hget,hlive⟩ := lockToken_eq_some.mp h
  exact ⟨rfl,(live_iff hc hget).mp hlive⟩

theorem useCount_setPhase (hget : c.tokens[i]? = some token) (phase : Phase) :
    useCount (setPhase c i token phase) j = if i = j then phase.useCount else useCount c j := by
  unfold useCount setPhase
  split_ifs with hj
  · subst hj
    simp [getElem?_set_of_getElem? hget]
  · simp [List.getElem?_set_ne hj]

theorem Counted.setPhase (hc : Counted c) (hget : c.tokens[i]? = some token) {phase : Phase} (hp : phase ≠ .held 0) :
    Counted (Bookkeeping.setPhase c i token phase) := by
  intro j x hx
  by_cases hj : i = j
  · subst hj
    cases (getElem?_set_of_getElem? hget).symm.trans hx
    exact hp
  · exact hc j x (by simpa [Bookkeeping.setPhase,List.getElem?_set_ne hj] using hx)

theorem Takes.of_tokens (h : d.tokens = c.tokens) : Takes c d [] :=
  ⟨fun i => by simp [useCount,h],fun hc i token hget => hc i token (h ▸ hget)⟩

theorem Takes.trans (h : Takes c d refs) (h' : Takes d e refs') : Takes c e (refs ++ refs') :=
  ⟨fun i => by rw [h'.count,h.count,List.count_append,Nat.add_assoc],fun hc => h'.counted (h.counted hc)⟩

theorem Takes.of_tokens_right (h : Takes c d refs) (he : e.tokens = d.tokens) : Takes c e refs := by
  simpa using h.trans (.of_tokens he)

/-! References that are listed, next to others. -/

section Listed
variable {external : List ℕ} {others : ℕ → ℕ}

theorem useCount_pos (hcount : ∀ j, useCount c j = external.count j+others j) (hm : i ∈ external) :
    0 < useCount c i := by
  have hpos := List.count_pos_iff.mpr hm
  rw [hcount]
  omega

theorem Takes.cons (h : Takes c d [i]) (hcount : ∀ j, useCount c j = external.count j+others j) (j : ℕ) :
    useCount d j = (i::external).count j+others j := by
  rw [h.count,hcount]
  simp only [List.count_cons,List.count_nil]
  omega

theorem Takes.erase (h : Takes d c [i]) (hcount : ∀ j, useCount c j = external.count j+others j) (hm : i ∈ external)
    (j : ℕ) : useCount d j = (external.erase i).count j+others j := by
  have hpos := List.count_pos_iff.mpr hm
  have hc := h.count j
  rw [hcount,List.count_singleton] at hc
  rw [List.count_erase]
  split_ifs at hc ⊢ with hj
  · cases beq_iff_eq.mp hj
    omega
  · omega

end Listed

theorem takes_setPhase (hget : c.tokens[i]? = some token) (h : token.phase.useCount = 0) {phase : Phase}
    (hphase : phase.useCount = 0) (hne : phase ≠ .held 0) : Takes c (setPhase c i token phase) [] where
  count := fun j => by
    rw [useCount_setPhase hget]
    split_ifs with hj
    · subst hj
      simp [useCount_eq hget,h,hphase]
    · simp
  counted := fun hc => hc.setPhase hget hne

theorem held_of_useCount (h : 0 < useCount c i) : ∃ token n, c.tokens[i]? = some token ∧ token.phase = .held n := by
  cases hget : c.tokens[i]? with
  | none => simp [useCount,hget] at h
  | some token =>
    rw [useCount_eq hget] at h
    cases hp : token.phase with
    | held n => exact ⟨token,n,rfl,hp⟩
    | _ => simp [hp,Phase.useCount] at h

theorem takes_copy (h : 0 < useCount c i) : Takes c (copy c i) [i] := by
  obtain ⟨token,n,hget,hp⟩ := held_of_useCount h
  have hcopy : copy c i = setPhase c i token (.held (n+1)) := by simp [copy,hget,hp]
  rw [hcopy]
  refine ⟨fun j => ?_,fun hc => hc.setPhase hget (by simp)⟩
  rw [useCount_setPhase hget]
  split_ifs with hj
  · subst hj
    simp [useCount_eq hget,hp,Phase.useCount]
  · simp [hj]

theorem takes_createValue [Inhabited V] : Takes c (createValue c) [] := .of_tokens rfl

theorem drop_of_useCount (h : 0 < useCount c i) : ∃ d, drop c i = some d := by
  obtain ⟨token,n,hget,hp⟩ := held_of_useCount h
  exact ⟨_,drop_eq_some_iff.mpr ⟨token,n,hget,hp,rfl⟩⟩

theorem Counted.drop (hc : Counted c) (h : drop c i = some d) : Counted d := by
  obtain ⟨token,n,hget,hp,rfl⟩ := drop_eq_some_iff.mp h
  have hne := hc i token hget
  refine hc.setPhase hget ?_
  split_ifs with hone
  · simp
  · intro he
    simp only [Phase.held.injEq] at he
    have hn : n ≠ 0 := fun h => hne (h ▸ hp)
    omega

theorem takes_of_drop (hc : Counted c) (h : drop c i = some d) : Takes d c [i] where
  count := fun j => by
    obtain ⟨token,n,hget,hp,rfl⟩ := drop_eq_some_iff.mp h
    have hn : n ≠ 0 := fun h => hc i token hget (h ▸ hp)
    rw [useCount_setPhase hget]
    split_ifs with hj hone
    · subst hj
      simp [useCount_eq hget,hp,hone,Phase.useCount]
    · subst hj
      simp only [useCount_eq hget,hp,Phase.useCount,List.count_singleton_self]
      omega
    · simp [hj]
  counted := fun _ => hc

theorem takes_release (h : release c i = some d) : Takes c d [] := by
  obtain ⟨token,hget,h⟩ := Option.bind_eq_some_iff.mp h
  obtain ⟨hp,⟨⟩⟩ := Option.ite_none_right_eq_some.mp h
  exact takes_setPhase hget (by simp [hp,Phase.useCount]) rfl nofun

theorem takes_assign (id : ℕ) (v : V) : Takes c (assign c id v) [] := by
  cases hpv : c.cells[id]? with
  | none => exact .of_tokens (by simp [assign,hpv])
  | some pv =>
    refine ⟨fun i => ?_,fun hc i token hget => ?_⟩
    · simp [useCount,assign_tokens hpv,Option.map_map,Function.comp_def]
    · rw [assign_tokens hpv] at hget
      obtain ⟨old,hold,rfl⟩ := Option.map_eq_some_iff.mp hget
      simpa using hc i old hold

theorem takes_set [DecidableEq K] (k : K) (v : V) : Takes c (set c k v).2 [] := by
  unfold set
  split
  · exact takes_assign _ _
  · exact .of_tokens rfl

section Map
variable [DecidableEq K]

theorem takes_createToken : Takes c (createToken c k id v) [c.tokens.length] where
  count := fun i => by
    simp only [useCount,createToken,List.getElem?_append,List.count_singleton,beq_iff_eq]
    split_ifs with hlt he he
    · omega
    · rfl
    · simp [he,Phase.useCount]
    · have hlen : 1 ≤ i-c.tokens.length := by omega
      rw [List.getElem?_eq_none (show c.tokens.length ≤ i by omega),List.getElem?_eq_none (by simpa using hlen)]
      rfl
  counted := fun hc i token hget => by
    rcases getElem?_append_singleton hget with hget | ⟨-,rfl⟩
    · exact hc i token hget
    · simp

theorem takes_remove : Takes c (remove c k) [] where
  count := fun i => by
    simp only [useCount,remove,List.getElem?_map,Option.map_map,List.count_nil,Nat.add_zero]
    congr 2
    funext token
    dsimp only [Function.comp_apply]
    split <;> rfl
  counted := fun hc i token hget => by
    simp only [remove,List.getElem?_map] at hget
    obtain ⟨old,hold,rfl⟩ := Option.map_eq_some_iff.mp hget
    have hne := hc i old hold
    split <;> exact hne

theorem takes_reserve [Inhabited V] (h : reserve c k = (.ok i,d)) : Takes c d [i] := by
  unfold reserve at h
  split at h
  · cases h
  · cases h
    exact takes_createValue.trans takes_createToken

theorem takes_reReserve [Inhabited V] (hc : Counted c) (h : reReserve c k = (i,d)) : Takes c d [i] := by
  unfold reReserve at h
  split at h
  next id pv _ =>
    split at h
    next j hl =>
      cases h
      obtain ⟨_,-,hl⟩ := Option.bind_eq_some_iff.mp hl
      exact takes_copy (useCount_of_lockToken hc hl).2
    next =>
      cases h
      exact takes_createToken
  next =>
    cases h
    exact takes_createValue.trans takes_createToken

end Map

variable [DecidableEq K] [Inhabited V]

/-- The map and the tokens agree. -/
structure Agree (c : Config K V) : Prop where
  kept : ∀ i d k id (pv : ValueType V) j, step c (.destroy i) = some d → c.map k = some id → c.cells[id]? = some pv →
    pv.token.bind (lockToken c) = some j → d.map k = some id
  present : (∀ token ∈ c.tokens, token.pending = false) → ∀ k, (c.map k).isSome = true ↔
    ∃ token ∈ c.tokens, token.key = k ∧ token.live = true ∧ token.current = true
  value : ∀ token ∈ c.tokens, token.live = true → token.current = true →
    ∃ v, get c token.key = .ok v ∧ ∀ w, token.lastSet = some w → w = v
  reReserved : ∀ i (token : Token K V), c.tokens[i]? = some token → token.live = true → token.current = true →
    (reReserve c token.key).1 = i
  reserved : ∀ k, (c.map k).isSome = true → reserve c k = (.error "Key already exists",c)

theorem Inv.toAgree (hi : Inv c) : Agree c where
  kept := fun i d k id pv j h hk hpv hj => hi.kept h hk hpv hj
  present := fun hpending k => by
    constructor
    · intro hk
      obtain ⟨id,hk⟩ := Option.isSome_iff_exists.mp hk
      obtain ⟨pv,i,token,-,-,hget,hkey,hcurrent,hphase⟩ := hi.entry k id hk
      have hm := List.mem_of_getElem? hget
      exact ⟨token,hm,hkey,hphase.resolve_right (by simp [hpending token hm]),hcurrent⟩
    · rintro ⟨token,hm,rfl,hlive,hcurrent⟩
      obtain ⟨i,hget⟩ := List.getElem?_of_mem hm
      rw [(hi.current i token hget hlive hcurrent).1]
      rfl
  value := fun token hm hlive hcurrent => by
    obtain ⟨i,hget⟩ := List.getElem?_of_mem hm
    obtain ⟨hk,pv,hpv,-,hset⟩ := hi.current i token hget hlive hcurrent
    exact ⟨pv.value,by simp [Bookkeeping.get,hi.lockKey hk hpv],fun w hw => (hset w hw).symm⟩
  reReserved := fun i token hget hlive hcurrent => by
    obtain ⟨hk,pv,hpv,ht,-⟩ := hi.current i token hget hlive hcurrent
    have hl : lockToken c i = some i := lockToken_eq_some.mpr ⟨rfl,token,hget,hlive⟩
    simp [Bookkeeping.reReserve,hi.lockKey hk hpv,ht,hl]
  reserved := fun k hk => by
    obtain ⟨id,hk⟩ := Option.isSome_iff_exists.mp hk
    simp [Bookkeeping.reserve,hk]

/-- After any calls, and with any of the destructors still to run, the map and the tokens agree. -/
theorem agree (as : List (Action K V)) (c : Config K V) (h : run step as {} = some c) : Agree c :=
  (run_invariant (fun _ _ _ hi h => Inv.step hi h) inv_initial h).toAgree

/-- The token of a key expires, the key is reserved again, and then the destructor runs. -/
theorem agree_reReserved :
    let c : Config ℕ ℕ := (run step [.reserve 1,.set 1 5,.drop 0,.reReserve 1,.destroy 0,.release 0] {}).get rfl
    Agree c ∧ get c 1 = .ok 5 ∧ c.tokens.map (·.live) = [false,true] :=
  ⟨agree _ _ (Option.some_get _).symm,rfl,rfl⟩

end Bookkeeping
end Scroom
