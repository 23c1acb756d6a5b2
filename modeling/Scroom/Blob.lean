import Scroom.Buffer
import Scroom.Transitions

/-! A blob of memory that is compressed while nobody holds a pointer to it. The calls on the
blob run under its mutex; dropping the last pointer and the `unload` that follows from it are
two steps, and a `compress` job runs some time after it was scheduled. -/
namespace Scroom
namespace Blob
open Transitions

variable {n : ℕ} {Pages : Type}

/-- `Blob::State`. There is no other value for `load` to reject. -/
inductive State
  | uninitialized | clean | dirty | compressing
  deriving DecidableEq

/-- The control block that the copies of a shared pointer have in common, with the address of
the data. -/
structure Block where
  id : ℕ
  data : ℕ
  deriving DecidableEq

/-- A strong reference that somebody holds. -/
structure Handle where
  block : Block
  writable : Bool
  deriving DecidableEq

structure Members (Pages : Type) where
  data : Option ℕ := none
  state : State := .uninitialized
  weakData : Option Block := none
  pages : Pages
  refcount : ℤ := 0

/-- The blob, the memory, the pointers that are held, the number of deleters that have not yet
called `unload`, and the number of scheduled `compress` jobs. -/
structure Config (n : ℕ) (Pages : Type) where
  blob : Members Pages
  heap : ℕ → Option (Buffer n) := fun _ => none
  handles : List Handle := []
  nextBlock : ℕ := 0
  unloads : ℕ := 0
  jobs : ℕ := 0

/-- `weakData.lock()` succeeds as long as a reference to its block is held. -/
def lock (c : Config n Pages) : Option Block :=
  c.blob.weakData.bind fun b => if c.handles.any (·.block = b) then some b else none

/-- `data = malloc(size)`, at an address that is not in use and with arbitrary content. -/
def malloc (c : Config n Pages) (address : ℕ) (content : Buffer n) : Option (Config n Pages) :=
  if (c.heap address).isNone then
    some { c with
      heap := Function.update c.heap address (some content)
      blob := { c.blob with data := some address } }
  else none

/-- `free(data); data = nullptr;` -/
def free (c : Config n Pages) : Option (Config n Pages) :=
  match c.blob.data with
  | none => some c
  | some address =>
    (c.heap address).map fun _ =>
      { c with heap := Function.update c.heap address none, blob := { c.blob with data := none } }

section Operations
variable (compressBlob : Buffer n → Pages) (decompressBlob : Pages → Buffer n)

/-- The switch of `load`, after which `data` points to something valid. -/
def loadData (c : Config n Pages) (address : ℕ) (garbage : Buffer n) : Option (Config n Pages) :=
  match c.blob.state with
  | .uninitialized => malloc c address garbage
  | .clean => malloc c address (decompressBlob c.blob.pages)
  | .dirty => some c
  | .compressing => some { c with blob := { c.blob with state := .dirty } }

def load (c : Config n Pages) (address : ℕ) (garbage : Buffer n) : Option (Block × Config n Pages) :=
  match lock c with
  | some block => some (block,c)
  | none => do
    let c ← loadData decompressBlob c address garbage
    let data ← c.blob.data
    let block : Block := ⟨c.nextBlock,data⟩
    return (block,{ c with
      blob := { c.blob with weakData := some block, refcount := c.blob.refcount+1 }
      nextBlock := c.nextBlock+1 })

def getConst (c : Config n Pages) (address : ℕ) (garbage : Buffer n) : Option (Config n Pages) := do
  let (block,c) ← load decompressBlob c address garbage
  return { c with handles := c.handles ++ [⟨block,false⟩] }

def get (c : Config n Pages) (address : ℕ) (garbage : Buffer n) : Option (Config n Pages) := do
  let (block,c) ← load decompressBlob c address garbage
  return { c with
    blob := { c.blob with state := .dirty }
    handles := c.handles ++ [⟨block,true⟩] }

/-- Store into the data of a block, which has to be allocated. -/
def store (c : Config n Pages) (block : Block) (change : Buffer n → Buffer n) : Option (Config n Pages) :=
  (c.heap block.data).map fun content =>
    { c with heap := Function.update c.heap block.data (some (change content)) }

def initialize_ (c : Config n Pages) (value : UInt8) (address : ℕ) (garbage : Buffer n) :
    Option (Config n Pages) := do
  let (block,c) ← load decompressBlob c address garbage
  let c := { c with
    blob := { c.blob with state := .dirty }
    handles := c.handles ++ [⟨block,true⟩] }
  store c block fun _ => Vector.replicate n value

def unload (c : Config n Pages) : Option (Config n Pages) :=
  let c := { c with blob := { c.blob with refcount := c.blob.refcount-1 } }
  if c.blob.refcount = 0 then
    if c.blob.state = .dirty then
      some { c with blob := { c.blob with state := .compressing }, jobs := c.jobs+1 }
    else free c
  else some c

/-- A violated precondition ends the program, and so does compressing data that is not there. -/
def compress (c : Config n Pages) : Option (Config n Pages) :=
  if c.blob.state = .compressing then
    if c.blob.refcount = 0 then do
      let address ← c.blob.data
      let content ← c.heap address
      let c ← free { c with blob := { c.blob with pages := compressBlob content } }
      return { c with blob := { c.blob with state := .clean } }
    else none
  else some c

/-- What the holders of pointers and the threads can do. -/
inductive Action (n : ℕ)
  | get (address : ℕ) (garbage : Buffer n)
  | getConst (address : ℕ) (garbage : Buffer n)
  | initialize_ (value : UInt8) (address : ℕ) (garbage : Buffer n)
  | write (k : ℕ) (i : Fin n) (value : UInt8)
  | copy (k : ℕ)
  | drop (k : ℕ)
  | unload
  | compress

/-- An action whose turn can come: the allocator has the address, the pointer is held, the
deleter or the job is there. -/
def enabled (c : Config n Pages) : Action n → Bool
  | .get address _ => (c.heap address).isNone
  | .getConst address _ => (c.heap address).isNone
  | .initialize_ _ address _ => (c.heap address).isNone
  | .write k _ _ => (c.handles[k]?).any (·.writable)
  | .copy k => k < c.handles.length
  | .drop k => k < c.handles.length
  | .unload => 0 < c.unloads
  | .compress => 0 < c.jobs

def perform (c : Config n Pages) : Action n → Option (Config n Pages)
  | .get address garbage => get decompressBlob c address garbage
  | .getConst address garbage => getConst decompressBlob c address garbage
  | .initialize_ value address garbage => initialize_ decompressBlob c value address garbage
  | .write k i value =>
    (c.handles[k]?).bind fun handle => store c handle.block fun content => content.set i value i.isLt
  | .copy k => (c.handles[k]?).map fun handle => { c with handles := c.handles ++ [handle] }
  | .drop k =>
    (c.handles[k]?).map fun handle =>
      let handles := c.handles.eraseIdx k
      { c with
        handles := handles
        unloads := if handles.any (·.block = handle.block) then c.unloads else c.unloads+1 }
  | .unload => unload { c with unloads := c.unloads-1 }
  | .compress => compress compressBlob { c with jobs := c.jobs-1 }

def step (c : Config n Pages) (a : Action n) : Option (Config n Pages) :=
  if enabled c a then perform compressBlob decompressBlob c a else none

end Operations

/-- The content after an action, once there is any. -/
def written (content : Option (Buffer n)) : Action n → Option (Buffer n)
  | .initialize_ value _ _ => some (Vector.replicate n value)
  | .write _ i value => content.map fun content => content.set i value i.isLt
  | _ => content

def lastWritten (as : List (Action n)) : Option (Buffer n) := as.foldl written none

section Invariant
variable {compressBlob : Buffer n → Pages} {decompressBlob : Pages → Buffer n}
variable {content : Option (Buffer n)} {c d : Config n Pages}

theorem get_eq_some {address : ℕ} {garbage : Buffer n} (h : get decompressBlob c address garbage = some d) :
    ∃ block e, load decompressBlob c address garbage = some (block,e) ∧
      d = { e with blob := { e.blob with state := .dirty }, handles := e.handles ++ [⟨block,true⟩] } := by
  obtain ⟨⟨block,e⟩,hl,h⟩ := Option.bind_eq_some_iff.mp h
  exact ⟨block,e,hl,(Option.some.inj h).symm⟩

theorem getConst_eq_some {address : ℕ} {garbage : Buffer n}
    (h : getConst decompressBlob c address garbage = some d) :
    ∃ block e, load decompressBlob c address garbage = some (block,e) ∧
      d = { e with handles := e.handles ++ [⟨block,false⟩] } := by
  obtain ⟨⟨block,e⟩,hl,h⟩ := Option.bind_eq_some_iff.mp h
  exact ⟨block,e,hl,(Option.some.inj h).symm⟩

theorem step_eq_some {a : Action n} : step compressBlob decompressBlob c a = some d ↔
    enabled c a = true ∧ perform compressBlob decompressBlob c a = some d := by
  unfold step
  split <;> simp_all

/-- The data is allocated and holds the content, if there is any. -/
def Present (content : Option (Buffer n)) (c : Config n Pages) : Prop :=
  ∃ a y, c.blob.data = some a ∧ c.heap a = some y ∧ ∀ x, content = some x → y = x

/-- What holds between any two steps. The reference count is that of the deleters that have not
run yet, those of the pointers that are held included. -/
structure Inv (decompressBlob : Pages → Buffer n) (content : Option (Buffer n))
    (c : Config n Pages) : Prop where
  shared : ∀ h ∈ c.handles, c.blob.weakData = some h.block ∧ c.blob.data = some h.block.data
  writable : ∀ h ∈ c.handles, h.writable = true → c.blob.state = .dirty
  counted : c.blob.refcount = c.unloads + if c.handles = [] then 0 else 1
  released : c.blob.state = .compressing → c.blob.refcount = 0
  fresh : c.blob.state = .uninitialized → content = none
  kept : c.blob.state = .clean → ∀ x, content = some x → decompressBlob c.blob.pages = x
  present : c.blob.state = .dirty ∨ c.blob.state = .compressing ∨ c.blob.refcount ≠ 0 →
    Present content c

theorem inv_initial (pages : Pages) :
    Inv decompressBlob (none : Option (Buffer n)) { blob := { pages := pages } } where
  shared := by simp
  writable := by simp
  counted := by simp
  released := by simp
  fresh := by simp
  kept := by simp
  present := by simp

theorem Inv.handles_nil (hi : Inv decompressBlob content c) (h : c.blob.state = .compressing) :
    c.handles = [] := by
  have hc := hi.counted
  rw [hi.released h] at hc
  by_contra hne
  rw [if_neg hne] at hc
  omega

theorem Inv.unloads_pos (hi : Inv decompressBlob content c) (h : 0 < c.unloads) :
    c.blob.refcount ≠ 0 := by
  have hc := hi.counted
  split at hc <;> omega

theorem Inv.read (hi : Inv decompressBlob content c) {h : Handle} (hh : h ∈ c.handles) :
    ∃ y, c.heap h.block.data = some y ∧ ∀ x, content = some x → y = x := by
  have hne : c.handles ≠ [] := List.ne_nil_of_mem hh
  have hr : c.blob.refcount ≠ 0 := by
    have hc := hi.counted
    rw [if_neg hne] at hc
    omega
  obtain ⟨a,y,ha,hy,hx⟩ := hi.present (Or.inr (Or.inr hr))
  have hd : a = h.block.data := by
    have hs := (hi.shared h hh).2
    rw [ha] at hs
    exact Option.some.inj hs
  exact ⟨y,hd ▸ hy,hx⟩

/-! ### Loading -/

theorem lock_eq_some {block : Block} (h : lock c = some block) :
    c.blob.weakData = some block ∧ ∃ k ∈ c.handles, k.block = block := by
  simp only [lock,Option.bind_eq_some_iff] at h
  obtain ⟨b,hb,h⟩ := h
  split at h
  case isTrue ha =>
    cases h
    simpa [hb] using ha
  case isFalse => cases h

theorem Inv.lock_eq_none (hi : Inv decompressBlob content c) (h : lock c = none) :
    c.handles = [] := by
  refine List.eq_nil_iff_forall_not_mem.mpr fun k hk => ?_
  have hw := (hi.shared k hk).1
  simp only [lock,hw,Option.bind_some,ite_eq_right_iff,reduceCtorEq,imp_false] at h
  exact h (List.any_eq_true.mpr ⟨k,hk,by simp⟩)

theorem malloc_eq {address : ℕ} (h : c.heap address = none) (x : Buffer n) :
    malloc c address x = some { c with
      heap := Function.update c.heap address (some x)
      blob := { c.blob with data := some address } } := by
  simp [malloc,h]

/-- What the switch of `load` leaves behind. -/
structure Loaded (decompressBlob : Pages → Buffer n) (content : Option (Buffer n))
    (c d : Config n Pages) : Prop where
  handles : d.handles = c.handles
  unloads : d.unloads = c.unloads
  refcount : d.blob.refcount = c.blob.refcount
  awake : d.blob.state ≠ .compressing
  fresh : d.blob.state = .uninitialized → content = none
  kept : d.blob.state = .clean → ∀ x, content = some x → decompressBlob d.blob.pages = x
  present : Present content d

theorem Inv.loadData (hi : Inv decompressBlob content c) {address : ℕ}
    (ha : c.heap address = none) (garbage : Buffer n) :
    ∃ d, loadData decompressBlob c address garbage = some d ∧ Loaded decompressBlob content c d := by
  cases hs : c.blob.state with
  | uninitialized =>
    have hn := hi.fresh hs
    refine ⟨_,by simp only [Blob.loadData,hs]; exact malloc_eq ha garbage,?_⟩
    exact {
      handles := rfl
      unloads := rfl
      refcount := rfl
      awake := by simp [hs]
      fresh := fun _ => hn
      kept := by simp [hs]
      present := ⟨address,garbage,rfl,by simp,by simp [hn]⟩ }
  | clean =>
    refine ⟨_,by simp only [Blob.loadData,hs]; exact malloc_eq ha (decompressBlob c.blob.pages),?_⟩
    exact {
      handles := rfl
      unloads := rfl
      refcount := rfl
      awake := by simp [hs]
      fresh := by simp [hs]
      kept := fun _ => hi.kept hs
      present := ⟨address,decompressBlob c.blob.pages,rfl,by simp,hi.kept hs⟩ }
  | dirty =>
    refine ⟨c,by simp only [Blob.loadData,hs],?_⟩
    exact {
      handles := rfl
      unloads := rfl
      refcount := rfl
      awake := by simp [hs]
      fresh := by simp [hs]
      kept := by simp [hs]
      present := hi.present (Or.inl hs) }
  | compressing =>
    refine ⟨{ c with blob := { c.blob with state := .dirty } },by simp only [Blob.loadData,hs],?_⟩
    exact {
      handles := rfl
      unloads := rfl
      refcount := rfl
      awake := by simp
      fresh := by simp
      kept := by simp
      present := hi.present (Or.inr (Or.inl hs)) }

/-- `load` succeeds, and a pointer to its block may be handed out. -/
theorem Inv.load (hi : Inv decompressBlob content c) {address : ℕ}
    (ha : c.heap address = none) (garbage : Buffer n) :
    ∃ block d, load decompressBlob c address garbage = some (block,d) ∧
      Inv decompressBlob content { d with handles := d.handles++[⟨block,false⟩] } := by
  cases hl : lock c with
  | some block =>
    refine ⟨block,c,by simp [Blob.load,hl],?_⟩
    obtain ⟨hw,k,hk,hb⟩ := lock_eq_some hl
    have hd := (hi.shared k hk).2
    have hne : c.handles ≠ [] := List.ne_nil_of_mem hk
    exact { hi with
      shared := fun h hh => by
        rcases List.mem_append.mp hh with hh | hh
        · exact hi.shared h hh
        · cases List.mem_singleton.mp hh
          exact ⟨hw,hb ▸ hd⟩
      writable := fun h hh ht => by
        rcases List.mem_append.mp hh with hh | hh
        · exact hi.writable h hh ht
        · cases List.mem_singleton.mp hh
          cases ht
      counted := by simpa [hne] using hi.counted }
  | none =>
    have hn := hi.lock_eq_none hl
    obtain ⟨d,hd,hk⟩ := hi.loadData ha garbage
    obtain ⟨a,y,hda,hy,hx⟩ := hk.present
    refine ⟨⟨d.nextBlock,a⟩,_,by simp [Blob.load,hl,hd,hda]; rfl,?_⟩
    have hdn : d.handles = [] := hk.handles.trans hn
    exact {
      shared := fun h hh => by
        simp only [hdn,List.nil_append,List.mem_singleton] at hh
        subst hh
        exact ⟨rfl,rfl⟩
      writable := fun h hh ht => by
        simp only [hdn,List.nil_append,List.mem_singleton] at hh
        subst hh
        cases ht
      counted := by
        have hc := hi.counted
        rw [if_pos hn] at hc
        simp [hk.refcount,hk.unloads,hc]
      released := fun h => absurd h hk.awake
      fresh := hk.fresh
      kept := hk.kept
      present := fun _ => ⟨a,y,rfl,hy,hx⟩ }

theorem Inv.toDirty {block : Block} {handles : List Handle}
    (hi : Inv decompressBlob content { c with handles := handles++[⟨block,false⟩] }) :
    Inv decompressBlob content { c with
      blob := { c.blob with state := .dirty }, handles := handles++[⟨block,true⟩] } where
  shared := fun h hh => by
    rcases List.mem_append.mp hh with hh | hh
    · exact hi.shared h (List.mem_append_left _ hh)
    · cases List.mem_singleton.mp hh
      exact hi.shared ⟨block,false⟩ (by simp)
  writable := fun _ _ _ => rfl
  counted := by simpa using hi.counted
  released := by simp
  fresh := by simp
  kept := by simp
  present := fun _ => by
    refine hi.present (Or.inr (Or.inr ?_))
    have hc := hi.counted
    simp only [List.append_eq_nil_iff,List.cons_ne_nil,and_false,if_false] at hc ⊢
    omega

/-! ### Storing and letting go -/

theorem Inv.store (hi : Inv decompressBlob content c) {h : Handle} (hh : h ∈ c.handles)
    (hw : h.writable = true) (change : Buffer n → Buffer n) {content' : Option (Buffer n)}
    (hx : ∀ y, (∀ x, content = some x → y = x) → ∀ x, content' = some x → change y = x) :
    ∃ d, store c h.block change = some d ∧ Inv decompressBlob content' d := by
  obtain ⟨y,hy,hyx⟩ := hi.read hh
  have hs := hi.writable h hh hw
  refine ⟨_,by simp only [Blob.store,hy]; rfl,?_⟩
  exact { hi with
    fresh := by simp [hs]
    kept := by simp [hs]
    present := fun _ => ⟨h.block.data,change y,(hi.shared h hh).2,by simp,hx y hyx⟩ }

theorem free_eq {a : ℕ} {y : Buffer n} (ha : c.blob.data = some a) (hy : c.heap a = some y) :
    free c = some { c with
      heap := Function.update c.heap a none, blob := { c.blob with data := none } } := by
  simp [free,ha,hy]

theorem Inv.get (hi : Inv decompressBlob content c) {address : ℕ}
    (ha : c.heap address = none) (garbage : Buffer n) :
    ∃ d, get decompressBlob c address garbage = some d ∧ Inv decompressBlob content d := by
  obtain ⟨block,d,hl,hd⟩ := hi.load ha garbage
  exact ⟨_,by simp only [Blob.get,hl]; rfl,hd.toDirty⟩

theorem Inv.getConst (hi : Inv decompressBlob content c) {address : ℕ}
    (ha : c.heap address = none) (garbage : Buffer n) :
    ∃ d, getConst decompressBlob c address garbage = some d ∧ Inv decompressBlob content d := by
  obtain ⟨block,d,hl,hd⟩ := hi.load ha garbage
  exact ⟨_,by simp only [Blob.getConst,hl]; rfl,hd⟩

theorem Inv.initialize_ (hi : Inv decompressBlob content c) {address : ℕ}
    (ha : c.heap address = none) (value : UInt8) (garbage : Buffer n) :
    ∃ d, initialize_ decompressBlob c value address garbage = some d ∧
      Inv decompressBlob (some (Vector.replicate n value)) d := by
  obtain ⟨block,d,hl,hd⟩ := hi.load ha garbage
  have hh : (⟨block,true⟩ : Handle) ∈ d.handles++[⟨block,true⟩] := by simp
  obtain ⟨e,he,hi⟩ := hd.toDirty.store hh rfl (fun _ => Vector.replicate n value) fun _ _ x hx =>
    Option.some.inj hx
  exact ⟨e,by simp only [Blob.initialize_,hl]; exact he,hi⟩

theorem Inv.write (hi : Inv decompressBlob content c) {h : Handle} (hh : h ∈ c.handles)
    (hw : h.writable = true) (i : Fin n) (value : UInt8) :
    ∃ d, Blob.store c h.block (fun y => y.set i value i.isLt) = some d ∧
      Inv decompressBlob (content.map fun y => y.set i value i.isLt) d := by
  refine hi.store hh hw (fun y => y.set i value i.isLt) fun y hy x hx => ?_
  obtain ⟨z,hz,rfl⟩ := Option.map_eq_some_iff.mp hx
  rw [hy z hz]

theorem Inv.copy (hi : Inv decompressBlob content c) {h : Handle} (hh : h ∈ c.handles) :
    Inv decompressBlob content { c with handles := c.handles++[h] } := by
  have hne : c.handles ≠ [] := List.ne_nil_of_mem hh
  have hm : ∀ k ∈ c.handles++[h], k ∈ c.handles := fun k hk => by
    rcases List.mem_append.mp hk with hk | hk
    · exact hk
    · exact List.mem_singleton.mp hk ▸ hh
  exact { hi with
    shared := fun k hk => hi.shared k (hm k hk)
    writable := fun k hk => hi.writable k (hm k hk)
    counted := by simpa [hne] using hi.counted }

/-- All pointers that are held have the same control block, so that the deleter runs when the
last one goes. -/
theorem Inv.drop (hi : Inv decompressBlob content c) {k : ℕ} {h : Handle}
    (hk : c.handles[k]? = some h) :
    Inv decompressBlob content { c with
      handles := c.handles.eraseIdx k
      unloads := if (c.handles.eraseIdx k).any (·.block = h.block) then c.unloads
        else c.unloads+1 } := by
  have hh : h ∈ c.handles := List.mem_of_getElem? hk
  have hm : ∀ j ∈ c.handles.eraseIdx k, j ∈ c.handles := fun _ => List.mem_of_mem_eraseIdx
  have hany : (c.handles.eraseIdx k).any (·.block = h.block) = true ↔ c.handles.eraseIdx k ≠ [] := by
    constructor
    · rintro ha hn
      simp [hn] at ha
    · intro hn
      obtain ⟨j,hj⟩ := List.exists_mem_of_ne_nil _ hn
      have hb : some j.block = some h.block :=
        (hi.shared j (hm j hj)).1.symm.trans (hi.shared h hh).1
      exact List.any_eq_true.mpr ⟨j,hj,by simpa using hb⟩
  have hc := hi.counted
  rw [if_neg (List.ne_nil_of_mem hh)] at hc
  exact { hi with
    shared := fun j hj => hi.shared j (hm j hj)
    writable := fun j hj => hi.writable j (hm j hj)
    counted := by
      by_cases hn : c.handles.eraseIdx k = []
      · simp [hn,hc]
      · rw [if_pos (hany.mpr hn),if_neg hn]
        exact hc }

theorem Inv.unload (hi : Inv decompressBlob content c) (hu : 0 < c.unloads) :
    ∃ d, unload { c with unloads := c.unloads-1 } = some d ∧ Inv decompressBlob content d := by
  have hr := hi.unloads_pos hu
  have hs : c.blob.state ≠ .compressing := fun h => hr (hi.released h)
  have hc := hi.counted
  have hcount : c.blob.refcount-1 = ((c.unloads-1 : ℕ) : ℤ) + if c.handles = [] then 0 else 1 := by
    rw [hc,Nat.cast_sub hu]
    omega
  obtain ⟨a,y,ha,hy,hx⟩ := hi.present (Or.inr (Or.inr hr))
  by_cases hz : c.blob.refcount-1 = 0
  · have hn : c.handles = [] := by
      by_contra hn
      rw [if_neg hn] at hcount
      omega
    by_cases hd : c.blob.state = .dirty
    · refine ⟨_,by simp only [Blob.unload,hz,hd,if_true]; rfl,?_⟩
      exact {
        shared := by simp [hn]
        writable := by simp [hn]
        counted := hz ▸ hcount
        released := fun _ => rfl
        fresh := by simp
        kept := by simp
        present := fun _ => ⟨a,y,ha,hy,hx⟩ }
    · refine ⟨_,by simp only [Blob.unload,hz,hd,if_true,if_false]; exact free_eq ha hy,?_⟩
      exact {
        shared := by simp [hn]
        writable := by simp [hn]
        counted := hz ▸ hcount
        released := fun _ => rfl
        fresh := hi.fresh
        kept := hi.kept
        present := by simp [hd,hs] }
  · refine ⟨_,by simp only [Blob.unload,hz,if_false]; rfl,?_⟩
    exact { hi with
      counted := hcount
      released := fun h => absurd h hs
      present := fun _ => ⟨a,y,ha,hy,hx⟩ }

theorem Inv.compress (hc : ∀ x, content = some x → decompressBlob (compressBlob x) = x)
    (hi : Inv decompressBlob content c) :
    ∃ d, compress compressBlob { c with jobs := c.jobs-1 } = some d ∧
      Inv decompressBlob content d := by
  by_cases hs : c.blob.state = .compressing
  · have hn := hi.handles_nil hs
    have hr := hi.released hs
    obtain ⟨a,y,ha,hy,hx⟩ := hi.present (Or.inr (Or.inl hs))
    refine ⟨_,by simp only [Blob.compress,hs,hr,if_true,ha,hy,Option.bind_eq_bind,
      Option.bind_some,free,Option.map_some]; rfl,?_⟩
    exact {
      shared := by simp [hn]
      writable := by simp [hn]
      counted := hr ▸ hi.counted
      released := by simp
      fresh := by simp
      kept := fun _ x h => by
        rw [hx x h]
        exact hc x h
      present := by simp }
  · refine ⟨_,by simp only [Blob.compress,hs,if_false]; rfl,?_⟩
    exact { hi with }

theorem Inv.perform (hc : ∀ x, content = some x → decompressBlob (compressBlob x) = x)
    (hi : Inv decompressBlob content c) {a : Action n} (ha : enabled c a = true) :
    ∃ d, perform compressBlob decompressBlob c a = some d ∧
      Inv decompressBlob (written content a) d := by
  cases a with
  | get address garbage => exact hi.get (Option.isNone_iff_eq_none.mp ha) garbage
  | getConst address garbage => exact hi.getConst (Option.isNone_iff_eq_none.mp ha) garbage
  | initialize_ value address garbage =>
    exact hi.initialize_ (Option.isNone_iff_eq_none.mp ha) value garbage
  | write k i value =>
    obtain ⟨h,hk,hw⟩ := (Option.any_eq_true _ _).mp ha
    obtain ⟨d,hd,hi⟩ := hi.write (List.mem_of_getElem? hk) hw i value
    exact ⟨d,by simp [Blob.perform,hk,hd],hi⟩
  | copy k =>
    have hk : k < c.handles.length := by simpa [enabled] using ha
    exact ⟨_,by simp only [Blob.perform,List.getElem?_eq_getElem hk]; rfl,hi.copy (List.getElem_mem hk)⟩
  | drop k =>
    have hk : k < c.handles.length := by simpa [enabled] using ha
    exact ⟨_,by simp only [Blob.perform,List.getElem?_eq_getElem hk]; rfl,
      hi.drop (List.getElem?_eq_getElem hk)⟩
  | unload => exact hi.unload (by simpa [enabled] using ha)
  | compress => exact hi.compress hc

theorem Inv.step (hc : ∀ x, content = some x → decompressBlob (compressBlob x) = x)
    (hi : Inv decompressBlob content c) {a : Action n}
    (h : step compressBlob decompressBlob c a = some d) :
    Inv decompressBlob (written content a) d := by
  obtain ⟨ha,h⟩ := step_eq_some.mp h
  obtain ⟨e,he,hi⟩ := hi.perform hc ha
  cases h.symm.trans he
  exact hi

theorem inv_run (hc : ∀ x, decompressBlob (compressBlob x) = x) {pages : Pages}
    {as : List (Action n)}
    (h : run (step compressBlob decompressBlob) as { blob := { pages := pages } } = some c) :
    Inv decompressBlob (lastWritten as) c := by
  have hstep : ∀ content (c : Config n Pages) a d, Inv decompressBlob content c →
      step compressBlob decompressBlob c a = some d → Inv decompressBlob (written content a) d :=
    fun _ _ _ _ hi hs => hi.step (fun x _ => hc x) hs
  exact run_invariant_history written hstep (inv_initial pages) h

end Invariant

/-- In every state that can be reached, each pointer that is held shows what was last written,
none is held while the blob waits for compression, and whatever can happen next goes well: the
precondition of `compress` holds, and no memory is used that is not allocated. -/
theorem content_kept {compressBlob : Buffer n → Pages} {decompressBlob : Pages → Buffer n}
    (hc : ∀ x, decompressBlob (compressBlob x) = x) (pages : Pages) (as : List (Action n))
    (c : Config n Pages)
    (h : run (step compressBlob decompressBlob) as { blob := { pages := pages } } = some c) :
    (∀ content, lastWritten as = some content →
      ∀ handle ∈ c.handles, c.heap handle.block.data = some content) ∧
    (c.blob.state = .compressing → c.handles = []) ∧
    ∀ a, enabled c a = true → ∃ d, step compressBlob decompressBlob c a = some d := by
  have hi := inv_run hc h
  refine ⟨fun content hw handle hh => ?_,hi.handles_nil,fun a ha => ?_⟩
  · obtain ⟨y,hy,hx⟩ := hi.read hh
    exact hx content hw ▸ hy
  · obtain ⟨d,hd,-⟩ := hi.perform (fun x _ => hc x) ha
    exact ⟨d,by rw [step,if_pos ha,hd]⟩

theorem content_kept_reload :
    let c := (run (step Vector.toList fun pages => Vector.ofFn fun i : Fin 2 => pages.getD i 0)
      [.initialize_ 7 0 #v[1,2],.write 0 1 5,.drop 0,.unload,.compress,.getConst 3 #v[3,4]]
      { blob := { pages := [] } }).get rfl
    c.handles ≠ [] ∧ ∀ handle ∈ c.handles, c.heap handle.block.data = some #v[7,5] := by
  refine ⟨by decide,(content_kept (fun x => ?_) [] _ _ (Option.some_get _).symm).1 _ rfl⟩
  ext i hi
  simp [hi]

end Blob
end Scroom
