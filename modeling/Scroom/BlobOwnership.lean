import Scroom.Blob

/-! Which memory belongs to a blob. There should be one buffer at most, the one that `data`
refers to; an expired pointer whose deleter has not run yet stands in the way of that. -/
namespace Scroom
namespace Blob
open Transitions

variable {n : ℕ} {Pages : Type}

/-- The action makes `load` allocate a buffer. -/
def allocates (c : Config n Pages) : Action n → Bool
  | .get _ _ => (lock c).isNone && (c.blob.state = .uninitialized || c.blob.state = .clean)
  | .getConst _ _ => (lock c).isNone && (c.blob.state = .uninitialized || c.blob.state = .clean)
  | .initialize_ _ _ _ => (lock c).isNone && (c.blob.state = .uninitialized || c.blob.state = .clean)
  | _ => false

/-- When `load` allocates a buffer, no deleter of an earlier one is still to run. -/
def allocatesLast (c : Config n Pages) (a : Action n) : Prop := allocates c a = true → c.unloads = 0

instance (c : Config n Pages) (a : Action n) : Decidable (allocatesLast c a) :=
  inferInstanceAs (Decidable (_ → _))

/-- `data` refers to the only buffer that is allocated. -/
def Unique (c : Config n Pages) : Prop := ∀ a, (c.heap a).isSome → c.blob.data = some a

section Step
variable (compressBlob : Buffer n → Pages) (decompressBlob : Pages → Buffer n)

/-- The blob owns its memory: no buffer but that of `data` is allocated, none that a pointer
refers to is freed, none is freed twice or used after it was freed (such a step would fail), and
when nothing is held or pending, all have been freed. -/
structure Owned (c : Config n Pages) : Prop where
  unique : Unique c
  live : ∀ handle ∈ c.handles, (c.heap handle.block.data).isSome
  succeeds : ∀ a, enabled c a = true → (step compressBlob decompressBlob c a).isSome
  freed : c.handles = [] → c.unloads = 0 → c.jobs = 0 → ∀ a, c.heap a = none

end Step

variable {compressBlob : Buffer n → Pages} {decompressBlob : Pages → Buffer n}
variable {content : Option (Buffer n)} {c d : Config n Pages}

/-- What is known of the memory in any run. -/
structure Memory (decompressBlob : Pages → Buffer n) (c : Config n Pages) : Prop
    extends Inv decompressBlob none c where
  empty : c.blob.refcount = 0 → c.blob.state ≠ .compressing → c.blob.data = none
  dirty : c.blob.state = .dirty → c.blob.refcount ≠ 0
  jobs : c.blob.state = .compressing → 0 < c.jobs

theorem Inv.forget (hi : Inv decompressBlob content c) : Inv decompressBlob none c where
  __ := hi
  fresh := fun _ => rfl
  kept := by simp
  present := fun h => by
    obtain ⟨a,y,ha,hy,-⟩ := hi.present h
    exact ⟨a,y,ha,hy,by simp⟩

theorem memory_initial (pages : Pages) :
    Memory decompressBlob ({ blob := { pages := pages } } : Config n Pages) where
  toInv := inv_initial pages
  empty := by simp
  dirty := by simp
  jobs := by simp

/-! ### What a step does to the memory -/

/-- What an action does to the memory: `load` allocates a buffer, or the one of `data` may be
freed. -/
inductive Change (c d : Config n Pages) : Bool → Prop
  | malloc (address : ℕ) (fresh : c.heap address = none)
      (heap : ∀ a, (d.heap a).isSome = (decide (a = address) || (c.heap a).isSome))
      (data : d.blob.data = some address) : Change c d true
  | free (address : ℕ) (used : c.blob.data = some address)
      (heap : ∀ a, (d.heap a).isSome = (!decide (a = address) && (c.heap a).isSome))
      (data : d.blob.data = none) : Change c d false
  | keep (heap : ∀ a, (d.heap a).isSome = (c.heap a).isSome) (data : d.blob.data = c.blob.data) :
      Change c d false

theorem isSome_update (heap : ℕ → Option (Buffer n)) (address : ℕ) (x : Option (Buffer n)) (a : ℕ) :
    (Function.update heap address x a).isSome = if a = address then x.isSome else (heap a).isSome := by
  by_cases ha : a = address <;> simp [ha]

theorem Change.trans_keep {e : Config n Pages} {b : Bool} (h : Change c d b)
    (hh : ∀ a, (e.heap a).isSome = (d.heap a).isSome) (hd : e.blob.data = d.blob.data) :
    Change c e b := by
  cases h with
  | malloc address fresh heap data =>
    exact .malloc address fresh (fun a => (hh a).trans (heap a)) (hd.trans data)
  | free address used heap data =>
    exact .free address used (fun a => (hh a).trans (heap a)) (hd.trans data)
  | keep heap data => exact .keep (fun a => (hh a).trans (heap a)) (hd.trans data)

theorem Change.keep_trans {e : Config n Pages} {b : Bool} (h : Change e d b) (hh : e.heap = c.heap)
    (hd : e.blob.data = c.blob.data) : Change c d b := by
  cases h with
  | malloc address fresh heap data =>
    exact .malloc address (hh ▸ fresh) (fun a => (heap a).trans (by rw [hh])) data
  | free address used heap data =>
    exact .free address (hd ▸ used) (fun a => (heap a).trans (by rw [hh])) data
  | keep heap data => exact .keep (fun a => (heap a).trans (by rw [hh])) (data.trans hd)

theorem load_change {address : ℕ} {garbage : Buffer n} {block : Block}
    (ha : c.heap address = none) (h : load decompressBlob c address garbage = some (block,d)) :
    Change c d ((lock c).isNone && (c.blob.state = .uninitialized || c.blob.state = .clean)) := by
  cases hl : lock c with
  | some block =>
    simp only [load,hl,Option.some.injEq,Prod.mk.injEq] at h
    exact .keep (fun _ => by rw [← h.2]) (by rw [← h.2])
  | none =>
    simp only [load,hl,Option.bind_eq_bind,Option.bind_eq_some_iff,Option.pure_def,Option.some.injEq,
      Prod.mk.injEq] at h
    obtain ⟨e,he,data,hd,-,rfl⟩ := h
    cases hs : c.blob.state with
    | uninitialized =>
      simp only [loadData,hs,malloc_eq ha,Option.some.injEq] at he
      subst he
      exact .malloc address ha (fun a => by simp [isSome_update,Bool.if_true_left]) rfl
    | clean =>
      simp only [loadData,hs,malloc_eq ha,Option.some.injEq] at he
      subst he
      exact .malloc address ha (fun a => by simp [isSome_update,Bool.if_true_left]) rfl
    | dirty =>
      simp only [loadData,hs,Option.some.injEq] at he
      subst he
      exact .keep (fun _ => rfl) rfl
    | compressing =>
      simp only [loadData,hs,Option.some.injEq] at he
      subst he
      exact .keep (fun _ => rfl) rfl

theorem store_change {block : Block} {change : Buffer n → Buffer n}
    (h : store c block change = some d) :
    (∀ a, (d.heap a).isSome = (c.heap a).isSome) ∧ d.blob.data = c.blob.data := by
  obtain ⟨x,hx,rfl⟩ := Option.map_eq_some_iff.mp h
  refine ⟨fun a => ?_,rfl⟩
  rw [isSome_update]
  split
  case isTrue ha => simp [ha,hx]
  case isFalse => rfl

theorem free_change (h : free c = some d) : Change c d false := by
  cases hd : c.blob.data with
  | none =>
    simp only [free,hd,Option.some.injEq] at h
    exact .keep (fun _ => by rw [h]) (by rw [h])
  | some a =>
    simp only [free,hd] at h
    obtain ⟨x,-,rfl⟩ := Option.map_eq_some_iff.mp h
    exact .free a hd (fun b => by by_cases hb : b = a <;> simp [hb]) rfl

theorem free_blob (h : free c = some d) : d.blob = { c.blob with data := none } := by
  cases hd : c.blob.data with
  | none =>
    simp only [free,hd,Option.some.injEq] at h
    rw [← h,← hd]
  | some a =>
    simp only [free,hd] at h
    obtain ⟨x,-,rfl⟩ := Option.map_eq_some_iff.mp h
    rfl

/-- A step allocates a buffer when `load` has to, and only then. -/
theorem step_change {a : Action n} (h : step compressBlob decompressBlob c a = some d) :
    Change c d (allocates c a) := by
  obtain ⟨ha,h⟩ := step_eq_some.mp h
  cases a with
  | get address garbage =>
    obtain ⟨block,e,hl,rfl⟩ := get_eq_some h
    exact (load_change (Option.isNone_iff_eq_none.mp ha) hl).trans_keep (fun _ => rfl) rfl
  | getConst address garbage =>
    obtain ⟨block,e,hl,rfl⟩ := getConst_eq_some h
    exact (load_change (Option.isNone_iff_eq_none.mp ha) hl).trans_keep (fun _ => rfl) rfl
  | initialize_ value address garbage =>
    simp only [perform,initialize_,Option.bind_eq_bind,Option.bind_eq_some_iff] at h
    obtain ⟨⟨block,e⟩,hl,hs⟩ := h
    obtain ⟨heap,data⟩ := store_change hs
    exact (load_change (Option.isNone_iff_eq_none.mp ha) hl).trans_keep heap data
  | write k i value =>
    obtain ⟨handle,-,h⟩ := Option.bind_eq_some_iff.mp h
    obtain ⟨heap,data⟩ := store_change h
    exact .keep heap data
  | copy k =>
    obtain ⟨handle,-,rfl⟩ := Option.map_eq_some_iff.mp h
    exact .keep (fun _ => rfl) rfl
  | drop k =>
    obtain ⟨handle,-,rfl⟩ := Option.map_eq_some_iff.mp h
    exact .keep (fun _ => rfl) rfl
  | unload =>
    simp only [perform,unload] at h
    split at h
    · split at h
      · cases h
        exact .keep (fun _ => rfl) rfl
      · exact (free_change h).keep_trans rfl rfl
    · cases h
      exact .keep (fun _ => rfl) rfl
  | compress =>
    simp only [perform,compress] at h
    split at h
    · split at h
      · simp only [Option.bind_eq_bind,Option.bind_eq_some_iff,Option.pure_def,Option.some.injEq] at h
        obtain ⟨address,-,content,-,e,hf,rfl⟩ := h
        have hc : Change c e false := (free_change hf).keep_trans rfl rfl
        exact hc.trans_keep (fun _ => rfl) rfl
      · cases h
    · cases h
      exact .keep (fun _ => rfl) rfl

/-! ### What holds in any run -/

theorem Inv.memory_of_handles (hi : Inv decompressBlob none c) (hn : c.handles ≠ []) :
    Memory decompressBlob c := by
  have hr : c.blob.refcount ≠ 0 := by
    have hc := hi.counted
    rw [if_neg hn] at hc
    omega
  exact { hi with
    empty := fun h => absurd h hr
    dirty := fun _ => hr
    jobs := fun h => absurd (hi.released h) hr }

theorem Memory.unload (hm : Memory decompressBlob c) (hi : Inv decompressBlob none d) (hu : 0 < c.unloads)
    (h : Blob.unload { c with unloads := c.unloads-1 } = some d) : Memory decompressBlob d := by
  have hs : c.blob.state ≠ .compressing := fun hs => hm.unloads_pos hu (hm.released hs)
  simp only [Blob.unload] at h
  split at h
  case isTrue hz =>
    split at h
    case isTrue hd =>
      cases h
      exact { hi with
        empty := by simp
        dirty := by simp
        jobs := by simp }
    case isFalse hd =>
      have hb := free_blob h
      exact { hi with
        empty := by simp [hb]
        dirty := fun h => absurd h (by simpa [hb] using hd)
        jobs := fun h => absurd h (by simpa [hb] using hs) }
  case isFalse hz =>
    cases h
    exact { hi with
      empty := fun h => absurd h hz
      dirty := fun _ => hz
      jobs := fun h => absurd h hs }

theorem Memory.compress (hm : Memory decompressBlob c) (hi : Inv decompressBlob none d)
    (h : Blob.compress compressBlob { c with jobs := c.jobs-1 } = some d) : Memory decompressBlob d := by
  simp only [Blob.compress] at h
  split at h
  case isTrue hs =>
    split at h
    · simp only [Option.bind_eq_bind,Option.bind_eq_some_iff,Option.pure_def,Option.some.injEq] at h
      obtain ⟨address,-,content,-,e,hf,rfl⟩ := h
      exact { hi with
        empty := by simp [free_blob hf]
        dirty := by simp
        jobs := by simp }
    · cases h
  case isFalse hs =>
    cases h
    exact { hi with
      empty := hm.empty
      dirty := hm.dirty
      jobs := fun h => absurd h hs }

theorem Memory.step (hm : Memory decompressBlob c) {a : Action n}
    (h : Blob.step compressBlob decompressBlob c a = some d) : Memory decompressBlob d := by
  have hi : Inv decompressBlob none d := (hm.toInv.step (by simp) h).forget
  obtain ⟨ha,h⟩ := step_eq_some.mp h
  cases a with
  | get address garbage =>
    obtain ⟨block,e,-,rfl⟩ := get_eq_some h
    exact hi.memory_of_handles (by simp)
  | getConst address garbage =>
    obtain ⟨block,e,-,rfl⟩ := getConst_eq_some h
    exact hi.memory_of_handles (by simp)
  | initialize_ value address garbage =>
    simp only [perform,initialize_,Option.bind_eq_bind,Option.bind_eq_some_iff] at h
    obtain ⟨⟨block,e⟩,-,hs⟩ := h
    obtain ⟨x,-,rfl⟩ := Option.map_eq_some_iff.mp hs
    exact hi.memory_of_handles (by simp)
  | write k i value =>
    obtain ⟨handle,-,h⟩ := Option.bind_eq_some_iff.mp h
    obtain ⟨x,-,rfl⟩ := Option.map_eq_some_iff.mp h
    exact { hm with toInv := hi }
  | copy k =>
    obtain ⟨handle,-,rfl⟩ := Option.map_eq_some_iff.mp h
    exact hi.memory_of_handles (by simp)
  | drop k =>
    obtain ⟨handle,-,rfl⟩ := Option.map_eq_some_iff.mp h
    exact { hm with toInv := hi }
  | unload => exact hm.unload hi (by simpa [enabled] using ha) h
  | compress => exact hm.compress hi h

/-! ### Ownership -/

theorem Memory.data_eq_none (hm : Memory decompressBlob c) {a : Action n} (ha : allocates c a = true)
    (hu : c.unloads = 0) : c.blob.data = none := by
  have hl : lock c = none ∧ (c.blob.state = .uninitialized ∨ c.blob.state = .clean) := by
    cases a <;> simp_all [allocates]
  have hc := hm.counted
  rw [if_pos (hm.lock_eq_none hl.1),hu] at hc
  refine hm.empty (by simpa using hc) ?_
  rcases hl.2 with h | h <;> simp [h]

theorem Memory.isSome_data (hm : Memory decompressBlob c) (hu : 0 < c.unloads) :
    ∃ a, c.blob.data = some a ∧ (c.heap a).isSome := by
  obtain ⟨a,y,ha,hy,-⟩ := hm.present (Or.inr (Or.inr (hm.unloads_pos hu)))
  exact ⟨a,ha,by simp [hy]⟩

/-- The buffer stays unique unless one is allocated before the deleter of another one has run. -/
theorem Memory.unique_step (hm : Memory decompressBlob c) (hu : Unique c) {a : Action n}
    (h : Blob.step compressBlob decompressBlob c a = some d) : Unique d ↔ allocatesLast c a := by
  have hch := step_change h
  cases hb : allocates c a with
  | true =>
    rw [hb] at hch
    cases hch with
    | malloc address fresh heap data =>
      constructor
      · intro hd _
        by_contra hne
        obtain ⟨b,hdata,hsome⟩ := hm.isSome_data (Nat.pos_of_ne_zero hne)
        have he : some address = some b := data.symm.trans (hd b (by simp [heap,hsome]))
        rw [← Option.some.inj he,fresh] at hsome
        cases hsome
      · intro hok b hsome
        have hnone := hm.data_eq_none hb (hok hb)
        rw [heap,Bool.or_eq_true] at hsome
        rcases hsome with hsome | hsome
        · rw [data,of_decide_eq_true hsome]
        · exact absurd (hu b hsome) (by simp [hnone])
  | false =>
    rw [hb] at hch
    refine iff_of_true (fun b hsome => ?_) (fun h => by simp [hb] at h)
    cases hch with
    | free address used heap data =>
      rw [heap,Bool.and_eq_true] at hsome
      have he : some address = some b := used.symm.trans (hu b hsome.2)
      simp [Option.some.inj he] at hsome
    | keep heap data =>
      rw [heap] at hsome
      exact data.trans (hu b hsome)

theorem Memory.owned (hm : Memory decompressBlob c) :
    Owned compressBlob decompressBlob c ↔ Unique c := by
  refine ⟨Owned.unique,fun hu => ⟨hu,fun handle hh => ?_,fun a ha => ?_,fun hn hz hj a => ?_⟩⟩
  · obtain ⟨y,hy,-⟩ := hm.read hh
    simp [hy]
  · obtain ⟨d,hd,-⟩ : ∃ d, perform compressBlob decompressBlob c a = some d ∧ _ := hm.perform (by simp) ha
    rw [Blob.step,if_pos ha,hd]
    rfl
  · have hc := hm.counted
    rw [if_pos hn,hz] at hc
    have hd : c.blob.data = none := hm.empty (by simpa using hc) fun hs => by
      have h := hm.jobs hs
      omega
    have hnone : ¬ (c.heap a).isSome := fun h => by simpa [hd] using hu a h
    simpa using hnone

/-- The blob owns its memory in every state of a run, exactly if no step of the run allocates a
buffer before the deleter of the previous one has run. -/
theorem owned_iff_allocatesLast (compressBlob : Buffer n → Pages) (decompressBlob : Pages → Buffer n)
    (pages : Pages) (as : List (Action n)) (c : Config n Pages)
    (h : run (step compressBlob decompressBlob) as { blob := { pages := pages } } = some c) :
    Always (step compressBlob decompressBlob) (Owned compressBlob decompressBlob) as
      { blob := { pages := pages } } ↔
      Within (step compressBlob decompressBlob) allocatesLast as { blob := { pages := pages } } := by
  have hinv : ∀ (c : Config n Pages) a d, Memory decompressBlob c →
      step compressBlob decompressBlob c a = some d → Memory decompressBlob d :=
    fun _ _ _ hm hs => hm.step hs
  refine always_iff_within hinv (fun c a d hm ho hs => ?_) (memory_initial pages)
    ((memory_initial pages).owned.mpr ?_) h
  · rw [(hm.step hs).owned]
    exact hm.unique_step ho.unique hs
  · intro a ha
    cases ha

/-- Compressing, reading and letting go again, with the deleter in time. -/
theorem owned_iff_allocatesLast_reload :
    let decompressBlob := fun pages : List UInt8 => Vector.ofFn fun i : Fin 1 => pages.getD i 0
    Always (step Vector.toList decompressBlob) (Owned Vector.toList decompressBlob)
      [.initialize_ 7 0 #v[1],.drop 0,.unload,.compress,.getConst 3 #v[2],.drop 0,.unload,.getConst 3 #v[2]]
      { blob := { pages := [] } } :=
  (owned_iff_allocatesLast Vector.toList _ [] _ _ (Option.some_get (by decide)).symm).mpr (by decide)

/-- The blob is compressed. A reader comes and goes, and the next reader comes before the deleter
of the first one runs: `data` refers to the second buffer, and the first one is never freed. -/
theorem second_reader_leaks :
    let decompressBlob := fun pages : List UInt8 => Vector.ofFn fun i : Fin 1 => pages.getD i 0
    ¬ ∀ (as : List (Action 1)) c,
      run (step Vector.toList decompressBlob) as { blob := { pages := [] } } = some c →
        Always (step Vector.toList decompressBlob) (Owned Vector.toList decompressBlob) as
          { blob := { pages := [] } } := by
  intro decompressBlob h
  have hr := (Option.some_get (x := run (step Vector.toList decompressBlob)
    [.initialize_ 7 0 #v[1],.drop 0,.unload,.compress,.getConst 3 #v[2],.drop 0,.getConst 4 #v[5],
      .unload,.drop 0,.unload] { blob := { pages := [] } }) rfl).symm
  have hu := ((h _ _ hr).of_run hr).unique 3
  exact absurd (hu (by decide)) (by decide)

end Blob
end Scroom
