import Scroom.Transitions
import Mathlib.Order.CompletePartialOrder

/-! The provider of the pages that compressed data is kept in. It carves blocks of memory into
pages, and a page comes back to it when the last copy of the pointer that was handed out is gone. -/
namespace Scroom
namespace PageProvider
open Transitions

/-- A page is known by its block and its place in it. -/
@[ext] structure Page where
  block : ℕ
  id : ℕ
  deriving DecidableEq

/-- What the copies of a page pointer have in common. -/
structure Handle where
  page : Page
  useCount : ℕ
  deriving DecidableEq

structure Config where
  blocks : ℕ := 0
  allPages : List Page := []
  freePages : List Page := []
  handles : List Handle := []
  deriving DecidableEq

section Provider
variable (blockCount blockSize : UInt64)

/-- The number of bytes of a block. The product is taken in `size_t`. -/
def blockBytes : ℕ := blockCount.toNat*blockSize.toNat%2^64

def getPages (block : ℕ) : List Page := (List.range blockCount.toNat).map fun i => ⟨block,i⟩

/-- The place of the first byte of a page in its block. -/
def offset (page : Page) : ℕ := page.id*blockSize.toNat%2^64

/-- A page that is not of the block throws. -/
def get (page : Page) : Option ℕ :=
  if blockCount.toNat ≤ page.id then none else some (offset blockSize page)

/-- Taking the front of an empty list is undefined. -/
def getFreePage (c : Config) : Option Config :=
  let c := if c.freePages = [] then
      let pages := getPages blockCount c.blocks
      { c with freePages := pages, allPages := c.allPages ++ pages, blocks := c.blocks+1 }
    else c
  match c.freePages with
  | [] => none
  | p::freePages => some { c with freePages := freePages, handles := c.handles ++ [⟨p,1⟩] }

def markPageFree (c : Config) (p : Page) : Config := { c with freePages := p::c.freePages }

/-- One copy of a page pointer goes, and with the last one the deleter runs. -/
def drop (c : Config) (k : ℕ) (handle : Handle) : Config :=
  if handle.useCount = 1 then markPageFree { c with handles := c.handles.eraseIdx k } handle.page
  else { c with handles := c.handles.set k { handle with useCount := handle.useCount-1 } }

inductive Action
  | getFreePage
  | copy (k : ℕ)
  | drop (k : ℕ)

def step (c : Config) : Action → Option Config
  | .getFreePage => getFreePage blockCount c
  | .copy k =>
    (c.handles[k]?).map fun handle =>
      { c with handles := c.handles.set k { handle with useCount := handle.useCount+1 } }
  | .drop k => (c.handles[k]?).map (drop c k)

def Created (c : Config) (p : Page) : Prop := p.block < c.blocks ∧ p.id < blockCount.toNat

def bytes (p : Page) : Set (ℕ × ℕ) :=
  {b | b.1 = p.block ∧ ∃ first, get blockCount blockSize p = some first ∧
    first ≤ b.2 ∧ b.2 < first+blockSize.toNat}

/-- The pages are in order: each is free or held, and not both; they do not overlap, and lie in
their blocks; there is always one to hand out, from a new block only if none was free. -/
structure Sound (c : Config) : Prop where
  once : ∀ p, Created blockCount c p → (c.freePages ++ c.handles.map (·.page)).count p = 1
  known : ∀ p ∈ c.freePages ++ c.handles.map (·.page), Created blockCount c p
  held : ∀ handle ∈ c.handles, 0 < handle.useCount
  inside : ∀ p, Created blockCount c p → ∃ first, get blockCount blockSize p = some first ∧
    first+blockSize.toNat ≤ blockBytes blockCount blockSize
  disjoint : ∀ p q, Created blockCount c p → Created blockCount c q → p ≠ q →
    Disjoint (bytes blockCount blockSize p) (bytes blockCount blockSize q)
  available : ∃ d, getFreePage blockCount c = some d ∧ (d.blocks ≠ c.blocks → c.freePages = [])

end Provider

/-- What holds between any two calls. -/
structure Inv (blockCount : UInt64) (c : Config) : Prop where
  allPages : c.allPages = (List.range c.blocks).flatMap (getPages blockCount)
  perm : (c.freePages ++ c.handles.map (·.page)).Perm c.allPages
  held : ∀ handle ∈ c.handles, 0 < handle.useCount

variable {blockCount blockSize : UInt64} {c d : Config} {p : Page}

theorem mem_getPages {block : ℕ} : p ∈ getPages blockCount block ↔ p.block = block ∧ p.id < blockCount.toNat := by
  cases p
  simp [getPages,and_comm,eq_comm]

theorem nodup_getPages (block : ℕ) : (getPages blockCount block).Nodup :=
  List.nodup_range.map fun _ _ h => (Page.mk.inj h).2

theorem Inv.mem_allPages (hi : Inv blockCount c) : p ∈ c.allPages ↔ Created blockCount c p := by
  rw [hi.allPages]
  simp [mem_getPages,Created]

theorem Inv.nodup (hi : Inv blockCount c) : c.allPages.Nodup := by
  rw [hi.allPages]
  refine List.nodup_flatMap.mpr ⟨fun block _ => nodup_getPages block,?_⟩
  refine List.nodup_range.imp fun {b b'} hne p hp hp' => hne ?_
  exact (mem_getPages.mp hp).1.symm.trans (mem_getPages.mp hp').1

theorem inv_initial : Inv blockCount {} where
  allPages := by simp
  perm := by simp
  held := by simp

theorem Inv.refill (hi : Inv blockCount c) (hf : c.freePages = []) :
    Inv blockCount { c with
      freePages := getPages blockCount c.blocks
      allPages := c.allPages ++ getPages blockCount c.blocks
      blocks := c.blocks+1 } where
  allPages := by simp [hi.allPages,List.range_succ]
  perm := by
    have hp := hi.perm
    rw [hf,List.nil_append] at hp
    exact List.perm_append_comm.trans (hp.append_right _)
  held := hi.held

theorem Inv.take (hi : Inv blockCount c) {freePages : List Page} (hf : c.freePages = p::freePages) :
    Inv blockCount { c with freePages := freePages, handles := c.handles ++ [⟨p,1⟩] } where
  allPages := hi.allPages
  perm := by
    have hp := hi.perm
    rw [hf] at hp
    refine List.Perm.trans ?_ hp
    rw [List.map_append,← List.append_assoc]
    exact List.perm_append_singleton _ _
  held := fun handle hh => by
    rcases List.mem_append.mp hh with hh | hh
    · exact hi.held handle hh
    · rw [List.mem_singleton.mp hh]
      exact Nat.one_pos

/-- There is a page to hand out. A block is created if none is free. -/
theorem Inv.getFreePage (hi : Inv blockCount c) (hc : 1 ≤ blockCount.toNat) :
    ∃ d, getFreePage blockCount c = some d ∧ Inv blockCount d ∧ 0 < d.blocks ∧
      (d.blocks ≠ c.blocks → c.freePages = []) := by
  cases hf : c.freePages with
  | nil =>
    obtain ⟨k,hk⟩ : ∃ k, blockCount.toNat = k+1 := ⟨blockCount.toNat-1,by omega⟩
    have hpages : getPages blockCount c.blocks =
        ⟨c.blocks,0⟩::(List.range k).map fun i => ⟨c.blocks,i+1⟩ := by
      simp [getPages,hk,List.range_succ_eq_map,Function.comp_def]
    refine ⟨_,by simp only [PageProvider.getFreePage,hf,if_true,hpages]; rfl,?_,Nat.succ_pos _,fun _ => rfl⟩
    have ht := (hi.refill hf).take hpages
    rw [hpages] at ht
    exact ht
  | cons p freePages =>
    refine ⟨_,by simp only [PageProvider.getFreePage,hf,reduceCtorEq,if_false],hi.take hf,?_,?_⟩
    · have hp : p ∈ c.allPages := hi.perm.mem_iff.mp (by simp [hf])
      exact Nat.zero_lt_of_lt (hi.mem_allPages.mp hp).1
    · exact fun hne => absurd rfl hne

theorem Inv.recount (hi : Inv blockCount c) {k : ℕ} {handle : Handle} (hk : c.handles[k]? = some handle)
    {useCount : ℕ} (hpos : 0 < useCount) :
    Inv blockCount { c with handles := c.handles.set k { handle with useCount := useCount } } where
  allPages := hi.allPages
  perm := by
    obtain ⟨hlt,hget⟩ := List.getElem?_eq_some_iff.mp hk
    have hmap : (c.handles.set k { handle with useCount := useCount }).map (·.page) =
        c.handles.map (·.page) := by
      rw [List.map_set,← hget,← List.getElem_map Handle.page (h := by simpa using hlt),List.set_getElem_self]
    rw [hmap]
    exact hi.perm
  held := forall_mem_set hi.held hpos

theorem Inv.drop (hi : Inv blockCount c) {k : ℕ} {handle : Handle} (hk : c.handles[k]? = some handle) :
    Inv blockCount (drop c k handle) := by
  obtain ⟨hlt,hget⟩ := List.getElem?_eq_some_iff.mp hk
  unfold PageProvider.drop
  split
  case isTrue =>
    exact {
      allPages := hi.allPages
      perm := by
        refine List.Perm.trans ?_ hi.perm
        have hp : (handle.page::(c.handles.eraseIdx k).map (·.page)).Perm (c.handles.map (·.page)) := by
          rw [← hget]
          exact (List.getElem_cons_eraseIdx_perm hlt).map _
        exact (List.perm_middle.symm).trans (hp.append_left _)
      held := fun h hh => hi.held h (List.mem_of_mem_eraseIdx hh) }
  case isFalse hone =>
    have hpos := hi.held handle (List.mem_of_getElem? hk)
    exact hi.recount hk (by omega)

theorem Inv.step (hi : Inv blockCount c) (hc : 1 ≤ blockCount.toNat) {a : Action}
    (h : step blockCount c a = some d) : Inv blockCount d := by
  cases a with
  | getFreePage =>
    obtain ⟨e,he,hi,-⟩ := hi.getFreePage hc
    cases h.symm.trans he
    exact hi
  | copy k =>
    obtain ⟨handle,hk,rfl⟩ := Option.map_eq_some_iff.mp h
    exact hi.recount hk (Nat.succ_pos _)
  | drop k =>
    obtain ⟨handle,hk,rfl⟩ := Option.map_eq_some_iff.mp h
    exact hi.drop hk

/-! ### The bytes of the pages -/

theorem get_of_lt (hp : p.id < blockCount.toNat) :
    get blockCount blockSize p = some (offset blockSize p) :=
  if_neg (Nat.not_le.mpr hp)

/-- As long as the size of a block does not wrap, its pages follow one another in it. -/
theorem offset_eq (hfit : blockCount.toNat*blockSize.toNat < 2^64) (hp : p.id < blockCount.toNat) :
    offset blockSize p = p.id*blockSize.toNat ∧
      (p.id+1)*blockSize.toNat ≤ blockBytes blockCount blockSize := by
  have hle := Nat.mul_le_mul_right blockSize.toNat hp
  rw [Nat.succ_mul] at hle ⊢
  rw [offset,blockBytes,Nat.mod_eq_of_lt hfit,Nat.mod_eq_of_lt (by omega)]
  exact ⟨rfl,hle⟩

theorem exists_outside (hwrap : 2^64 ≤ blockCount.toNat*blockSize.toNat) :
    ∃ k < blockCount.toNat, blockBytes blockCount blockSize < offset blockSize ⟨0,k⟩+blockSize.toNat := by
  have hlt : blockBytes blockCount blockSize < 2^64 := Nat.mod_lt _ (by decide)
  have hs : 0 < blockSize.toNat := by
    by_contra hz
    rw [Nat.eq_zero_of_not_pos hz,Nat.mul_zero] at hwrap
    omega
  generalize blockBytes blockCount blockSize = bytes at hlt
  have hdiv := Nat.div_add_mod' bytes blockSize.toNat
  have hmod := Nat.mod_lt bytes hs
  refine ⟨bytes/blockSize.toNat,?_,?_⟩
  · exact (Nat.div_lt_iff_lt_mul hs).mpr (by omega)
  · have hget : offset blockSize ⟨0,bytes/blockSize.toNat⟩ = bytes/blockSize.toNat*blockSize.toNat :=
      Nat.mod_eq_of_lt (by dsimp only; omega)
    omega

theorem offset_add_le (hfit : blockCount.toNat*blockSize.toNat < 2^64) {q : Page}
    (hp : p.id < blockCount.toNat) (hq : q.id < blockCount.toNat) (hlt : p.id < q.id) :
    offset blockSize p+blockSize.toNat ≤ offset blockSize q := by
  rw [(offset_eq hfit hp).1,(offset_eq hfit hq).1,← Nat.succ_mul]
  exact Nat.mul_le_mul_right _ hlt

theorem Inv.sound (hi : Inv blockCount c) (hc : 1 ≤ blockCount.toNat)
    (hfit : blockCount.toNat*blockSize.toNat < 2^64) : Sound blockCount blockSize c where
  once := fun p hp => by
    rw [hi.perm.count_eq]
    exact List.count_eq_one_of_mem hi.nodup (hi.mem_allPages.mpr hp)
  known := fun p hp => hi.mem_allPages.mp (hi.perm.mem_iff.mp hp)
  held := hi.held
  inside := fun p hp => by
    refine ⟨_,get_of_lt hp.2,?_⟩
    obtain ⟨hg,hle⟩ := offset_eq hfit hp.2
    rw [hg,← Nat.succ_mul]
    exact hle
  disjoint := fun p q hp hq hne => by
    refine Set.disjoint_left.mpr fun b hb hb' => ?_
    obtain ⟨hblock,_,hf,hl,hr⟩ := hb
    obtain ⟨hblock',_,hf',hl',hr'⟩ := hb'
    cases (get_of_lt hp.2).symm.trans hf
    cases (get_of_lt hq.2).symm.trans hf'
    have hid : p.id ≠ q.id := fun hid => hne (Page.ext (hblock.symm.trans hblock') hid)
    rcases Nat.lt_or_gt_of_ne hid with hlt | hlt
    · have hle := offset_add_le hfit hp.2 hq.2 hlt
      omega
    · have hle := offset_add_le hfit hq.2 hp.2 hlt
      omega
  available := by
    obtain ⟨d,hd,-,-,hn⟩ := hi.getFreePage hc
    exact ⟨d,hd,hn⟩

/-- The pages are in order after any calls exactly when the size of a block does not wrap. -/
theorem sound_iff (hc : 1 ≤ blockCount.toNat) :
    (∀ as c, run (step blockCount) as {} = some c → Sound blockCount blockSize c) ↔
      blockCount.toNat*blockSize.toNat < 2^64 := by
  constructor
  case mp =>
    intro hall
    by_contra hwrap
    obtain ⟨k,hk,hout⟩ := exists_outside (Nat.le_of_not_lt hwrap)
    obtain ⟨c,hget,-,hpos,-⟩ := inv_initial.getFreePage hc
    have hs := hall [.getFreePage] c (by simp [run,step,hget])
    obtain ⟨first,hf,hin⟩ := hs.inside ⟨0,k⟩ ⟨hpos,hk⟩
    cases (get_of_lt hk).symm.trans hf
    exact absurd hin (Nat.not_le.mpr hout)
  case mpr =>
    intro hfit as c hrun
    exact (run_invariant (fun _ _ _ hi h => hi.step hc h) inv_initial hrun).sound hc hfit

theorem sound_iff_sixteenPages :
    let c := (run (step 16) [.getFreePage] {}).get rfl
    Sound 16 256 c :=
  (sound_iff (by decide)).mpr (by decide) _ _ (Option.some_get _).symm

/-- Two pages of half of the memory: the block has no bytes at all. -/
theorem hugePage_outside :
    ¬∀ as c, run (step 2) as {} = some c → Sound 2 9223372036854775808 c := by
  intro hall
  have hs := hall [.getFreePage] ((run (step 2) [.getFreePage] {}).get rfl)
    (Option.some_get (x := run (step 2) [.getFreePage] {}) rfl).symm
  obtain ⟨first,hf,hin⟩ := hs.inside ⟨0,1⟩ ⟨by decide,by decide⟩
  cases (get_of_lt (by decide)).symm.trans hf
  exact absurd hin (by decide)

end PageProvider
end Scroom
