import Mathlib.Algebra.BigOperators.Intervals
import Mathlib.Order.Bounds.Basic
import Scroom.Pixels

/-! The reductions of colour indices: a target pixel is the pair of the two indices that occur most often in its
block of 8 by 8 source pixels. -/
namespace Scroom

open Buffer

variable {n : ℕ}

namespace LayerOperations

/-- The colour indices in a pixel, in the order in which `reduce` counts them. -/
def indices (v : ℕ) : LayerOperations → List ℕ
  | operations _ _ => [v]
  | operationsColormapped _ bpp => [v &&& Operations.pixelMask bpp,v >>> bpp]
  | _ => []

def counts (source : Buffer n) (j i : ℕ) : LayerOperations → Option (List ℕ)
  | operations _ bpp => Operations.counts bpp source j i
  | operationsColormapped _ bpp => OperationsColormapped.counts bpp source j i
  | _ => none

/-- How often an index occurs in the block of 8 by 8 source pixels for row `j` and column `i`. -/
def occurrences (lo : LayerOperations) (source : Buffer n) (j i c : ℕ) : ℕ :=
  ∑ a ∈ Finset.range 8, ∑ b ∈ Finset.range 8, (lo.indices (lo.pixel source (8*j+a) (8*i+b))).count c

theorem occurrences_le (lo : LayerOperations) (source : Buffer n) (j i c : ℕ) :
    lo.occurrences source j i c ≤ 64*2 := by
  have hlen : ∀ v, (lo.indices v).length ≤ 2 := by
    intro v
    cases lo <;> simp [indices]
  exact sum_block_le fun _ _ => List.count_le_length.trans (hlen _)

end LayerOperations

/-- Of the values below `size`, the first is the smallest one of those that occur most often, and the second
the smallest one of those that occur most often among the others, if any of them occurs. -/
def MostFrequent (count : ℕ → ℕ) (size : ℕ) (pair : ℕ × ℕ) : Prop :=
  IsLeast {c | c < size ∧ ∀ d < size, count d ≤ count c} pair.1 ∧
    ∃ other, IsLeast {c | (c < size ∧ c ≠ pair.1) ∧ ∀ d < size, d ≠ pair.1 → count d ≤ count c} other ∧
      pair.2 = if 0 < count other then other else pair.1

/-- The best and the second best of the values below `count`, both of them as small as possible. -/
structure LeastOf (lookup : List ℕ) (count : ℕ) (best : ℕ × ℕ) : Prop extends TopOf lookup count best where
  fst_least : ∀ c < count, lookup.getD c 0 = lookup.getD best.1 0 → best.1 ≤ c
  snd_least : ∀ c < count, c ≠ best.1 → lookup.getD c 0 = lookup.getD best.2 0 → best.2 ≤ c

theorem LeastOf.init (lookup : List ℕ) :
    LeastOf lookup 2 (if lookup.getD 1 0 > lookup.getD 0 0 then (1,0) else (0,1)) := by
  refine ⟨TopOf.init lookup,?_,?_⟩
  · split
    · rename_i h
      intro c hc he
      have hne : c ≠ 0 := by
        rintro rfl
        exact h.ne he
      dsimp only
      omega
    · exact fun c _ _ => Nat.zero_le c
  · split
    · exact fun c _ _ _ => Nat.zero_le c
    · intro c hc hne _
      dsimp only at hne ⊢
      omega

theorem LeastOf.next {lookup : List ℕ} {c : ℕ} {best : ℕ × ℕ} (h : LeastOf lookup c best) :
    LeastOf lookup (c+1) (if lookup.getD c 0 > lookup.getD best.1 0 then (c,best.1)
      else if lookup.getD c 0 > lookup.getD best.2 0 then (best.1,c) else best) := by
  refine ⟨h.toTopOf.next,?_,?_⟩
  · split
    · -- an earlier value occurs less often than the new best one
      rename_i hgt
      intro d hd he
      by_contra hlt
      have hle : lookup.getD d 0 ≤ lookup.getD best.1 0 := by
        by_cases hd1 : d = best.1
        · rw [hd1]
        · exact (h.le d (by dsimp only at hlt; omega) hd1).trans h.snd_le
      dsimp only at he
      omega
    · rename_i hngt
      have hfst : ∀ d < c+1, lookup.getD d 0 = lookup.getD best.1 0 → best.1 ≤ d := by
        intro d hd he
        by_cases hdc : d = c
        · exact hdc ▸ h.fst_lt.le
        · exact h.fst_least d (by omega) he
      split
      · exact hfst
      · exact hfst
  · split
    · intro d hd hne he
      dsimp only at hne he ⊢
      exact h.fst_least d (by omega) he
    · split
      · rename_i hgt
        intro d hd hne he
        by_contra hlt
        dsimp only at hne he hlt
        have hle := h.le d (by omega) hne
        omega
      · intro d hd hne he
        by_cases hdc : d = c
        · exact hdc ▸ h.snd_lt.le
        · exact h.snd_least d (by omega) hne he

theorem topTwo_least (lookup : List ℕ) (h : 2 ≤ lookup.length) : ∃ best, LeastOf lookup lookup.length best ∧
    topTwo lookup = if lookup.getD best.2 0 = 0 then (best.1,best.1) else best :=
  topTwo_induction lookup h (LeastOf.init lookup) fun _ _ hbest => hbest.next

theorem mostFrequent_topTwo {lookup : List ℕ} {size : ℕ} {count : ℕ → ℕ} (h : 2 ≤ size)
    (hlen : lookup.length = size) (hcount : ∀ c < size, lookup.getD c 0 = count c) :
    MostFrequent count size (topTwo lookup) := by
  obtain ⟨best,hbest,htop⟩ := topTwo_least lookup (by omega)
  have hfst : (topTwo lookup).1 = best.1 := by
    rw [htop]
    split <;> rfl
  have hsnd : (topTwo lookup).2 = if 0 < count best.2 then best.2 else best.1 := by
    rw [htop,← hcount _ (hlen ▸ hbest.snd_lt)]
    by_cases hz : lookup.getD best.2 0 = 0
    · rw [if_pos hz,if_neg (by omega)]
    · rw [if_neg hz,if_pos (by omega)]
  rw [hlen] at hbest
  have h1 := hcount _ hbest.fst_lt
  have h2 := hcount _ hbest.snd_lt
  refine ⟨⟨⟨by rw [hfst]; exact hbest.fst_lt,fun d hd => ?_⟩,fun c hc => ?_⟩,best.2,
    ⟨⟨⟨hbest.snd_lt,by rw [hfst]; exact hbest.ne.symm⟩,fun d hd hne => ?_⟩,fun c hc => ?_⟩,by rw [hsnd,hfst]⟩
  · rw [hfst,← h1,← hcount d hd]
    by_cases he : d = best.1
    · rw [he]
    · exact (hbest.le d hd he).trans hbest.snd_le
  · rw [hfst]
    have hle := hc.2 best.1 hbest.fst_lt
    have hge : lookup.getD c 0 ≤ lookup.getD best.1 0 := by
      by_cases he : c = best.1
      · rw [he]
      · exact (hbest.le c hc.1 he).trans hbest.snd_le
    rw [← h1,← hcount c hc.1] at hle
    exact hbest.fst_least c hc.1 (le_antisymm hge hle)
  · rw [hfst] at hne
    rw [← h2,← hcount d hd]
    exact hbest.le d hd hne
  · rw [hfst] at hc
    have hle := hc.2 best.2 hbest.snd_lt hbest.ne.symm
    rw [← h2,← hcount c hc.1.1] at hle
    exact hbest.snd_least c hc.1.1 hc.1.2 (le_antisymm (hbest.le c hc.1.1 hc.1.2) hle)

/-- Several more occurrences, as long as no counter overflows. -/
theorem increments_eq {values lookup : List ℕ} (hlt : ∀ v ∈ values, v < lookup.length)
    (hmax : ∀ c, lookup.getD c 0+values.length < 256) :
    ∃ lookup', values.foldlM increment lookup = some lookup' ∧ lookup'.length = lookup.length ∧
      ∀ c, lookup'.getD c 0 = lookup.getD c 0+values.count c := by
  induction values generalizing lookup with
  | nil => exact ⟨lookup,rfl,rfl,fun c => rfl⟩
  | cons v values ih =>
    obtain ⟨one,hone,hlen,hcount⟩ := increment_spec (hlt v List.mem_cons_self)
    have hone_eq : ∀ c, one.getD c 0 = lookup.getD c 0+if c = v then 1 else 0 := by
      intro c
      have hc := hmax c
      rw [hcount]
      split
      · exact Nat.mod_eq_of_lt (by rw [List.length_cons] at hc; omega)
      · rfl
    obtain ⟨rest,hrest,hlen',hcount'⟩ := @ih one
      (fun w hw => hlen ▸ hlt w (List.mem_cons_of_mem _ hw))
      (fun c => by
        have hc := hmax c
        rw [List.length_cons] at hc
        rw [hone_eq]
        split <;> omega)
    refine ⟨rest,by rw [List.foldlM_cons,hone]; exact hrest,hlen'.trans hlen,fun c => ?_⟩
    rw [hcount',hone_eq,List.count_cons]
    by_cases hc : c = v
    · simp [hc]
      omega
    · simp [hc,Ne.symm hc]

theorem countBlock_eq {size : ℕ} {read : ℕ → ℕ → List ℕ} {f : List ℕ → ℕ → ℕ → Option (List ℕ)}
    (hf : ∀ a < 8, ∀ b < 8, ∀ lookup, f lookup a b = (read a b).foldlM increment lookup)
    (hlen : ∀ a b, (read a b).length ≤ 2) (hlt : ∀ a b, ∀ v ∈ read a b, v < size) :
    ∃ lookup, (List.range 8).foldlM (fun lookup a => (List.range 8).foldlM (fun lookup b => f lookup a b) lookup)
        (List.replicate size 0) = some lookup ∧ lookup.length = size ∧
      ∀ c, lookup.getD c 0 = ∑ a ∈ Finset.range 8, ∑ b ∈ Finset.range 8, (read a b).count c := by
  have hle : ∀ a t c, ∑ b ∈ Finset.range t, (read a b).count c ≤ t*2 := by
    intro a t c
    have h := Finset.sum_le_card_nsmul (Finset.range t) (fun b => (read a b).count c) 2
      fun b _ => List.count_le_length.trans (hlen a b)
    simpa using h
  refine Loops.foldlM_range (I := fun t (lookup : List ℕ) => lookup.length = size ∧ ∀ c, lookup.getD c 0 =
    ∑ a ∈ Finset.range t, ∑ b ∈ Finset.range 8, (read a b).count c) ⟨by simp,fun c => by simp⟩ ?_
  rintro a ha lookup ⟨hlookup,hcount⟩
  have hrows : ∀ c, lookup.getD c 0 ≤ a*16 := by
    intro c
    have h := Finset.sum_le_card_nsmul (Finset.range a) (fun a => ∑ b ∈ Finset.range 8, (read a b).count c) 16
      fun a _ => hle a 8 c
    rw [hcount]
    simpa using h
  obtain ⟨lookup',hrun,hlookup',hcount'⟩ := Loops.foldlM_range (n := 8) (f := fun lookup b => f lookup a b)
    (I := fun t (row : List ℕ) => row.length = size ∧ ∀ c, row.getD c 0 =
      lookup.getD c 0+∑ b ∈ Finset.range t, (read a b).count c) ⟨hlookup,fun c => by simp⟩ (by
    rintro b hb row ⟨hrow,hcount⟩
    have hmax : ∀ c, row.getD c 0+(read a b).length < 256 := by
      intro c
      have h1 := hrows c
      have h2 := hle a b c
      have h3 := hlen a b
      rw [hcount]
      omega
    obtain ⟨row',hrow',hlen',hcount'⟩ := increments_eq (fun v hv => hrow ▸ hlt a b v hv) hmax
    refine ⟨row',by rw [hf a ha b hb,hrow'],hlen'.trans hrow,fun c => ?_⟩
    rw [hcount',hcount,Finset.sum_range_succ,Nat.add_assoc])
  refine ⟨lookup',hrun,hlookup',fun c => ?_⟩
  rw [hcount',hcount]
  exact (Finset.sum_range_succ (fun a => ∑ b ∈ Finset.range 8, (read a b).count c) a).symm

section Counts
variable {bpp j i : ℕ} (colormap : Colormap)

namespace Operations

theorem counts_eq (h : bpp ∈ [1,2,4,8]) (source : Tile bpp) (hj : j < height/8) (hi : i < width/8) :
    ∃ lookup, counts bpp source j i = some lookup ∧ lookup.length = 2^bpp ∧
      ∀ c, lookup.getD c 0 = (LayerOperations.operations colormap bpp).occurrences source j i c := by
  unfold counts
  rw [pixelMask_succ]
  refine countBlock_eq (fun a ha b hb lookup => ?_) (fun a b => Nat.le_succ _) fun a b v hv => ?_
  · dsimp only
    rw [read_block h hj hi ha hb,pixel_block h]
    simp only [LayerOperations.indices,List.foldlM_cons,List.foldlM_nil,Option.bind_eq_bind,Option.bind_some,bind_pure]
    rfl
  · rw [List.mem_singleton.mp hv]
    exact (LayerOperations.operations colormap bpp).pixel_lt source _ _

end Operations

namespace OperationsColormapped
open Operations

theorem counts_eq (h : bpp ∈ [1,2,4,8]) (source : Tile (2*bpp)) (hj : j < height/8) (hi : i < width/8) :
    ∃ lookup, counts bpp source j i = some lookup ∧ lookup.length = 2^bpp ∧
      ∀ c, lookup.getD c 0 = (LayerOperations.operationsColormapped colormap bpp).occurrences source j i c := by
  unfold counts
  rw [pixelMask_succ]
  refine countBlock_eq (fun a ha b hb lookup => ?_) (fun a b => le_rfl) fun a b v hv => ?_
  · dsimp only
    rw [read_block h hj hi ha hb,pixel_block h]
    simp only [LayerOperations.indices,List.foldlM_cons,List.foldlM_nil,Option.bind_eq_bind,Option.bind_some,bind_pure]
    rfl
  · have hlt := (LayerOperations.operationsColormapped colormap bpp).pixel_lt source (8*j+a) (8*i+b)
    rcases List.mem_pair.mp hv with rfl | rfl
    · exact and_pixelMask_lt _ _
    · exact shiftRight_lt hlt

end OperationsColormapped
end Counts

namespace LayerOperations
open Operations

/-- The pair in a pixel, as `OperationsColormapped::cache` takes it apart. -/
def decode (bpp v : ℕ) : ℕ × ℕ := (v >>> bpp,v &&& pixelMask bpp)

theorem decode_pair {a b bpp : ℕ} (hb : b < 2^bpp) : decode bpp (a <<< bpp ||| b) = (a,b) := by
  rw [decode,pair_shiftRight hb,pair_and hb]

theorem pairs_mostFrequent {bpp x y : ℕ} {f : Tile (2*bpp) → Option (Tile (2*bpp))}
    {kernel : ℕ → ℕ → Option (List ℕ)} {count : ℕ → ℕ → ℕ → ℕ} (h : bpp ∈ [1,2,4,8]) (hx : x < 8)
    (hfill : Fills f (2*bpp) x y (pixelsPerByte bpp) fun j i =>
      (((topTwo ((kernel j i).getD [])).1 <<< bpp) ||| (topTwo ((kernel j i).getD [])).2).testBit)
    (hk : ∀ j < height/8, ∀ i < width/8, ∃ lookup, kernel j i = some lookup ∧ lookup.length = 2^bpp ∧
      ∀ c, lookup.getD c 0 = count j i c) (colormap : Colormap) (target : Tile (2*bpp)) :
    ∃ result, f target = some result ∧ ∀ j < height/8, ∀ i < width/8, MostFrequent (count j i) (2^bpp)
      (decode bpp ((operationsColormapped colormap bpp).pixel result (height/8*y+j) (width/8*x+i))) := by
  have h2 : 2^1 ≤ 2^bpp := Nat.pow_le_pow_right (by decide) (bpp_pos h)
  have hall : ∀ j < height/8, ∀ i < width/8, ∃ result, f target = some result ∧
      MostFrequent (count j i) (2^bpp)
        (decode bpp ((operationsColormapped colormap bpp).pixel result (height/8*y+j) (width/8*x+i))) := by
    intro j hj i hi
    obtain ⟨lookup,hl,hlen,hcount⟩ := hk j hj i hi
    have htop := topTwo_lt (bpp_pos h) hlen
    obtain ⟨result,hr,hread⟩ := hfill.pixel_eq hx (pixelsPerByte_width h) hj hi (pair_lt htop.1 htop.2)
      (fun k _ => by rw [hl,Option.getD_some]) target
    have hpixel : (operationsColormapped colormap bpp).pixel result (height/8*y+j) (width/8*x+i) = _ := hread
    refine ⟨result,hr,?_⟩
    rw [hpixel,decode_pair htop.2]
    exact mostFrequent_topTwo h2 hlen fun c _ => hcount c
  obtain ⟨result,hr,-⟩ := hall 0 (by decide) 0 (by decide)
  refine ⟨result,hr,fun j hj i hi => ?_⟩
  obtain ⟨result',hr',hmost⟩ := hall j hj i hi
  cases hr.symm.trans hr'
  exact hmost

/-- Both classes count the indices of a block without a counter that overflows, and write the pair of the two that
occur most often, which `cache` then takes apart and draws. -/
theorem reduce_mostFrequent {bpp : ℕ} (h : bpp ∈ [1,2,4,8]) (colormap : Colormap) {lo : LayerOperations}
    (hlo : lo = operations colormap bpp ∨ lo = operationsColormapped colormap bpp) {x y : ℕ} (hx : x < 8)
    (hy : y < 8) (source : Tile lo.getBpp) (target : Tile (2*bpp)) :
    (∀ j < height/8, ∀ i < width/8, ∃ lookup, lo.counts source j i = some lookup ∧ lookup.length = 2^bpp ∧
      ∀ c, lookup.getD c 0 = lo.occurrences source j i c ∧ lo.occurrences source j i c < 256) ∧
    ∃ result, lo.reduce target source x y = some result ∧ ∀ j < height/8, ∀ i < width/8,
      ∃ pair, MostFrequent (lo.occurrences source j i) (2^bpp) pair ∧
        decode bpp ((operationsColormapped colormap bpp).pixel result (height/8*y+j) (width/8*x+i)) = pair ∧
        OperationsColormapped.cachePixel colormap bpp result (height/8*y+j) (width/8*x+i) = do
          let a ← colormap[pair.2]?
          let b ← colormap[pair.1]?
          return (Color.mix a b (1/2)).getARGB32 := by
  have hcounts : ∀ j < height/8, ∀ i < width/8, ∃ lookup, lo.counts source j i = some lookup ∧
      lookup.length = 2^bpp ∧ ∀ c, lookup.getD c 0 = lo.occurrences source j i c := by
    intro j hj i hi
    rcases hlo with rfl | rfl
    · exact Operations.counts_eq colormap h source hj hi
    · exact OperationsColormapped.counts_eq colormap h source hj hi
  have hmost : ∃ result, lo.reduce target source x y = some result ∧ ∀ j < height/8, ∀ i < width/8,
      MostFrequent (lo.occurrences source j i) (2^bpp)
        (decode bpp ((operationsColormapped colormap bpp).pixel result (height/8*y+j) (width/8*x+i))) := by
    rcases hlo with rfl | rfl
    · exact pairs_mostFrequent h hx (Operations.reduce_fills h hx hy source) hcounts colormap target
    · exact pairs_mostFrequent h hx (OperationsColormapped.reduce_fills h hx hy source) hcounts colormap target
  obtain ⟨result,hr,hmost⟩ := hmost
  refine ⟨fun j hj i hi => ?_,result,hr,fun j hj i hi => ⟨_,hmost j hj i hi,rfl,?_⟩⟩
  · obtain ⟨lookup,hl,hlen,hcount⟩ := hcounts j hj i hi
    refine ⟨lookup,hl,hlen,fun c => ⟨hcount c,?_⟩⟩
    have hle := lo.occurrences_le source j i c
    omega
  · rw [OperationsColormapped.cachePixel_eq h colormap result (by simp only [height] at *; omega)
      (by simp only [width] at *; omega)]
    rfl

theorem reduce_mostFrequent_lastCorner :
    let lo := operationsColormapped [] 8
    let source : Tile lo.getBpp := Vector.replicate _ 0x1B
    ∃ result, lo.reduce (n := width*height*16/8) (Vector.replicate _ 0) source 7 7 = some result ∧
      MostFrequent (lo.occurrences source 511 511) 256 (decode 8 (lo.pixel result 4095 4095)) := by
  intro lo source
  obtain ⟨result,hr,h⟩ := (reduce_mostFrequent (show 8 ∈ [1,2,4,8] by decide) [] (.inr rfl) (x := 7) (y := 7)
    (by decide)
    (by decide) source (Vector.replicate _ 0)).2
  obtain ⟨pair,hmost,hpair,-⟩ := h 511 (by decide) 511 (by decide)
  exact ⟨result,hr,hpair ▸ hmost⟩

end LayerOperations
end Scroom
