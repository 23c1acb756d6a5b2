import Scroom.Reduce

/-! Every `reduce` reads inside its source and writes the block of its offset. -/
namespace Scroom

open Buffer

variable {n m : ℕ}

theorem byteAt_eq {b : Buffer n} {i : ℕ} (h : i < n) : byteAt b i = some b[i].toNat := by
  simp [byteAt,h]

theorem byteAt_isSome {b : Buffer n} {i : ℕ} (h : i < n) : ∃ v, byteAt b i = some v :=
  ⟨_,byteAt_eq h⟩

/-- A block of samples has a sum for every channel. -/
theorem sumBlock_isSome {cols : ℕ} {sample : ℕ → ℕ → Option (List ℕ)} {zero : List ℕ}
    (h : ∀ k < 8, ∀ l < cols, ∃ v, sample k l = some v ∧ v.length = zero.length) :
    ∃ v, sumBlock cols sample zero = some v ∧ v.length = zero.length := by
  unfold sumBlock
  apply Loops.foldlM_grid (I := fun _ (sum : List ℕ) => sum.length = zero.length) rfl
  intro k hk l hl sum hsum
  obtain ⟨v,hv,hlen⟩ := h k hk l hl
  exact ⟨List.zipWith (·+·) sum v,by simp [hv],by simp [hsum,hlen]⟩

namespace Operations1bpp

theorem sums_isSome (source : Tile 1) {j i : ℕ} (hj : j < height/8) (hi : i < width/8) :
    ∃ v, sums source j i = some v ∧ v.length = 1 := by
  apply sumBlock_isSome
  intro k hk l hl
  obtain ⟨a,ha⟩ := byteAt_isSome (b := source) (i := j*(width/8*8)+i+k*(width/8))
    (by simp only [width,height] at *; omega)
  exact ⟨[bitCount a],by simp [ha],rfl⟩

theorem reduce_fills (source : Tile 1) {x y : ℕ} (hx : x < 8) (hy : y < 8) :
    Fills (n := width*height*8/8) (fun target => reduce target source x y) 8 x y 1
      fun j i => bytesBit (((sums source j i).getD []).map (·*255/64)) := by
  apply putBytes_fills 1 hx hy (by decide) rfl
  · intro j hj i hi
    exact sums_isSome source hj hi
  · intro j i
    simp only [blockPixel,width,height]
    omega

end Operations1bpp

namespace Operations8bpp

theorem sums_isSome (source : Tile 8) {j i : ℕ} (hj : j < height/8) (hi : i < width/8) :
    ∃ v, sums source j i = some v ∧ v.length = 1 := by
  apply sumBlock_isSome
  intro k hk l hl
  obtain ⟨a,ha⟩ := byteAt_isSome (b := source) (i := j*(width*8)+i*8+k*width+l)
    (by simp only [width,height] at *; omega)
  exact ⟨[a],by simp [ha],rfl⟩

theorem reduce_fills (source : Tile 8) {x y : ℕ} (hx : x < 8) (hy : y < 8) :
    Fills (n := width*height*8/8) (fun target => reduce target source x y) 8 x y 1
      fun j i => bytesBit (((sums source j i).getD []).map (·/64)) := by
  apply putBytes_fills 1 hx hy (by decide) rfl
  · intro j hj i hi
    exact sums_isSome source hj hi
  · intro j i
    simp only [blockPixel,width,height]
    omega

end Operations8bpp

namespace Operations24bpp

theorem sums_isSome (source : Tile 24) {j i : ℕ} (hj : j < height/8) (hi : i < width/8) :
    ∃ v, sums source j i = some v ∧ v.length = 3 := by
  apply sumBlock_isSome
  intro k hk l hl
  have hread : ∀ c < 3, ∃ v, byteAt source (j*(3*width*8)+i*(8*3)+k*(3*width)+l*3+c) = some v := by
    intro c hc
    apply byteAt_isSome
    simp only [width,height] at *
    omega
  obtain ⟨r,hr⟩ := hread 0 (by decide)
  obtain ⟨g,hg⟩ := hread 1 (by decide)
  obtain ⟨b,hb⟩ := hread 2 (by decide)
  rw [Nat.add_zero] at hr
  exact ⟨[r,g,b],by simp [hr,hg,hb],rfl⟩

theorem reduce_fills (source : Tile 24) {x y : ℕ} (hx : x < 8) (hy : y < 8) :
    Fills (n := width*height*24/8) (fun target => reduce target source x y) 24 x y 1
      fun j i => bytesBit (((sums source j i).getD []).map (·/64)) := by
  apply putBytes_fills 3 hx hy (by decide) rfl
  · intro j hj i hi
    exact sums_isSome source hj hi
  · intro j i
    simp only [blockPixel,width,height]
    omega

end Operations24bpp

/-- The reductions of CMYK tiles write their targets alike. -/
theorem cmyk_fills {sums : ℕ → ℕ → Option (List ℕ)} {f : ℕ → ℕ} {x y : ℕ} (hx : x < 8) (hy : y < 8)
    (h : ∀ j < height/8, ∀ i < width/8, ∃ v, sums j i = some v ∧ v.length = 4) :
    Fills (n := width*height*32/8) (reduceBlocks sums fun target j i sum =>
        putBytes target (cmykTargetBase x y+j*cmykTargetStride+4*i) (sum.map f))
      32 x y 1 fun j i => bytesBit (((sums j i).getD []).map f) := by
  apply putBytes_fills 4 hx hy (by decide) rfl h
  intro j i
  simp only [cmykTargetBase,cmykTargetStride,blockPixel,width,height]
  omega

namespace OperationsCMYK32

theorem sums_isSome (source : Tile 32) {j i : ℕ} (hj : j < height/8) (hi : i < width/8) :
    ∃ v, sums source j i = some v ∧ v.length = 4 := by
  apply sumBlock_isSome
  intro k hk l hl
  have hread : ∀ c < 4, ∃ v, byteAt source (j*(8*width/2*8)+8*4*i+k*(8*width/2)+l*4+c) = some v := by
    intro c hc
    apply byteAt_isSome
    simp only [width,height] at *
    omega
  obtain ⟨c,hc⟩ := hread 0 (by decide)
  obtain ⟨m,hm⟩ := hread 1 (by decide)
  obtain ⟨y,hy⟩ := hread 2 (by decide)
  obtain ⟨z,hz⟩ := hread 3 (by decide)
  rw [Nat.add_zero] at hc
  exact ⟨[c,m,y,z],by simp [hc,hm,hy,hz],rfl⟩

theorem reduce_fills (source : Tile 32) {x y : ℕ} (hx : x < 8) (hy : y < 8) :
    Fills (n := width*height*32/8) (fun target => reduce target source x y) 32 x y 1
      fun j i => bytesBit (((sums source j i).getD []).map (·/64)) := by
  apply cmyk_fills hx hy
  intro j hj i hi
  exact sums_isSome source hj hi

end OperationsCMYK32

namespace OperationsCMYK16

theorem sums_isSome (source : Tile 16) {j i : ℕ} (hj : j < height/8) (hi : i < width/8) :
    ∃ v, sums source j i = some v ∧ v.length = 4 := by
  apply sumBlock_isSome
  intro k hk l hl
  have hread : ∀ c < 2, ∃ v, byteAt source (j*(4*width/2*8)+4*4*i+k*(4*width/2)+l*2+c) = some v := by
    intro c hc
    apply byteAt_isSome
    simp only [width,height] at *
    omega
  obtain ⟨a,ha⟩ := hread 0 (by decide)
  obtain ⟨b,hb⟩ := hread 1 (by decide)
  rw [Nat.add_zero] at ha
  exact ⟨[a >>> 4,a &&& 15,b >>> 4,b &&& 15],by simp [ha,hb],rfl⟩

theorem reduce_fills (source : Tile 16) {x y : ℕ} (hx : x < 8) (hy : y < 8) :
    Fills (n := width*height*32/8) (fun target => reduce target source x y) 32 x y 1
      fun j i => bytesBit (((sums source j i).getD []).map (·*255/(15*64))) := by
  apply cmyk_fills hx hy
  intro j hj i hi
  exact sums_isSome source hj hi

end OperationsCMYK16

namespace OperationsCMYK8

theorem sums_isSome (source : Tile 8) {j i : ℕ} (hj : j < height/8) (hi : i < width/8) :
    ∃ v, sums source j i = some v ∧ v.length = 4 := by
  apply sumBlock_isSome
  intro k hk l hl
  obtain ⟨cur,hcur⟩ := byteAt_isSome (b := source) (i := j*(width*8)+2*4*i+k*width+l)
    (by simp only [width,height] at *; omega)
  exact ⟨[cur >>> 6,(cur &&& 0x30) >>> 4,(cur &&& 0x0C) >>> 2,cur &&& 0x03],by simp [hcur],rfl⟩

theorem reduce_fills (source : Tile 8) {x y : ℕ} (hx : x < 8) (hy : y < 8) :
    Fills (n := width*height*32/8) (fun target => reduce target source x y) 32 x y 1
      fun j i => bytesBit (((sums source j i).getD []).map (·*255/192)) := by
  apply cmyk_fills hx hy
  intro j hj i hi
  exact sums_isSome source hj hi

end OperationsCMYK8

namespace OperationsCMYK4

theorem sums_isSome (source : Tile 4) {j i : ℕ} (hj : j < height/8) (hi : i < width/8) :
    ∃ v, sums source j i = some v ∧ v.length = 4 := by
  apply sumBlock_isSome
  intro k hk l hl
  obtain ⟨cur,hcur⟩ := byteAt_isSome (b := source) (i := j*(width/2*8)+4*i+k*(width/2)+l)
    (by simp only [width,height] at *; omega)
  let v := [((cur >>> 7) &&& 1)+((cur >>> 3) &&& 1),((cur >>> 6) &&& 1)+((cur >>> 2) &&& 1),
    ((cur >>> 5) &&& 1)+((cur >>> 1) &&& 1),((cur >>> 4) &&& 1)+((cur >>> 0) &&& 1)]
  exact ⟨v,by simp [v,hcur],rfl⟩

theorem reduce_fills (source : Tile 4) {x y : ℕ} (hx : x < 8) (hy : y < 8) :
    Fills (n := width*height*32/8) (fun target => reduce target source x y) 32 x y 1
      fun j i => bytesBit (((sums source j i).getD []).map (·*255/64)) := by
  apply cmyk_fills hx hy
  intro j hj i hi
  exact sums_isSome source hj hi

end OperationsCMYK4

theorem bpp_pos {bpp : ℕ} (h : bpp ∈ [1,2,4,8]) : 0 < bpp := by
  simp only [List.mem_cons,List.not_mem_nil,or_false] at h
  omega

/-- The best and the second best of the values below `count`. -/
structure TopOf (lookup : List ℕ) (count : ℕ) (best : ℕ × ℕ) : Prop where
  fst_lt : best.1 < count
  snd_lt : best.2 < count
  ne : best.1 ≠ best.2
  snd_le : lookup.getD best.2 0 ≤ lookup.getD best.1 0
  le : ∀ c < count, c ≠ best.1 → lookup.getD c 0 ≤ lookup.getD best.2 0

theorem TopOf.init (lookup : List ℕ) :
    TopOf lookup 2 (if lookup.getD 1 0 > lookup.getD 0 0 then (1,0) else (0,1)) := by
  split
  · rename_i h
    refine ⟨by simp,by simp,by simp,h.le,fun c hc hn => ?_⟩
    have hz : c = 0 := by dsimp only at hn; omega
    rw [hz]
  · rename_i h
    refine ⟨by simp,by simp,by simp,Nat.le_of_not_lt h,fun c hc hn => ?_⟩
    have hz : c = 1 := by dsimp only at hn; omega
    rw [hz]

theorem TopOf.next {lookup : List ℕ} {c : ℕ} {best : ℕ × ℕ} (h : TopOf lookup c best) :
    TopOf lookup (c+1) (if lookup.getD c 0 > lookup.getD best.1 0 then (c,best.1)
      else if lookup.getD c 0 > lookup.getD best.2 0 then (best.1,c) else best) := by
  have hf := h.fst_lt
  have hs := h.snd_lt
  have hle := h.snd_le
  split
  · rename_i hc
    refine ⟨by simp,by dsimp only; omega,by dsimp only; omega,hc.le,fun d hd hn => ?_⟩
    by_cases he : d = best.1
    · rw [he]
    · exact (h.le d (by dsimp only at hn; omega) he).trans hle
  · rename_i hc
    split
    · rename_i hc'
      refine ⟨by dsimp only; omega,by simp,by dsimp only; omega,Nat.le_of_not_lt hc,fun d hd hn => ?_⟩
      by_cases he : d = c
      · rw [he]
      · exact (h.le d (by omega) hn).trans hc'.le
    · rename_i hc'
      refine ⟨by omega,by omega,h.ne,hle,fun d hd hn => ?_⟩
      by_cases he : d = c
      · rw [he]
        exact Nat.le_of_not_lt hc'
      · exact h.le d (by omega) hn

/-- What the loop of `topTwo` establishes, given what one round does. -/
theorem topTwo_induction {P : ℕ → ℕ × ℕ → Prop} (lookup : List ℕ) (h : 2 ≤ lookup.length)
    (hinit : P 2 (if lookup.getD 1 0 > lookup.getD 0 0 then (1,0) else (0,1)))
    (hnext : ∀ c best, P c best → P (c+1) (if lookup.getD c 0 > lookup.getD best.1 0 then (c,best.1)
      else if lookup.getD c 0 > lookup.getD best.2 0 then (best.1,c) else best)) :
    ∃ best, P lookup.length best ∧ topTwo lookup = if lookup.getD best.2 0 = 0 then (best.1,best.1) else best := by
  have hrun : ∀ count, P (2+count) ((List.range' 2 count).foldl (fun best c =>
      if lookup.getD c 0 > lookup.getD best.1 0 then (c,best.1)
      else if lookup.getD c 0 > lookup.getD best.2 0 then (best.1,c)
      else best) (if lookup.getD 1 0 > lookup.getD 0 0 then (1,0) else (0,1))) := by
    intro count
    induction count with
    | zero => exact hinit
    | succ count ih =>
      rw [List.range'_concat,List.foldl_append,Nat.one_mul]
      exact hnext _ _ ih
  have hlen := hrun (lookup.length-2)
  rw [Nat.add_sub_cancel' h] at hlen
  exact ⟨_,hlen,rfl⟩

theorem topTwo_spec (lookup : List ℕ) (h : 2 ≤ lookup.length) : ∃ best, TopOf lookup lookup.length best ∧
    topTwo lookup = if lookup.getD best.2 0 = 0 then (best.1,best.1) else best :=
  topTwo_induction lookup h (TopOf.init lookup) fun _ _ hbest => hbest.next

theorem topTwo_lt {lookup : List ℕ} {bpp : ℕ} (hb : 0 < bpp) (h : lookup.length = 2^bpp) :
    (topTwo lookup).1 < 2^bpp ∧ (topTwo lookup).2 < 2^bpp := by
  have h2 : 2^1 ≤ 2^bpp := Nat.pow_le_pow_right (by decide) hb
  obtain ⟨best,hbest,htop⟩ := topTwo_spec lookup (by omega)
  have hf := hbest.fst_lt
  have hs := hbest.snd_lt
  rw [htop]
  split
  · exact ⟨by dsimp only; omega,by dsimp only; omega⟩
  · exact ⟨by omega,by omega⟩

theorem increment_isSome {lookup : List ℕ} {value : ℕ} (h : value < lookup.length) :
    increment lookup value = some (lookup.modify value fun c => (c+1)%256) := if_pos h

theorem increment_spec {lookup : List ℕ} {value : ℕ} (h : value < lookup.length) :
    ∃ lookup', increment lookup value = some lookup' ∧ lookup'.length = lookup.length ∧
      ∀ c, lookup'.getD c 0 = if c = value then (lookup.getD c 0+1)%256 else lookup.getD c 0 := by
  refine ⟨_,increment_isSome h,List.length_modify ..,fun c => ?_⟩
  rw [List.getD_eq_getElem?_getD,List.getElem?_modify,List.getD_eq_getElem?_getD]
  by_cases hc : c = value
  · subst hc
    simp [h]
  · simp [hc,Ne.symm hc]

namespace Operations

theorem pixelMask_eq (bpp : ℕ) : pixelMask bpp = 2^bpp-1 := by rw [pixelMask,Nat.one_shiftLeft]

theorem pixelMask_succ (bpp : ℕ) : pixelMask bpp+1 = 2^bpp := by
  rw [pixelMask_eq]
  exact Nat.sub_add_cancel (Nat.two_pow_pos bpp)

theorem pixelsPerByte_mul {bpp : ℕ} (h : bpp ∈ [1,2,4,8]) : pixelsPerByte bpp*bpp = 8*Base.uint8.size := by
  simp only [List.mem_cons,List.not_mem_nil,or_false] at h
  rcases h with rfl | rfl | rfl | rfl <;> rfl

theorem pixelsPerByte_double {bpp : ℕ} (h : bpp ∈ [1,2,4,8]) :
    pixelsPerByte bpp*(2*bpp) = 8*Base.uint16.size := by
  simp only [List.mem_cons,List.not_mem_nil,or_false] at h
  rcases h with rfl | rfl | rfl | rfl <;> rfl

theorem and_pixelMask_lt (v bpp : ℕ) : v &&& pixelMask bpp < 2^bpp := by
  rw [pixelMask_eq,Nat.and_two_pow_sub_one_eq_mod]
  exact Nat.mod_lt _ (Nat.two_pow_pos bpp)

theorem shiftRight_lt {v bpp : ℕ} (h : v < 2^(2*bpp)) : v >>> bpp < 2^bpp := by
  rw [Nat.shiftRight_eq_div_pow]
  apply Nat.div_lt_of_lt_mul
  rwa [← Nat.pow_add,← Nat.two_mul]

/-- The pixels of the block at `j` and `i` are read one after the other. -/
theorem read_block {bpp j i k l : ℕ} (h : bpp ∈ [1,2,4,8]) (hj : j < height/8) (hi : i < width/8)
    (hk : k < 8) (hl : l < 8) (source : Tile bpp) :
    (SampleIterator.next^[l] (.create .uint8
      (j*(width/pixelsPerByte bpp*8)+i*(8/pixelsPerByte bpp)+k*(width/pixelsPerByte bpp)) 0 bpp)).get source =
      some (field source (bpp*(width*(8*j+k)+8*i+SampleIterator.mirror (pixelsPerByte bpp) l)) bpp) := by
  have hend : j*(width/pixelsPerByte bpp*8)+i*(8/pixelsPerByte bpp)+k*(width/pixelsPerByte bpp)+
      Base.uint8.size*(l/pixelsPerByte bpp)+Base.uint8.size ≤ width*height*bpp/8 ∧
      8*(j*(width/pixelsPerByte bpp*8)+i*(8/pixelsPerByte bpp)+k*(width/pixelsPerByte bpp)) =
        bpp*(width*(8*j+k)+8*i) := by
    simp only [List.mem_cons,List.not_mem_nil,or_false] at h
    rcases h with rfl | rfl | rfl | rfl <;>
      simp only [pixelsPerByte,Base.size,width,height] at * <;> omega
  rw [SampleIterator.get_create (pixelsPerByte_mul h) (bpp_pos h) hend.1,hend.2,← Nat.mul_add]

theorem counts_isSome {bpp : ℕ} (h : bpp ∈ [1,2,4,8]) (source : Tile bpp) {j i : ℕ}
    (hj : j < height/8) (hi : i < width/8) :
    ∃ lookup, counts bpp source j i = some lookup ∧ lookup.length = 2^bpp := by
  unfold counts
  apply Loops.foldlM_grid (I := fun _ (lookup : List ℕ) => lookup.length = 2^bpp)
  · rw [List.length_replicate,pixelMask_succ]
  · intro k hk l hl lookup hlookup
    dsimp only
    rw [read_block h hj hi hk hl,Option.bind_eq_bind,Option.bind_some,
      increment_isSome (by rw [hlookup]; exact field_lt _ _ _)]
    exact ⟨_,rfl,by rw [List.length_modify,hlookup]⟩

theorem pair_lt {a b bpp : ℕ} (ha : a < 2^bpp) (hb : b < 2^bpp) : (a <<< bpp ||| b) < 2^(2*bpp) := by
  rw [Nat.two_mul]
  apply Nat.or_lt_two_pow
  · rw [Nat.shiftLeft_eq,Nat.pow_add]
    exact Nat.mul_lt_mul_of_pos_right ha (Nat.two_pow_pos bpp)
  · exact hb.trans_le (Nat.pow_le_pow_right (by decide) (Nat.le_add_right _ _))

theorem pixelsPerByte_width {bpp : ℕ} (h : bpp ∈ [1,2,4,8]) :
    pixelsPerByte bpp*(width/8/pixelsPerByte bpp) = width/8 := by
  simp only [List.mem_cons,List.not_mem_nil,or_false] at h
  rcases h with rfl | rfl | rfl | rfl <;> rfl

/-- Both classes with indices store the two values that occur most often. -/
theorem pairs_fill {bpp x y : ℕ} {kernel : ℕ → ℕ → Option (List ℕ)} {ptr : ℕ → ℕ} (h : bpp ∈ [1,2,4,8])
    (hx : x < 8) (hy : y < 8) (hk : ∀ j < height/8, ∀ i < width/8,
      ∃ lookup, kernel j i = some lookup ∧ lookup.length = 2^bpp)
    (hptr : ∀ j, 8*ptr j = 2*bpp*blockPixel x y j 0) :
    Fills (n := width*height*(2*bpp)/8) (reduceBlocks kernel fun target j i lookup =>
        (SampleIterator.next^[i] (.create .uint16 (ptr j) 0 (2*bpp))).set target
          (((topTwo lookup).1 <<< bpp) ||| (topTwo lookup).2))
      (2*bpp) x y (pixelsPerByte bpp) fun j i =>
        (((topTwo ((kernel j i).getD [])).1 <<< bpp) ||| (topTwo ((kernel j i).getD [])).2).testBit := by
  have hb := bpp_pos h
  apply setSample_fills (v := fun j i => (kernel j i).getD [])
    (fun lookup => ((topTwo lookup).1 <<< bpp) ||| (topTwo lookup).2)
    hx hy (by omega) (pixelsPerByte_double h) (pixelsPerByte_width h)
  · apply Nat.mul_div_cancel'
    simp only [width,height]
    omega
  · intro j hj i hi
    obtain ⟨lookup,hl,hlen⟩ := hk j hj i hi
    have htop := topTwo_lt hb hlen
    simpa [hl] using pair_lt htop.1 htop.2
  · exact hptr

theorem reduce_fills {bpp x y : ℕ} (h : bpp ∈ [1,2,4,8]) (hx : x < 8) (hy : y < 8) (source : Tile bpp) :
    Fills (n := width*height*(2*bpp)/8) (fun target => reduce bpp target source x y) (2*bpp) x y
      (pixelsPerByte bpp) fun j i => (((topTwo ((counts bpp source j i).getD [])).1 <<< bpp) |||
        (topTwo ((counts bpp source j i).getD [])).2).testBit := by
  apply pairs_fill h hx hy
  · intro j hj i hi
    exact counts_isSome h source hj hi
  · intro j
    simp only [List.mem_cons,List.not_mem_nil,or_false] at h
    rcases h with rfl | rfl | rfl | rfl <;>
      simp only [pixelsPerByte,blockPixel,width,height] <;> omega

end Operations

namespace OperationsColormapped
open Operations

theorem read_block {bpp j i k l : ℕ} (h : bpp ∈ [1,2,4,8]) (hj : j < height/8) (hi : i < width/8)
    (hk : k < 8) (hl : l < 8) (source : Tile (2*bpp)) :
    (SampleIterator.next^[l] (.create .uint16 (j*(2*width/pixelsPerByte bpp*8)+
      i*(8*2/pixelsPerByte bpp)+k*(2*width/pixelsPerByte bpp)) 0 (2*bpp))).get source =
      some (field source (2*bpp*(width*(8*j+k)+8*i+SampleIterator.mirror (pixelsPerByte bpp) l)) (2*bpp)) := by
  have hend : j*(2*width/pixelsPerByte bpp*8)+i*(8*2/pixelsPerByte bpp)+k*(2*width/pixelsPerByte bpp)+
      Base.uint16.size*(l/pixelsPerByte bpp)+Base.uint16.size ≤ width*height*(2*bpp)/8 ∧
      8*(j*(2*width/pixelsPerByte bpp*8)+i*(8*2/pixelsPerByte bpp)+k*(2*width/pixelsPerByte bpp)) =
        2*bpp*(width*(8*j+k)+8*i) := by
    simp only [List.mem_cons,List.not_mem_nil,or_false] at h
    rcases h with rfl | rfl | rfl | rfl <;>
      simp only [pixelsPerByte,Base.size,width,height] at * <;> omega
  have hb := bpp_pos h
  rw [SampleIterator.get_create (pixelsPerByte_double h) (by omega) hend.1,hend.2,← Nat.mul_add]

theorem counts_isSome {bpp : ℕ} (h : bpp ∈ [1,2,4,8]) (source : Tile (2*bpp)) {j i : ℕ}
    (hj : j < height/8) (hi : i < width/8) :
    ∃ lookup, counts bpp source j i = some lookup ∧ lookup.length = 2^bpp := by
  unfold counts
  apply Loops.foldlM_grid (I := fun _ (lookup : List ℕ) => lookup.length = 2^bpp)
  · rw [List.length_replicate,pixelMask_succ]
  · intro k hk l hl lookup hlookup
    dsimp only
    rw [read_block h hj hi hk hl,Option.bind_eq_bind,Option.bind_some,
      increment_isSome (by rw [hlookup]; exact and_pixelMask_lt _ _),Option.bind_eq_bind,Option.bind_some,
      increment_isSome (by rw [List.length_modify,hlookup]; exact shiftRight_lt (field_lt _ _ _))]
    exact ⟨_,rfl,by rw [List.length_modify,List.length_modify,hlookup]⟩

theorem reduce_fills {bpp x y : ℕ} (h : bpp ∈ [1,2,4,8]) (hx : x < 8) (hy : y < 8)
    (source : Tile (2*bpp)) :
    Fills (n := width*height*(2*bpp)/8) (fun target => reduce bpp target source x y) (2*bpp) x y
      (pixelsPerByte bpp) fun j i => (((topTwo ((counts bpp source j i).getD [])).1 <<< bpp) |||
        (topTwo ((counts bpp source j i).getD [])).2).testBit := by
  apply pairs_fill h hx hy
  · intro j hj i hi
    exact counts_isSome h source hj hi
  · intro j
    simp only [List.mem_cons,List.not_mem_nil,or_false] at h
    rcases h with rfl | rfl | rfl | rfl <;>
      simp only [pixelsPerByte,blockPixel,width,height] <;> omega

end OperationsColormapped

namespace Operations1bppClipped

theorem reduce_fills (source : Tile 1) {x y : ℕ} (hx : x < 8) (hy : y < 8) :
    Fills (n := width*height*1/8) (fun target => reduce target source x y) 1 x y 8 fun j i =>
      (if ((Operations1bpp.sums source j i).getD []).getD 0 0 > 0 then 1 else 0).testBit := by
  apply setSample_fills (v := fun j i => (Operations1bpp.sums source j i).getD [])
    (fun sum => if sum.getD 0 0 > 0 then 1 else 0) (c := 64)
    hx hy (by decide) (show 8*1 = 8*Base.uint8.size from rfl) rfl rfl
  · intro j hj i hi
    obtain ⟨v,hv,-⟩ := Operations1bpp.sums_isSome source hj hi
    refine ⟨by simp [hv],?_⟩
    split <;> decide
  · intro j
    simp only [blockPixel,width,height]
    omega

end Operations1bppClipped

/-- The bytes of the block of 512 by 512 pixels at an offset. -/
def InBlock (bpp x y k : ℕ) : Prop :=
  height/8*y ≤ k/(width*bpp/8) ∧ k/(width*bpp/8) < height/8*(y+1) ∧
    width/8*x*bpp/8 ≤ k%(width*bpp/8) ∧ k%(width*bpp/8) < width/8*(x+1)*bpp/8

instance (bpp x y k : ℕ) : Decidable (InBlock bpp x y k) := inferInstanceAs (Decidable (_ ∧ _))

/-- Blocks consist of whole bytes. -/
theorem mem_block_byte {bpp x y a : ℕ} (hb : 0 < bpp) : a ∈ block bpp x y ↔ InBlock bpp x y (a/8) := by
  have hstride : width*bpp/8 = 512*bpp := by simp only [width]; omega
  have hleft : ∀ z, width/8*z*bpp/8 = 64*z*bpp := fun z => by
    rw [show width/8*z*bpp = 8*(64*z*bpp) by simp only [width]; ring]
    exact Nat.mul_div_cancel_left _ (by decide)
  have hrow : a/bpp/width = a/8/(512*bpp) := by
    rw [Nat.div_div_eq_div_mul,Nat.div_div_eq_div_mul]
    congr 1
    simp only [width]
    ring
  have hcol : a/bpp%width = a%(8*(512*bpp))/bpp := by
    rw [← Nat.mod_mul_right_div_self]
    congr 2
    simp only [width]
    ring
  have hbyte : a/8%(512*bpp) = a%(8*(512*bpp))/8 := (Nat.mod_mul_right_div_self _ _ _).symm
  have hle : ∀ z, width/8*z ≤ a/bpp%width ↔ 64*z*bpp ≤ a/8%(512*bpp) := fun z => by
    rw [hcol,hbyte,Nat.le_div_iff_mul_le hb,Nat.le_div_iff_mul_le (by decide)]
    have hz : width/8*z*bpp = 64*z*bpp*8 := by simp only [width]; ring
    rw [hz]
  unfold InBlock
  rw [hstride,hleft,hleft,← hrow,← hle x,← not_le,← not_le,← hle (x+1),not_le,not_le]
  rfl

/-- What filling a block means for the bytes of the target. -/
theorem Fills.bytes {f : Buffer n → Option (Buffer n)} {bpp x y s : ℕ} {pixel : ℕ → ℕ → ℕ → Bool}
    (hb : 0 < bpp) (h : Fills f bpp x y s pixel) : ∃ content : ℕ → UInt8, ∀ target : Buffer n,
      ∃ result, f target = some result ∧
        ∀ k (hk : k < n), result[k] = if InBlock bpp x y k then content k else target[k] := by
  obtain ⟨w,hw,-⟩ := h
  obtain ⟨zero,-,hz⟩ := hw (Vector.replicate n 0)
  refine ⟨fun k => (zero[k]?).getD 0,fun target => ?_⟩
  obtain ⟨result,hr,hp⟩ := hw target
  refine ⟨result,hr,fun k hk => byte_ext fun i hi => ?_⟩
  have hd : (8*k+i)/8 = k := by omega
  have hm : (8*k+i)%8 = i := by omega
  have hbit : ∀ b : Buffer n, bit b (8*k+i) = b[k].toNat.testBit i := fun b => by
    simp [bit,hd,hm,hk]
  have hmem := mem_block_byte (x := x) (y := y) (a := 8*k+i) hb
  rw [hd] at hmem
  split
  · rename_i hin
    rw [← hbit,hp.1 _ (hmem.mpr hin),← hz.1 _ (hmem.mpr hin),hbit]
    simp [hk]
  · rename_i hin
    rw [← hbit,hp.2 _ (mt hmem.mp hin),hbit]

theorem Fills.comm {f g : Buffer n → Option (Buffer n)} {bpp x y x' y' s s' : ℕ}
    {pixel pixel' : ℕ → ℕ → ℕ → Bool} (h : Fills f bpp x y s pixel) (h' : Fills g bpp x' y' s' pixel')
    (hne : (x,y) ≠ (x',y')) (target : Buffer n) : (f target).bind g = (g target).bind f := by
  obtain ⟨w,hw,-⟩ := h
  obtain ⟨w',hw',-⟩ := h'
  exact hw.comm hw' (block_disjoint hne) target

namespace LayerOperations

/-- Indices have 1, 2, 4 or 8 bits. -/
def IndexBits : LayerOperations → Prop
  | operations _ bpp => bpp ∈ [1,2,4,8]
  | operationsColormapped _ bpp => bpp ∈ [1,2,4,8]
  | _ => True

theorem targetBpp_pos {lo : LayerOperations} (h : lo.IndexBits) : 0 < lo.targetBpp := by
  cases lo with
  | operations colormap bpp => exact Nat.mul_pos (by decide) (bpp_pos h)
  | operationsColormapped colormap bpp => exact Nat.mul_pos (by decide) (bpp_pos h)
  | _ => simp [targetBpp]

theorem reduce_fills {lo : LayerOperations} (h : lo.IndexBits) {x y : ℕ} (hx : x < 8) (hy : y < 8)
    (source : Tile lo.getBpp) : ∃ s pixel, Fills (n := width*height*lo.targetBpp/8)
      (fun target => lo.reduce target source x y) lo.targetBpp x y s pixel := by
  cases lo with
  | operations1bpp colormap => exact ⟨_,_,Operations1bpp.reduce_fills source hx hy⟩
  | operations1bppClipped colormap => exact ⟨_,_,Operations1bppClipped.reduce_fills source hx hy⟩
  | operations8bpp colormap => exact ⟨_,_,Operations8bpp.reduce_fills source hx hy⟩
  | operations24bpp => exact ⟨_,_,Operations24bpp.reduce_fills source hx hy⟩
  | operations colormap bpp => exact ⟨_,_,Operations.reduce_fills h hx hy source⟩
  | operationsColormapped colormap bpp => exact ⟨_,_,OperationsColormapped.reduce_fills h hx hy source⟩
  | operationsCMYK32 => exact ⟨_,_,OperationsCMYK32.reduce_fills source hx hy⟩
  | operationsCMYK16 => exact ⟨_,_,OperationsCMYK16.reduce_fills source hx hy⟩
  | operationsCMYK8 => exact ⟨_,_,OperationsCMYK8.reduce_fills source hx hy⟩
  | operationsCMYK4 => exact ⟨_,_,OperationsCMYK4.reduce_fills source hx hy⟩

/-- A reduction never leaves its buffers. It writes the bytes of its own block, whatever was
there, and no others, so that reductions at different offsets can be done in any order. -/
theorem reduce_writes_block (lo : LayerOperations) (h : lo.IndexBits) {x y : ℕ} (hx : x < 8) (hy : y < 8)
    (source : Tile lo.getBpp) :
    (∃ content : ℕ → UInt8, ∀ target : Tile lo.targetBpp, ∃ result,
      lo.reduce target source x y = some result ∧ ∀ k (hk : k < width*height*lo.targetBpp/8),
        result[k] = if InBlock lo.targetBpp x y k then content k else target[k]) ∧
    ∀ {x' y'}, x' < 8 → y' < 8 → (x,y) ≠ (x',y') →
      ∀ (source' : Tile lo.getBpp) (target : Tile lo.targetBpp),
        (lo.reduce target source x y).bind (fun target => lo.reduce target source' x' y') =
          (lo.reduce target source' x' y').bind (fun target => lo.reduce target source x y) := by
  obtain ⟨s,pixel,hf⟩ := reduce_fills h hx hy source
  constructor
  · exact hf.bytes (targetBpp_pos h)
  · intro x' y' hx' hy' hne source' target
    obtain ⟨s',pixel',hf'⟩ := reduce_fills h hx' hy' source'
    exact hf.comm hf' hne target

/-- The last block of a target with a pair of 2 bit indices in every pixel. -/
theorem reduce_writes_block_lastCorner :
    (∃ content : ℕ → UInt8, ∀ target : Tile 4, ∃ result,
      (operations [] 2).reduce target (Vector.replicate (width*height*2/8) 0x1B) 7 7 = some result ∧
        ∀ k (hk : k < width*height*4/8),
          result[k] = if InBlock 4 7 7 k then content k else target[k]) ∧
    InBlock 4 7 7 (width*height*4/8-1) :=
  ⟨(reduce_writes_block (operations [] 2) (show 2 ∈ [1,2,4,8] by decide) (by decide) (by decide) _).1,
    by decide⟩

end LayerOperations
end Scroom
