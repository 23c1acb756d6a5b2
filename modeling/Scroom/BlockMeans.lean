import Mathlib.Algebra.BigOperators.Intervals
import Scroom.Pixels

/-! The reductions that compute means: every channel of a target pixel is that of its block of 8 by 8
source pixels on average, rounded down. -/
namespace Scroom

open Buffer

variable {n m : ℕ}

namespace LayerOperations

/-- The channels of a pixel, in the order of the bytes that a reduction writes. -/
def channels (v : ℕ) : LayerOperations → List ℕ
  | operations1bpp _ => [v]
  | operations8bpp _ => [v]
  | operations24bpp => [channel 8 0 v,channel 8 1 v,channel 8 2 v]
  | operationsCMYK32 => [channel 8 0 v,channel 8 1 v,channel 8 2 v,channel 8 3 v]
  | operationsCMYK16 => [channel 4 1 v,channel 4 0 v,channel 4 3 v,channel 4 2 v]
  | operationsCMYK8 => [channel 2 3 v,channel 2 2 v,channel 2 1 v,channel 2 0 v]
  | operationsCMYK4 => [channel 1 3 v,channel 1 2 v,channel 1 1 v,channel 1 0 v]
  | _ => []

def maxValue : LayerOperations → ℕ
  | operations1bpp _ => 1
  | operationsCMYK16 => 15
  | operationsCMYK8 => 3
  | operationsCMYK4 => 1
  | _ => 255

def shade (values : List ℕ) : LayerOperations → Option ℕ
  | operations1bpp colormap => colormap[values.getD 0 0]?.map Color.getARGB32
  | operations8bpp colormap => do
    let c1 ← colormap[0]?
    let c2 ← colormap[1]?
    return (Color.mix c2 c1 (1*values.getD 0 0/255)).getARGB32
  | operations24bpp =>
    some (0xFF000000 ||| (values.getD 0 0 <<< 16) ||| (values.getD 1 0 <<< 8) ||| values.getD 2 0)
  | operations1bppClipped _ => none
  | operations _ _ => none
  | operationsColormapped _ _ => none
  | lo =>
    let scale := 255/lo.maxValue
    some (inverseCmykPixel (255-values.getD 0 0*scale) (255-values.getD 1 0*scale)
      (255-values.getD 2 0*scale) (255-values.getD 3 0*scale))

def Averages (lo : LayerOperations) : Prop := lo.channels 0 ≠ []

instance (lo : LayerOperations) : Decidable lo.Averages := inferInstanceAs (Decidable (_ ≠ _))

/-- The sum of a channel over the block of 8 by 8 source pixels for row `j` and column `i`. -/
def blockSum (lo : LayerOperations) (source : Buffer n) (j i c : ℕ) : ℕ :=
  ∑ a ∈ Finset.range 8, ∑ b ∈ Finset.range 8, (lo.channels (lo.pixel source (8*j+a) (8*i+b))).getD c 0

/-- What is written for a sum. -/
def mean (sum : ℕ) : LayerOperations → ℕ
  | operations1bpp _ => 255*sum/64
  | operationsCMYK16 => 255*sum/(15*64)
  | operationsCMYK8 => 255*sum/(3*64)
  | operationsCMYK4 => 255*sum/64
  | _ => sum/64

theorem draw_eq_shade {lo : LayerOperations} (h : lo.Averages) (v : ℕ) : lo.draw v = lo.shade (lo.channels v) := by
  cases lo with
  | operations1bppClipped colormap => exact absurd rfl h
  | operations colormap bpp => exact absurd rfl h
  | operationsColormapped colormap bpp => exact absurd rfl h
  | operationsCMYK32 => simp [draw,shade,channels,maxValue]
  | _ => rfl

theorem channels_le {lo : LayerOperations} {v : ℕ} (hv : v < 2^lo.getBpp) (c : ℕ) :
    (lo.channels v).getD c 0 ≤ lo.maxValue := by
  have hchannel : ∀ bits max, 2^bits = max+1 → ∀ c, channel bits c v ≤ max := fun bits max hmax c => by
    have hlt : channel bits c v < 2^bits := Nat.mod_lt _ (Nat.two_pow_pos bits)
    omega
  have hall : ∀ w ∈ lo.channels v, w ≤ lo.maxValue := by
    cases lo with
    | operations1bpp colormap => simpa [channels,maxValue,getBpp] using Nat.le_of_lt_succ hv
    | operations8bpp colormap => simpa [channels,maxValue,getBpp] using Nat.le_of_lt_succ hv
    | operations1bppClipped colormap => simp [channels]
    | operations colormap bpp => simp [channels]
    | operationsColormapped colormap bpp => simp [channels]
    | operations24bpp => simp [channels,maxValue,hchannel 8 255 rfl]
    | operationsCMYK32 => simp [channels,maxValue,hchannel 8 255 rfl]
    | operationsCMYK16 => simp [channels,maxValue,hchannel 4 15 rfl]
    | operationsCMYK8 => simp [channels,maxValue,hchannel 2 3 rfl]
    | operationsCMYK4 => simp [channels,maxValue,hchannel 1 1 rfl]
  rw [List.getD_eq_getElem?_getD]
  cases hget : (lo.channels v)[c]? with
  | none => exact Nat.zero_le _
  | some w => exact hall w (List.mem_of_getElem? hget)

theorem blockSum_le (lo : LayerOperations) (source : Buffer n) (j i c : ℕ) :
    lo.blockSum source j i c ≤ 64*lo.maxValue :=
  sum_block_le fun _ _ => channels_le (lo.pixel_lt source _ _) c

theorem mean_lt {lo : LayerOperations} {sum : ℕ} (h : sum ≤ 64*lo.maxValue) : lo.mean sum < 256 := by
  cases lo <;> simp only [mean,maxValue] at h ⊢ <;> omega

end LayerOperations

theorem sumBlock_eq (cols ch : ℕ) (v : ℕ → ℕ → ℕ → ℕ) {sample : ℕ → ℕ → Option (List ℕ)}
    (h : ∀ k < 8, ∀ l < cols, ∃ s, sample k l = some s ∧ s.length = ch ∧ ∀ c < ch, s.getD c 0 = v k l c) :
    ∃ s, sumBlock cols sample (List.replicate ch 0) = some s ∧ s.length = ch ∧
      ∀ c < ch, s.getD c 0 = ∑ k ∈ Finset.range 8, ∑ l ∈ Finset.range cols, v k l c := by
  have hrow : ∀ k < 8, ∀ sum : List ℕ, sum.length = ch → ∃ s,
      (List.range cols).foldlM (fun sum l => (sample k l).map (List.zipWith (·+·) sum)) sum = some s ∧
      s.length = ch ∧ ∀ c < ch, s.getD c 0 = sum.getD c 0+∑ l ∈ Finset.range cols, v k l c := by
    intro k hk sum hlen
    refine Loops.foldlM_range (I := fun t (s : List ℕ) => s.length = ch ∧ ∀ c < ch, s.getD c 0 =
      sum.getD c 0+∑ l ∈ Finset.range t, v k l c) ⟨hlen,fun c _ => by simp⟩ ?_
    rintro l hl s ⟨hs,hsum⟩
    obtain ⟨w,hw,hwlen,hwv⟩ := h k hk l hl
    refine ⟨_,by rw [hw]; rfl,by simp [hs,hwlen],fun c hc => ?_⟩
    have hget := hsum c hc
    have hwget := hwv c hc
    have hcs : c < s.length := by omega
    have hcw : c < w.length := by omega
    rw [Finset.sum_range_succ,← Nat.add_assoc,← hget,← hwget]
    simp [hcs,hcw]
  refine Loops.foldlM_range (I := fun t (s : List ℕ) => s.length = ch ∧ ∀ c < ch, s.getD c 0 =
    ∑ k ∈ Finset.range t, ∑ l ∈ Finset.range cols, v k l c) ⟨by simp,fun c hc => by simp [hc]⟩ ?_
  rintro k hk s ⟨hs,hsum⟩
  obtain ⟨s',hs',hlen,hrow⟩ := hrow k hk s hs
  refine ⟨s',hs',hlen,fun c hc => ?_⟩
  rw [hrow c hc,hsum c hc,Finset.sum_range_succ]

theorem Fills.means {f : Buffer n → Option (Buffer n)} (lo : LayerOperations) (source : Buffer m) (ch : ℕ)
    {x y : ℕ} {sums : ℕ → ℕ → Option (List ℕ)} {g : ℕ → ℕ} (hx : x < 8) (hy : y < 8)
    (htarget : lo.targetBpp = 8*ch) (hn : n = width*height*ch)
    (h : Fills f (8*ch) x y 1 fun j i => bytesBit (((sums j i).getD []).map g))
    (hsums : ∀ j < height/8, ∀ i < width/8, ∃ s, sums j i = some s ∧ s.length = ch ∧
      ∀ c < ch, s.getD c 0 = lo.blockSum source j i c)
    (hg : ∀ sum, g sum = lo.mean sum) (target : Buffer n) : ∃ result, f target = some result ∧
      ∀ j < height/8, ∀ i < width/8, ∀ c < lo.targetBpp/8, lo.mean (lo.blockSum source j i c) < 256 ∧
        byteAt result (lo.targetBpp/8*(width*(height/8*y+j)+(width/8*x+i))+c) =
          some (lo.mean (lo.blockSum source j i c)) := by
  rw [htarget,Nat.mul_div_cancel_left ch (by decide)]
  obtain ⟨w,hw,hbits⟩ := h
  obtain ⟨result,hr,hp⟩ := hw target
  refine ⟨result,hr,fun j hj i hi c hc => ?_⟩
  have hlt := LayerOperations.mean_lt (lo.blockSum_le source j i c)
  refine ⟨hlt,?_⟩
  obtain ⟨s,hs,hlen,hv⟩ := hsums j hj i hi
  change byteAt result (ch*blockPixel x y j i+c) = _
  have hend : ch*blockPixel x y j i+c < n := by
    have hb : blockPixel x y j i+1 ≤ width*height := by
      simp only [blockPixel,width,height] at *
      omega
    have hle := Nat.mul_le_mul_left ch hb
    rw [hn,Nat.mul_comm (width*height)]
    rw [Nat.mul_succ] at hle
    omega
  rw [byteAt_field hend,Option.some.injEq]
  refine ((eq_field_iff hlt).mpr fun k hk => ?_).symm
  have haddr : 8*(ch*blockPixel x y j i+c)+k = 8*ch*blockPixel x y j i+(8*c+k) := by ring
  have hin : 8*c+k < 8*ch := by omega
  have hslot : 8*(ch*blockPixel x y j i+c)+k ∈ slot (8*ch) (blockPixel x y j (SampleIterator.mirror 1 i)) := by
    rw [mirror_one]
    change _/(8*ch) = _
    rw [haddr,Nat.mul_add_div (by omega),Nat.div_eq_of_lt hin,Nat.add_zero]
  have hmod : (8*(ch*blockPixel x y j i+c)+k)%(8*ch) = 8*c+k := by
    rw [haddr,Nat.mul_add_mod,Nat.mod_eq_of_lt hin]
  have hblock := (mem_block_iff hx).mpr ⟨j,hj,i,hi,by rwa [mirror_one] at hslot⟩
  have hd : (8*c+k)/8 = c := by omega
  have hm : (8*c+k)%8 = k := by omega
  rw [hp.1 _ hblock,hbits j hj i hi _ hslot,hmod,← hv c hc,← hg]
  simp [bytesBit,hs,hd,hm,hlen,hc]

section Sums
variable {j i : ℕ} (colormap : Colormap)

namespace Operations1bpp

theorem bitCount_eq : ∀ v < 2^8, bitCount v = ∑ b ∈ Finset.range 8, v/2^(7-b)%2^1 := by decide +kernel

theorem sums_eq (source : Tile 1) (hj : j < height/8) (hi : i < width/8) :
    ∃ s, sums source j i = some s ∧ s.length = 1 ∧
      ∀ c < 1, s.getD c 0 = (LayerOperations.operations1bpp colormap).blockSum source j i c := by
  have hsum : ∃ s, sums source j i = some s ∧ s.length = 1 ∧ ∀ c < 1, s.getD c 0 =
      ∑ k ∈ Finset.range 8, ∑ _l ∈ Finset.range 1, ∑ b ∈ Finset.range 8,
        ((LayerOperations.operations1bpp colormap).channels
          ((LayerOperations.operations1bpp colormap).pixel source (8*j+k) (8*i+b))).getD c 0 := by
    refine sumBlock_eq 1 1 (fun k _ c => _) fun k hk l hl => ?_
    have hend : j*(width/8*8)+i+k*(width/8) < width*height*1/8 := by
      simp only [width,height] at *
      omega
    rw [byteAt_field hend]
    refine ⟨_,rfl,rfl,fun c hc => ?_⟩
    obtain rfl : c = 0 := by omega
    refine (bitCount_eq _ (field_lt _ _ _)).trans (Finset.sum_congr rfl fun b hb => ?_)
    have hb := Finset.mem_range.mp hb
    rw [field_div_mod _ (show 7-b+1 ≤ 8 by omega)]
    change _ = field source (1*(width*(8*j+k)+SampleIterator.mirror 8 (8*i+b))) 1
    congr 1
    simp only [SampleIterator.mirror,width]
    omega
  simp only [Finset.sum_range_one] at hsum
  exact hsum

end Operations1bpp

namespace Operations8bpp

theorem sums_eq (source : Tile 8) (hj : j < height/8) (hi : i < width/8) :
    ∃ s, sums source j i = some s ∧ s.length = 1 ∧
      ∀ c < 1, s.getD c 0 = (LayerOperations.operations8bpp colormap).blockSum source j i c := by
  refine sumBlock_eq 8 1 (fun k l c => _) fun k hk l hl => ?_
  have hend : j*(width*8)+i*8+k*width+l < width*height*8/8 := by
    simp only [width,height] at *
    omega
  rw [byteAt_field hend]
  refine ⟨_,rfl,rfl,fun c hc => ?_⟩
  obtain rfl : c = 0 := by omega
  change _ = field source (8*(width*(8*j+k)+SampleIterator.mirror 1 (8*i+l))) 8
  rw [mirror_one,show j*(width*8)+i*8+k*width+l = width*(8*j+k)+(8*i+l) by ring]
  rfl

end Operations8bpp

namespace Operations24bpp

theorem sums_eq (source : Tile 24) (hj : j < height/8) (hi : i < width/8) :
    ∃ s, sums source j i = some s ∧ s.length = 3 ∧
      ∀ c < 3, s.getD c 0 = LayerOperations.operations24bpp.blockSum source j i c := by
  refine sumBlock_eq 8 3 (fun k l c => _) fun k hk l hl => ?_
  have hread : ∀ c < 3, byteAt source (j*(3*width*8)+i*(8*3)+k*(3*width)+l*3+c) =
      some (LayerOperations.channel 8 c (LayerOperations.operations24bpp.pixel source (8*j+k) (8*i+l))) := by
    intro c hc
    have hend : j*(3*width*8)+i*(8*3)+k*(3*width)+l*3+c < width*height*24/8 := by
      simp only [width,height] at *
      omega
    rw [byteAt_field_div c hend (by omega : 8*c+8 ≤ 24)]
    change _ = some (field source (24*(width*(8*j+k)+SampleIterator.mirror 1 (8*i+l))) 24/2^(8*c)%2^8)
    rw [mirror_one,show 8*(j*(3*width*8)+i*(8*3)+k*(3*width)+l*3) = 24*(width*(8*j+k)+(8*i+l)) by ring]
    rfl
  have h0 := hread 0 (by decide)
  rw [Nat.add_zero] at h0
  dsimp only
  rw [h0,hread 1 (by decide),hread 2 (by decide)]
  exact ⟨_,rfl,rfl,fun c hc => rfl⟩

end Operations24bpp

namespace OperationsCMYK32

theorem sums_eq (source : Tile 32) (hj : j < height/8) (hi : i < width/8) :
    ∃ s, sums source j i = some s ∧ s.length = 4 ∧
      ∀ c < 4, s.getD c 0 = LayerOperations.operationsCMYK32.blockSum source j i c := by
  refine sumBlock_eq 8 4 (fun k l c => _) fun k hk l hl => ?_
  have hread : ∀ c < 4, byteAt source (j*(8*width/2*8)+8*4*i+k*(8*width/2)+l*4+c) =
      some (LayerOperations.channel 8 c (LayerOperations.operationsCMYK32.pixel source (8*j+k) (8*i+l))) := by
    intro c hc
    have hend : j*(8*width/2*8)+8*4*i+k*(8*width/2)+l*4+c < width*height*32/8 := by
      simp only [width,height] at *
      omega
    rw [byteAt_field_div c hend (by omega : 8*c+8 ≤ 32)]
    change _ = some (field source (32*(width*(8*j+k)+SampleIterator.mirror 1 (8*i+l))) 32/2^(8*c)%2^8)
    have hp : 8*(j*(8*width/2*8)+8*4*i+k*(8*width/2)+l*4) = 32*(width*(8*j+k)+(8*i+l)) := by
      simp only [width]
      omega
    rw [mirror_one,hp]
    rfl
  have h0 := hread 0 (by decide)
  rw [Nat.add_zero] at h0
  dsimp only
  rw [h0,hread 1 (by decide),hread 2 (by decide),hread 3 (by decide)]
  exact ⟨_,rfl,rfl,fun c hc => rfl⟩

end OperationsCMYK32

namespace OperationsCMYK16

theorem sums_eq (source : Tile 16) (hj : j < height/8) (hi : i < width/8) :
    ∃ s, sums source j i = some s ∧ s.length = 4 ∧
      ∀ c < 4, s.getD c 0 = LayerOperations.operationsCMYK16.blockSum source j i c := by
  refine sumBlock_eq 8 4 (fun k l c => _) fun k hk l hl => ?_
  have hread : ∀ c < 2, byteAt source (j*(4*width/2*8)+4*4*i+k*(4*width/2)+l*2+c) =
      some (LayerOperations.operationsCMYK16.pixel source (8*j+k) (8*i+l)/2^(8*c)%256) := by
    intro c hc
    have hend : j*(4*width/2*8)+4*4*i+k*(4*width/2)+l*2+c < width*height*16/8 := by
      simp only [width,height] at *
      omega
    rw [byteAt_field_div c hend (by omega : 8*c+8 ≤ 16)]
    change _ = some (field source (16*(width*(8*j+k)+SampleIterator.mirror 1 (8*i+l))) 16/2^(8*c)%256)
    have hp : 8*(j*(4*width/2*8)+4*4*i+k*(4*width/2)+l*2) = 16*(width*(8*j+k)+(8*i+l)) := by
      simp only [width]
      omega
    rw [mirror_one,hp]
  have h0 := hread 0 (by decide)
  rw [Nat.add_zero] at h0
  dsimp only
  rw [h0,hread 1 (by decide)]
  refine ⟨_,rfl,rfl,?_⟩
  have hnibble : ∀ v : ℕ, v &&& 15 = v%16 := fun v => Nat.and_two_pow_sub_one_eq_mod v 4
  generalize LayerOperations.operationsCMYK16.pixel source (8*j+k) (8*i+l) = v
  intro c hc
  have hlists : [(v/2^(8*0)%256) >>> 4,v/2^(8*0)%256 &&& 15,(v/2^(8*1)%256) >>> 4,v/2^(8*1)%256 &&& 15] =
      LayerOperations.operationsCMYK16.channels v := by
    simp only [LayerOperations.channels,LayerOperations.channel,hnibble,Nat.shiftRight_eq_div_pow,
      List.cons.injEq,and_true]
    exact ⟨by omega,by omega,by omega,by omega⟩
  rw [hlists]

end OperationsCMYK16

namespace OperationsCMYK8

theorem sums_eq (source : Tile 8) (hj : j < height/8) (hi : i < width/8) :
    ∃ s, sums source j i = some s ∧ s.length = 4 ∧
      ∀ c < 4, s.getD c 0 = LayerOperations.operationsCMYK8.blockSum source j i c := by
  refine sumBlock_eq 8 4 (fun k l c => _) fun k hk l hl => ?_
  have hend : j*(width*8)+2*4*i+k*width+l < width*height*8/8 := by
    simp only [width,height] at *
    omega
  have hpixel : LayerOperations.operationsCMYK8.pixel source (8*j+k) (8*i+l) =
      field source (8*(j*(width*8)+2*4*i+k*width+l)) 8 := by
    change field source (8*(width*(8*j+k)+SampleIterator.mirror 1 (8*i+l))) 8 = _
    rw [mirror_one,show j*(width*8)+2*4*i+k*width+l = width*(8*j+k)+(8*i+l) by ring]
  have hs := samples_eq _ (field_lt source (8*(j*(width*8)+2*4*i+k*width+l)) 8)
  rw [byteAt_field hend,hpixel]
  refine ⟨_,rfl,rfl,fun c hc => ?_⟩
  rw [hs.1,hs.2.1,hs.2.2.1,hs.2.2.2]
  rfl

end OperationsCMYK8

namespace OperationsCMYK4

theorem sum_pairs (f : ℕ → ℕ) : ∑ l ∈ Finset.range 4, (f (2*l)+f (2*l+1)) = ∑ b ∈ Finset.range 8, f b := by
  simp only [Finset.sum_range_succ,Finset.sum_range_zero]
  ring

theorem samples_eq : ∀ v < 2^8,
    [((v >>> 7) &&& 1)+((v >>> 3) &&& 1),((v >>> 6) &&& 1)+((v >>> 2) &&& 1),
      ((v >>> 5) &&& 1)+((v >>> 1) &&& 1),((v >>> 4) &&& 1)+((v >>> 0) &&& 1)] =
    List.zipWith (·+·) (LayerOperations.operationsCMYK4.channels (v/2^4%2^4))
      (LayerOperations.operationsCMYK4.channels (v/2^0%2^4)) := by
  decide +kernel

theorem sums_eq (source : Tile 4) (hj : j < height/8) (hi : i < width/8) :
    ∃ s, sums source j i = some s ∧ s.length = 4 ∧
      ∀ c < 4, s.getD c 0 = LayerOperations.operationsCMYK4.blockSum source j i c := by
  have hsum : ∃ s, sums source j i = some s ∧ s.length = 4 ∧ ∀ c < 4, s.getD c 0 =
      ∑ k ∈ Finset.range 8, ∑ l ∈ Finset.range 4,
        ((LayerOperations.operationsCMYK4.channels
          (LayerOperations.operationsCMYK4.pixel source (8*j+k) (8*i+2*l))).getD c 0+
        (LayerOperations.operationsCMYK4.channels
          (LayerOperations.operationsCMYK4.pixel source (8*j+k) (8*i+(2*l+1)))).getD c 0) := by
    refine sumBlock_eq 4 4 (fun k l c => _) fun k hk l hl => ?_
    have hend : j*(width/2*8)+4*i+k*(width/2)+l < width*height*4/8 := by
      simp only [width,height] at *
      omega
    have hbyte : ∀ b < 2, ((8*j+k)*width+(8*i+(2*l+b)))/2 = j*(width/2*8)+4*i+k*(width/2)+l ∧
        ((8*j+k)*width+(8*i+(2*l+b)))%2 = b := by
      intro b hb
      simp only [width]
      omega
    have he := hbyte 0 (by decide)
    have ho := hbyte 1 (by decide)
    rw [Nat.add_zero] at he
    rw [byteAt_field hend]
    refine ⟨_,rfl,rfl,fun c hc => ?_⟩
    rw [samples_eq _ (field_lt _ _ _),pixel_eq,pixel_eq,ho.1,ho.2,he.1,he.2]
    have hlen : ∀ v, (LayerOperations.operationsCMYK4.channels v).length = 4 := fun _ => rfl
    simp [hlen,hc]
  obtain ⟨s,hs,hlen,hv⟩ := hsum
  refine ⟨s,hs,hlen,fun c hc => (hv c hc).trans (Finset.sum_congr rfl fun k _ => ?_)⟩
  exact sum_pairs fun b => (LayerOperations.operationsCMYK4.channels
    (LayerOperations.operationsCMYK4.pixel source (8*j+k) (8*i+b))).getD c 0

end OperationsCMYK4

end Sums

namespace LayerOperations

/-- Every reduction that computes means writes each of them, in the byte of its channel, and each fits there.
The channels are those that `cache` draws. -/
theorem reduce_means (lo : LayerOperations) (h : lo.Averages) {x y : ℕ} (hx : x < 8) (hy : y < 8)
    (source : Tile lo.getBpp) (target : Tile lo.targetBpp) :
    (∃ result, lo.reduce target source x y = some result ∧
      ∀ j < height/8, ∀ i < width/8, ∀ c < lo.targetBpp/8, lo.mean (lo.blockSum source j i c) < 256 ∧
        byteAt result (lo.targetBpp/8*(width*(height/8*y+j)+(width/8*x+i))+c) =
          some (lo.mean (lo.blockSum source j i c))) ∧
    ∀ row < height, ∀ col < width,
      lo.cachePixel source row col = lo.shade (lo.channels (lo.pixel source row col)) := by
  refine ⟨?_,fun row hrow col hcol => ?_⟩
  · cases lo with
    | operations1bppClipped colormap => exact absurd rfl h
    | operations colormap bpp => exact absurd rfl h
    | operationsColormapped colormap bpp => exact absurd rfl h
    | operations1bpp colormap =>
      exact Fills.means (n := width*height*8/8) _ source 1 hx hy rfl rfl (Operations1bpp.reduce_fills source hx hy)
        (fun _ hj _ hi => Operations1bpp.sums_eq colormap source hj hi)
        (fun sum => by simp only [mean,Nat.mul_comm]) target
    | operations8bpp colormap =>
      exact Fills.means (n := width*height*8/8) _ source 1 hx hy rfl rfl (Operations8bpp.reduce_fills source hx hy)
        (fun _ hj _ hi => Operations8bpp.sums_eq colormap source hj hi) (fun _ => rfl) target
    | operations24bpp =>
      exact (Operations24bpp.reduce_fills source hx hy).means _ source 3 hx hy rfl rfl
        (fun _ hj _ hi => Operations24bpp.sums_eq source hj hi) (fun _ => rfl) target
    | operationsCMYK32 =>
      exact (OperationsCMYK32.reduce_fills source hx hy).means _ source 4 hx hy rfl rfl
        (fun _ hj _ hi => OperationsCMYK32.sums_eq source hj hi) (fun _ => rfl) target
    | operationsCMYK16 =>
      exact (OperationsCMYK16.reduce_fills source hx hy).means _ source 4 hx hy rfl rfl
        (fun _ hj _ hi => OperationsCMYK16.sums_eq source hj hi) (fun sum => by simp only [mean,Nat.mul_comm]) target
    | operationsCMYK8 =>
      exact (OperationsCMYK8.reduce_fills source hx hy).means _ source 4 hx hy rfl rfl
        (fun _ hj _ hi => OperationsCMYK8.sums_eq source hj hi) (fun sum => by simp only [mean,Nat.mul_comm]) target
    | operationsCMYK4 =>
      exact (OperationsCMYK4.reduce_fills source hx hy).means _ source 4 hx hy rfl rfl
        (fun _ hj _ hi => OperationsCMYK4.sums_eq source hj hi) (fun sum => by simp only [mean,Nat.mul_comm]) target
  · have hbits : lo.IndexBits := by
      cases lo with
      | operations colormap bpp => exact absurd rfl h
      | operationsColormapped colormap bpp => exact absurd rfl h
      | _ => trivial
    rw [cachePixel_eq hbits rfl source hrow hcol,draw_eq_shade h]

theorem reduce_means_lastCorner :
    let source : Tile operationsCMYK16.getBpp := Vector.replicate _ 0x1F
    ∃ result, operationsCMYK16.reduce (n := width*height*32/8) (Vector.replicate _ 0) source 7 7 = some result ∧
      byteAt result (4*(width*4095+4095)+1) =
        some (operationsCMYK16.mean (operationsCMYK16.blockSum source 511 511 1)) := by
  intro source
  obtain ⟨result,hr,h⟩ := (reduce_means operationsCMYK16 (by decide) (x := 7) (y := 7) (by decide) (by decide)
    source (Vector.replicate _ 0)).1
  exact ⟨result,hr,(h 511 (by decide) 511 (by decide) 1 (by decide)).2⟩

end LayerOperations
end Scroom
