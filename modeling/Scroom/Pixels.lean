import Scroom.ReduceBlock

/-! The pixels of a tile as numbers, and the colours that are drawn for them. -/
namespace Scroom

open Buffer

variable {n : ℕ}

theorem byteAt_field {b : Buffer n} {i : ℕ} (h : i < n) : byteAt b i = some (field b (8*i) 8) :=
  getElem?_eq_field b h

theorem byteAt_field_div {b : Buffer n} {i w : ℕ} (c : ℕ) (h : i+c < n) (hw : 8*c+8 ≤ w) :
    byteAt b (i+c) = some (field b (8*i) w/2^(8*c)%256) := by
  rw [byteAt_field h,Nat.mul_add,← field_div_mod b hw]
  rfl

namespace LayerOperations

/-- The pixels in one word; the first is in the highest bits. -/
def pixelsPerWord : LayerOperations → ℕ
  | operations1bpp _ => 8
  | operations1bppClipped _ => 8
  | operations _ bpp => Operations.pixelsPerByte bpp
  | operationsColormapped _ bpp => Operations.pixelsPerByte bpp
  | operationsCMYK4 => 2
  | _ => 1

def pixel (tile : Buffer n) (row col : ℕ) (lo : LayerOperations) : ℕ :=
  field tile (lo.getBpp*(width*row+SampleIterator.mirror lo.pixelsPerWord col)) lo.getBpp

/-- A number of `bits` bits inside a pixel. -/
def channel (bits c v : ℕ) : ℕ := v/2^(bits*c)%2^bits

/-- The colour for a pixel. -/
def draw (v : ℕ) : LayerOperations → Option ℕ
  | operations1bpp colormap => colormap[v]?.map Color.getARGB32
  | operations1bppClipped _ => none
  | operations8bpp colormap => do
    let c1 ← colormap[0]?
    let c2 ← colormap[1]?
    return (Color.mix c2 c1 (1*v/255)).getARGB32
  | operations24bpp =>
    some (0xFF000000 ||| (channel 8 0 v <<< 16) ||| (channel 8 1 v <<< 8) ||| channel 8 2 v)
  | operations colormap _ => colormap[v]?.map Color.getARGB32
  | operationsColormapped colormap bpp => do
    let a ← colormap[v &&& Operations.pixelMask bpp]?
    let b ← colormap[v >>> bpp]?
    return (Color.mix a b (1/2)).getARGB32
  | operationsCMYK32 => some (inverseCmykPixel (255-channel 8 0 v) (255-channel 8 1 v)
      (255-channel 8 2 v) (255-channel 8 3 v))
  | operationsCMYK16 => some (inverseCmykPixel (255-channel 4 1 v*17) (255-channel 4 0 v*17)
      (255-channel 4 3 v*17) (255-channel 4 2 v*17))
  | operationsCMYK8 => some (inverseCmykPixel (255-channel 2 3 v*85) (255-channel 2 2 v*85)
      (255-channel 2 1 v*85) (255-channel 2 0 v*85))
  | operationsCMYK4 => some (inverseCmykPixel (255-channel 1 3 v*255) (255-channel 1 2 v*255)
      (255-channel 1 1 v*255) (255-channel 1 0 v*255))

theorem pixel_lt (tile : Buffer n) (row col : ℕ) (lo : LayerOperations) :
    lo.pixel tile row col < 2^lo.getBpp := field_lt _ _ _

end LayerOperations

theorem mirror_one (k : ℕ) : SampleIterator.mirror 1 k = k := by simp [SampleIterator.mirror,Nat.mod_one]

theorem mirror_add {s : ℕ} (hs : 0 < s) (c k : ℕ) :
    SampleIterator.mirror s (s*c+k) = s*c+SampleIterator.mirror s k := by
  rw [SampleIterator.mirror,Nat.mul_add_div hs,Nat.mul_add_mod,Nat.mul_add,SampleIterator.mirror,Nat.add_assoc]

theorem mirror_block {s c x i : ℕ} (hs : s*c = width/8) :
    SampleIterator.mirror s (width/8*x+i) = width/8*x+SampleIterator.mirror s i := by
  have hp : 0 < s := Nat.pos_of_ne_zero fun h => by simp [h,width] at hs
  rw [← hs,Nat.mul_assoc,mirror_add hp]

theorem Fills.pixel_eq {f : Buffer n → Option (Buffer n)} {bpp x y s c j i u : ℕ}
    {pixel : ℕ → ℕ → ℕ → Bool} (hx : x < 8) (h : Fills f bpp x y s pixel) (hs : s*c = width/8)
    (hj : j < height/8) (hi : i < width/8) (hu : u < 2^bpp) (hpixel : ∀ k < bpp, pixel j i k = u.testBit k)
    (target : Buffer n) : ∃ result, f target = some result ∧
      field result (bpp*(width*(height/8*y+j)+SampleIterator.mirror s (width/8*x+i))) bpp = u := by
  obtain ⟨w,hw,hbits⟩ := h
  obtain ⟨result,hr,hp⟩ := hw target
  refine ⟨result,hr,((eq_field_iff hu).mpr fun k hk => ?_).symm⟩
  have hslot : bpp*(width*(height/8*y+j)+SampleIterator.mirror s (width/8*x+i))+k ∈
      slot bpp (blockPixel x y j (SampleIterator.mirror s i)) := by
    rw [mirror_block hs]
    show _/bpp = _
    rw [Nat.mul_add_div (by omega),Nat.div_eq_of_lt hk]
    rfl
  rw [hp.1 _ ((mem_block_iff hx).mpr ⟨j,hj,_,mirror_width hs hi,hslot⟩),hbits j hj i hi _ hslot,
    Nat.mul_add_mod,Nat.mod_eq_of_lt hk,hpixel k hk]

namespace Operations

theorem pair_and {a b bpp : ℕ} (hb : b < 2^bpp) : (a <<< bpp ||| b) &&& pixelMask bpp = b := by
  rw [pixelMask_eq,Nat.and_two_pow_sub_one_eq_mod,← Nat.shiftLeft_add_eq_or_of_lt hb,Nat.shiftLeft_eq,
    Nat.mul_comm,Nat.mul_add_mod,Nat.mod_eq_of_lt hb]

theorem pair_shiftRight {a b bpp : ℕ} (hb : b < 2^bpp) : (a <<< bpp ||| b) >>> bpp = a := by
  rw [← Nat.shiftLeft_add_eq_or_of_lt hb,Nat.shiftLeft_eq,Nat.shiftRight_eq_div_pow,Nat.mul_comm,
    Nat.mul_add_div (Nat.two_pow_pos bpp),Nat.div_eq_of_lt hb,Nat.add_zero]

theorem pair_eq (v bpp : ℕ) : (v >>> bpp) <<< bpp ||| (v &&& pixelMask bpp) = v := by
  rw [← Nat.shiftLeft_add_eq_or_of_lt (and_pixelMask_lt v bpp),pixelMask_eq,
    Nat.and_two_pow_sub_one_eq_mod,Nat.shiftLeft_eq,Nat.shiftRight_eq_div_pow,Nat.div_add_mod']

theorem pixel_block {bpp j i k l : ℕ} (h : bpp ∈ [1,2,4,8]) :
    width*(8*j+k)+8*i+SampleIterator.mirror (pixelsPerByte bpp) l =
    width*(8*j+k)+SampleIterator.mirror (pixelsPerByte bpp) (8*i+l) := by
  have hs : pixelsPerByte bpp*(bpp*i) = 8*i := by
    rw [← Nat.mul_assoc,pixelsPerByte_mul h]
    rfl
  have hp : 0 < pixelsPerByte bpp := Nat.pos_of_ne_zero fun hz => by
    have hm := pixelsPerByte_mul h
    simp [hz,Base.size] at hm
  rw [← hs,mirror_add hp,Nat.add_assoc]

end Operations

theorem sum_block_le {f : ℕ → ℕ → ℕ} {max : ℕ} (h : ∀ a b, f a b ≤ max) :
    ∑ a ∈ Finset.range 8, ∑ b ∈ Finset.range 8, f a b ≤ 64*max := by
  have hrow : ∀ a ∈ Finset.range 8, ∑ b ∈ Finset.range 8, f a b ≤ 8*max := by
    intro a _
    simpa using Finset.sum_le_card_nsmul (Finset.range 8) (f a) max fun b _ => h a b
  have hall := Finset.sum_le_card_nsmul (Finset.range 8) _ _ hrow
  simp only [Finset.card_range,smul_eq_mul] at hall
  omega

variable {row col : ℕ}

theorem read_row {t : Base} {p s c bpp : ℕ} (tile : Tile bpp) (hrow : row < height) (hcol : col < width)
    (hs : s*bpp = 8*t.size) (hb : 0 < bpp) (hc : s*c = width) (hptr : 8*p = bpp*(width*row)) :
    (SampleIterator.next^[col] (.create t p 0 bpp)).get tile =
      some (field tile (bpp*(width*row+SampleIterator.mirror s col)) bpp) := by
  have hend : p+t.size*(col/s)+t.size ≤ width*height*bpp/8 := by
    have hq : col/s+1 ≤ c := Nat.div_lt_of_lt_mul (by rw [hc]; exact hcol)
    have hle : 8*t.size*(col/s+1) ≤ bpp*width := by
      calc 8*t.size*(col/s+1) ≤ 8*t.size*c := Nat.mul_le_mul_left _ hq
        _ = bpp*width := by rw [← hs,← hc]; ring
    have htile : bpp*(width*(row+1)) ≤ width*height*bpp := by
      calc bpp*(width*(row+1)) ≤ bpp*(width*height) :=
            Nat.mul_le_mul_left _ (Nat.mul_le_mul_left _ hrow)
        _ = width*height*bpp := Nat.mul_comm _ _
    have hsum : 8*(p+t.size*(col/s)+t.size) = 8*p+8*t.size*(col/s+1) := by ring
    have hsucc : bpp*(width*(row+1)) = bpp*(width*row)+bpp*width := by ring
    omega
  rw [SampleIterator.get_create hs hb hend,hptr,← Nat.mul_add]

namespace Operations1bpp

theorem cachePixel_eq (colormap : Colormap) (tile : Tile 1) (hrow : row < height) (hcol : col < width) :
    cachePixel colormap tile row col = (LayerOperations.operations1bpp colormap).draw
      ((LayerOperations.operations1bpp colormap).pixel tile row col) := by
  have hread := read_row (t := .uint8) (p := row*width/8) tile hrow hcol
    (show 8*1 = 8*Base.uint8.size from rfl) (by decide) (show 8*512 = width from rfl)
    (by simp only [width]; omega)
  simp only [cachePixel,hread,LayerOperations.draw,LayerOperations.pixel,LayerOperations.getBpp,
    LayerOperations.pixelsPerWord,Option.bind_eq_bind,Option.bind_some]
  cases colormap[field tile (1*(width*row+SampleIterator.mirror 8 col)) 1]? <;> rfl

end Operations1bpp

namespace Operations8bpp

theorem cachePixel_eq (colormap : Colormap) (tile : Tile 8) (hrow : row < height) (hcol : col < width) :
    cachePixel colormap tile row col = (LayerOperations.operations8bpp colormap).draw
      ((LayerOperations.operations8bpp colormap).pixel tile row col) := by
  have hread := byteAt_field (b := tile) (i := row*width+col) (by simp only [width,height] at *; omega)
  simp only [cachePixel,hread,LayerOperations.draw,LayerOperations.pixel,LayerOperations.getBpp,
    LayerOperations.pixelsPerWord,mirror_one,Nat.mul_comm width row,Option.bind_eq_bind,Option.bind_some]

end Operations8bpp

namespace Operations24bpp

theorem cachePixel_eq (tile : Tile 24) (hrow : row < height) (hcol : col < width) :
    cachePixel tile row col = LayerOperations.operations24bpp.draw
      (LayerOperations.operations24bpp.pixel tile row col) := by
  have hread : ∀ c < 3, byteAt tile (3*row*width+3*col+c) =
      some (field tile (24*(width*row+col)) 24/2^(8*c)%256) := by
    intro c hc
    have hend : 3*row*width+3*col+c < width*height*24/8 := by
      simp only [width,height] at *
      omega
    rw [byteAt_field_div c hend (by omega : 8*c+8 ≤ 24)]
    congr 4
    simp only [width]
    omega
  have h0 := hread 0 (by decide)
  rw [Nat.add_zero] at h0
  simp only [cachePixel,h0,hread 1 (by decide),hread 2 (by decide),Option.bind_eq_bind,Option.bind_some,
    LayerOperations.pixel,LayerOperations.pixelsPerWord,mirror_one,LayerOperations.getBpp]
  rfl

end Operations24bpp

namespace Operations

theorem pixelsPerByte_stride {bpp : ℕ} (h : bpp ∈ [1,2,4,8]) :
    pixelsPerByte bpp*(width/pixelsPerByte bpp) = width := by
  simp only [List.mem_cons,List.not_mem_nil,or_false] at h
  rcases h with rfl | rfl | rfl | rfl <;> decide

theorem row_stride {bpp : ℕ} (h : bpp ∈ [1,2,4,8]) (row : ℕ) :
    8*(row*width/pixelsPerByte bpp) = bpp*(width*row) := by
  have hdvd : pixelsPerByte bpp ∣ width := ⟨_,(pixelsPerByte_stride h).symm⟩
  have hbyte : pixelsPerByte bpp*bpp = 8 := pixelsPerByte_mul h
  rw [Nat.mul_div_assoc _ hdvd]
  calc 8*(row*(width/pixelsPerByte bpp)) = bpp*(pixelsPerByte bpp*(width/pixelsPerByte bpp)*row) := by
        rw [← hbyte]
        ring
    _ = bpp*(width*row) := by rw [pixelsPerByte_stride h]

theorem cachePixel_eq {bpp : ℕ} (h : bpp ∈ [1,2,4,8]) (colormap : Colormap) (tile : Tile bpp)
    (hrow : row < height) (hcol : col < width) :
    cachePixel colormap bpp tile row col = (LayerOperations.operations colormap bpp).draw
      ((LayerOperations.operations colormap bpp).pixel tile row col) := by
  have hread := read_row tile hrow hcol (pixelsPerByte_mul h) (bpp_pos h) (pixelsPerByte_stride h) (row_stride h row)
  simp only [cachePixel,hread,LayerOperations.draw,LayerOperations.pixel,LayerOperations.getBpp,
    LayerOperations.pixelsPerWord,Option.bind_eq_bind,Option.bind_some]
  cases colormap[field tile (bpp*(width*row+SampleIterator.mirror (pixelsPerByte bpp) col)) bpp]? <;> rfl

end Operations

namespace OperationsColormapped
open Operations

theorem cachePixel_eq {bpp : ℕ} (h : bpp ∈ [1,2,4,8]) (colormap : Colormap) (tile : Tile (2*bpp))
    (hrow : row < height) (hcol : col < width) :
    cachePixel colormap bpp tile row col = (LayerOperations.operationsColormapped colormap bpp).draw
      ((LayerOperations.operationsColormapped colormap bpp).pixel tile row col) := by
  have hb := bpp_pos h
  have hrow' : 8*(row*2*width/pixelsPerByte bpp) = 2*bpp*(width*row) := by
    rw [row_stride h]
    ring
  have hread := read_row tile hrow hcol (pixelsPerByte_double h) (by omega) (pixelsPerByte_stride h) hrow'
  simp only [cachePixel,hread,LayerOperations.draw,LayerOperations.pixel,LayerOperations.getBpp,
    LayerOperations.pixelsPerWord,Option.bind_eq_bind,Option.bind_some]

end OperationsColormapped

namespace OperationsCMYK32

theorem cachePixel_eq (tile : Tile 32) (hrow : row < height) (hcol : col < width) :
    cachePixel tile row col = LayerOperations.operationsCMYK32.draw
      (LayerOperations.operationsCMYK32.pixel tile row col) := by
  have hread : ∀ c < 4, byteAt tile (4*(row*width+col)+c) =
      some (field tile (32*(width*row+col)) 32/2^(8*c)%256) := by
    intro c hc
    have hend : 4*(row*width+col)+c < width*height*32/8 := by
      simp only [width,height] at *
      omega
    rw [byteAt_field_div c hend (by omega : 8*c+8 ≤ 32)]
    congr 4
    simp only [width]
    omega
  have h0 := hread 0 (by decide)
  rw [Nat.add_zero] at h0
  simp only [cachePixel,h0,hread 1 (by decide),hread 2 (by decide),hread 3 (by decide),
    Option.bind_eq_bind,Option.bind_some,LayerOperations.pixel,LayerOperations.pixelsPerWord,mirror_one,
    LayerOperations.getBpp]
  rfl

end OperationsCMYK32

namespace OperationsCMYK16

theorem cachePixel_eq (tile : Tile 16) (hrow : row < height) (hcol : col < width) :
    cachePixel tile row col = LayerOperations.operationsCMYK16.draw
      (LayerOperations.operationsCMYK16.pixel tile row col) := by
  have hread : ∀ c < 2, byteAt tile (2*(row*width+col)+c) =
      some (field tile (16*(width*row+col)) 16/2^(8*c)%256) := by
    intro c hc
    have hend : 2*(row*width+col)+c < width*height*16/8 := by
      simp only [width,height] at *
      omega
    rw [byteAt_field_div c hend (by omega : 8*c+8 ≤ 16)]
    congr 4
    simp only [width]
    omega
  have h0 := hread 0 (by decide)
  rw [Nat.add_zero] at h0
  have hv := field_lt tile (16*(width*row+col)) 16
  have hnibble : ∀ v : ℕ, v &&& 0x0F = v%16 := fun v => Nat.and_two_pow_sub_one_eq_mod v 4
  simp only [cachePixel,h0,hread 1 (by decide),Option.bind_eq_bind,Option.bind_some,LayerOperations.pixel,
    LayerOperations.pixelsPerWord,mirror_one,LayerOperations.getBpp,LayerOperations.draw,
    LayerOperations.channel,hnibble,Nat.shiftRight_eq_div_pow]
  generalize field tile (16*(width*row+col)) 16 = v at hv ⊢
  have hc : v/2^(8*0)%256/2^4 = v/2^(4*1)%2^4 := by omega
  have hm : v/2^(8*0)%256%16 = v/2^(4*0)%2^4 := by omega
  have hy : v/2^(8*1)%256/2^4 = v/2^(4*3)%2^4 := by omega
  have hk : v/2^(8*1)%256%16 = v/2^(4*2)%2^4 := by omega
  rw [hc,hm,hy,hk]
  rfl

end OperationsCMYK16

namespace OperationsCMYK8

theorem samples_eq : ∀ v < 2^8, v >>> 6 = LayerOperations.channel 2 3 v ∧
    (v &&& 0x30) >>> 4 = LayerOperations.channel 2 2 v ∧
    (v &&& 0x0C) >>> 2 = LayerOperations.channel 2 1 v ∧ v &&& 0x03 = LayerOperations.channel 2 0 v := by
  decide +kernel

theorem cachePixel_eq (tile : Tile 8) (hrow : row < height) (hcol : col < width) :
    cachePixel tile row col = LayerOperations.operationsCMYK8.draw
      (LayerOperations.operationsCMYK8.pixel tile row col) := by
  have hread := byteAt_field (b := tile) (i := row*width+col) (by simp only [width,height] at *; omega)
  have hs := samples_eq _ (field_lt tile (8*(row*width+col)) 8)
  simp only [cachePixel,hread,Option.bind_eq_bind,Option.bind_some,LayerOperations.pixel,
    LayerOperations.pixelsPerWord,mirror_one,LayerOperations.getBpp,LayerOperations.draw,
    Nat.mul_comm width row,hs.1,hs.2.1,hs.2.2.1,hs.2.2.2]
  rfl

end OperationsCMYK8

namespace OperationsCMYK4

theorem bits_eq : ∀ v < 2^8,
    (minusOne (v >>> 7) = 255-LayerOperations.channel 1 3 (v/2^4%2^4)*255 ∧
      minusOne ((v &&& 0x40) >>> 6) = 255-LayerOperations.channel 1 2 (v/2^4%2^4)*255 ∧
      minusOne ((v &&& 0x20) >>> 5) = 255-LayerOperations.channel 1 1 (v/2^4%2^4)*255 ∧
      minusOne ((v &&& 0x10) >>> 4) = 255-LayerOperations.channel 1 0 (v/2^4%2^4)*255) ∧
    (minusOne ((v &&& 0x08) >>> 3) = 255-LayerOperations.channel 1 3 (v/2^0%2^4)*255 ∧
      minusOne ((v &&& 0x04) >>> 2) = 255-LayerOperations.channel 1 2 (v/2^0%2^4)*255 ∧
      minusOne ((v &&& 0x02) >>> 1) = 255-LayerOperations.channel 1 1 (v/2^0%2^4)*255 ∧
      minusOne (v &&& 0x01) = 255-LayerOperations.channel 1 0 (v/2^0%2^4)*255) := by
  decide +kernel

theorem pixel_eq (tile : Buffer n) (row col : ℕ) : LayerOperations.operationsCMYK4.pixel tile row col =
    field tile (8*((row*width+col)/2)) 8/2^(if (row*width+col)%2 = 0 then 4 else 0)%2^4 := by
  have hcol : (row*width+col)%2 = col%2 := by
    simp only [width]
    omega
  rw [field_div_mod _ (by split <;> decide)]
  have hp : 4*(width*row+SampleIterator.mirror 2 col) =
      8*((row*width+col)/2)+if (row*width+col)%2 = 0 then 4 else 0 := by
    rw [hcol]
    simp only [SampleIterator.mirror,width]
    split <;> omega
  rw [← hp]
  rfl

theorem cachePixel_eq (tile : Tile 4) (hrow : row < height) (hcol : col < width) :
    cachePixel tile row col = LayerOperations.operationsCMYK4.draw
      (LayerOperations.operationsCMYK4.pixel tile row col) := by
  have hread := byteAt_field (b := tile) (i := (row*width+col)/2)
    (by simp only [width,height] at *; omega)
  have hs := bits_eq _ (field_lt tile (8*((row*width+col)/2)) 8)
  rw [pixel_eq]
  simp only [cachePixel,hread,Option.bind_eq_bind,Option.bind_some,Nat.and_one_is_mod,LayerOperations.draw]
  by_cases hp : (row*width+col)%2 = 0
  · simp only [hp,if_true,hs.1.1,hs.1.2.1,hs.1.2.2.1,hs.1.2.2.2]
    rfl
  · simp only [hp,if_false]
    rw [← hs.2.1,← hs.2.2.1,← hs.2.2.2.1,← hs.2.2.2.2]
    simp only [Nat.and_one_is_mod]
    rfl

end OperationsCMYK4

namespace LayerOperations

theorem cachePixel_eq {lo : LayerOperations} (h : lo.IndexBits) (hn : n = width*height*lo.getBpp/8)
    (tile : Buffer n) (hrow : row < height) (hcol : col < width) :
    lo.cachePixel tile row col = lo.draw (lo.pixel tile row col) := by
  subst hn
  cases lo with
  | operations1bpp colormap => exact Operations1bpp.cachePixel_eq colormap tile hrow hcol
  | operations1bppClipped colormap => rfl
  | operations8bpp colormap => exact Operations8bpp.cachePixel_eq colormap tile hrow hcol
  | operations24bpp => exact Operations24bpp.cachePixel_eq tile hrow hcol
  | operations colormap bpp => exact Operations.cachePixel_eq h colormap tile hrow hcol
  | operationsColormapped colormap bpp =>
    exact OperationsColormapped.cachePixel_eq h colormap tile hrow hcol
  | operationsCMYK32 => exact OperationsCMYK32.cachePixel_eq tile hrow hcol
  | operationsCMYK16 => exact OperationsCMYK16.cachePixel_eq tile hrow hcol
  | operationsCMYK8 => exact OperationsCMYK8.cachePixel_eq tile hrow hcol
  | operationsCMYK4 => exact OperationsCMYK4.cachePixel_eq tile hrow hcol

/-- The smallest colormap from which `cache` can draw every tile. -/
def colorsNeeded : LayerOperations → ℕ
  | operations1bpp _ => 2
  | operations8bpp _ => 2
  | operations _ bpp => 2^bpp
  | operationsColormapped _ bpp => 2^bpp
  | _ => 0

def colormap : LayerOperations → Colormap
  | operations1bpp colormap => colormap
  | operations1bppClipped colormap => colormap
  | operations8bpp colormap => colormap
  | operations colormap _ => colormap
  | operationsColormapped colormap _ => colormap
  | _ => []

/-- The operations after their colormap provider was given another colormap. -/
def setColormap (colormap : Colormap) : LayerOperations → LayerOperations
  | operations1bpp _ => operations1bpp colormap
  | operations1bppClipped _ => operations1bppClipped colormap
  | operations8bpp _ => operations8bpp colormap
  | operations _ bpp => operations colormap bpp
  | operationsColormapped _ bpp => operationsColormapped colormap bpp
  | lo => lo

/-- Has a `cache` of its own. -/
def Draws : LayerOperations → Prop
  | operations1bppClipped _ => False
  | _ => True

theorem draw_isSome {lo : LayerOperations} (hd : lo.Draws) (h : lo.colorsNeeded ≤ lo.colormap.length)
    {v : ℕ} (hv : v < 2^lo.getBpp) : (lo.draw v).isSome := by
  cases lo with
  | operations1bpp colormap =>
    have hlt : v < colormap.length := lt_of_lt_of_le hv h
    simp [draw,hlt]
  | operations1bppClipped colormap => exact hd.elim
  | operations8bpp colormap =>
    have h2 : 2 ≤ colormap.length := h
    have h0 : 0 < colormap.length := by omega
    have h1 : 1 < colormap.length := by omega
    simp [draw,h0,h1]
  | operations colormap bpp =>
    have hlt : v < colormap.length := lt_of_lt_of_le hv h
    simp [draw,hlt]
  | operationsColormapped colormap bpp =>
    have hl : v &&& Operations.pixelMask bpp < colormap.length :=
      lt_of_lt_of_le (Operations.and_pixelMask_lt v bpp) h
    have hr : v >>> bpp < colormap.length := lt_of_lt_of_le (Operations.shiftRight_lt hv) h
    simp [draw,hl,hr]
  | _ => rfl

end LayerOperations
end Scroom
