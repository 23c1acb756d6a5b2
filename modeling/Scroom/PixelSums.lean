import Scroom.BlockMeans
import Scroom.Rectangle

/-! The sums of the samples in an area of a tile, for every channel of the pixels. -/
namespace Scroom

open Buffer

variable {n : ℕ}

/-- A name and a value for every channel -/
abbrev PipetteColor := List (String × ℚ)

/-- `*si++`, added to the sum of channel `c`. -/
def addSample (tile : Buffer n) (st : SampleIterator × List ℕ) (c : ℕ) : Option (SampleIterator × List ℕ) := do
  let sample ← st.1.get tile
  return (st.1.next,st.2.modify c fun sum => (sum+sample)%2^64)

def addPixel (channels : ℕ) (tile : Buffer n) (st : SampleIterator × List ℕ) :
    Option (SampleIterator × List ℕ) :=
  (List.range channels).foldlM (addSample tile) st

/-- The inner loop and the step to the next row. -/
def addRow (channels cols : ℕ) (stride : ℤ) (tile : Buffer n) (st : SampleIterator × List ℕ) :
    Option (SampleIterator × List ℕ) := do
  let st ← (List.range cols).foldlM (fun st _ => addPixel channels tile st) st
  return (← st.1.skip stride,st.2)

/-- The sums for as many channels as there are names. -/
def sumSamples (names : List String) (bps : ℕ) (area : Rectangle ℤ) (tile : Buffer n) : Option PipetteColor := do
  let offset ← MachineInt.checked (names.length*(area.getTop*width+area.getLeft))
  let stride ← MachineInt.checked (names.length*(width-area.getWidth))
  let si ← (SampleIterator.create .uint8 0 0 bps).skip offset
  let rows := (area.getBottom-area.getTop).toNat
  let cols := (area.getRight-area.getLeft).toNat
  let st ← (List.range rows).foldlM (fun st _ => addRow names.length cols stride tile st)
    (si,List.replicate names.length 0)
  return names.zip (st.2.map fun sum : ℕ => (sum : ℚ))

namespace PipetteCommonOperationsCMYK

def sumPixelValues (bps : ℕ) (area : Rectangle ℤ) (tile : Buffer n) : Option PipetteColor :=
  sumSamples ["C","M","Y","K"] bps area tile

end PipetteCommonOperationsCMYK

namespace PipetteCommonOperationsRGB

def sumPixelValues (bps : ℕ) (area : Rectangle ℤ) (tile : Buffer n) : Option PipetteColor :=
  sumSamples ["R","G","B"] bps area tile

end PipetteCommonOperationsRGB

/-- The `k`th sample of a tile, with `s` samples in a byte. -/
def sampleAt (s bps : ℕ) (tile : Buffer n) (k : ℕ) : ℕ := field tile (bps*SampleIterator.mirror s k) bps

/-- The local variables after some turns: the iterator is at sample `k`, and the sums are `total` modulo the
range of `size_t`. -/
def sumsAt (bps channels k : ℕ) (total : ℕ → ℕ) : SampleIterator × List ℕ :=
  (.create .uint8 0 k bps,(List.range channels).map fun c => total c%2^64)

section Loops
variable {s bps : ℕ} {tile : Buffer n}

theorem addSample_eq (hs : s*bps = 8) (hb : 0 < bps) {channels k c : ℕ} (hk : k/s < n) (total : ℕ → ℕ) :
    addSample tile (sumsAt bps channels k total) c =
      some (sumsAt bps channels (k+1) (Function.update total c (total c+sampleAt s bps tile k))) := by
  have hs' : s*bps = 8*Base.uint8.size := hs
  have hpos : 0 < 8*Base.uint8.size/bps := by
    rw [← hs',Nat.mul_div_cancel _ hb]
    exact SampleIterator.samples_pos hs'
  have hget : (SampleIterator.create .uint8 0 k bps).get tile = some (sampleAt s bps tile k) := by
    rw [← SampleIterator.iterate_next hpos,SampleIterator.get_create hs' hb (by simp only [Base.size]; omega)]
    simp [sampleAt]
  have hsums : ((List.range channels).map fun c => total c%2^64).modify c
      (fun sum => (sum+sampleAt s bps tile k)%2^64) =
      (List.range channels).map fun d => Function.update total c (total c+sampleAt s bps tile k) d%2^64 := by
    refine List.ext_getElem (by simp) fun d hd _ => ?_
    rw [List.length_modify,List.length_map,List.length_range] at hd
    by_cases he : c = d
    · subst he
      simp
    · simp [he,Ne.symm he]
  simp only [addSample,sumsAt,hget,SampleIterator.next_create hpos,Option.bind_eq_bind,Option.bind_some,
    Option.pure_def,Option.some.injEq,Prod.mk.injEq,true_and]
  exact hsums

theorem addPixel_eq (hs : s*bps = 8) (hb : 0 < bps) {channels k : ℕ} (hk : k+channels ≤ s*n) (total : ℕ → ℕ) :
    addPixel channels tile (sumsAt bps channels k total) =
      some (sumsAt bps channels (k+channels) fun c => total c+sampleAt s bps tile (k+c)) := by
  have hspos : 0 < s := Nat.pos_of_ne_zero fun h => by simp [h] at hs
  obtain ⟨st,hst,h⟩ := Loops.foldlM_range (f := addSample tile) (n := channels)
    (s := sumsAt bps channels k total)
    (I := fun t st =>
      st = sumsAt bps channels (k+t) fun c => if c < t then total c+sampleAt s bps tile (k+c) else total c)
    (by simp) fun t ht st hst => by
      subst hst
      refine ⟨_,addSample_eq hs hb (Nat.div_lt_of_lt_mul (by omega)) _,?_⟩
      rw [Nat.add_assoc]
      congr 1
      funext c
      by_cases he : c = t
      · subst he
        simp
      · have hlt : c < t+1 ↔ c < t := by omega
        simp [he,hlt]
  rw [addPixel,hst,h]
  refine congrArg some (congrArg (Prod.mk _) (List.map_congr_left fun c hc => ?_))
  simp only [List.mem_range.mp hc,if_true]

theorem skip_sample (hs : s*bps = 8) (hb : 0 < bps) (k : ℕ) {x : ℕ} (hx : x ≤ 2^30) :
    (SampleIterator.create .uint8 0 k bps).skip x = some (.create .uint8 0 (k+x) bps) := by
  have hspb : 8*Base.uint8.size/bps = s := by
    rw [show 8*Base.uint8.size = s*bps from hs.symm,Nat.mul_div_cancel _ hb]
  have hsle : s ≤ 8 := by
    rw [← hs]
    exact Nat.le_mul_of_pos_right s hb
  have hspos : 0 < s := Nat.pos_of_ne_zero fun h => by simp [h] at hs
  have hk := Nat.mod_lt k hspos
  exact SampleIterator.skip_create (by omega) 0 k (by rw [hspb]; omega)

theorem addRow_eq (hs : s*bps = 8) (hb : 0 < bps) {channels cols stride k : ℕ} (hstride : stride ≤ 2^30)
    (hk : k+channels*cols ≤ s*n) (total : ℕ → ℕ) :
    addRow channels cols stride tile (sumsAt bps channels k total) =
      some (sumsAt bps channels (k+channels*cols+stride) fun c =>
        total c+∑ l ∈ Finset.range cols, sampleAt s bps tile (k+channels*l+c)) := by
  obtain ⟨st,hst,h⟩ := Loops.foldlM_range (f := fun st (_ : ℕ) => addPixel channels tile st) (n := cols)
    (s := sumsAt bps channels k total)
    (I := fun t st => st = sumsAt bps channels (k+channels*t) fun c =>
      total c+∑ l ∈ Finset.range t, sampleAt s bps tile (k+channels*l+c))
    (by simp) fun t ht st hst => by
      subst hst
      have hle : channels*(t+1) ≤ channels*cols := Nat.mul_le_mul_left _ ht
      rw [Nat.mul_add] at hle
      refine ⟨_,addPixel_eq hs hb (by omega) _,?_⟩
      simp only [Finset.sum_range_succ,Nat.mul_succ,Nat.add_assoc]
  have hskip := skip_sample hs hb (k+channels*cols) hstride
  subst h
  rw [addRow,hst]
  simp only [Option.bind_eq_bind,Option.bind_some,sumsAt,hskip,Option.pure_def]

theorem sampleAt_le (hs : s*bps = 8) (tile : Buffer n) (k : ℕ) : sampleAt s bps tile k ≤ 255 := by
  have hs0 : s ≠ 0 := fun h => by simp [h] at hs
  have hbps : bps ≤ 8 := by
    rw [← hs]
    exact Nat.le_mul_of_pos_left bps (Nat.pos_of_ne_zero hs0)
  have hlt : sampleAt s bps tile k < 2^bps := field_lt _ _ _
  have hpow : 2^bps ≤ 2^8 := Nat.pow_le_pow_right (by decide) hbps
  omega

theorem sum_area_le {f : ℕ → ℕ → ℕ} {w h max : ℕ} (hw : w ≤ width) (hh : h ≤ height) (hf : ∀ j i, f j i ≤ max) :
    ∑ j ∈ Finset.range h, ∑ i ∈ Finset.range w, f j i ≤ height*(width*max) := by
  have hrow : ∀ j ∈ Finset.range h, ∑ i ∈ Finset.range w, f j i ≤ width*max := by
    intro j _
    have hsum := Finset.sum_le_card_nsmul (Finset.range w) (f j) max fun i _ => hf j i
    rw [Finset.card_range,smul_eq_mul] at hsum
    exact hsum.trans (Nat.mul_le_mul_right _ hw)
  have hall := Finset.sum_le_card_nsmul (Finset.range h) _ _ hrow
  rw [Finset.card_range,smul_eq_mul] at hall
  exact hall.trans (Nat.mul_le_mul_right _ hh)

/-- The loops read exactly the samples of the area, and no sum overflows. -/
theorem sumSamples_eq (hs : s*bps = 8) (hb : 0 < bps) {names : List String} {l t w h : ℕ}
    (hw : l+w ≤ width) (hh : t+h ≤ height) (hn : names.length*(width*height) ≤ s*n)
    (hnames : names.length ≤ 4) :
    sumSamples names bps ⟨⟨l,w⟩,⟨t,h⟩⟩ tile = some (names.zip ((List.range names.length).map fun c =>
      ((∑ j ∈ Finset.range h, ∑ i ∈ Finset.range w,
        sampleAt s bps tile (names.length*(width*(t+j)+(l+i))+c) : ℕ) : ℚ))) := by
  generalize hch : names.length = ch at hn hnames
  have hoffset_le : ch*(width*t+l) ≤ 4*(4096*4096+4096) :=
    Nat.mul_le_mul hnames (by simp only [width,height] at *; omega)
  have hstride_le : ch*(width-w) ≤ 4*4096 := Nat.mul_le_mul hnames (Nat.sub_le _ _)
  have hoffset : MachineInt.checked ((ch:ℤ)*((t:ℤ)*width+l)) = some ((ch*(width*t+l) : ℕ) : ℤ) := by
    rw [show (ch:ℤ)*((t:ℤ)*width+l) = ((ch*(width*t+l) : ℕ) : ℤ) by push_cast; ring]
    exact MachineInt.checked_eq_some.mpr ⟨by simp only [MachineInt.intMin,MachineInt.intMax]; omega,rfl⟩
  have hstride : MachineInt.checked ((ch:ℤ)*(width-w)) = some ((ch*(width-w) : ℕ) : ℤ) := by
    rw [show (ch:ℤ)*(width-w) = ((ch*(width-w) : ℕ) : ℤ) by rw [Nat.cast_mul,Nat.cast_sub (by omega)]]
    exact MachineInt.checked_eq_some.mpr ⟨by simp only [MachineInt.intMin,MachineInt.intMax]; omega,rfl⟩
  have hskip : (SampleIterator.create .uint8 0 0 bps).skip ((ch*(width*t+l) : ℕ) : ℤ) =
      some (.create .uint8 0 (ch*(width*t+l)) bps) := by
    rw [skip_sample hs hb 0 (by omega),Nat.zero_add]
  obtain ⟨st,hst,hrows⟩ := Loops.foldlM_range (f := fun st (_ : ℕ) => addRow ch w (ch*(width-w) : ℕ) tile st)
    (n := h) (s := sumsAt bps ch (ch*(width*t+l)) fun _ => 0)
    (I := fun r st => st = sumsAt bps ch (ch*(width*t+l)+ch*(width*r)) fun c => ∑ j ∈ Finset.range r,
      ∑ i ∈ Finset.range w, sampleAt s bps tile (ch*(width*(t+j)+(l+i))+c))
    (by simp) fun r hr st hst => by
      subst hst
      have hend : ch*(width*t+l)+ch*(width*r)+ch*w ≤ s*n := by
        calc ch*(width*t+l)+ch*(width*r)+ch*w = ch*(width*(t+r)+(l+w)) := by ring
          _ ≤ ch*(width*height) := Nat.mul_le_mul_left _ (by simp only [width,height] at *; omega)
          _ ≤ s*n := hn
      refine ⟨_,addRow_eq hs hb (by omega) hend _,?_⟩
      have hstep : ch*w+ch*(width-w) = ch*width := by
        rw [← Nat.mul_add,Nat.add_sub_of_le (by omega)]
      have hnext : ch*(width*t+l)+ch*(width*r)+ch*w+ch*(width-w) = ch*(width*t+l)+ch*(width*(r+1)) := by
        rw [Nat.add_assoc _ (ch*w),hstep,Nat.mul_succ,Nat.mul_add ch (width*r),Nat.add_assoc]
      rw [hnext]
      refine congrArg _ (funext fun c => ?_)
      rw [Finset.sum_range_succ]
      refine congrArg _ (Finset.sum_congr rfl fun i _ => congrArg _ ?_)
      ring
  have hlt : ∀ c, ∑ j ∈ Finset.range h, ∑ i ∈ Finset.range w,
      sampleAt s bps tile (ch*(width*(t+j)+(l+i))+c) < 2^64 := fun c =>
    (sum_area_le (by omega) (by omega) fun j i => sampleAt_le hs tile _).trans_lt (by decide)
  have hzero : sumsAt bps ch (ch*(width*t+l)) (fun _ => 0) =
      (.create .uint8 0 (ch*(width*t+l)) bps,List.replicate ch 0) := by
    simp [sumsAt]
  rw [hzero] at hst
  subst hrows
  simp only [sumSamples,Rectangle.getTop,Rectangle.getLeft,Rectangle.getWidth,Rectangle.getBottom,
    Rectangle.getRight,Segment.getEnd,add_sub_cancel_left,Int.toNat_natCast,hch,hoffset,hstride,hskip,hst,
    Option.bind_eq_bind,Option.bind_some,Option.pure_def,Option.some.injEq,sumsAt,List.map_map]
  refine congrArg _ (List.map_congr_left fun c _ => ?_)
  rw [Function.comp_apply,Nat.mod_eq_of_lt (hlt c)]

end Loops

/-- The operations that the pipette can use. -/
inductive PipetteLayerOperations
  | operations24bpp | operationsCMYK32 | operationsCMYK16 | operationsCMYK8 | operationsCMYK4
  deriving DecidableEq

namespace PipetteLayerOperations

def toLayerOperations : PipetteLayerOperations → LayerOperations
  | operations24bpp => .operations24bpp
  | operationsCMYK32 => .operationsCMYK32
  | operationsCMYK16 => .operationsCMYK16
  | operationsCMYK8 => .operationsCMYK8
  | operationsCMYK4 => .operationsCMYK4

/-- The bits in a sample, as given to the constructor of the base class -/
def bps : PipetteLayerOperations → ℕ
  | operations24bpp => 8
  | operationsCMYK32 => 8
  | operationsCMYK16 => 4
  | operationsCMYK8 => 2
  | operationsCMYK4 => 1

def sumPixelValues (area : Rectangle ℤ) (tile : Buffer n) (ops : PipetteLayerOperations) : Option PipetteColor :=
  match ops with
  | operations24bpp => PipetteCommonOperationsRGB.sumPixelValues ops.bps area tile
  | _ => PipetteCommonOperationsCMYK.sumPixelValues ops.bps area tile

def names : PipetteLayerOperations → List String
  | operations24bpp => ["R","G","B"]
  | _ => ["C","M","Y","K"]

/-- The bytes of a base tile -/
abbrev BaseTile (ops : PipetteLayerOperations) := Tile ops.toLayerOperations.getBpp

/-- The value of channel `c` of a pixel of a tile. -/
def channelValue (ops : PipetteLayerOperations) (tile : ops.BaseTile) (row col c : ℕ) : ℕ :=
  (ops.toLayerOperations.channels (ops.toLayerOperations.pixel tile row col)).getD c 0

theorem sumPixelValues_eq_sumSamples (ops : PipetteLayerOperations) (area : Rectangle ℤ) (tile : Buffer n) :
    ops.sumPixelValues area tile = sumSamples ops.names ops.bps area tile := by
  cases ops <;> rfl

theorem sampleAt_eq_channel (tile : Buffer n) {bits s k a d total : ℕ} (h : bits*SampleIterator.mirror s k = a+bits*d)
    (hd : bits*d+bits ≤ total) : sampleAt s bits tile k = LayerOperations.channel bits d (field tile a total) := by
  rw [LayerOperations.channel,field_div_mod tile hd,sampleAt,h]

theorem sampleAt_eq (ops : PipetteLayerOperations) (tile : ops.BaseTile) (row col : ℕ) {c : ℕ}
    (hc : c < ops.names.length) : sampleAt (8/ops.bps) ops.bps tile (ops.names.length*(width*row+col)+c) =
      ops.channelValue tile row col c := by
  cases ops with
  | operations24bpp =>
    have hplace : ∀ d, 8*SampleIterator.mirror 1 (3*(width*row+col)+d) =
        24*(width*row+SampleIterator.mirror 1 col)+8*d := fun d => by
      simp only [mirror_one]
      ring
    change c < 3 at hc
    interval_cases c <;> exact sampleAt_eq_channel tile (hplace _) (by decide)
  | operationsCMYK32 =>
    have hplace : ∀ d, 8*SampleIterator.mirror 1 (4*(width*row+col)+d) =
        32*(width*row+SampleIterator.mirror 1 col)+8*d := fun d => by
      simp only [mirror_one]
      ring
    change c < 4 at hc
    interval_cases c <;> exact sampleAt_eq_channel tile (hplace _) (by decide)
  | operationsCMYK16 =>
    have hplace : ∀ d < 4, 4*SampleIterator.mirror 2 (4*(width*row+col)+d) =
        16*(width*row+SampleIterator.mirror 1 col)+4*(2*(d/2)+(1-d%2)) := fun d hd => by
      simp only [SampleIterator.mirror]
      omega
    change c < 4 at hc
    interval_cases c <;> exact sampleAt_eq_channel tile (hplace _ (by decide)) (by decide)
  | operationsCMYK8 =>
    have hplace : ∀ d < 4, 2*SampleIterator.mirror 4 (4*(width*row+col)+d) =
        8*(width*row+SampleIterator.mirror 1 col)+2*(3-d) := fun d hd => by
      simp only [SampleIterator.mirror]
      omega
    change c < 4 at hc
    interval_cases c <;> exact sampleAt_eq_channel tile (hplace _ (by decide)) (by decide)
  | operationsCMYK4 =>
    have hplace : ∀ d < 4, 1*SampleIterator.mirror 8 (4*(width*row+col)+d) =
        4*(width*row+SampleIterator.mirror 2 col)+1*(3-d) := fun d hd => by
      simp only [SampleIterator.mirror,width]
      omega
    change c < 4 at hc
    interval_cases c <;> exact sampleAt_eq_channel tile (hplace _ (by decide)) (by decide)

theorem sumPixelValues_eq (ops : PipetteLayerOperations) (tile : ops.BaseTile) {l t w h : ℕ}
    (hw : l+w ≤ width) (hh : t+h ≤ height) :
    ops.sumPixelValues ⟨⟨l,w⟩,⟨t,h⟩⟩ tile = some (ops.names.zip ((List.range ops.names.length).map fun c =>
      ((∑ j ∈ Finset.range h, ∑ i ∈ Finset.range w, ops.channelValue tile (t+j) (l+i) c : ℕ) : ℚ))) := by
  have hops : 8/ops.bps*ops.bps = 8 ∧ 0 < ops.bps ∧ ops.names.length ≤ 4 ∧
      ops.names.length*(width*height) = 8/ops.bps*(width*height*ops.toLayerOperations.getBpp/8) := by
    cases ops <;> decide
  obtain ⟨hs,hb,hlen,hn⟩ := hops
  rw [sumPixelValues_eq_sumSamples,sumSamples_eq hs hb hw hh hn.le hlen]
  refine congrArg (fun values => some (ops.names.zip values)) (List.map_congr_left fun c hc => ?_)
  simp only [ops.sampleAt_eq tile _ _ (List.mem_range.mp hc)]

end PipetteLayerOperations
end Scroom
