import Scroom.Grid
import Scroom.BlockMeans
import Scroom.TopTwo
import Scroom.CascadeData
import Scroom.TiffSource
import Scroom.TiffLayers

/-! From the lines of a file to the pixels of every layer. The layers hold the file's picture and what the operations
make of it, layer by layer, however the work is cut into tiles and whatever the order in which it is done. -/
namespace Scroom

open Buffer

variable {n : ℕ}

namespace LayerOperations

/-- The pixel that a reduction makes of a block of 8 by 8 pixels: the means of the channels, or the pair of the
indices that occur most often. -/
def Summarises (lo : LayerOperations) (block : Fin 8 → Fin 8 → ℕ) (v : ℕ) : Prop :=
  v < 2^lo.targetBpp ∧ match lo with
  | operations _ bpp | operationsColormapped _ bpp =>
    MostFrequent (fun c => ∑ a, ∑ b, (lo.indices (block a b)).count c) (2^bpp) (decode bpp v)
  | _ => ∀ c < lo.targetBpp/8, channel 8 c v = lo.mean (∑ a, ∑ b, (lo.channels (block a b)).getD c 0)

variable {lo next : LayerOperations} {x y : ℕ}

theorem blockSum_eq (lo : LayerOperations) (source : Buffer n) (j i c : ℕ) : lo.blockSum source j i c =
    ∑ a : Fin 8, ∑ b : Fin 8, (lo.channels (lo.pixel source (8*j+a) (8*i+b))).getD c 0 := by
  simp only [LayerOperations.blockSum,Finset.sum_range]

theorem occurrences_eq (lo : LayerOperations) (source : Buffer n) (j i : ℕ) : lo.occurrences source j i =
    fun c => ∑ a : Fin 8, ∑ b : Fin 8, (lo.indices (lo.pixel source (8*j+a) (8*i+b))).count c := by
  funext c
  simp only [occurrences,Finset.sum_range]

theorem block_lt_height {y j : ℕ} (hy : y < 8) (hj : j < height/8) : height/8*y+j < height := by
  simp only [height] at *
  omega

theorem block_lt_width {x i : ℕ} (hx : x < 8) (hi : i < width/8) : width/8*x+i < width := by
  simp only [width] at *
  omega

theorem channel_pixel {ch row col c : ℕ} (hbpp : next.getBpp = 8*ch) (hword : next.pixelsPerWord = 1)
    (tile : Tile (8*ch)) (hrow : row < height) (hcol : col < width) (hc : c < ch) :
    byteAt tile (ch*(width*row+col)+c) = some (channel 8 c (next.pixel tile row col)) := by
  have hend : ch*(width*row+col)+c < width*height*(8*ch)/8 := by
    have hk : width*row+col+1 ≤ width*height := by
      simp only [width,height] at *
      omega
    have hle := Nat.mul_le_mul_left ch hk
    have he : width*height*(8*ch)/8 = ch*(width*height) := by
      simp only [width,height]
      omega
    rw [Nat.mul_succ] at hle
    omega
  rw [byteAt_field_div c hend (by omega : 8*c+8 ≤ 8*ch),channel,pixel,hbpp,hword,mirror_one,Nat.mul_assoc 8 ch]
  rfl

theorem summarises_iff (h : lo.Averages) {block : Fin 8 → Fin 8 → ℕ} {v : ℕ} : lo.Summarises block v ↔
    v < 2^lo.targetBpp ∧ ∀ c < lo.targetBpp/8,
      channel 8 c v = lo.mean (∑ a, ∑ b, (lo.channels (block a b)).getD c 0) := by
  cases lo with
  | operations colormap bpp => exact absurd rfl h
  | operationsColormapped colormap bpp => exact absurd rfl h
  | _ => rfl

theorem means_summarise (lo next : LayerOperations) (ch : ℕ) (ha : lo.Averages)
    {f : Tile (8*ch) → Option (Tile (8*ch))} {source : Buffer n}
    {sums : ℕ → ℕ → Option (List ℕ)} {g : ℕ → ℕ} (hx : x < 8) (hy : y < 8)
    (htarget : lo.targetBpp = 8*ch) (hbpp : next.getBpp = 8*ch) (hword : next.pixelsPerWord = 1)
    (h : Fills f (8*ch) x y 1 fun j i => bytesBit (((sums j i).getD []).map g))
    (hsums : ∀ j < height/8, ∀ i < width/8, ∃ s, sums j i = some s ∧ s.length = ch ∧
      ∀ c < ch, s.getD c 0 = lo.blockSum source j i c)
    (hg : ∀ sum, g sum = lo.mean sum) (target : Tile (8*ch)) : ∃ result, f target = some result ∧
      ∀ j < height/8, ∀ i < width/8, lo.Summarises (fun a b => lo.pixel source (8*j+a) (8*i+b))
        (next.pixel result (height/8*y+j) (width/8*x+i)) := by
  have hn : width*height*(8*ch)/8 = width*height*ch := by
    simp only [width,height]
    omega
  obtain ⟨result,hr,hbytes⟩ := h.means lo source ch hx hy htarget hn hsums hg target
  refine ⟨result,hr,fun j hj i hi => (summarises_iff ha).mpr ⟨?_,fun c hc => ?_⟩⟩
  · exact (next.pixel_lt result _ _).trans_eq (by rw [htarget,← hbpp])
  · have hbyte := (hbytes j hj i hi c hc).2
    have hdiv : lo.targetBpp/8 = ch := by omega
    rw [hdiv] at hbyte hc
    rw [channel_pixel hbpp hword result (block_lt_height hy hj) (block_lt_width hx hi) hc,blockSum_eq] at hbyte
    exact Option.some.inj hbyte

theorem pairs_summarise {bpp : ℕ} (colormap : Colormap) (hb : bpp ∈ [1,2,4,8])
    (hlo : lo = operations colormap bpp ∨ lo = operationsColormapped colormap bpp)
    {f : Tile (2*bpp) → Option (Tile (2*bpp))} {kernel : ℕ → ℕ → Option (List ℕ)} {source : Buffer n} (hx : x < 8)
    (hfill : Fills f (2*bpp) x y (Operations.pixelsPerByte bpp) fun j i =>
      (((topTwo ((kernel j i).getD [])).1 <<< bpp) ||| (topTwo ((kernel j i).getD [])).2).testBit)
    (hk : ∀ j < height/8, ∀ i < width/8, ∃ lookup, kernel j i = some lookup ∧ lookup.length = 2^bpp ∧
      ∀ c, lookup.getD c 0 = lo.occurrences source j i c) (target : Tile (2*bpp)) :
    ∃ result, f target = some result ∧ ∀ j < height/8, ∀ i < width/8,
      lo.Summarises (fun a b => lo.pixel source (8*j+a) (8*i+b))
        ((operationsColormapped colormap bpp).pixel result (height/8*y+j) (width/8*x+i)) := by
  obtain ⟨result,hr,hmost⟩ := pairs_mostFrequent hb hx hfill hk colormap target
  refine ⟨result,hr,fun j hj i hi => ?_⟩
  have hpair := hmost j hj i hi
  have hlt := (operationsColormapped colormap bpp).pixel_lt result (height/8*y+j) (width/8*x+i)
  rw [occurrences_eq] at hpair
  rcases hlo with rfl | rfl
  · exact ⟨hlt,hpair⟩
  · exact ⟨hlt,hpair⟩

end LayerOperations

open LayerOperations

variable {lo next : LayerOperations} {x y : ℕ}

theorem Follows.summarises (h : Follows lo next) (hx : x < 8) (hy : y < 8) (source : Tile lo.getBpp)
    (target : Tile lo.targetBpp) : ∃ result, lo.reduce target source x y = some result ∧
      ∀ j < height/8, ∀ i < width/8, lo.Summarises (fun a b => lo.pixel source (8*j+a) (8*i+b))
        (next.pixel result (height/8*y+j) (width/8*x+i)) := by
  cases h with
  | oneBit colormap =>
    exact means_summarise (.operations1bpp colormap) (.operations8bpp colormap) 1 (List.cons_ne_nil _ _) hx hy rfl
      rfl rfl (Operations1bpp.reduce_fills source hx hy)
      (fun _ hj _ hi => Operations1bpp.sums_eq colormap source hj hi)
      (fun sum => by simp only [LayerOperations.mean,Nat.mul_comm]) target
  | eightBits colormap =>
    exact means_summarise (.operations8bpp colormap) (.operations8bpp colormap) 1 (List.cons_ne_nil _ _) hx hy rfl
      rfl rfl (Operations8bpp.reduce_fills source hx hy)
      (fun _ hj _ hi => Operations8bpp.sums_eq colormap source hj hi) (fun _ => rfl) target
  | rgb =>
    exact means_summarise .operations24bpp .operations24bpp 3 (List.cons_ne_nil _ _) hx hy rfl rfl rfl
      (Operations24bpp.reduce_fills source hx hy)
      (fun _ hj _ hi => Operations24bpp.sums_eq source hj hi) (fun _ => rfl) target
  | indices colormap h =>
    exact pairs_summarise colormap h (.inl rfl) hx (Operations.reduce_fills h hx hy source)
      (fun _ hj _ hi => Operations.counts_eq colormap h source hj hi) target
  | pairs colormap h =>
    exact pairs_summarise colormap h (.inr rfl) hx (OperationsColormapped.reduce_fills h hx hy source)
      (fun _ hj _ hi => OperationsColormapped.counts_eq colormap h source hj hi) target
  | cmyk32 =>
    exact means_summarise .operationsCMYK32 .operationsCMYK32 4 (List.cons_ne_nil _ _) hx hy rfl rfl rfl
      (OperationsCMYK32.reduce_fills source hx hy)
      (fun _ hj _ hi => OperationsCMYK32.sums_eq source hj hi) (fun _ => rfl) target
  | cmyk16 =>
    exact means_summarise .operationsCMYK16 .operationsCMYK32 4 (List.cons_ne_nil _ _) hx hy rfl rfl rfl
      (OperationsCMYK16.reduce_fills source hx hy)
      (fun _ hj _ hi => OperationsCMYK16.sums_eq source hj hi)
      (fun sum => by simp only [LayerOperations.mean,Nat.mul_comm]) target
  | cmyk8 =>
    exact means_summarise .operationsCMYK8 .operationsCMYK32 4 (List.cons_ne_nil _ _) hx hy rfl rfl rfl
      (OperationsCMYK8.reduce_fills source hx hy)
      (fun _ hj _ hi => OperationsCMYK8.sums_eq source hj hi)
      (fun sum => by simp only [LayerOperations.mean,Nat.mul_comm]) target
  | cmyk4 =>
    exact means_summarise .operationsCMYK4 .operationsCMYK32 4 (List.cons_ne_nil _ _) hx hy rfl rfl rfl
      (OperationsCMYK4.reduce_fills source hx hy)
      (fun _ hj _ hi => OperationsCMYK4.sums_eq source hj hi)
      (fun sum => by simp only [LayerOperations.mean,Nat.mul_comm]) target

theorem field_congr {m a a' w : ℕ} {b : Buffer n} {c : Buffer m} (h : ∀ k < w, bit b (a+k) = bit c (a'+k)) :
    field b a w = field c a' w := by
  refine (eq_field_iff (field_lt b a w)).mpr fun k hk => ?_
  rw [testBit_field,if_pos hk,h k hk]

theorem pixel_zero (lo : LayerOperations) (row col : ℕ) : lo.pixel (Vector.replicate n 0) row col = 0 := by
  refine ((eq_field_iff (Nat.two_pow_pos _)).mpr fun k _ => ?_).symm
  rw [Nat.zero_testBit,bit,Vector.getElem?_replicate]
  split <;> simp

theorem pixelsPerWord_block (h : lo.IndexBits) : ∃ c, lo.pixelsPerWord*c = width/8 := by
  cases lo with
  | operations colormap bpp => exact ⟨_,Operations.pixelsPerByte_width h⟩
  | operationsColormapped colormap bpp => exact ⟨_,Operations.pixelsPerByte_width h⟩
  | operations1bpp colormap => exact ⟨64,by simp [pixelsPerWord,width]⟩
  | operations1bppClipped colormap => exact ⟨64,by simp [pixelsPerWord,width]⟩
  | operationsCMYK4 => exact ⟨256,by simp [pixelsPerWord,width]⟩
  | _ => exact ⟨512,by simp [pixelsPerWord,width]⟩

theorem mirror_div (h : lo.IndexBits) (col : ℕ) :
    SampleIterator.mirror lo.pixelsPerWord col/(width/8) = col/(width/8) := by
  obtain ⟨c,hc⟩ := pixelsPerWord_block h
  have hpos : 0 < width/8 := by decide
  rw [← Nat.div_add_mod col (width/8),mirror_block hc,Nat.mul_add_div hpos,Nat.mul_add_div hpos,
    Nat.div_eq_of_lt (mirror_width hc (Nat.mod_lt _ hpos)),Nat.div_eq_of_lt (Nat.mod_lt _ hpos)]

theorem Follows.pixel_unchanged (h : Follows lo next) (hx : x < 8) (hy : y < 8) {source : Tile lo.getBpp}
    {target result : Tile lo.targetBpp} (hr : lo.reduce target source x y = some result) {row col : ℕ}
    (hcol : col < width) (hne : (col/(width/8),row/(height/8)) ≠ (x,y)) :
    next.pixel result row col = next.pixel target row col := by
  obtain ⟨s,pixel,w,hw,-⟩ := LayerOperations.reduce_fills h.indexBits.1 hx hy source
  obtain ⟨c,hc,-,hkeep⟩ := hw target
  obtain rfl : c = result := Option.some.inj (hc.symm.trans hr)
  refine field_congr fun k hk => hkeep _ fun hblock => hne ?_
  have hm := mirror_div h.indexBits.2 col
  have hlt : SampleIterator.mirror next.pixelsPerWord col < width := by
    simp only [width] at hm hcol ⊢
    omega
  rw [← h.getBpp] at hblock
  simp only [block,Set.mem_ofPred_eq] at hblock
  rw [Nat.mul_add_div (by omega),Nat.div_eq_of_lt hk,Nat.add_zero] at hblock
  generalize SampleIterator.mirror next.pixelsPerWord col = m at *
  simp only [width,height] at *
  refine Prod.ext ?_ ?_
  · dsimp only
    omega
  · dsimp only
    omega

theorem mostFrequent_zero {count : ℕ → ℕ} {size : ℕ} (h : 2 ≤ size) (hzero : ∀ c, c ≠ 0 → count c = 0) :
    MostFrequent count size (0,0) := by
  refine ⟨⟨⟨by dsimp only; omega,fun d _ => ?_⟩,fun c _ => Nat.zero_le c⟩,1,
    ⟨⟨⟨by omega,one_ne_zero⟩,fun d _ hne => by rw [hzero d hne]; exact Nat.zero_le _⟩,
      fun c hc => Nat.one_le_iff_ne_zero.mpr hc.1.2⟩,by simp [hzero 1 one_ne_zero]⟩
  by_cases hd : d = 0
  · rw [hd]
  · rw [hzero d hd]
    exact Nat.zero_le _

theorem channels_zero (lo : LayerOperations) (c : ℕ) : (lo.channels 0).getD c 0 = 0 := by
  have hall : ∀ v ∈ lo.channels 0, v = 0 := by cases lo <;> simp [channels,channel]
  rw [List.getD_eq_getElem?_getD]
  cases hget : (lo.channels 0)[c]? with
  | none => rfl
  | some v => exact hall v (List.mem_of_getElem? hget)

theorem summarises_zero (h : lo.IndexBits) : lo.Summarises (fun _ _ => 0) 0 := by
  refine ⟨Nat.two_pow_pos _,?_⟩
  cases lo with
  | operations colormap bpp =>
    have hd : decode bpp 0 = (0,0) := by simp [decode]
    change MostFrequent _ (2^bpp) (decode bpp 0)
    rw [hd]
    refine mostFrequent_zero (Nat.pow_le_pow_right (by decide : 0 < 2) (bpp_pos h)) fun c hc => ?_
    simp [indices,hc.symm]
  | operationsColormapped colormap bpp =>
    have hd : decode bpp 0 = (0,0) := by simp [decode]
    change MostFrequent _ (2^bpp) (decode bpp 0)
    rw [hd]
    refine mostFrequent_zero (Nat.pow_le_pow_right (by decide : 0 < 2) (bpp_pos h)) fun c hc => ?_
    simp [indices,hc.symm]
  | _ =>
    intro c _
    simp only [channels_zero,Finset.sum_const_zero]
    simp [channel,LayerOperations.mean]

theorem MostFrequent.unique {count : ℕ → ℕ} {size : ℕ} {pair pair' : ℕ × ℕ} (h : MostFrequent count size pair)
    (h' : MostFrequent count size pair') : pair = pair' := by
  obtain ⟨hfst,other,hother,hsnd⟩ := h
  obtain ⟨hfst',other',hother',hsnd'⟩ := h'
  have he := hfst.unique hfst'
  rw [← he] at hother' hsnd'
  rw [← hother.unique hother'] at hsnd'
  exact Prod.ext he (hsnd.trans hsnd'.symm)

theorem channel_inj {ch v w : ℕ} (hv : v < 2^(8*ch)) (hw : w < 2^(8*ch))
    (h : ∀ c < ch, channel 8 c v = channel 8 c w) : v = w := by
  refine Nat.eq_of_testBit_eq fun i => ?_
  by_cases hi : i < 8*ch
  · have hbyte := congrArg (Nat.testBit · (i%8)) (h (i/8) (by omega))
    simpa only [channel,Nat.testBit_mod_two_pow,Nat.testBit_div_two_pow,Nat.mod_lt i (by decide : 0 < 8),
      decide_true,Bool.true_and,Nat.mod_add_div] using hbyte
  · have hlarge := Nat.pow_le_pow_right (by decide : 0 < 2) (Nat.le_of_not_lt hi)
    rw [Nat.testBit_lt_two_pow (hv.trans_le hlarge),Nat.testBit_lt_two_pow (hw.trans_le hlarge)]

theorem LayerOperations.Summarises.unique {block : Fin 8 → Fin 8 → ℕ} {v w : ℕ} (hf : Follows lo next)
    (hv : lo.Summarises block v) (hw : lo.Summarises block w) : v = w := by
  have hpair : ∀ bpp, decode bpp v = decode bpp w → v = w := fun bpp h => by
    obtain ⟨hfst,hsnd⟩ := Prod.mk.inj h
    rw [← Operations.pair_eq v bpp,← Operations.pair_eq w bpp,hfst,hsnd]
  have hbytes : lo.targetBpp = 8*(lo.targetBpp/8) →
      (∀ c < lo.targetBpp/8, channel 8 c v = channel 8 c w) → v = w := fun he h =>
    channel_inj (he ▸ hv.1) (he ▸ hw.1) h
  cases hf with
  | indices colormap h => exact hpair _ (hv.2.unique hw.2)
  | pairs colormap h => exact hpair _ (hv.2.unique hw.2)
  | _ => exact hbytes (by simp [targetBpp]) fun c hc => (hv.2 c hc).trans (hw.2 c hc).symm

theorem Chain.length_pos {ls : LayerSpec} (h : Chain ls) : 0 < ls.length := by
  rcases h with ⟨lo,rfl,-⟩ | ⟨lo,next,rfl,-⟩
  · exact Nat.one_pos
  · exact Nat.two_pos

theorem Follows.bytes (h : Follows lo next) (ha : lo.Averages) : next.Averages ∧ next.targetBpp = lo.targetBpp ∧
    (∀ sum, next.mean sum = sum/64) ∧
      ∀ c < lo.targetBpp/8, ∀ v < 2^next.getBpp, (next.channels v).getD c 0 = channel 8 c v := by
  have hone : ∀ c < 8/8, ∀ v < 2^8, [v].getD c 0 = channel 8 c v := fun c hc v hv => by
    obtain rfl : c = 0 := by omega
    rw [channel,Nat.mul_zero,pow_zero,Nat.div_one,Nat.mod_eq_of_lt hv]
    rfl
  have hthree : ∀ c < 3, ∀ v, [channel 8 0 v,channel 8 1 v,channel 8 2 v].getD c 0 = channel 8 c v := fun c hc v => by
    interval_cases c <;> rfl
  have hfour : ∀ c < 4, ∀ v, [channel 8 0 v,channel 8 1 v,channel 8 2 v,channel 8 3 v].getD c 0 = channel 8 c v :=
    fun c hc v => by interval_cases c <;> rfl
  cases h with
  | indices colormap h => exact absurd rfl ha
  | pairs colormap h => exact absurd rfl ha
  | oneBit colormap => exact ⟨List.cons_ne_nil _ _,rfl,fun _ => rfl,fun c hc v hv => hone c hc v hv⟩
  | eightBits colormap => exact ⟨List.cons_ne_nil _ _,rfl,fun _ => rfl,fun c hc v hv => hone c hc v hv⟩
  | rgb => exact ⟨List.cons_ne_nil _ _,rfl,fun _ => rfl,fun c hc v _ => hthree c hc v⟩
  | _ => exact ⟨List.cons_ne_nil _ _,rfl,fun _ => rfl,fun c hc v _ => hfour c hc v⟩

/-- The operations of a layer above the first. -/
theorem Chain.bytes {ls : LayerSpec} (hc : Chain ls) (hlo : ls[0]? = some lo) (ha : lo.Averages) {k : ℕ}
    {next : LayerOperations} (hnext : ls[min (k+1) (ls.length-1)]? = some next) : next.Averages ∧
    next.targetBpp = lo.targetBpp ∧ (∀ sum, next.mean sum = sum/64) ∧
      ∀ c < lo.targetBpp/8, ∀ v < 2^next.getBpp, (next.channels v).getD c 0 = channel 8 c v := by
  induction k generalizing next with
  | zero => exact (hc.follows (k := 0) (by simpa using hlo) hnext).bytes ha
  | succ k ih =>
    have hlen := hc.length_pos
    have hprev := List.getElem?_eq_getElem (l := ls) (i := min (k+1) (ls.length-1)) (by omega)
    obtain ⟨ha',htarget,-,-⟩ := ih hprev
    obtain ⟨hn,htarget',hmean,hchannels⟩ := (hc.follows hprev hnext).bytes ha'
    rw [htarget] at htarget' hchannels
    exact ⟨hn,htarget',hmean,hchannels⟩

namespace Cascade
open TiledBitmap

/-- The block of the target that a source is reduced into. -/
def placeIn (lc : LayerCoordinator LayerOperations) (tile : CompressedTile) : ℕ × ℕ :=
  (lc.sourceTiles.lookup tile).getD (0,0)

theorem result_pixels {lc : LayerCoordinator LayerOperations} (hf : Follows lc.lo next)
    (htarget : lc.targetTile.bpp.toNat = lc.lo.targetBpp) {final : CompressedTile → Data}
    {source : CompressedTile → Tile lc.lo.getBpp} (l : List CompressedTile)
    (hl : ∀ t ∈ l, final t = some ⟨_,source t⟩) (hplace : ∀ t ∈ l, (placeIn lc t).1 < 8 ∧ (placeIn lc t).2 < 8)
    (hne : l.Pairwise fun t t' => placeIn lc t ≠ placeIn lc t') :
    ∃ b : Tile lc.lo.targetBpp, result layerReductions final lc l = some ⟨_,b⟩ ∧
      (∀ row, ∀ col < width, (∀ t ∈ l, placeIn lc t ≠ (col/(width/8),row/(height/8))) → next.pixel b row col = 0) ∧
      ∀ t ∈ l, ∀ j < height/8, ∀ i < width/8,
        lc.lo.Summarises (fun a a' => lc.lo.pixel (source t) (8*j+a) (8*i+a'))
          (next.pixel b (height/8*(placeIn lc t).2+j) (width/8*(placeIn lc t).1+i)) := by
  induction l using List.reverseRecOn with
  | nil =>
    refine ⟨Vector.replicate _ 0,?_,fun row col _ _ => pixel_zero next row col,by simp⟩
    change initialData lc.targetTile = _
    rw [initialData,htarget]
    rfl
  | append_singleton l t ih =>
    obtain ⟨hpair,-,hlast⟩ := List.pairwise_append.mp hne
    obtain ⟨b,hb,hzero,hsum⟩ := ih (fun u hu => hl u (List.mem_append_left _ hu))
      (fun u hu => hplace u (List.mem_append_left _ hu)) hpair
    have ht := hl t (by simp)
    obtain ⟨hx,hy⟩ := hplace t (by simp)
    obtain ⟨b',hr,hsum'⟩ := hf.summarises hx hy (source t) b
    refine ⟨b',?_,fun row col hcol hother => ?_,fun u hu j hj i hi => ?_⟩
    · rw [result_snoc,hb,ht]
      refine (reduceData_some _ _ _ _).trans ?_
      rw [reduceBytes,if_pos ⟨hf.indexBits.1,rfl,rfl,hx,hy⟩]
      exact congrArg (Option.map (Sigma.mk _)) hr
    · rw [hf.pixel_unchanged hx hy hr hcol (Ne.symm (hother t (by simp)))]
      exact hzero row col hcol fun u hu => hother u (List.mem_append_left _ hu)
    · rcases List.mem_append.mp hu with hu | hu
      · have hne : placeIn lc u ≠ placeIn lc t := hlast u hu t (by simp)
        obtain ⟨hux,huy⟩ := hplace u (List.mem_append_left _ hu)
        have hdiv : ((width/8*(placeIn lc u).1+i)/(width/8),(height/8*(placeIn lc u).2+j)/(height/8)) =
            placeIn lc u := by
          rw [Nat.mul_add_div (by decide),Nat.mul_add_div (by decide),Nat.div_eq_of_lt hi,Nat.div_eq_of_lt hj]
          rfl
        rw [hf.pixel_unchanged hx hy hr (block_lt_width hux hi) (by rw [hdiv]; exact hne)]
        exact hsum u hu j hj i hi
      · obtain rfl := List.mem_singleton.mp hu
        exact hsum' j hj i hi

/-- Pictures for the layers of a stack, from that of the bitmap on. -/
structure Mipmap (ls : LayerSpec) (count : ℕ) (base : ℕ → ℕ → ℕ) (picture : ℕ → ℕ → ℕ → ℕ) : Prop where
  bottom : picture 0 = base
  above : ∀ k, k+1 < count → ∀ lo, ls[min k (ls.length-1)]? = some lo → ∀ y x,
    lo.Summarises (fun a b => picture k (8*y+a) (8*x+b)) (picture (k+1) y x)

theorem Mipmap.unique {ls : LayerSpec} (hc : Chain ls) {count : ℕ} {base : ℕ → ℕ → ℕ} {p q : ℕ → ℕ → ℕ → ℕ}
    (hp : Mipmap ls count base p) (hq : Mipmap ls count base q) {k : ℕ} (hk : k < count) : p k = q k := by
  induction k with
  | zero => rw [hp.bottom,hq.bottom]
  | succ k ih =>
    have hlen := hc.length_pos
    have hlo := List.getElem?_eq_getElem (l := ls) (i := min k (ls.length-1)) (by omega)
    have hnext := List.getElem?_eq_getElem (l := ls) (i := min (k+1) (ls.length-1)) (by omega)
    funext y x
    have hsum := hp.above k hk _ hlo y x
    rw [ih (by omega)] at hsum
    exact Summarises.unique (hc.follows hlo hnext) hsum (hq.above k hk _ hlo y x)


def pixelOf (lo : LayerOperations) (data : Data) (row col : ℕ) : ℕ := data.elim 0 fun b => lo.pixel b.2 row col

/-- The picture that the tiles of a layer hold. There is nothing outside of them. -/
def layerPicture (tb : TiledBitmap LayerOperations) (data : CompressedTile → Data) (k y x : ℕ) : ℕ :=
  match tb.layers[k]?,tb.ls[min k (tb.ls.length-1)]? with
  | some l,some lo =>
    if x/width < l.horTileCount.toNat ∧ y/height < l.verTileCount.toNat then
      pixelOf lo (data (l.tileAt (x/width) (y/height))) (y%height) (x%width)
    else 0
  | _,_ => 0

section Layers
variable {tb : TiledBitmap LayerOperations} {data : CompressedTile → Data} {k : ℕ} {l l' : Layer}

theorem layerPicture_eq (hl : tb.layers[k]? = some l) (hlo : tb.ls[min k (tb.ls.length-1)]? = some lo) (y x : ℕ) :
    layerPicture tb data k y x = if x/width < l.horTileCount.toNat ∧ y/height < l.verTileCount.toNat then
      pixelOf lo (data (l.tileAt (x/width) (y/height))) (y%height) (x%width) else 0 := by
  simp only [layerPicture,hl,hlo]

theorem bpp_tileAt (hw : Wired getBpp tb) (hl : tb.layers[k]? = some l)
    (hlo : tb.ls[min k (tb.ls.length-1)]? = some lo) (i j : ℕ) : (l.tileAt i j).bpp.toNat = lo.getBpp := by
  obtain ⟨lo',hlo',hbpp⟩ := hw.bpp k l hl
  obtain rfl := Option.some.inj (hlo.symm.trans hlo')
  change l.bpp.toNat = _
  rw [hbpp]
  rfl

theorem exists_pixels (hw : Wired getBpp tb) (hl : tb.layers[k]? = some l)
    (hlo : tb.ls[min k (tb.ls.length-1)]? = some lo) (hs : ∀ tile ∈ tiles tb, Sized tile (data tile)) {i j : ℕ}
    (hi : i < l.horTileCount.toNat) (hj : j < l.verTileCount.toNat) :
    ∃ b : Tile lo.getBpp, data (l.tileAt i j) = some ⟨_,b⟩ := by
  have hsized := hs _ (tileAt_mem_tiles hl hi hj)
  rw [Sized,bpp_tileAt hw hl hlo] at hsized
  exact hsized

theorem target_pixels (hw : Wired getBpp tb) (hf : Follows lo next) (hl : tb.layers[k]? = some l)
    (hl' : tb.layers[k+1]? = some l') (hlo : tb.ls[min k (tb.ls.length-1)]? = some lo) {base : CompressedTile → Data}
    (hs : ∀ tile ∈ tiles tb, Sized tile (finalData layerReductions tb base tile)) {I J : ℕ}
    (hI : I < l'.horTileCount.toNat) (hJ : J < l'.verTileCount.toNat)
    (htarget : (l'.tileAt I J).bpp.toNat = lo.targetBpp) : ∃ b : Tile lo.targetBpp,
      finalData layerReductions tb base (l'.tileAt I J) = some ⟨_,b⟩ ∧ ∀ row < height, ∀ col < width,
        let i := 8*I+col/(width/8)
        let j := 8*J+row/(height/8)
        (i < l.horTileCount.toNat ∧ j < l.verTileCount.toNat → ∃ source : Tile lo.getBpp,
          finalData layerReductions tb base (l.tileAt i j) = some ⟨_,source⟩ ∧
            lo.Summarises (fun a a' => lo.pixel source (8*(row%(height/8))+a) (8*(col%(width/8))+a'))
              (next.pixel b row col)) ∧
        (¬(i < l.horTileCount.toNat ∧ j < l.verTileCount.toNat) → next.pixel b row col = 0) := by
  obtain ⟨lc,hlc,ht⟩ := hw.complete k l' hl' I hI J hJ
  obtain ⟨-,-,hcol⟩ := hw.collects hl hl' hlo hlc (Or.inl ht)
  obtain rfl := hcol.lo
  have hplace : ∀ i j, l.tileAt i j ∈ lc.registrations → placeIn lc (l.tileAt i j) = (i%8,j%8) := fun i j hm => by
    rw [placeIn,hcol.offset i j hm,Option.getD_some]
  have hsource : ∀ t, ∃ b : Tile lc.lo.getBpp, t ∈ lc.registrations →
      finalData layerReductions tb base t = some ⟨_,b⟩ := fun t => by
    by_cases hm : t ∈ lc.registrations
    · obtain ⟨i,hi,j,hj,-,-,rfl⟩ := (hcol.mem t).mp hm
      obtain ⟨b,hb⟩ := exists_pixels hw hl hlo hs hi hj
      exact ⟨b,fun _ => hb⟩
    · exact ⟨Vector.replicate _ 0,fun h => absurd h hm⟩
  choose source hsource using hsource
  have hne : lc.registrations.Pairwise fun t t' => placeIn lc t ≠ placeIn lc t' := by
    refine hcol.nodup.imp_of_mem fun {t t'} hm hm' hne he => hne ?_
    exact (stack_of_wired hw).offsets lc hlc t hm t' hm' he
  obtain ⟨b,hb,hzero,hsum⟩ := result_pixels hf (by rw [ht,htarget]) lc.registrations hsource (fun t hm => by
    obtain ⟨i,-,j,-,-,-,rfl⟩ := (hcol.mem t).mp hm
    rw [hplace i j hm]
    exact ⟨Nat.mod_lt _ (by decide),Nat.mod_lt _ (by decide)⟩) hne
  refine ⟨b,by rw [← ht,(stack_of_wired hw).finalData_target hlc,hb],fun row hrow col hcolumn => ?_⟩
  have hIs : (8*I+col/(width/8))/8 = I ∧ (8*I+col/(width/8))%8 = col/(width/8) := by
    simp only [width] at *
    omega
  have hJs : (8*J+row/(height/8))/8 = J ∧ (8*J+row/(height/8))%8 = row/(height/8) := by
    simp only [height] at *
    omega
  constructor
  · rintro ⟨hi,hj⟩
    have hm := (hcol.mem _).mpr ⟨_,hi,_,hj,hIs.1,hJs.1,rfl⟩
    have hread := hsum _ hm (row%(height/8)) (Nat.mod_lt _ (by decide)) (col%(width/8)) (Nat.mod_lt _ (by decide))
    rw [hplace _ _ hm,hIs.2,hJs.2,Nat.div_add_mod,Nat.div_add_mod] at hread
    exact ⟨_,hsource _ hm,hread⟩
  · intro hnot
    refine hzero row col hcolumn fun t hm he => hnot ?_
    obtain ⟨i,hi,j,hj,rfl,rfl,rfl⟩ := (hcol.mem t).mp hm
    rw [hplace i j hm] at he
    obtain ⟨hx,hy⟩ := Prod.mk.inj he
    rw [← hx,← hy,Nat.div_add_mod,Nat.div_add_mod]
    exact ⟨hi,hj⟩

theorem block_div {v c : ℕ} (hc : c < 8) : (8*v+c)/width = v/(width/8) ∧ (8*v+c)%width = 8*(v%(width/8))+c ∧
    v/(width/8) = 8*(v/width)+v%width/(width/8) ∧ v%(width/8) = v%width%(width/8) := by
  simp only [width]
  omega

theorem layerPicture_block (hl : tb.layers[k]? = some l) (hlo : tb.ls[min k (tb.ls.length-1)]? = some lo) (y x : ℕ)
    (a b : Fin 8) : layerPicture tb data k (8*y+a) (8*x+b) =
      if x/(width/8) < l.horTileCount.toNat ∧ y/(height/8) < l.verTileCount.toNat then
        pixelOf lo (data (l.tileAt (x/(width/8)) (y/(height/8)))) (8*(y%(height/8))+a) (8*(x%(width/8))+b) else 0 := by
  obtain ⟨hx,hx',-,-⟩ := block_div (v := x) b.isLt
  have hy : (8*y+a)/height = y/(height/8) ∧ (8*y+a)%height = 8*(y%(height/8))+a :=
    (block_div (v := y) a.isLt).imp id And.left
  rw [layerPicture_eq hl hlo,hx,hx',hy.1,hy.2]

theorem layerPicture_summarises (hw : Wired getBpp tb) (hc : Chain tb.ls) (hl : tb.layers[k]? = some l)
    (hl' : tb.layers[k+1]? = some l') (hlo : tb.ls[min k (tb.ls.length-1)]? = some lo) {base : CompressedTile → Data}
    (hs : ∀ tile ∈ tiles tb, Sized tile (finalData layerReductions tb base tile)) (y x : ℕ) :
    lo.Summarises (fun a b => layerPicture tb (finalData layerReductions tb base) k (8*y+a) (8*x+b))
      (layerPicture tb (finalData layerReductions tb base) (k+1) y x) := by
  have hpos := hc.length_pos
  have hnext := List.getElem?_eq_getElem (l := tb.ls) (i := min (k+1) (tb.ls.length-1)) (by omega)
  have hf := hc.follows hlo hnext
  have ha := hw.above k l l' hl hl'
  have hx := (block_div (v := x) (by decide : 0 < 8)).2.2
  have hy : y/(height/8) = 8*(y/height)+y%height/(height/8) ∧ y%(height/8) = y%height%(height/8) :=
    (block_div (v := y) (by decide : 0 < 8)).2.2
  simp only [layerPicture_block hl hlo]
  rw [layerPicture_eq hl' hnext]
  by_cases htile : x/width < l'.horTileCount.toNat ∧ y/height < l'.verTileCount.toNat
  · obtain ⟨b,hb,hpixels⟩ := target_pixels hw hf hl hl' hlo hs htile.1 htile.2
      ((bpp_tileAt hw hl' hnext _ _).trans hf.getBpp)
    obtain ⟨hin,hout⟩ := hpixels (y%height) (Nat.mod_lt _ (by decide)) (x%width) (Nat.mod_lt _ (by decide))
    rw [← hx.1,← hy.1,← hx.2,← hy.2] at hin
    rw [← hx.1,← hy.1] at hout
    rw [if_pos htile,hb]
    change lo.Summarises _ (LayerOperations.pixel b (y%height) (x%width) _)
    by_cases hsource : x/(width/8) < l.horTileCount.toNat ∧ y/(height/8) < l.verTileCount.toNat
    · obtain ⟨source,hsource',hsum⟩ := hin hsource
      simp only [if_pos hsource,hsource']
      exact hsum
    · simp only [if_neg hsource]
      rw [hout hsource]
      exact summarises_zero hf.indexBits.1
  · have hsource : ¬(x/(width/8) < l.horTileCount.toNat ∧ y/(height/8) < l.verTileCount.toNat) := fun h =>
      htile ⟨(ha.lt_horTileCount (x/width)).mpr ((Nat.le_add_right _ _).trans_lt (hx.1.symm.trans_lt h.1)),
        (ha.lt_verTileCount (y/height)).mpr ((Nat.le_add_right _ _).trans_lt (hy.1.symm.trans_lt h.2))⟩
    simp only [if_neg hsource]
    rw [if_neg htile]
    exact summarises_zero hf.indexBits.1

theorem finalData_mipmap {w h : ℤ} {ls : LayerSpec} (ht : create getBpp w h ls = some tb) (hc : Chain ls)
    {base : CompressedTile → Data} (hb : ∀ tile ∈ baseTiles tb, Sized tile (base tile)) :
    Mipmap ls tb.layers.length (layerPicture tb base 0) (layerPicture tb (finalData layerReductions tb base)) := by
  have hs := finalData_sized ht hc hb
  obtain ⟨hw,-,rfl,hpos,bottom,hbottom,-⟩ := wired_of_create ht
  refine ⟨?_,fun k hk lo hlo y x => ?_⟩
  · funext y x
    have hlo := List.getElem?_eq_getElem (l := tb.ls) (i := min 0 (tb.ls.length-1)) (by omega)
    rw [layerPicture_eq hbottom hlo,layerPicture_eq hbottom hlo]
    split_ifs with htile
    · have hm := tileAt_mem_tiles hbottom htile.1 htile.2
      rw [(stack_of_wired hw).finalData_base (((stack_of_wired hw).base _).mpr ⟨hm,hw.depth 0 bottom hbottom⟩)]
    · rfl
  · exact layerPicture_summarises hw hc (List.getElem?_eq_getElem (by omega)) (List.getElem?_eq_getElem hk) hlo hs y x

end Layers

end Cascade

namespace Tiff
open Cascade TiledBitmap

variable {bmd : BitmapMetaData} {tags : Tags}

/-- A pixel of the file. There are none below the last line, and beyond the end of a line only zeros. -/
def filePixel (lo : LayerOperations) (size h : ℕ) (readScanline : ℕ → ℕ → UInt8) (y x : ℕ) : ℕ :=
  if y < h then
    field (Vector.ofFn fun b : Fin size => readScanline y b) (lo.getBpp*SampleIterator.mirror lo.pixelsPerWord x)
      lo.getBpp
  else 0

/-- A tile of the bottom layer, once its row was fetched. -/
def loadedTile (bmd : BitmapMetaData) (bottom : Layer) (size : ℕ) (readScanline : ℕ → ℕ → UInt8)
    (tile : CompressedTile) : Data :=
  (fetchRow bmd bottom size readScanline tile.y.toNat (List.replicate bottom.horTileCount.toNat
    (Vector.replicate _ 0 : Tile (bmd.bitsPerSample*bmd.samplesPerPixel)))).bind fun tiles =>
      tiles[tile.x.toNat]?.map (Sigma.mk _)

theorem HoldsLines.byte_eq {size h row c r q : ℕ} {readScanline : ℕ → ℕ → UInt8} {tiles : List (Buffer n)}
    (hl : HoldsLines bmd size h row readScanline tiles) (hc : c < tiles.length) (hr : r < height)
    (hq : q < tileStride bmd) (ho : r*tileStride bmd+q < n) :
    tileByte tiles c (r*tileStride bmd+q) = some (if height*row+r < h ∧ c*tileStride bmd+q < size then
      readScanline (height*row+r) (c*tileStride bmd+q) else 0) := by
  have hb := mul_add_div_mod (q := c) hq
  have hline : (height*row+r)/4096 = row ∧ (height*row+r)%4096 = r := by
    simp only [height] at *
    omega
  by_cases hin : height*row+r < h ∧ c*tileStride bmd+q < size
  · rw [if_pos hin]
    exact hl.placed _ hin.1 hline.1 _ hin.2 c _ ⟨hb.1.symm,by rw [hb.2,hline.2]⟩
  · rw [if_neg hin]
    refine hl.zero c hc _ ho fun l hlt hrow b hsize hplace => hin ?_
    have ho := mul_add_div_mod (q := r) hq
    have ho' := mul_add_div_mod (q := l%4096) (Nat.mod_lt b (by omega : 0 < tileStride bmd))
    rw [← hplace.2] at ho'
    have hlr : l = height*row+r := by
      have he := ho.1.symm.trans ho'.1
      simp only [height]
      omega
    have hbc : b = c*tileStride bmd+q := by
      rw [hplace.1,ho.2.symm.trans ho'.2,Nat.div_add_mod']
    exact ⟨hlr ▸ hlt,hbc ▸ hsize⟩

theorem HoldsLines.pixel_eq {size h row : ℕ} {readScanline : ℕ → ℕ → UInt8}
    {tiles : List (Tile (bmd.bitsPerSample*bmd.samplesPerPixel))}
    (hl : HoldsLines bmd size h row readScanline tiles) (hb : lo.IndexBits)
    (hbpp : lo.getBpp = bmd.bitsPerSample*bmd.samplesPerPixel) {c : ℕ}
    {tile : Tile (bmd.bitsPerSample*bmd.samplesPerPixel)} (ht : tiles[c]? = some tile) {r col : ℕ} (hr : r < height)
    (hcol : col < width) :
    lo.pixel tile r col = filePixel lo size h readScanline (height*row+r) (width*c+col) := by
  have hstride : lo.getBpp*4096 = 8*tileStride bmd := by
    rw [tileStride_def,hbpp]
    ring
  obtain ⟨d,hd⟩ := pixelsPerWord_block hb
  have hword : 0 < lo.pixelsPerWord := Nat.pos_of_ne_zero fun h => by simp [h,width] at hd
  have hmirror : SampleIterator.mirror lo.pixelsPerWord (width*c+col) =
      width*c+SampleIterator.mirror lo.pixelsPerWord col := by
    have hw : width*c = lo.pixelsPerWord*(d*(8*c)) := by
      rw [← Nat.mul_assoc,hd]
      simp only [width]
      omega
    rw [hw,mirror_add hword]
  have hm := mirror_div hb col
  have hlt : SampleIterator.mirror lo.pixelsPerWord col < 4096 := by
    simp only [width] at hm hcol
    omega
  rw [LayerOperations.pixel,filePixel,hmirror]
  generalize SampleIterator.mirror lo.pixelsPerWord col = m at *
  -- the bits of the pixel, in the tile and in the line
  have hbit : ∀ k < lo.getBpp, bit tile (lo.getBpp*(width*r+m)+k) = if height*row+r < h then
      bit (Vector.ofFn fun b : Fin size => readScanline (height*row+r) b) (lo.getBpp*(width*c+m)+k) else false := by
    intro k hk
    have hp : lo.getBpp*m+k < 8*tileStride bmd := by
      have hle := Nat.mul_le_mul_left lo.getBpp (Nat.succ_le_of_lt hlt)
      rw [Nat.mul_succ] at hle
      omega
    have hplace : ∀ v, lo.getBpp*(width*v+m)+k = 8*(v*tileStride bmd)+(lo.getBpp*m+k) := fun v => by
      calc lo.getBpp*(width*v+m)+k = lo.getBpp*4096*v+(lo.getBpp*m+k) := by
            simp only [width]
            ring
        _ = 8*(v*tileStride bmd)+(lo.getBpp*m+k) := by
            rw [hstride]
            ring
    have hdiv : ∀ v, (lo.getBpp*(width*v+m)+k)/8 = v*tileStride bmd+(lo.getBpp*m+k)/8 ∧
        (lo.getBpp*(width*v+m)+k)%8 = (lo.getBpp*m+k)%8 := fun v => by
      rw [hplace]
      omega
    have hq : (lo.getBpp*m+k)/8 < tileStride bmd := by omega
    have hend : r*tileStride bmd+(lo.getBpp*m+k)/8 < width*height*(bmd.bitsPerSample*bmd.samplesPerPixel)/8 := by
      have hle := Nat.mul_le_mul_right (tileStride bmd) (Nat.succ_le_of_lt hr)
      have he : width*height*(bmd.bitsPerSample*bmd.samplesPerPixel)/8 = height*tileStride bmd := by
        rw [← hbpp]
        simp only [width,height]
        omega
      rw [Nat.succ_mul] at hle
      omega
    have hbyte := hl.byte_eq (List.getElem?_eq_some_iff.mp ht).1 hr hq hend
    rw [tileByte,ht,Option.bind_some] at hbyte
    rw [bit,bit,(hdiv r).1,(hdiv r).2,(hdiv c).1,(hdiv c).2,hbyte,Vector.getElem?_ofFn]
    by_cases hy : height*row+r < h
    · by_cases hsize : c*tileStride bmd+(lo.getBpp*m+k)/8 < size <;> simp [hy,hsize]
    · simp [hy]
  split
  case isTrue hy => exact field_congr fun k hk => (hbit k hk).trans (if_pos hy)
  case isFalse hy =>
    refine ((eq_field_iff (Nat.two_pow_pos _)).mpr fun k hk => ?_).symm
    rw [Nat.zero_testBit,hbit k hk,if_neg hy]

/-- The bits of a pixel are those that the operations of the first layer expect. -/
theorem getBpp_of_spec {ls : LayerSpec} {colormapHelper : Option Colormap}
    (h : layerSpecForBitmap bmd = some (ls,colormapHelper)) (hlo : ls[0]? = some lo) :
    lo.getBpp = bmd.bitsPerSample*bmd.samplesPerPixel := by
  rw [layerSpecForBitmap_eq] at h
  cases ht : bmd.type with
  | rgb =>
    rw [ht] at h
    simp only [bitmapFunction,rgbBitmap,require] at h
    split_ifs at h <;> cases h <;> cases hlo
    simp_all [LayerOperations.getBpp]
  | cmyk =>
    rw [ht] at h
    simp only [bitmapFunction,cmykBitmap,require] at h
    split_ifs at h <;> cases h <;> cases hlo <;> simp_all [LayerOperations.getBpp]
  | greyscale =>
    rw [ht] at h
    simp only [bitmapFunction,greyscaleBitmap,require] at h
    split_ifs at h <;> cases h <;> cases hlo <;> simp_all [LayerOperations.getBpp]
  | colormapped =>
    rw [ht] at h
    simp only [bitmapFunction,colormappedBitmap,require] at h
    cases hc : bmd.colormapHelper with
    | none =>
      rw [hc] at h
      split_ifs at h <;> cases h
      cases hlo
    | some colormap =>
      rw [hc] at h
      split_ifs at h <;> cases h <;> cases hlo
      simp_all [LayerOperations.getBpp]

/-- What loading relies on: the bottom layer has the size of the image, and its pixels have samples. -/
structure Loads (bmd : BitmapMetaData) (w h : ℕ) (bottom : Layer) : Prop where
  width_eq : bottom.width = w
  height_eq : bottom.height = h
  width_pos : 1 ≤ w
  spp_pos : 1 ≤ bmd.samplesPerPixel
  bps_pos : 1 ≤ bmd.bitsPerSample
  bits_le : bmd.samplesPerPixel*bmd.bitsPerSample ≤ 32

variable {w h : ℕ} {bottom : Layer} {readScanline : ℕ → ℕ → UInt8}

theorem Loads.tileStride_pos (hb : Loads bmd w h bottom) : 0 < tileStride bmd := by
  rw [tileStride_def]
  exact Nat.mul_pos (by decide) (Nat.mul_pos hb.spp_pos hb.bps_pos)

theorem Loads.size_le (hb : Loads bmd w h bottom) :
    scanlineSize .contiguous w bmd.samplesPerPixel bmd.bitsPerSample ≤
      bottom.horTileCount.toNat*tileStride bmd := by
  rw [horTileCount_eq hb.width_eq,tileStride_def]
  exact (scanline_bounds hb.width_pos hb.spp_pos (Or.inl rfl) bmd.bitsPerSample).2

theorem Loads.fetchRow (hb : Loads bmd w h bottom) (readScanline : ℕ → ℕ → UInt8) {row : ℕ}
    (hrow : row < bottom.verTileCount.toNat) : ∃ filled,
      fetchRow bmd bottom (scanlineSize .contiguous w bmd.samplesPerPixel bmd.bitsPerSample) readScanline row
        (List.replicate bottom.horTileCount.toNat
          (Vector.replicate _ 0 : Tile (bmd.bitsPerSample*bmd.samplesPerPixel))) = some filled ∧
      filled.length = bottom.horTileCount.toNat ∧
      HoldsLines bmd (scanlineSize .contiguous w bmd.samplesPerPixel bmd.bitsPerSample) h row readScanline
        filled := by
  have hlen : (List.replicate bottom.horTileCount.toNat
      (Vector.replicate _ 0 : Tile (bmd.bitsPerSample*bmd.samplesPerPixel))).length = bottom.horTileCount.toNat :=
    List.length_replicate
  obtain ⟨filled,hf,hfilled,hbytes⟩ : ∃ filled, Tiff.fetchRow _ _ _ readScanline _ _ = some filled ∧ _ :=
    fetchRow_fills hb.spp_pos hb.bps_pos hb.bits_le hb.width_eq hb.height_eq (Or.inl hb.width_pos)
      (Or.inl (Eq.refl PlanarConfig.contiguous)) (lt_max_of_lt_right hrow) hlen
  rw [← tileStride_def] at hbytes
  refine ⟨filled,hf,hfilled.trans hlen,holdsLines_of_rowAt hb.tileStride_pos hfilled ?_ (fun c hc o ho => ?_) hbytes⟩
  · rw [hlen]
    exact hb.size_le
  · rw [hlen] at hc
    simp [tileByte,hc,ho]

theorem Loads.pixel_eq (hb : Loads bmd w h bottom) (readScanline : ℕ → ℕ → UInt8) {i j : ℕ}
    (hi : i < bottom.horTileCount.toNat) (hj : j < bottom.verTileCount.toNat) (hbits : lo.IndexBits)
    (hbpp : lo.getBpp = bmd.bitsPerSample*bmd.samplesPerPixel) :
    ∃ tile : Tile (bmd.bitsPerSample*bmd.samplesPerPixel),
      loadedTile bmd bottom (scanlineSize .contiguous w bmd.samplesPerPixel bmd.bitsPerSample) readScanline
        (bottom.tileAt i j) = some ⟨_,tile⟩ ∧
      ∀ r < height, ∀ col < width, lo.pixel tile r col =
        filePixel lo (scanlineSize .contiguous w bmd.samplesPerPixel bmd.bitsPerSample) h readScanline
          (height*j+r) (width*i+col) := by
  obtain ⟨filled,hf,hlen,hl⟩ := hb.fetchRow readScanline hj
  have htile := List.getElem?_eq_getElem (l := filled) (i := i) (by omega)
  refine ⟨_,?_,fun r hr col hcol => hl.pixel_eq hbits hbpp htile hr hcol⟩
  simp only [loadedTile,Layer.tileAt,Int.toNat_natCast,hf,Option.bind_some,htile,Option.map_some]

theorem Loads.filePixel_eq_zero (hb : Loads bmd w h bottom) {y x : ℕ} (hbits : lo.IndexBits)
    (hbpp : lo.getBpp = bmd.bitsPerSample*bmd.samplesPerPixel)
    (hout : ¬(x/width < bottom.horTileCount.toNat ∧ y/height < bottom.verTileCount.toNat)) :
    filePixel lo (scanlineSize .contiguous w bmd.samplesPerPixel bmd.bitsPerSample) h readScanline y x = 0 := by
  rw [filePixel]
  split_ifs with hy
  · have hrow : y/height < bottom.verTileCount.toNat := by
      rw [verTileCount_eq hb.height_eq]
      simp only [height]
      omega
    have hx := Nat.le_of_not_lt fun hx => hout ⟨hx,hrow⟩
    have hm : bottom.horTileCount.toNat ≤ SampleIterator.mirror lo.pixelsPerWord x/width := by
      have h8 := mirror_div hbits x
      simp only [width] at *
      omega
    refine ((eq_field_iff (Nat.two_pow_pos _)).mpr fun k _ => ?_).symm
    have hbyte : scanlineSize .contiguous w bmd.samplesPerPixel bmd.bitsPerSample ≤
        (lo.getBpp*SampleIterator.mirror lo.pixelsPerWord x+k)/8 := by
      refine hb.size_le.trans ((Nat.le_div_iff_mul_le (by decide)).mpr ?_)
      calc bottom.horTileCount.toNat*tileStride bmd*8
          ≤ SampleIterator.mirror lo.pixelsPerWord x/width*tileStride bmd*8 := by gcongr
        _ = lo.getBpp*(width*(SampleIterator.mirror lo.pixelsPerWord x/width)) := by
          rw [tileStride_def,hbpp]
          simp only [width]
          ring
        _ ≤ lo.getBpp*SampleIterator.mirror lo.pixelsPerWord x := Nat.mul_le_mul_left _ (Nat.mul_div_le _ _)
        _ ≤ lo.getBpp*SampleIterator.mirror lo.pixelsPerWord x+k := Nat.le_add_right _ _
    rw [Nat.zero_testBit,bit,Vector.getElem?_eq_none hbyte]
    simp
  · rfl

/-- The layers of an accepted file were built, and its tiles loaded and reduced, until nothing was left to do. The
samples of its pixels are in contiguous planes, and its sizes can be rounded up to whole tiles. -/
structure Shown (tags : Tags) (w h : UInt32) (readScanline : ℕ → ℕ → UInt8) (bmd : BitmapMetaData) (ls : LayerSpec)
    (tb : TiledBitmap LayerOperations) (c : Config Data) : Prop where
  accepted : openTiff tags = some (some bmd)
  width_eq : tags.imageWidth = some w
  height_eq : tags.imageLength = some h
  width_pos : 1 ≤ w.toNat
  width_lt : w.toNat+4095 < 2^31
  height_lt : h.toNat+4095 < 2^31
  spec : ∃ colormapHelper, layerSpecForBitmap bmd = some (ls,colormapHelper)
  layers : create getBpp bmd.rect.getWidth bmd.rect.getHeight ls = some tb
  run : ∃ bottom as, tb.layers[0]? = some bottom ∧ Transitions.run (step layerReductions tb) as (initial tb
    (loadedTile bmd bottom (scanlineSize .contiguous w.toNat bmd.samplesPerPixel bmd.bitsPerSample) readScanline)) =
      some c
  done : Done tb c

section Shown
variable {w h : UInt32} {ls : LayerSpec} {tb : TiledBitmap LayerOperations} {c : Config Data}

theorem Shown.loads (hs : Shown tags w h readScanline bmd ls tb c) (hb : tb.layers[0]? = some bottom) :
    Loads bmd w.toNat h.toNat bottom := by
  obtain ⟨hsamples,w',h',photometric,colormapHelper,rect,hd,-,hrect,hbmd⟩ := openTiff_accepted hs.accepted
  obtain rfl : w' = w := Option.some.inj (hd.width_eq.symm.trans hs.width_eq)
  obtain rfl : h' = h := Option.some.inj (hd.height_eq.symm.trans hs.height_eq)
  obtain ⟨hspp,hbps,hbits,-⟩ := samples_bounds hsamples
  obtain ⟨hrw,hrh⟩ := makeInt_eq_some.mp hrect
  have hwidth := hs.width_lt
  have hheight := hs.height_lt
  have hsw := ((makeInt_wrap w').2 _ hrw).mpr (by simp only [MachineInt.intMax]; omega)
  have hsh := ((makeInt_wrap h').2 _ hrh).mpr (by simp only [MachineInt.intMax]; omega)
  obtain ⟨-,-,-,-,bottom',hb',hw',hh'⟩ := wired_of_create hs.layers
  obtain rfl := Option.some.inj (hb.symm.trans hb')
  exact ⟨hw'.trans (by rw [hbmd]; exact hsw),hh'.trans (by rw [hbmd]; exact hsh),hs.width_pos,by rwa [hbmd],
    by rwa [hbmd],by rwa [hbmd]⟩

theorem Shown.chain (hs : Shown tags w h readScanline bmd ls tb c) : Chain ls := by
  obtain ⟨colormapHelper,hspec⟩ := hs.spec
  obtain ⟨-,-,-,hpos,-⟩ := wired_of_create hs.layers
  rw [layerSpecForBitmap_eq] at hspec
  refine (chain_of_bitmapFunction hspec).resolve_left fun hnil => ?_
  rw [(Prod.mk.inj hnil).1] at hpos
  exact Nat.lt_irrefl 0 hpos

theorem shown_threeTiles :
    let bmd : BitmapMetaData := ⟨.greyscale,8,1,⟨⟨0,8200⟩,⟨0,1⟩⟩,some (.createDefault 2)⟩
    let ls : LayerSpec := [.operations8bpp (.createDefault 2)]
    let tb := (create getBpp 8200 1 ls).get (by decide +kernel)
    ∃ c, Shown ⟨some 1,some 8,some 8200,some 1,some photometricMinIsBlack,none⟩ 8200 1 (fun l b => .ofNat (l+b))
      bmd ls tb c := by
  intro bmd ls tb
  let bottom := tb.layers[0]?.get (by decide +kernel)
  let loaded := loadedTile bmd bottom (scanlineSize .contiguous (8200:UInt32).toNat bmd.samplesPerPixel
    bmd.bitsPerSample) fun l b => .ofNat (l+b)
  let finished := Transitions.run (step layerReductions tb) (reduction ⟨0,2,0,8⟩++reduction ⟨0,0,0,8⟩++
    reduction ⟨0,1,0,8⟩++[.perform (.notifyBitmap ⟨1,0,0,8⟩)]) (initial tb loaded)
  exact ⟨finished.get (by decide +kernel),by decide +kernel,rfl,rfl,by decide,by decide,by decide,⟨_,rfl⟩,
    (Option.some_get _).symm,⟨bottom,_,(Option.some_get _).symm,(Option.some_get _).symm⟩,by decide +kernel⟩

section Loaded
variable {lo : LayerOperations}

theorem loadedTile_sized (readScanline : ℕ → ℕ → UInt8) (hw : Wired getBpp tb) (hb : tb.layers[0]? = some bottom)
    (hl : Loads bmd w.toNat h.toNat bottom) (hlo : tb.ls[min 0 (tb.ls.length-1)]? = some lo) (hbits : lo.IndexBits)
    (hbpp : lo.getBpp = bmd.bitsPerSample*bmd.samplesPerPixel) : ∀ tile ∈ baseTiles tb, Sized tile
      (loadedTile bmd bottom (scanlineSize .contiguous w.toNat bmd.samplesPerPixel bmd.bitsPerSample) readScanline
        tile) := by
  intro tile hm
  rw [baseTiles,hb] at hm
  obtain ⟨i,hi,j,hj,rfl⟩ := Layer.mem_tiles_flatten.mp hm
  obtain ⟨tile,ht,-⟩ := hl.pixel_eq readScanline hi hj hbits hbpp
  rw [Sized,bpp_tileAt hw hb hlo,hbpp]
  exact ⟨tile,ht⟩

theorem layerPicture_loadedTile (hb : tb.layers[0]? = some bottom) (hl : Loads bmd w.toNat h.toNat bottom)
    (hlo : tb.ls[min 0 (tb.ls.length-1)]? = some lo) (hbits : lo.IndexBits)
    (hbpp : lo.getBpp = bmd.bitsPerSample*bmd.samplesPerPixel) :
    layerPicture tb (loadedTile bmd bottom (scanlineSize .contiguous w.toNat bmd.samplesPerPixel bmd.bitsPerSample)
      readScanline) 0 = filePixel lo (scanlineSize .contiguous w.toNat bmd.samplesPerPixel bmd.bitsPerSample) h.toNat
        readScanline := by
  funext y x
  rw [layerPicture_eq hb hlo]
  split_ifs with htile
  · obtain ⟨tile,ht,hpixel⟩ := hl.pixel_eq readScanline htile.1 htile.2 hbits hbpp
    have hxy := hpixel (y%height) (Nat.mod_lt _ (by decide)) (x%width) (Nat.mod_lt _ (by decide))
    rw [Nat.div_add_mod,Nat.div_add_mod] at hxy
    rw [ht]
    exact hxy
  · exact (hl.filePixel_eq_zero hbits hbpp htile).symm

end Loaded

theorem Shown.exists_mipmap (hs : Shown tags w h readScanline bmd ls tb c) {lo : LayerOperations}
    (hlo : ls[0]? = some lo) : ∃ picture,
      Mipmap ls tb.layers.length (filePixel lo (scanlineSize .contiguous w.toNat bmd.samplesPerPixel
        bmd.bitsPerSample) h.toNat readScanline) picture ∧
      ∀ (k : ℕ) l next, tb.layers[k]? = some l → ls[min k (ls.length-1)]? = some next →
        ∀ i < l.horTileCount.toNat, ∀ j < l.verTileCount.toNat, ∃ tile : Tile next.getBpp,
          c.data (l.tileAt i j) = some (some ⟨_,tile⟩) ∧ ∀ row < height, ∀ col < width,
            next.pixel tile row col = picture k (height*j+row) (width*i+col) := by
  have hchain := hs.chain
  obtain ⟨colormapHelper,hspec⟩ := hs.spec
  obtain ⟨bottom,as,hb,hr⟩ := hs.run
  obtain ⟨hw,-,rfl,hpos,-⟩ := wired_of_create hs.layers
  have hl := hs.loads hb
  have hbpp := getBpp_of_spec hspec hlo
  have hmin : tb.ls[min 0 (tb.ls.length-1)]? = some lo := by simpa using hlo
  have hbits : lo.IndexBits := (hchain.follows (k := 0) hmin (List.getElem?_eq_getElem (by omega))).indexBits.1
  have hsized := loadedTile_sized readScanline hw hb hl hmin hbits hbpp
  have hmip := finalData_mipmap hs.layers hchain hsized
  rw [layerPicture_loadedTile hb hl hmin hbits hbpp] at hmip
  generalize loadedTile bmd bottom (scanlineSize .contiguous w.toNat bmd.samplesPerPixel bmd.bitsPerSample)
    readScanline = base at *
  refine ⟨_,hmip,fun k l next hk hnext i hi j hj => ?_⟩
  obtain ⟨tile,ht⟩ := exists_pixels hw hk hnext (finalData_sized hs.layers hchain hsized) hi hj
  have hdata := ((inv_run (stack_of_wired hw) hr).finished (stack_of_wired hw) hs.done).data _
    (tileAt_mem_tiles hk hi hj)
  refine ⟨tile,by rw [hdata,ht],fun row hrow col hcol => ?_⟩
  have hdiv : (height*j+row)/height = j ∧ (height*j+row)%height = row ∧ (width*i+col)/width = i ∧
      (width*i+col)%width = col := by
    simp only [width,height] at *
    omega
  rw [layerPicture_eq hk hnext,hdiv.1,hdiv.2.1,hdiv.2.2.1,hdiv.2.2.2,if_pos ⟨hi,hj⟩,ht]
  rfl

end Shown

end Tiff
end Scroom
