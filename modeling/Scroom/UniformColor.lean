import Scroom.BlockMeans
import Scroom.LayerSpec
import Scroom.TopTwo

/-! A block of equal pixels keeps its colour when it is reduced. -/
namespace Scroom

open Buffer

variable {n : ℕ}

theorem bytesBit_eq {values : List ℕ} (h : ∀ b ∈ values, b < 256) (k : ℕ) :
    bytesBit values k = (Nat.ofDigits 256 values).testBit k := by
  induction values generalizing k with
  | nil => simp [bytesBit]
  | cons b values ih =>
    have hb : b < 2^8 := h b List.mem_cons_self
    rw [Nat.ofDigits_cons,Nat.add_comm,show (256:ℕ) = 2^8 from rfl,Nat.testBit_two_pow_mul_add _ hb]
    by_cases hk : k < 8
    · have hd : k/8 = 0 := by omega
      have hm : k%8 = k := by omega
      simp [bytesBit,hk,hd,hm]
    · have hd : k/8 = (k-8)/8+1 := by omega
      have hm : k%8 = (k-8)%8 := by omega
      rw [if_neg hk,show (2:ℕ)^8 = 256 from rfl,← ih (fun c hc => h c (List.mem_cons_of_mem b hc))]
      simp [bytesBit,hd,hm]

/-- When only two values occur, these are the ones that occur most often. -/
theorem topTwo_of_two {lookup : List ℕ} {a b : ℕ} (h : 2 ≤ lookup.length)
    (ha : 0 < lookup.getD a 0) (hb : 0 < lookup.getD b 0)
    (hother : ∀ c, c ≠ a → c ≠ b → lookup.getD c 0 = 0) :
    topTwo lookup = (a,b) ∨ topTwo lookup = (b,a) := by
  obtain ⟨best,hbest,htop⟩ := topTwo_spec lookup h
  have hlt : ∀ c, 0 < lookup.getD c 0 → c < lookup.length := fun c hc => by
    by_contra hn
    simp [List.getElem?_eq_none (Nat.le_of_not_lt hn)] at hc
  have hle := hbest.snd_le
  have hfst : best.1 = a ∨ best.1 = b := by
    by_contra hn
    have hz := hother best.1 (fun h => hn (Or.inl h)) (fun h => hn (Or.inr h))
    have hmax := hbest.le a (hlt a ha) (fun h => hn (Or.inl h.symm))
    omega
  have hsnd : ∀ c, 0 < lookup.getD c 0 → c ≠ best.1 → best.2 = a ∨ best.2 = b := fun c hc hne => by
    by_contra hn
    have hz := hother best.2 (fun h => hn (Or.inl h)) (fun h => hn (Or.inr h))
    have hmax := hbest.le c (hlt c hc) hne
    omega
  have hne := hbest.ne
  by_cases hab : a = b
  · subst hab
    have hone : best.1 = a := by tauto
    have hz := hother best.2 (fun h => hne (hone.trans h.symm)) (fun h => hne (hone.trans h.symm))
    rw [htop,if_pos hz,hone]
    exact Or.inl rfl
  · have hpair : best = (a,b) ∨ best = (b,a) := by
      rcases hfst with h1 | h1
      · have h2 := hsnd b hb (fun h => hab (h1.symm.trans h.symm))
        exact Or.inl (Prod.ext h1 (h2.resolve_left fun h => hne (h1.trans h.symm)))
      · have h2 := hsnd a ha (fun h => hab (h.trans h1))
        exact Or.inr (Prod.ext h1 (h2.resolve_right fun h => hne (h1.trans h.symm)))
    have hnz : lookup.getD best.2 0 ≠ 0 := by
      rcases hpair with h | h <;> rw [h] <;> dsimp only <;> omega
    rw [htop,if_neg hnz]
    exact hpair

theorem Fills.bytes_eq {f : Buffer n → Option (Buffer n)} {bpp x y j i : ℕ} {g : ℕ → ℕ}
    {sums : ℕ → ℕ → Option (List ℕ)} {v : List ℕ} (values : List ℕ) (hx : x < 8)
    (h : Fills f bpp x y 1 fun j i => bytesBit (((sums j i).getD []).map g))
    (hj : j < height/8) (hi : i < width/8) (hv : sums j i = some v) (hg : v.map g = values)
    (hlen : bpp = 8*values.length) (hlt : ∀ b ∈ values, b < 256) (target : Buffer n) :
    ∃ result, f target = some result ∧
      field result (bpp*(width*(height/8*y+j)+SampleIterator.mirror 1 (width/8*x+i))) bpp =
        Nat.ofDigits 256 values := by
  apply h.pixel_eq hx (Nat.one_mul (width/8)) hj hi
  · have hd := Nat.ofDigits_lt_base_pow_length (by decide : 1 < 256) hlt
    rwa [show 256 = 2^8 from rfl,← Nat.pow_mul,← hlen] at hd
  · intro k hk
    rw [hv,Option.getD_some,hg,bytesBit_eq hlt]

/-- The 64 pixels of the source that become one pixel of the target are equal. -/
def UniformBlock (lo : LayerOperations) (source : Buffer n) (j i v : ℕ) : Prop :=
  ∀ a < 8, ∀ b < 8, lo.pixel source (8*j+a) (8*i+b) = v

theorem UniformBlock.blockSum_eq {lo : LayerOperations} {source : Buffer n} {j i v : ℕ}
    (h : UniformBlock lo source j i v) (c : ℕ) : lo.blockSum source j i c = 64*(lo.channels v).getD c 0 := by
  have hall : lo.blockSum source j i c = ∑ _a ∈ Finset.range 8, ∑ _b ∈ Finset.range 8, (lo.channels v).getD c 0 :=
    Finset.sum_congr rfl fun a ha => Finset.sum_congr rfl fun b hb => by
      rw [h a (Finset.mem_range.mp ha) b (Finset.mem_range.mp hb)]
  rw [hall]
  simp only [Finset.sum_const,Finset.card_range,smul_eq_mul]
  omega

theorem UniformBlock.sums_eq {lo : LayerOperations} {source : Buffer n} {j i v ch : ℕ} {sums : Option (List ℕ)}
    (h : UniformBlock lo source j i v) (hch : (lo.channels v).length = ch)
    (hs : ∃ s, sums = some s ∧ s.length = ch ∧ ∀ c < ch, s.getD c 0 = lo.blockSum source j i c) :
    sums = some ((lo.channels v).map (64*·)) := by
  obtain ⟨s,rfl,hlen,hv⟩ := hs
  rw [Option.some.injEq]
  refine List.ext_getElem (by rw [hlen,List.length_map,hch]) fun c hc hc' => ?_
  have hc' : c < (lo.channels v).length := by rwa [List.length_map] at hc'
  have hget := hv c (hlen ▸ hc)
  rw [h.blockSum_eq] at hget
  simpa [hc,hc'] using hget

theorem UniformBlock.occurrences_eq {lo : LayerOperations} {source : Buffer n} {j i v : ℕ}
    (h : UniformBlock lo source j i v) (c : ℕ) : lo.occurrences source j i c = 64*(lo.indices v).count c := by
  have hall : lo.occurrences source j i c = ∑ _a ∈ Finset.range 8, ∑ _b ∈ Finset.range 8, (lo.indices v).count c :=
    Finset.sum_congr rfl fun a ha => Finset.sum_congr rfl fun b hb => by
      rw [h a (Finset.mem_range.mp ha) b (Finset.mem_range.mp hb)]
  rw [hall]
  simp only [Finset.sum_const,Finset.card_range,smul_eq_mul]
  omega

/-- The pixel that is written for a block of equal pixels has the same colour. -/
def Keeps (lo next : LayerOperations) (source : Buffer n) (x y j i v : ℕ) : Prop :=
  ∃ u < 2^next.getBpp, next.draw u = lo.draw v ∧ ∀ target : Tile lo.targetBpp, ∃ result,
    lo.reduce target source x y = some result ∧
      next.pixel result (height/8*y+j) (width/8*x+i) = u

section Keeps
variable {x y j i v : ℕ} {colormap : Colormap}

namespace Operations1bpp

theorem sums_uniform {source : Tile 1} (h : UniformBlock (.operations1bpp colormap) source j i v)
    (hj : j < height/8) (hi : i < width/8) : sums source j i = some [64*v] :=
  h.sums_eq rfl (sums_eq colormap source hj hi)

theorem keeps (hx : x < 8) (hy : y < 8) (hj : j < height/8) (hi : i < width/8) {source : Tile 1}
    (h : UniformBlock (.operations1bpp colormap) source j i v) (hv : v < 2) (hc : 2 ≤ colormap.length) :
    Keeps (.operations1bpp colormap) (.operations8bpp colormap) source x y j i v := by
  have h0 : colormap[0]? = some colormap[0] := List.getElem?_eq_getElem (by omega)
  have h1 : colormap[1]? = some colormap[1] := List.getElem?_eq_getElem (by omega)
  refine ⟨255*v,by simp only [LayerOperations.getBpp]; omega,?_,fun target => ?_⟩
  · simp only [LayerOperations.draw,h0,h1,Option.bind_eq_bind,Option.bind_some]
    obtain rfl | rfl : v = 0 ∨ v = 1 := by omega
    · simp [h0]
    · simp [h1]
  · have hr := (reduce_fills source hx hy).bytes_eq [255*v] hx hj hi (sums_uniform h hj hi)
      (by simp; omega) rfl (by simp; omega) target
    rw [Nat.ofDigits_singleton] at hr
    exact hr

end Operations1bpp

namespace Operations8bpp

theorem sums_uniform {source : Tile 8} (h : UniformBlock (.operations8bpp colormap) source j i v)
    (hj : j < height/8) (hi : i < width/8) : sums source j i = some [64*v] :=
  h.sums_eq rfl (sums_eq colormap source hj hi)

theorem keeps (hx : x < 8) (hy : y < 8) (hj : j < height/8) (hi : i < width/8) {source : Tile 8}
    (h : UniformBlock (.operations8bpp colormap) source j i v) (hv : v < 2^8) :
    Keeps (.operations8bpp colormap) (.operations8bpp colormap) source x y j i v := by
  refine ⟨v,hv,rfl,fun target => ?_⟩
  have hr := (reduce_fills source hx hy).bytes_eq [v] hx hj hi (sums_uniform h hj hi)
    (by simp) rfl (by simpa using hv) target
  rw [Nat.ofDigits_singleton] at hr
  exact hr

end Operations8bpp

namespace Operations24bpp
open LayerOperations

theorem sums_uniform {source : Tile 24} (h : UniformBlock .operations24bpp source j i v)
    (hj : j < height/8) (hi : i < width/8) :
    sums source j i = some [64*channel 8 0 v,64*channel 8 1 v,64*channel 8 2 v] :=
  h.sums_eq rfl (sums_eq source hj hi)

theorem keeps (hx : x < 8) (hy : y < 8) (hj : j < height/8) (hi : i < width/8) {source : Tile 24}
    (h : UniformBlock .operations24bpp source j i v) (hv : v < 2^24) :
    Keeps .operations24bpp .operations24bpp source x y j i v := by
  refine ⟨v,hv,rfl,fun target => ?_⟩
  have hr := (reduce_fills source hx hy).bytes_eq [channel 8 0 v,channel 8 1 v,channel 8 2 v]
    hx hj hi (sums_uniform h hj hi) (by simp) rfl (by simp [channel,Nat.mod_lt]) target
  have hd : Nat.ofDigits 256 [channel 8 0 v,channel 8 1 v,channel 8 2 v] = v := by
    simp only [Nat.ofDigits_cons,Nat.ofDigits_nil,channel]
    omega
  rw [hd] at hr
  exact hr

end Operations24bpp

theorem cmyk_keeps {f : Tile 32 → Option (Tile 32)} {sums : ℕ → ℕ → Option (List ℕ)} {g : ℕ → ℕ}
    {s : List ℕ} {c m y' k : ℕ} (hx : x < 8) (hj : j < height/8) (hi : i < width/8)
    (hfill : Fills f 32 x y 1 fun j i => bytesBit (((sums j i).getD []).map g))
    (hs : sums j i = some s) (hg : s.map g = [c,m,y',k]) (hlt : ∀ b ∈ [c,m,y',k], b < 256) :
    ∃ u < 2^32, LayerOperations.operationsCMYK32.draw u =
        some (inverseCmykPixel (255-c) (255-m) (255-y') (255-k)) ∧
      ∀ target, ∃ result, f target = some result ∧
        LayerOperations.operationsCMYK32.pixel result (height/8*y+j) (width/8*x+i) = u := by
  have hd : Nat.ofDigits 256 [c,m,y',k] < 256^4 :=
    Nat.ofDigits_lt_base_pow_length (by decide : 1 < 256) hlt
  refine ⟨Nat.ofDigits 256 [c,m,y',k],lt_of_lt_of_eq hd (by norm_num),?_,fun target => ?_⟩
  · simp only [List.mem_cons,List.not_mem_nil,or_false,forall_eq_or_imp,forall_eq] at hlt
    have h0 : LayerOperations.channel 8 0 (Nat.ofDigits 256 [c,m,y',k]) = c := by
      simp only [Nat.ofDigits_cons,Nat.ofDigits_nil,LayerOperations.channel]
      omega
    have h1 : LayerOperations.channel 8 1 (Nat.ofDigits 256 [c,m,y',k]) = m := by
      simp only [Nat.ofDigits_cons,Nat.ofDigits_nil,LayerOperations.channel]
      omega
    have h2 : LayerOperations.channel 8 2 (Nat.ofDigits 256 [c,m,y',k]) = y' := by
      simp only [Nat.ofDigits_cons,Nat.ofDigits_nil,LayerOperations.channel]
      omega
    have h3 : LayerOperations.channel 8 3 (Nat.ofDigits 256 [c,m,y',k]) = k := by
      simp only [Nat.ofDigits_cons,Nat.ofDigits_nil,LayerOperations.channel]
      omega
    simp only [LayerOperations.draw,h0,h1,h2,h3]
  · exact hfill.bytes_eq _ hx hj hi hs hg rfl hlt target

namespace OperationsCMYK32
open LayerOperations

theorem sums_uniform {source : Tile 32} (h : UniformBlock .operationsCMYK32 source j i v)
    (hj : j < height/8) (hi : i < width/8) :
    sums source j i = some [64*channel 8 0 v,64*channel 8 1 v,64*channel 8 2 v,64*channel 8 3 v] :=
  h.sums_eq rfl (sums_eq source hj hi)

theorem keeps (hx : x < 8) (hy : y < 8) (hj : j < height/8) (hi : i < width/8) {source : Tile 32}
    (h : UniformBlock .operationsCMYK32 source j i v) :
    Keeps .operationsCMYK32 .operationsCMYK32 source x y j i v :=
  cmyk_keeps hx hj hi (reduce_fills source hx hy) (sums_uniform h hj hi) (by simp)
    (by simp [channel,Nat.mod_lt])

end OperationsCMYK32

namespace OperationsCMYK16
open LayerOperations

theorem sums_uniform {source : Tile 16} (h : UniformBlock .operationsCMYK16 source j i v)
    (hj : j < height/8) (hi : i < width/8) :
    sums source j i = some [64*channel 4 1 v,64*channel 4 0 v,64*channel 4 3 v,64*channel 4 2 v] :=
  h.sums_eq rfl (sums_eq source hj hi)

theorem keeps (hx : x < 8) (hy : y < 8) (hj : j < height/8) (hi : i < width/8) {source : Tile 16}
    (h : UniformBlock .operationsCMYK16 source j i v) :
    Keeps .operationsCMYK16 .operationsCMYK32 source x y j i v := by
  have hscale : ∀ c : ℕ, 64*c*255/(15*64) = c*17 := fun c => by omega
  have hlt : ∀ c, channel 4 c v*17 < 256 := fun c => by
    have hc : channel 4 c v < 2^4 := Nat.mod_lt _ (by decide)
    omega
  exact cmyk_keeps hx hj hi (reduce_fills source hx hy) (sums_uniform h hj hi) (by simp only [List.map,hscale])
    (by simp [hlt])

end OperationsCMYK16

namespace OperationsCMYK8
open LayerOperations

theorem sums_uniform {source : Tile 8} (h : UniformBlock .operationsCMYK8 source j i v)
    (hj : j < height/8) (hi : i < width/8) :
    sums source j i = some [64*channel 2 3 v,64*channel 2 2 v,64*channel 2 1 v,64*channel 2 0 v] :=
  h.sums_eq rfl (sums_eq source hj hi)

theorem keeps (hx : x < 8) (hy : y < 8) (hj : j < height/8) (hi : i < width/8) {source : Tile 8}
    (h : UniformBlock .operationsCMYK8 source j i v) :
    Keeps .operationsCMYK8 .operationsCMYK32 source x y j i v := by
  have hscale : ∀ c : ℕ, 64*c*255/192 = c*85 := fun c => by omega
  have hlt : ∀ c, channel 2 c v*85 < 256 := fun c => by
    have hc : channel 2 c v < 2^2 := Nat.mod_lt _ (by decide)
    omega
  exact cmyk_keeps hx hj hi (reduce_fills source hx hy) (sums_uniform h hj hi)
    (by simp only [List.map,hscale]) (by simp [hlt])

end OperationsCMYK8

namespace OperationsCMYK4
open LayerOperations

theorem sums_uniform {source : Tile 4} (h : UniformBlock .operationsCMYK4 source j i v)
    (hj : j < height/8) (hi : i < width/8) :
    sums source j i = some [64*channel 1 3 v,64*channel 1 2 v,64*channel 1 1 v,64*channel 1 0 v] :=
  h.sums_eq rfl (sums_eq source hj hi)

theorem keeps (hx : x < 8) (hy : y < 8) (hj : j < height/8) (hi : i < width/8) {source : Tile 4}
    (h : UniformBlock .operationsCMYK4 source j i v) :
    Keeps .operationsCMYK4 .operationsCMYK32 source x y j i v := by
  have hscale : ∀ c : ℕ, 64*c*255/64 = c*255 := fun c => by omega
  have hlt : ∀ c, channel 1 c v*255 < 256 := fun c => by
    have hc : channel 1 c v < 2^1 := Nat.mod_lt _ (by decide)
    omega
  exact cmyk_keeps hx hj hi (reduce_fills source hx hy) (sums_uniform h hj hi)
    (by simp only [List.map,hscale]) (by simp [hlt])

end OperationsCMYK4

namespace Operations

theorem draw_pair {a b bpp : ℕ} (ha : a < 2^bpp) (hb : b < 2^bpp) (hc : 2^bpp ≤ colormap.length) :
    (LayerOperations.operationsColormapped colormap bpp).draw (a <<< bpp ||| b) =
      (LayerOperations.operationsColormapped colormap bpp).draw (b <<< bpp ||| a) := by
  have hga : colormap[a]? = some colormap[a] := List.getElem?_eq_getElem (by omega)
  have hgb : colormap[b]? = some colormap[b] := List.getElem?_eq_getElem (by omega)
  simp only [LayerOperations.draw,pair_and hb,pair_and ha,pair_shiftRight hb,pair_shiftRight ha,hga,hgb,
    Option.bind_eq_bind,Option.bind_some,Color.mix_half_comm colormap[a]]

/-- The pixel that is written for a block in which only the indices `a` and `b` occur. -/
theorem pairs_keep {bpp a b : ℕ} {f : Tile (2*bpp) → Option (Tile (2*bpp))}
    {kernel : ℕ → ℕ → Option (List ℕ)} {lookup : List ℕ} (h : bpp ∈ [1,2,4,8]) (hx : x < 8)
    (hj : j < height/8) (hi : i < width/8)
    (hfill : Fills f (2*bpp) x y (pixelsPerByte bpp) fun j i =>
      (((topTwo ((kernel j i).getD [])).1 <<< bpp) ||| (topTwo ((kernel j i).getD [])).2).testBit)
    (hk : kernel j i = some lookup) (hlen : lookup.length = 2^bpp) (ha : a < 2^bpp) (hb : b < 2^bpp)
    (hpa : 0 < lookup.getD a 0) (hpb : 0 < lookup.getD b 0)
    (hother : ∀ c, c ≠ a → c ≠ b → lookup.getD c 0 = 0) (hc : 2^bpp ≤ colormap.length) :
    ∃ u < 2^(2*bpp), (LayerOperations.operationsColormapped colormap bpp).draw u =
        (LayerOperations.operationsColormapped colormap bpp).draw (a <<< bpp ||| b) ∧
      ∀ target, ∃ result, f target = some result ∧
        (LayerOperations.operationsColormapped colormap bpp).pixel result
          (height/8*y+j) (width/8*x+i) = u := by
  have h2 : 2^1 ≤ 2^bpp := Nat.pow_le_pow_right (by decide) (bpp_pos h)
  have hwritten : ∀ u < 2^(2*bpp), ((topTwo lookup).1 <<< bpp) ||| (topTwo lookup).2 = u →
      ∀ target, ∃ result, f target = some result ∧
        (LayerOperations.operationsColormapped colormap bpp).pixel result
          (height/8*y+j) (width/8*x+i) = u := by
    intro u hu htop
    apply hfill.pixel_eq hx (pixelsPerByte_width h) hj hi hu
    intro k _
    rw [hk,Option.getD_some,htop]
  rcases topTwo_of_two (by omega) hpa hpb hother with htop | htop
  · exact ⟨_,pair_lt ha hb,rfl,hwritten _ (pair_lt ha hb) (by rw [htop])⟩
  · exact ⟨_,pair_lt hb ha,draw_pair hb ha hc,hwritten _ (pair_lt hb ha) (by rw [htop])⟩

theorem keeps {bpp : ℕ} (hb : bpp ∈ [1,2,4,8]) (hx : x < 8) (hy : y < 8) (hj : j < height/8)
    (hi : i < width/8) {source : Tile bpp} (h : UniformBlock (.operations colormap bpp) source j i v)
    (hv : v < 2^bpp) (hc : 2^bpp ≤ colormap.length) :
    Keeps (.operations colormap bpp) (.operationsColormapped colormap bpp) source x y j i v := by
  obtain ⟨lookup,hk,hlen,hcount⟩ := counts_eq colormap hb source hj hi
  simp only [h.occurrences_eq,LayerOperations.indices] at hcount
  have hpos : 0 < lookup.getD v 0 := by
    rw [hcount]
    simp
  obtain ⟨u,hu,hdraw,htarget⟩ := pairs_keep hb hx hj hi (reduce_fills hb hx hy source) hk hlen hv hv hpos hpos
    (fun c hne _ => by rw [hcount]; simp [Ne.symm hne]) hc
  refine ⟨u,hu,hdraw.trans ?_,htarget⟩
  have hg : colormap[v]? = some colormap[v] := List.getElem?_eq_getElem (by omega)
  simp [LayerOperations.draw,pair_and hv,pair_shiftRight hv,hg]

end Operations

namespace OperationsColormapped
open Operations

theorem keeps {bpp : ℕ} (hb : bpp ∈ [1,2,4,8]) (hx : x < 8) (hy : y < 8) (hj : j < height/8)
    (hi : i < width/8) {source : Tile (2*bpp)}
    (h : UniformBlock (.operationsColormapped colormap bpp) source j i v)
    (hv : v < 2^(2*bpp)) (hc : 2^bpp ≤ colormap.length) :
    Keeps (.operationsColormapped colormap bpp) (.operationsColormapped colormap bpp) source x y j i v := by
  obtain ⟨lookup,hk,hlen,hcount⟩ := counts_eq colormap hb source hj hi
  simp only [h.occurrences_eq,LayerOperations.indices] at hcount
  have hhigh : 0 < lookup.getD (v >>> bpp) 0 := by
    rw [hcount]
    exact Nat.mul_pos (by decide) (List.count_pos_iff.mpr (by simp))
  have hlow : 0 < lookup.getD (v &&& pixelMask bpp) 0 := by
    rw [hcount]
    exact Nat.mul_pos (by decide) (List.count_pos_iff.mpr (by simp))
  obtain ⟨u,hu,hdraw,htarget⟩ := pairs_keep hb hx hj hi (reduce_fills hb hx hy source) hk hlen
    (shiftRight_lt hv) (and_pixelMask_lt v bpp) hhigh hlow
    (fun c hne hne' => by rw [hcount]; simp [Ne.symm hne,Ne.symm hne']) hc
  rw [pair_eq] at hdraw
  exact ⟨u,hu,hdraw,htarget⟩

end OperationsColormapped

end Keeps

theorem Follows.keeps {lo next : LayerOperations} (h : Follows lo next)
    (hc : lo.colorsNeeded ≤ lo.colormap.length) {x y j i v : ℕ} (hx : x < 8) (hy : y < 8)
    (hj : j < height/8) (hi : i < width/8) {source : Tile lo.getBpp} (hv : v < 2^lo.getBpp)
    (hu : UniformBlock lo source j i v) : Keeps lo next source x y j i v := by
  cases h with
  | oneBit colormap => exact Operations1bpp.keeps hx hy hj hi hu hv hc
  | eightBits colormap => exact Operations8bpp.keeps hx hy hj hi hu hv
  | rgb => exact Operations24bpp.keeps hx hy hj hi hu hv
  | indices colormap hb => exact Operations.keeps hb hx hy hj hi hu hv hc
  | pairs colormap hb => exact OperationsColormapped.keeps hb hx hy hj hi hu hv hc
  | cmyk32 => exact OperationsCMYK32.keeps hx hy hj hi hu
  | cmyk16 => exact OperationsCMYK16.keeps hx hy hj hi hu
  | cmyk8 => exact OperationsCMYK8.keeps hx hy hj hi hu
  | cmyk4 => exact OperationsCMYK4.keeps hx hy hj hi hu

/-- Zooming from one layer to the next does not change the colour of a uniform area, for any
colormap that is large enough. -/
theorem uniform_color_survives {bmd : BitmapMetaData} {ls : LayerSpec} {colormapHelper : Option Colormap}
    (h : layerSpecForBitmap bmd = some (ls,colormapHelper)) {k : ℕ} {lo next : LayerOperations}
    (hlo : ls[min k (ls.length-1)]? = some lo) (hnext : ls[min (k+1) (ls.length-1)]? = some next)
    (colormap : Colormap)
    (hc : (lo.setColormap colormap).colorsNeeded ≤ (lo.setColormap colormap).colormap.length)
    {x y j i v : ℕ} (hx : x < 8) (hy : y < 8) (hj : j < height/8) (hi : i < width/8)
    (source : Tile (lo.setColormap colormap).getBpp)
    (hu : UniformBlock (lo.setColormap colormap) source j i v)
    (target : Tile (lo.setColormap colormap).targetBpp) :
    ∃ result color, (lo.setColormap colormap).reduce target source x y = some result ∧
      (next.setColormap colormap).cachePixel result (height/8*y+j) (width/8*x+i) = some color ∧
      ∀ a < 8, ∀ b < 8, (lo.setColormap colormap).cachePixel source (8*j+a) (8*i+b) = some color := by
  have hf := (follows_of_layerSpecForBitmap h hlo hnext).setColormap colormap
  generalize lo.setColormap colormap = lo at *
  generalize next.setColormap colormap = next at *
  have hv : v < 2^lo.getBpp := by
    rw [← hu 0 (by decide) 0 (by decide)]
    exact lo.pixel_lt source _ _
  obtain ⟨u,hlt,hdraw,htarget⟩ := hf.keeps hc hx hy hj hi hv hu
  obtain ⟨result,hr,hpixel⟩ := htarget target
  obtain ⟨color,hcolor⟩ := Option.isSome_iff_exists.mp (LayerOperations.draw_isSome hf.draws.1 hc hv)
  refine ⟨result,color,hr,?_,fun a ha b hb => ?_⟩
  · rw [LayerOperations.cachePixel_eq hf.indexBits.2 (by rw [hf.getBpp]) result
      (by simp only [height] at *; omega) (by simp only [width] at *; omega),hpixel,hdraw,hcolor]
  · rw [LayerOperations.cachePixel_eq hf.indexBits.1 rfl source
      (by simp only [height] at *; omega) (by simp only [width] at *; omega),hu a ha b hb,hcolor]

theorem uniformBlock_replicate (colormap : Colormap) {j i : ℕ} (hj : j < height/8) (hi : i < width/8) (v : UInt8) :
    UniformBlock (.operations colormap 8) (Vector.replicate (width*height*8/8) v) j i v.toNat := by
  intro a ha b hb
  have hp : width*(8*j+a)+(8*i+b) < width*height*8/8 := by
    simp only [width,height] at *
    omega
  have h := getElem?_eq_field (Vector.replicate (width*height*8/8) v) hp
  rw [Vector.getElem?_eq_getElem hp,Vector.getElem_replicate,Option.map_some,Option.some.injEq] at h
  show field _ (8*(width*(8*j+a)+SampleIterator.mirror 1 (8*i+b))) 8 = _
  rw [mirror_one,h]

/-- Index 200 of a palette of 256 colours, in the last pixel of the last block. -/
theorem uniform_color_survives_palette :
    ∃ result color, (LayerOperations.operations (.createDefault 256) 8).reduce
        (Vector.replicate (width*height*16/8) 0 : Tile 16) (Vector.replicate (width*height*8/8) 200) 7 7 = some result ∧
      (LayerOperations.operationsColormapped (.createDefault 256) 8).cachePixel result
        (height/8*7+511) (width/8*7+511) = some color ∧
      ∀ a < 8, ∀ b < 8, (LayerOperations.operations (.createDefault 256) 8).cachePixel
        (Vector.replicate (width*height*8/8) 200) (8*511+a) (8*511+b) = some color :=
  uniform_color_survives
    (show layerSpecForBitmap ⟨.colormapped,8,1,⟨⟨0,100⟩,⟨0,100⟩⟩,some (.createDefault 256)⟩ = some (_,_) from rfl)
    (k := 0) rfl rfl (.createDefault 256) (Colormap.length_createDefault 256).ge (by decide) (by decide)
    (by decide) (by decide)
    (Vector.replicate (width*height*8/8) 200) (uniformBlock_replicate _ (by decide) (by decide) 200)
    (Vector.replicate (width*height*16/8) 0)

end Scroom
