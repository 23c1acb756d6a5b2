import Scroom.BlockMeans
import Scroom.Redraw

/-! Zooming a clipped monochrome bitmap out, by drawing its tiles smaller or by reducing them. A line of set
pixels stays visible in both ways. -/
namespace Scroom

open Buffer

variable {n m : ℕ}

namespace Operations1bppClipped

/-- The colour for a square of `pixelSize` by `pixelSize` pixels. -/
def zoomedPixel (colormap : Colormap) (pixelSize : ℕ) (tile : Buffer n) (j i : ℕ) : Option ℕ := do
  let sum ← (List.range pixelSize).foldlM (fun sum y =>
    let inputByte := (j*pixelSize+y)*width/8+pixelSize*i/8
    let inputBit := pixelSize*i%8
    (List.range pixelSize).foldlM (fun sum x => do
      let bit := SampleIterator.next^[x] (.create .uint8 inputByte inputBit 1)
      return if (← bit.get tile) ≠ 0 then sum+1 else sum) sum) 0
  let color ← colormap[if sum > 0 then 1 else sum]?
  return color.getARGB32

def cacheZoom (colormap : Colormap) (tile : Buffer n) (zoom : ℤ) : Option (List (List ℕ)) := do
  let pixelSize ← TiledBitmap.oneShiftedLeft (-if 0 ≤ zoom then 0 else zoom).toNat
  let outputWidth := (width:ℤ).tdiv pixelSize
  let outputHeight := (height:ℤ).tdiv pixelSize
  (List.range outputHeight.toNat).mapM fun j => (List.range outputWidth.toNat).mapM fun i =>
    zoomedPixel colormap pixelSize.toNat tile j i

def IsSet (tile : Buffer n) (row col : ℕ) : Prop :=
  LayerOperations.pixel tile row col (.operations1bppClipped []) = 1

instance (tile : Buffer n) (row col : ℕ) : Decidable (IsSet tile row col) := inferInstanceAs (Decidable (_ = _))

/-- A pixel is set in the square that a zoomed pixel covers. -/
def Covered (pixelSize : ℕ) (tile : Buffer n) (j i : ℕ) : Prop :=
  ∃ y < pixelSize, ∃ x < pixelSize, IsSet tile (j*pixelSize+y) (i*pixelSize+x)

instance (pixelSize : ℕ) (tile : Buffer n) (j i : ℕ) : Decidable (Covered pixelSize tile j i) :=
  inferInstanceAs (Decidable (∃ y < pixelSize, ∃ x < pixelSize, IsSet tile (j*pixelSize+y) (i*pixelSize+x)))

/-- The bitmap has a pixel for each square, in the colour for lines where a pixel in the square is set. -/
def Shows (background foreground : Color) (pixelSize : ℕ) (tile : Buffer n) (bitmap : List (List ℕ)) : Prop :=
  bitmap.length = height/pixelSize ∧ ∀ (j : ℕ) (row : List ℕ), bitmap[j]? = some row →
    row.length = width/pixelSize ∧ ∀ (i color : ℕ), row[i]? = some color →
      color = if Covered pixelSize tile j i then foreground.getARGB32 else background.getARGB32

def part (size left top : ℕ) (bitmap : List (List ℕ)) : List (List ℕ) :=
  ((bitmap.drop top).take size).map fun row => (row.drop left).take size

section Squares
variable {p j i x y : ℕ} {tile : Tile 1}

theorem pixel_lt_two (tile : Buffer n) (row col : ℕ) :
    LayerOperations.pixel tile row col (.operations1bppClipped []) < 2 :=
  LayerOperations.pixel_lt tile row col (.operations1bppClipped [])

theorem read_square (hj : j*p+p ≤ height) (hi : i*p+p ≤ width) (hy : y < p) (hx : x < p) :
    (SampleIterator.next^[x] (.create .uint8 ((j*p+y)*width/8+p*i/8) (p*i%8) 1)).get tile =
      some (LayerOperations.pixel tile (j*p+y) (i*p+x) (.operations1bppClipped [])) := by
  have hptr : 8*((j*p+y)*width/8) = width*(j*p+y) := by
    simp only [width]
    omega
  have hplace : p*i%8+x+8*(p*i/8) = i*p+x := by
    rw [Nat.mul_comm i p]
    omega
  rw [SampleIterator.iterate_next_create (by decide),
    SampleIterator.get_create (show 8*1 = 8*Base.uint8.size from rfl) (by decide)]
  · congr 2
    show 8*((j*p+y)*width/8+p*i/8)+1*SampleIterator.mirror 8 (p*i%8+x) =
      1*(width*(j*p+y)+SampleIterator.mirror 8 (i*p+x))
    rw [← hplace,Nat.add_comm _ (8*(p*i/8)),mirror_add (by decide),Nat.mul_add,hptr]
    ring
  · show (j*p+y)*width/8+p*i/8+1*((p*i%8+x)/8)+1 ≤ width*height*1/8
    rw [Nat.mul_comm i p] at hi
    simp only [width,height] at *
    omega

theorem zoomedPixel_eq (colormap : Colormap) (hj : j*p+p ≤ height) (hi : i*p+p ≤ width) :
    zoomedPixel colormap p tile j i = (colormap[if Covered p tile j i then 1 else 0]?).map Color.getARGB32 := by
  have hsum := Loops.foldlM_exists (n := p) (P := fun sum => 0 < sum)
    (Q := fun y => ∃ x < p, IsSet tile (j*p+y) (i*p+x))
    (f := fun sum y => (List.range p).foldlM (fun sum x => do
      let bit := SampleIterator.next^[x] (.create .uint8 ((j*p+y)*width/8+p*i/8) (p*i%8) 1)
      return if (← bit.get tile) ≠ 0 then sum+1 else sum) sum)
    (fun y hy => Loops.foldlM_exists fun x hx sum => by
      dsimp only
      rw [read_square hj hi hy hx]
      refine ⟨_,rfl,?_⟩
      have hlt := pixel_lt_two tile (j*p+y) (i*p+x)
      rw [IsSet]
      split_ifs <;> omega) 0
  obtain ⟨sum,hsum,hpos⟩ := hsum
  have hindex : (if sum > 0 then 1 else sum) = if Covered p tile j i then 1 else 0 := by
    have hcovered : sum > 0 ↔ Covered p tile j i := hpos.trans (or_iff_right (by decide))
    rw [if_congr hcovered rfl rfl]
    split_ifs with hc
    · rfl
    · exact Nat.eq_zero_of_not_pos (hcovered.not.mpr hc)
  rw [zoomedPixel,hsum,Option.bind_eq_bind,Option.bind_some,hindex]
  cases colormap[if Covered p tile j i then 1 else 0]? <;> rfl

end Squares

section Bitmaps
variable {k j i x y : ℕ} {tile source target : Tile 1} {background foreground : Color} {rest : Colormap}

def squares (background foreground : Color) (pixelSize : ℕ) (tile : Buffer n) : List (List ℕ) :=
  (List.range (height/pixelSize)).map fun j => (List.range (width/pixelSize)).map fun i =>
    if Covered pixelSize tile j i then foreground.getARGB32 else background.getARGB32

theorem cacheZoom_eq (hk : k ≤ 31) : cacheZoom (background::foreground::rest) tile (-(k:ℤ)) =
    some (squares background foreground (2^k) tile) := by
  have hzoom : (-if 0 ≤ -(k:ℤ) then 0 else -(k:ℤ)).toNat = k := by
    split_ifs <;> omega
  rw [cacheZoom,hzoom]
  rcases Nat.lt_or_ge 30 k with h | h
  · obtain rfl : k = 31 := by omega
    rfl
  · have hcast : (2:ℤ)^k = (2^k : ℕ) := by push_cast; rfl
    have hside : ∀ side : ℕ, ((side:ℤ).tdiv (2^k)).toNat = side/2^k := fun side => by
      rw [hcast,← Int.ofNat_tdiv,Int.toNat_natCast]
    have hfits : ∀ side : ℕ, ∀ i < side/2^k, i*2^k+2^k ≤ side := by
      intro side i hi
      rw [← Nat.succ_mul]
      exact (Nat.mul_le_mul_right _ hi).trans (Nat.div_mul_le_self _ _)
    rw [TiledBitmap.oneShiftedLeft_small h,Option.bind_eq_bind,Option.bind_some]
    simp only [hside]
    refine Loops.mapM_eq_some_map fun j hj => Loops.mapM_eq_some_map fun i hi => ?_
    have hj := hfits _ j (List.mem_range.mp hj)
    have hi := hfits _ i (List.mem_range.mp hi)
    rw [hcast,Int.toNat_natCast,zoomedPixel_eq _ hj hi]
    split_ifs <;> rfl

theorem cacheZoom_eq_none (colormap : Colormap) (tile : Buffer n) (hk : 31 < k) :
    cacheZoom colormap tile (-(k:ℤ)) = none := by
  have hzoom : (-if 0 ≤ -(k:ℤ) then 0 else -(k:ℤ)).toNat = k := by
    split_ifs <;> omega
  rw [cacheZoom,hzoom,TiledBitmap.oneShiftedLeft,if_neg (by omega)]
  rfl

theorem shows_squares (tile : Buffer n) (pixelSize : ℕ) :
    Shows background foreground pixelSize tile (squares background foreground pixelSize tile) := by
  refine ⟨by simp [squares],fun j row hrow => ?_⟩
  obtain ⟨hj,hrow⟩ := List.getElem?_eq_some_iff.mp hrow
  simp only [squares,List.getElem_map,List.getElem_range] at hrow
  refine ⟨by simp [← hrow],fun i color hcolor => ?_⟩
  obtain ⟨hi,hcolor⟩ := List.getElem?_eq_some_iff.mp hcolor
  simp only [← hrow,List.getElem_map,List.getElem_range] at hcolor
  exact hcolor.symm

theorem sums_pos (source : Tile 1) (hj : j < height/8) (hi : i < width/8) :
    ((Operations1bpp.sums source j i).getD []).getD 0 0 > 0 ↔ Covered 8 source j i := by
  obtain ⟨sum,hsum,-,hblock⟩ := Operations1bpp.sums_eq [] source hj hi
  rw [hsum,Option.getD_some,hblock 0 (by decide),LayerOperations.blockSum,gt_iff_lt,Finset.sum_pos_iff]
  simp only [Finset.sum_pos_iff,Finset.mem_range,Covered,Nat.mul_comm _ 8]
  refine exists_congr fun a => and_congr_right fun _ => exists_congr fun b => and_congr_right fun _ => ?_
  have hlt := pixel_lt_two source (8*j+a) (8*i+b)
  show 0 < LayerOperations.pixel source (8*j+a) (8*i+b) (.operations1bppClipped []) ↔ _ = 1
  omega

theorem isSet_reduce (hx : x < 8) (hy : y < 8) (source target : Tile 1) :
    ∃ result : Tile 1, reduce target source x y = some result ∧ ∀ j < height/8, ∀ i < width/8,
      (IsSet result (height/8*y+j) (width/8*x+i) ↔ Covered 8 source j i) := by
  have hpixel : ∀ j < height/8, ∀ i < width/8, ∃ result : Tile 1, reduce target source x y = some result ∧
      (IsSet result (height/8*y+j) (width/8*x+i) ↔ Covered 8 source j i) := by
    intro j hj i hi
    obtain ⟨result,hresult,hfield⟩ := (reduce_fills source hx hy).pixel_eq (c := 64)
      (u := if Covered 8 source j i then 1 else 0) hx rfl hj hi (by split_ifs <;> decide)
      (fun k _ => by rw [if_congr (sums_pos source hj hi) rfl rfl]) target
    refine ⟨result,hresult,?_⟩
    have hvalue : LayerOperations.pixel result (height/8*y+j) (width/8*x+i) (.operations1bppClipped []) =
      if Covered 8 source j i then 1 else 0 := hfield
    rw [IsSet,hvalue]
    split_ifs with h <;> simp [h]
  obtain ⟨result,hresult,-⟩ := hpixel 0 (by decide) 0 (by decide)
  refine ⟨result,hresult,fun j hj i hi => ?_⟩
  obtain ⟨result',hresult',h⟩ := hpixel j hj i hi
  obtain rfl := Option.some.inj (hresult.symm.trans hresult')
  exact h

theorem covered_mul (p q : ℕ) (tile : Buffer n) (j i : ℕ) :
    (∃ v < p, ∃ u < p, Covered q tile (j*p+v) (i*p+u)) ↔ Covered (q*p) tile j i := by
  constructor
  · rintro ⟨v,hv,u,hu,a,ha,b,hb,h⟩
    have hlt : ∀ {c d : ℕ}, c < p → d < q → c*q+d < q*p := fun {c d} hc hd => by
      calc c*q+d < c*q+q := Nat.add_lt_add_left hd _
        _ = q*(c+1) := by ring
        _ ≤ q*p := Nat.mul_le_mul_left q hc
    have hplace : ∀ k c d : ℕ, (k*p+c)*q+d = k*(q*p)+(c*q+d) := fun k c d => by ring
    rw [hplace,hplace] at h
    exact ⟨v*q+a,hlt hv ha,u*q+b,hlt hu hb,h⟩
  · rintro ⟨a,ha,b,hb,h⟩
    have hq : 0 < q := Nat.pos_of_ne_zero fun hq => by simp [hq] at ha
    have hplace : ∀ k c : ℕ, k*(q*p)+c = (k*p+c/q)*q+c%q := fun k c => by
      conv_lhs => rw [← Nat.div_add_mod c q]
      ring
    rw [hplace,hplace] at h
    exact ⟨a/q,Nat.div_lt_of_lt_mul ha,b/q,Nat.div_lt_of_lt_mul hb,a%q,Nat.mod_lt _ hq,b%q,Nat.mod_lt _ hq,h⟩

theorem covered_reduce {p s : ℕ} {result : Buffer n} (hps : s*p = width/8)
    (h : ∀ j < height/8, ∀ i < width/8, (IsSet result (height/8*y+j) (width/8*x+i) ↔ Covered 8 source j i))
    (hj : j < s) (hi : i < s) : Covered p result (s*y+j) (s*x+i) ↔ Covered (8*p) source j i := by
  rw [← covered_mul]
  refine exists_congr fun v => and_congr_right fun hv => exists_congr fun u => and_congr_right fun hu => ?_
  have hlt : ∀ {k c : ℕ}, k < s → c < p → k*p+c < width/8 := fun {k c} hk hc => by
    calc k*p+c < k*p+p := Nat.add_lt_add_left hc _
      _ = (k+1)*p := by ring
      _ ≤ s*p := Nat.mul_le_mul_right p hk
      _ = width/8 := hps
  have hplace : ∀ z k c : ℕ, (s*z+k)*p+c = width/8*z+(k*p+c) := fun z k c => by
    rw [← hps]
    ring
  rw [hplace,hplace]
  exact h _ (hlt hj hv) _ (hlt hi hu)

theorem part_map_range {T : Type*} {f : ℕ → T} {a s l : ℕ} (h : a+s ≤ l) :
    (((List.range l).map f).drop a).take s = (List.range s).map fun j => f (a+j) := by
  refine List.ext_getElem (by simp; omega) fun j hj hj' => ?_
  simp

theorem part_squares {p s : ℕ} {result : Buffer n} (hps : s*p = width/8) (hx : x < 8) (hy : y < 8)
    (h : ∀ j < height/8, ∀ i < width/8, (IsSet result (height/8*y+j) (width/8*x+i) ↔ Covered 8 source j i)) :
    part s (s*x) (s*y) (squares background foreground p result) =
      squares background foreground (8*p) source := by
  have hp : 0 < p := Nat.pos_of_ne_zero fun hp => by simp [hp,width] at hps
  have hsquares : ∀ q t : ℕ, 0 < q → t*q = width → width/q = t := fun q t hq ht => by
    rw [← ht,Nat.mul_div_cancel _ hq]
  have hsmall : width/p = 8*s := hsquares p (8*s) hp (by rw [Nat.mul_assoc,hps]; rfl)
  have hsmall' : height/p = 8*s := hsmall
  have hlarge : width/(8*p) = s := hsquares (8*p) s (by omega) (by rw [Nat.mul_left_comm,hps]; rfl)
  have hlarge' : height/(8*p) = s := hlarge
  have hroom : ∀ {z : ℕ}, z < 8 → s*z+s ≤ 8*s := fun {z} hz => by
    calc s*z+s = s*(z+1) := by ring
      _ ≤ s*8 := Nat.mul_le_mul_left s hz
      _ = 8*s := Nat.mul_comm _ _
  rw [part,squares,squares,hsmall',hsmall,hlarge',hlarge,part_map_range (hroom hy),List.map_map]
  refine List.map_congr_left fun j hj => ?_
  rw [Function.comp_apply,part_map_range (hroom hx)]
  refine List.map_congr_left fun i hi => ?_
  exact if_congr (covered_reduce hps h (List.mem_range.mp hj) (List.mem_range.mp hi)) rfl rfl

end Bitmaps

/-- A pixel at any zoom has the colour for lines exactly if a line passes through its square. A tile drawn 8 times
smaller looks like its part of the tile that it is reduced to. -/
theorem zoom_agrees (background foreground : Color) (rest : Colormap) (source target : Tile 1) {x y k : ℕ}
    (hx : x < 8) (hy : y < 8) (hk : 2^(3+k) ≤ width) :
    let colormap := background::foreground::rest
    (∀ zoom : ℤ, zoom ≤ 0 → (-31 ≤ zoom → ∃ bitmap, cacheZoom colormap source zoom = some bitmap) ∧
      ∀ bitmap, cacheZoom colormap source zoom = some bitmap →
        Shows background foreground (2^(-zoom).toNat) source bitmap) ∧
    ∃ result : Tile 1, ∃ bitmap reduced, reduce target source x y = some result ∧
      cacheZoom colormap source (-(3+k)) = some bitmap ∧ cacheZoom colormap result (-k) = some reduced ∧
        bitmap = part (width/2^(3+k)) (width/2^(3+k)*x) (width/2^(3+k)*y) reduced := by
  have hle : 3+k ≤ 12 := (Nat.pow_le_pow_iff_right (by decide : 1 < 2)).mp hk
  refine ⟨fun zoom hzoom => ?_,?_⟩
  · obtain ⟨l,hl⟩ := Int.eq_ofNat_of_zero_le (neg_nonneg.mpr hzoom)
    obtain rfl : zoom = -(l:ℤ) := by omega
    rcases Nat.lt_or_ge 31 l with h | h
    · rw [cacheZoom_eq_none _ source h]
      exact ⟨fun hl => by omega,fun bitmap hb => by cases hb⟩
    · rw [cacheZoom_eq h,neg_neg,Int.toNat_natCast]
      refine ⟨fun _ => ⟨_,rfl⟩,fun bitmap hb => ?_⟩
      obtain rfl := Option.some.inj hb
      exact shows_squares source _
  · obtain ⟨result,hresult,hset⟩ := isSet_reduce hx hy source target
    have hps : width/2^(3+k)*2^k = width/8 := by
      obtain ⟨d,hd⟩ := Nat.exists_eq_add_of_le hle
      have hwidth : width = 2^d*2^(3+k) := by
        rw [← Nat.pow_add,Nat.add_comm d,← hd]
        rfl
      rw [hwidth,Nat.mul_div_cancel _ (Nat.two_pow_pos _),Nat.pow_add 2 3,Nat.mul_left_comm,
        Nat.mul_div_cancel_left _ (by decide)]
    refine ⟨result,_,_,hresult,?_,cacheZoom_eq (by omega),(part_squares hps hx hy hset).symm⟩
    have hpow : 8*2^k = 2^(3+k) := by rw [Nat.pow_add]
    have hcast : (-(3+(k:ℤ))) = -((3+k : ℕ):ℤ) := by push_cast; rfl
    rw [hpow,hcast]
    exact cacheZoom_eq (by omega)

theorem zoom_agrees_lastCorner :
    let colormap : Colormap := [.gray 1,.gray 0]
    let source : Tile 1 := Vector.replicate _ 1
    ∃ result : Tile 1, ∃ bitmap reduced, reduce (Vector.replicate _ 0) source 7 7 = some result ∧
      cacheZoom colormap source (-(3+(9:ℕ))) = some bitmap ∧ cacheZoom colormap result (-(9:ℕ)) = some reduced ∧
        bitmap = part (width/2^(3+9)) (width/2^(3+9)*7) (width/2^(3+9)*7) reduced :=
  (zoom_agrees (.gray 1) (.gray 0) [] (Vector.replicate _ 1) (Vector.replicate _ 0) (by decide) (by decide)
    (by decide)).2

end Operations1bppClipped
end Scroom
