import Scroom.CmykLayerOperations

/-! What `reduce` does to the target: it fills the block that belongs to the offset of the
source, with content that depends on the source alone, and leaves the other bytes as they are. -/
namespace Scroom

open Buffer

variable {n m : ℕ}

/-- The bits of a sample or a pixel, given its number and the bits of one. -/
def slot (bpp k : ℕ) : Set ℕ := {a | a/bpp = k}

theorem range_eq_slot {bpp p k : ℕ} (h : 0 < bpp) (hp : p = bpp*k) :
    {a | p ≤ a ∧ a < p+bpp} = slot bpp k := by
  ext a
  simp only [slot,Set.mem_ofPred_eq]
  rw [hp,Nat.div_eq_iff h]
  have hm : k*bpp = bpp*k := Nat.mul_comm k bpp
  omega

theorem slot_disjoint {bpp k l : ℕ} (h : k ≠ l) : Disjoint (slot bpp k) (slot bpp l) := by
  rw [Set.disjoint_left]
  intro a ha hb
  exact h (ha.symm.trans hb)

theorem sub_eq_mod {bpp k a : ℕ} (ha : a ∈ slot bpp k) : a-bpp*k = a%bpp := by
  have hk : a/bpp = k := ha
  have h := Nat.div_add_mod a bpp
  rw [hk] at h
  omega

/-- A pixel of a block of 512 by 512 pixels, as one of the whole tile. -/
def blockPixel (x y j i : ℕ) : ℕ := width*(height/8*y+j)+(width/8*x+i)

/-- The bits of the block of 512 by 512 pixels at an offset. -/
def block (bpp x y : ℕ) : Set ℕ :=
  {a | height/8*y ≤ a/bpp/width ∧ a/bpp/width < height/8*(y+1) ∧
    width/8*x ≤ a/bpp%width ∧ a/bpp%width < width/8*(x+1)}

theorem blockPixel_div {x y j i : ℕ} (hx : x < 8) (hi : i < width/8) :
    blockPixel x y j i/width = height/8*y+j := by
  simp only [blockPixel,width,height] at *
  omega

theorem blockPixel_mod {x y j i : ℕ} (hx : x < 8) (hi : i < width/8) :
    blockPixel x y j i%width = width/8*x+i := by
  simp only [blockPixel,width,height] at *
  omega

theorem blockPixel_inj {x y j i j' i' : ℕ} (hx : x < 8) (hi : i < width/8) (hi' : i' < width/8)
    (h : blockPixel x y j i = blockPixel x y j' i') : j = j' ∧ i = i' := by
  have hd := congrArg (·/width) h
  have hm := congrArg (·%width) h
  simp only [blockPixel_div hx hi,blockPixel_div hx hi',blockPixel_mod hx hi,blockPixel_mod hx hi'] at hd hm
  omega

theorem mem_block_iff {bpp x y a : ℕ} (hx : x < 8) :
    a ∈ block bpp x y ↔ ∃ j < height/8, ∃ i < width/8, a ∈ slot bpp (blockPixel x y j i) := by
  simp only [block,slot,Set.mem_ofPred_eq]
  generalize a/bpp = k
  constructor
  · intro h
    refine ⟨k/width-height/8*y,?_,k%width-width/8*x,?_,?_⟩ <;>
      simp only [blockPixel,width,height] at * <;> omega
  · rintro ⟨j,hj,i,hi,rfl⟩
    rw [blockPixel_div hx hi,blockPixel_mod hx hi]
    simp only [width,height] at *
    omega

theorem block_disjoint {bpp x y x' y' : ℕ} (h : (x,y) ≠ (x',y')) :
    Disjoint (block bpp x y) (block bpp x' y') := by
  rw [Set.disjoint_left]
  intro a ha hb
  apply h
  simp only [block,width,height,Set.mem_ofPred_eq] at ha hb
  have hx : x = x' := by omega
  have hy : y = y' := by omega
  rw [hx,hy]

/-- A reduction fills one block of the target. The bits of pixel `i` of row `j` are those of
`pixel j i`; the pixels are stored in words of `s` pixels, the first in the highest bits. -/
def Fills (f : Buffer n → Option (Buffer n)) (bpp x y s : ℕ) (pixel : ℕ → ℕ → ℕ → Bool) : Prop :=
  ∃ w, Writes f (block bpp x y) w ∧ ∀ j < height/8, ∀ i < width/8,
    ∀ a ∈ slot bpp (blockPixel x y j (SampleIterator.mirror s i)), w a = pixel j i (a%bpp)

theorem mirror_width {s c i : ℕ} (hs : s*c = width/8) (hi : i < width/8) :
    SampleIterator.mirror s i < width/8 := by
  have hp : 0 < s := Nat.pos_of_ne_zero fun h => by simp [h,width] at hs
  rw [← hs] at hi ⊢
  exact SampleIterator.mirror_lt hp hi

theorem mirror_inj {s c i i' : ℕ} (hs : s*c = width/8)
    (h : SampleIterator.mirror s i = SampleIterator.mirror s i') : i = i' := by
  have hp : 0 < s := Nat.pos_of_ne_zero fun h => by simp [h,width] at hs
  rw [← SampleIterator.mirror_mirror hp i,h,SampleIterator.mirror_mirror hp]

theorem reduceBlocks_fills {V : Type} {kernel : ℕ → ℕ → Option V}
    {put : Buffer n → ℕ → ℕ → V → Option (Buffer n)} {v : ℕ → ℕ → V} {bpp x y s c : ℕ}
    {pixel : ℕ → ℕ → ℕ → Bool} (hx : x < 8) (hs : s*c = width/8)
    (hk : ∀ j < height/8, ∀ i < width/8, kernel j i = some (v j i))
    (hput : ∀ j < height/8, ∀ i < width/8, Writes (fun b => put b j i (v j i))
      (slot bpp (blockPixel x y j (SampleIterator.mirror s i))) fun a => pixel j i (a%bpp)) :
    Fills (reduceBlocks kernel put) bpp x y s pixel := by
  have hrow : ∀ j < height/8, ∃ w : ℕ → Bool, (∀ i < width/8,
      ∀ a ∈ slot bpp (blockPixel x y j (SampleIterator.mirror s i)), w a = pixel j i (a%bpp)) ∧
      Writes (fun b => (List.range (width/8)).foldlM
        (fun target i => (kernel j i).bind (put target j i)) b)
        {a | ∃ i < width/8, a ∈ slot bpp (blockPixel x y j (SampleIterator.mirror s i))} w := by
    intro j hj
    apply Writes.loop
    · intro i hi
      simpa only [hk j hj i hi,Option.bind_some] using hput j hj i hi
    · intro i hi l hl
      apply slot_disjoint
      intro h
      have hm := (blockPixel_inj hx (mirror_width hs (by omega)) (mirror_width hs hi) h).2
      exact hl.ne (mirror_inj hs hm)
  choose! w hw hwrites using hrow
  obtain ⟨u,hu,hall⟩ := Writes.loop hwrites fun j _ l hl => by
    rw [Set.disjoint_left]
    intro a ha hb
    obtain ⟨i,hi,ha⟩ := ha
    obtain ⟨i',hi',hb⟩ := hb
    have h : blockPixel x y l _ = blockPixel x y j _ := ha.symm.trans hb
    exact hl.ne (blockPixel_inj hx (mirror_width hs hi) (mirror_width hs hi') h).1
  refine ⟨u,hall.congr ?_ fun a _ => rfl,fun j hj i hi a ha => ?_⟩
  · ext a
    have hp : 0 < s := Nat.pos_of_ne_zero fun h => by simp [h,width] at hs
    rw [mem_block_iff hx]
    simp only [Set.mem_ofPred_eq]
    constructor
    · rintro ⟨j,hj,i,hi,ha⟩
      exact ⟨j,hj,_,mirror_width hs hi,ha⟩
    · rintro ⟨j,hj,i,hi,ha⟩
      refine ⟨j,hj,SampleIterator.mirror s i,mirror_width hs hi,?_⟩
      rwa [SampleIterator.mirror_mirror hp]
  · rw [hu j hj a ⟨i,hi,ha⟩,hw j hj i hi a ha]

/-- Bytes one after the other. -/
def bytesBit (values : List ℕ) (k : ℕ) : Bool := (values.getD (k/8) 0).testBit (k%8)

theorem putBytes_writes {ptr : ℕ} {values : List ℕ} (h : ptr+values.length ≤ n) :
    Writes (fun b : Buffer n => putBytes b ptr values) {a | 8*ptr ≤ a ∧ a < 8*ptr+8*values.length}
      fun a => bytesBit values (a-8*ptr) := by
  have hbyte : ∀ c < values.length, Writes (fun b : Buffer n =>
      Buffer.write b (ptr+c) (.ofNat (values.getD c 0))) {a | a/8 = ptr+c}
      fun a => (UInt8.ofNat (values.getD c 0)).toNat.testBit (a%8) := by
    intro c hc
    exact write_writes (by omega) _
  obtain ⟨w,hw,hall⟩ := Writes.loop hbyte fun c _ l hl => by
    rw [Set.disjoint_left]
    intro a ha hb
    have h1 : a/8 = ptr+l := ha
    have h2 : a/8 = ptr+c := hb
    omega
  refine hall.congr ?_ ?_
  · ext a
    simp only [Set.mem_ofPred_eq]
    constructor
    · rintro ⟨c,hc,ha⟩
      omega
    · intro ha
      exact ⟨a/8-ptr,by omega,by omega⟩
  · intro a ha
    obtain ⟨c,hc,ha⟩ := ha
    rw [hw c hc a ha]
    have hd : a/8 = ptr+c := ha
    have hq : (a-8*ptr)/8 = c := by omega
    have hm : (a-8*ptr)%8 = a%8 := by omega
    rw [bytesBit,hq,hm,Base.testBit_ofNat _ _ (by omega)]

theorem putBytes_fills (ch : ℕ) {sums : ℕ → ℕ → Option (List ℕ)} {ptr : ℕ → ℕ → ℕ} {f : ℕ → ℕ}
    {x y : ℕ} (hx : x < 8) (hy : y < 8) (hch : 0 < ch) (hn : n = width*height*ch)
    (hsums : ∀ j < height/8, ∀ i < width/8, ∃ v, sums j i = some v ∧ v.length = ch)
    (hptr : ∀ j i, ptr j i = ch*blockPixel x y j i) :
    Fills (n := n) (reduceBlocks sums fun target j i sum => putBytes target (ptr j i) (sum.map f))
      (8*ch) x y 1 fun j i => bytesBit (((sums j i).getD []).map f) := by
  apply reduceBlocks_fills (v := fun j i => (sums j i).getD []) (c := width/8) hx (Nat.one_mul _)
  · intro j hj i hi
    obtain ⟨v,hv,-⟩ := hsums j hj i hi
    simp [hv]
  · intro j hj i hi
    obtain ⟨v,hv,hl⟩ := hsums j hj i hi
    have hm : SampleIterator.mirror 1 i = i := by simp [SampleIterator.mirror,Nat.mod_one]
    have hb : blockPixel x y j i+1 ≤ width*height := by
      simp only [blockPixel,width,height] at *
      omega
    have hle := Nat.mul_le_mul_left ch hb
    have hlen : ptr j i+(v.map f).length ≤ n := by
      rw [hptr,hn,List.length_map,hl]
      calc ch*blockPixel x y j i+ch = ch*(blockPixel x y j i+1) := by ring
        _ ≤ ch*(width*height) := hle
        _ = width*height*ch := Nat.mul_comm _ _
    have hstart : 8*ptr j i = 8*ch*blockPixel x y j i := by rw [hptr,Nat.mul_assoc]
    simp only [hm,hv,Option.getD_some]
    apply (putBytes_writes hlen).congr
    · rw [List.length_map,hl]
      exact range_eq_slot (by omega) hstart
    · intro a ha
      rw [List.length_map,hl,range_eq_slot (by omega) hstart] at ha
      rw [hstart,sub_eq_mod ha]

theorem setSample_fills {V : Type} {kernel : ℕ → ℕ → Option V} {ptr : ℕ → ℕ} (value : V → ℕ)
    {v : ℕ → ℕ → V} {base : Base} {bps x y s c : ℕ} (hx : x < 8) (hy : y < 8) (hb : 0 < bps)
    (hs : s*bps = 8*base.size) (hc : s*c = width/8) (hn : 8*n = width*height*bps)
    (hk : ∀ j < height/8, ∀ i < width/8, kernel j i = some (v j i) ∧ value (v j i) < 2^bps)
    (hptr : ∀ j, 8*ptr j = bps*blockPixel x y j 0) :
    Fills (n := n) (reduceBlocks kernel fun target j i u =>
        (SampleIterator.next^[i] (.create base (ptr j) 0 bps)).set target (value u))
      bps x y s fun j i => (value (v j i)).testBit := by
  apply reduceBlocks_fills hx hc
  · intro j hj i hi
    exact (hk j hj i hi).1
  · intro j hj i hi
    have hstart : 8*ptr j+bps*SampleIterator.mirror s i =
        bps*blockPixel x y j (SampleIterator.mirror s i) := by
      rw [hptr,← Nat.mul_add]
      simp only [blockPixel,Nat.add_zero,Nat.add_assoc]
    have hend : ptr j+base.size*(i/s)+base.size ≤ n := by
      have hq : i/s+1 ≤ c := Nat.div_lt_of_lt_mul (by rw [hc]; exact hi)
      have hrow : 8*base.size*(i/s+1) ≤ bps*(width/8) := by
        calc 8*base.size*(i/s+1) ≤ 8*base.size*c := Nat.mul_le_mul_left _ hq
          _ = bps*(width/8) := by rw [← hs,← hc]; ring
      have hp : blockPixel x y j 0+width/8 ≤ width*height := by
        simp only [blockPixel,width,height] at *
        omega
      have hle : bps*blockPixel x y j 0+bps*(width/8) ≤ 8*n := by
        calc bps*blockPixel x y j 0+bps*(width/8) = bps*(blockPixel x y j 0+width/8) := by ring
          _ ≤ bps*(width*height) := Nat.mul_le_mul_left _ hp
          _ = 8*n := by rw [hn,Nat.mul_comm]
      have hj' := hptr j
      have hsum : 8*(ptr j+base.size*(i/s)+base.size) = 8*ptr j+8*base.size*(i/s+1) := by ring
      omega
    have hw := SampleIterator.set_create_writes hs hb hend (hk j hj i hi).2
    rw [hstart,range_eq_slot hb rfl] at hw
    apply hw.congr rfl
    intro a ha
    rw [sub_eq_mod ha]

end Scroom
