import Mathlib.Data.Nat.Bitwise
import Scroom.Buffer
import Scroom.MachineInt

/-! Iteration over the samples in a row of bytes or of 16 bit words. The first sample of a
word is in its most significant bits; the words themselves have their low byte first. -/
namespace Scroom

namespace Buffer

variable {n : ℕ}

/-- The number in `w` consecutive bits. -/
def field (b : Buffer n) (a w : ℕ) : ℕ := Nat.ofBits fun k : Fin w => bit b (a+k)

theorem field_lt (b : Buffer n) (a w : ℕ) : field b a w < 2^w := Nat.ofBits_lt_two_pow _

theorem testBit_field (b : Buffer n) (a w k : ℕ) :
    (field b a w).testBit k = if k < w then bit b (a+k) else false := by
  rw [field,Nat.testBit_ofBits]
  split <;> rfl

theorem eq_field_iff {b : Buffer n} {a w x : ℕ} (hx : x < 2^w) :
    x = field b a w ↔ ∀ k < w, x.testBit k = bit b (a+k) := by
  constructor
  · rintro h k hk
    rw [h,testBit_field,if_pos hk]
  · intro h
    refine Nat.eq_of_testBit_eq fun k => ?_
    by_cases hk : k < w
    · rw [testBit_field,if_pos hk,h k hk]
    · rw [testBit_field,if_neg hk]
      exact Nat.testBit_lt_two_pow (hx.trans_le (Nat.pow_le_pow_right (by decide) (Nat.le_of_not_lt hk)))

theorem getElem?_eq_field (b : Buffer n) {i : ℕ} (h : i < n) :
    b[i]?.map UInt8.toNat = some (field b (8*i) 8) := by
  have hb : b[i].toNat = field b (8*i) 8 := by
    refine (eq_field_iff b[i].toNat_lt).mpr fun k hk => ?_
    have hd : (8*i+k)/8 = i := by omega
    have hm : (8*i+k)%8 = k := by omega
    simp [bit,hd,hm,h]
  simp [h,hb]

theorem field_div_mod (b : Buffer n) {a w k l : ℕ} (h : k+l ≤ w) :
    field b a w/2^k%2^l = field b (a+k) l := by
  apply Nat.eq_of_testBit_eq
  intro i
  rw [Nat.testBit_mod_two_pow,Nat.testBit_div_two_pow,testBit_field,testBit_field]
  by_cases hi : i < l
  · have hk : i+k < w := by omega
    have ha : a+(i+k) = a+k+i := by omega
    simp [hi,hk,ha]
  · simp [hi]

end Buffer

/-- The types over whose values is iterated. -/
inductive Base
  | uint8 | uint16
  deriving DecidableEq

namespace Base

variable {n : ℕ}

/-- `sizeof` -/
def size : Base → ℕ
  | .uint8 => 1
  | .uint16 => 2

def load (b : Buffer n) (i : ℕ) : Base → Option ℕ
  | .uint8 => b[i]?.map UInt8.toNat
  | .uint16 => do
    let low ← b[i]?.map UInt8.toNat
    let high ← b[i+1]?.map UInt8.toNat
    return 256*high+low

def store (b : Buffer n) (i x : ℕ) : Base → Option (Buffer n)
  | .uint8 => Buffer.write b i (.ofNat x)
  | .uint16 => do
    let b ← Buffer.write b i (.ofNat x)
    Buffer.write b (i+1) (.ofNat (x/256))

theorem load_eq {t : Base} {i : ℕ} (h : i+t.size ≤ n) (b : Buffer n) :
    t.load b i = some (Buffer.field b (8*i) (8*t.size)) := by
  cases t with
  | uint8 => exact Buffer.getElem?_eq_field b h
  | uint16 =>
    have hi : i+2 ≤ n := h
    simp only [load,Buffer.getElem?_eq_field b (show i < n by omega),
      Buffer.getElem?_eq_field b (show i+1 < n by omega),Option.bind_eq_bind,Option.bind_some,
      Option.pure_def,Option.some.injEq]
    have hl := Buffer.field_lt b (8*i) 8
    have hh := Buffer.field_lt b (8*(i+1)) 8
    refine (Buffer.eq_field_iff (by simp only [size]; omega)).mpr fun k hk => ?_
    rw [show 256 = 2^8 from rfl,Nat.testBit_two_pow_mul_add _ hl,Buffer.testBit_field,Buffer.testBit_field]
    simp only [size] at hk
    by_cases hk8 : k < 8
    · simp [hk8]
    · have ha : 8*(i+1)+(k-8) = 8*i+k := by omega
      have hk' : k-8 < 8 := by omega
      simp [hk8,hk',ha]

theorem testBit_ofNat (x k : ℕ) (hk : k < 8) : (UInt8.ofNat x).toNat.testBit k = x.testBit k := by
  rw [UInt8.toNat_ofNat',Nat.testBit_mod_two_pow]
  simp only [hk,decide_true,Bool.true_and]

theorem store_writes {t : Base} {i : ℕ} (h : i+t.size ≤ n) (x : ℕ) :
    Buffer.Writes (fun b : Buffer n => t.store b i x) {a | 8*i ≤ a ∧ a < 8*i+8*t.size}
      fun a => x.testBit (a-8*i) := by
  cases t with
  | uint8 =>
    refine (Buffer.write_writes (n := n) h (.ofNat x)).congr ?_ ?_
    · ext a
      simp only [size,Set.mem_ofPred_eq]
      omega
    · intro a ha
      have hi : a/8 = i := ha
      have hk : a-8*i = a%8 := by omega
      rw [hk,testBit_ofNat _ _ (by omega)]
  | uint16 =>
    have hi : i+2 ≤ n := h
    intro b
    obtain ⟨c,hc,hp⟩ := Buffer.write_writes (n := n) (show i < n by omega) (.ofNat x) b
    obtain ⟨d,hd,hq⟩ := Buffer.write_writes (n := n) (show i+1 < n by omega) (.ofNat (x/256)) c
    refine ⟨d,by simpa [store,hc] using hd,?_⟩
    have hp' := hp.congr (w := fun a => x.testBit (a-8*i)) fun a ha => by
      have ha : a/8 = i := ha
      have hk : a-8*i = a%8 := by omega
      rw [hk,testBit_ofNat _ _ (by omega)]
    have hq' := hq.congr (w := fun a => x.testBit (a-8*i)) fun a ha => by
      have ha : a/8 = i+1 := ha
      have hk : a-8*i = 8+a%8 := by omega
      rw [hk,testBit_ofNat _ _ (by omega),show 256 = 2^8 from rfl,Nat.testBit_div_two_pow,Nat.add_comm]
    convert hp'.trans hq' using 1
    ext a
    simp only [size,Set.mem_ofPred_eq,Set.mem_union]
    omega

end Base

/-- The members that change or are chosen by the constructor; the others follow from these. -/
structure SampleIterator where
  base : Base
  bps : ℕ
  currentBase : ℕ
  currentOffset : ℕ

namespace SampleIterator

variable {n : ℕ}

/-- The constructor, from a pointer to the element, the number of a sample and the bits of one. -/
def create (base : Base) (ptr offset bps : ℕ) : SampleIterator :=
  let samplesPerBase := 8*base.size/bps
  ⟨base,bps,ptr+base.size*(offset/samplesPerBase),samplesPerBase-1-offset%samplesPerBase⟩

def samplesPerBase (it : SampleIterator) : ℕ := 8*it.base.size/it.bps

def mask (bps : ℕ) : ℕ := (((1 <<< (bps-1))-1) <<< 1) ||| 1

def get (it : SampleIterator) (b : Buffer n) : Option ℕ :=
  (it.base.load b it.currentBase).map fun e => (e >>> (it.currentOffset*it.bps)) &&& mask it.bps

/-- `ldiff` clears the bits of the mask, as `& ~` does. -/
def set (it : SampleIterator) (b : Buffer n) (value : ℕ) : Option (Buffer n) := do
  let e ← it.base.load b it.currentBase
  it.base.store b it.currentBase
    (e.ldiff (mask it.bps <<< (it.currentOffset*it.bps)) ||| (value <<< (it.currentOffset*it.bps)))

/-- `operator++` -/
def next (it : SampleIterator) : SampleIterator :=
  if it.currentOffset = 0 then
    { it with currentOffset := it.samplesPerBase-1, currentBase := it.currentBase+it.base.size }
  else { it with currentOffset := it.currentOffset-1 }

/-- `operator+=`. The sum is taken modulo `2^32`; a negative one would lead to before the buffer. -/
def skip (it : SampleIterator) (x : ℤ) : Option SampleIterator :=
  let offset := MachineInt.wrap (it.samplesPerBase-1-it.currentOffset+x)
  if 0 ≤ offset then
    some { it with
      currentBase := it.currentBase+it.base.size*(offset.toNat/it.samplesPerBase)
      currentOffset := it.samplesPerBase-1-offset.toNat%it.samplesPerBase }
  else none

/-- The place of the current sample, in bits. -/
def position (it : SampleIterator) : ℕ := 8*it.currentBase+it.currentOffset*it.bps

theorem iterate_next {base : Base} {bps : ℕ} (h : 0 < 8*base.size/bps) (ptr k : ℕ) :
    next^[k] (create base ptr 0 bps) = create base ptr k bps := by
  induction k with
  | zero => rfl
  | succ k ih =>
    rw [Function.iterate_succ_apply',ih]
    generalize hs : 8*base.size/bps = s at h
    have hm := Nat.mod_lt k h
    by_cases hk : s-1-k%s = 0
    · have hd : (k+1)%s = 0 := by
        rw [Nat.add_mod,show k%s = s-1 by omega]
        rcases Nat.lt_or_ge 1 s with h1 | h1
        · rw [Nat.mod_eq_of_lt h1,Nat.sub_add_cancel h,Nat.mod_self]
        · obtain rfl : s = 1 := by omega
          rfl
      have hq : (k+1)/s = k/s+1 := by
        rw [Nat.succ_div,if_pos (Nat.dvd_of_mod_eq_zero hd)]
      simp [next,create,samplesPerBase,hs,hk,hd,hq,Nat.mul_add,Nat.add_assoc]
    · have hd : (k+1)%s = k%s+1 := by
        rw [Nat.add_mod,Nat.mod_eq_of_lt (show 1 < s by omega),Nat.mod_eq_of_lt (by omega)]
      have hq : (k+1)/s = k/s := by
        have hdv : ¬ s ∣ k+1 := fun hdv => by
          have hz := Nat.mod_eq_zero_of_dvd hdv
          omega
        rw [Nat.succ_div,if_neg hdv,Nat.add_zero]
      simp only [next,create,hs,if_neg hk,hd,hq]
      congr 1

theorem next_create {base : Base} {bps : ℕ} (h : 0 < 8*base.size/bps) (ptr k : ℕ) :
    (create base ptr k bps).next = create base ptr (k+1) bps := by
  rw [← iterate_next h ptr k,← iterate_next h ptr (k+1),Function.iterate_succ_apply']

theorem iterate_next_create {base : Base} {bps : ℕ} (h : 0 < 8*base.size/bps) (ptr k l : ℕ) :
    next^[l] (create base ptr k bps) = next^[k+l] (create base ptr 0 bps) := by
  rw [← iterate_next h ptr k,← Function.iterate_add_apply,Nat.add_comm]

theorem skip_create {base : Base} {bps : ℕ} (h : 0 < 8*base.size/bps) (ptr k : ℕ) {x : ℕ}
    (hx : k%(8*base.size/bps)+x < 2^31) : (create base ptr k bps).skip x = some (create base ptr (k+x) bps) := by
  generalize hs : 8*base.size/bps = s at h hx
  have hm := Nat.mod_lt k h
  have hsum : (s:ℤ)-1-((s-1-k%s : ℕ) : ℤ)+x = (k%s+x : ℕ) := by omega
  have hwrap : MachineInt.wrap ((k%s+x : ℕ) : ℤ) = (k%s+x : ℕ) :=
    MachineInt.wrap_of_mem (by simp only [MachineInt.intMin]; omega) (by simp only [MachineInt.intMax]; omega)
  have hd : (k+x)/s = k/s+(k%s+x)/s := by
    conv_lhs => rw [← Nat.div_add_mod k s,Nat.add_assoc,Nat.mul_add_div h]
  have hr : (k+x)%s = (k%s+x)%s := by simp
  simp only [skip,create,samplesPerBase,hs,hsum,hwrap,Int.natCast_nonneg,if_true,Int.toNat_natCast,hd,hr,
    Nat.mul_add,Nat.add_assoc]

theorem mask_eq {bps : ℕ} (h : 0 < bps) : mask bps = 2^bps-1 := by
  refine Nat.eq_of_testBit_eq fun i => ?_
  rw [mask,Nat.testBit_or,Nat.testBit_shiftLeft,Nat.one_shiftLeft,Nat.testBit_two_pow_sub_one,
    Nat.testBit_two_pow_sub_one]
  cases i with
  | zero => simp [h]
  | succ i =>
    have h1 : Nat.testBit 1 (i+1) = false := by simp [Nat.testBit_succ]
    simp only [h1]
    by_cases hi : i < bps-1
    · simp [hi,show i+1 < bps by omega]
    · simp [hi,show ¬ i+1 < bps by omega]

theorem get_eq {it : SampleIterator} (hn : it.currentBase+it.base.size ≤ n) (hb : 0 < it.bps)
    (ho : it.currentOffset*it.bps+it.bps ≤ 8*it.base.size) (b : Buffer n) :
    it.get b = some (Buffer.field b it.position it.bps) := by
  rw [get,Base.load_eq hn,Option.map_some,mask_eq hb,Option.some.injEq]
  refine (Buffer.eq_field_iff ?_).mpr fun k hk => ?_
  · exact Nat.and_lt_two_pow _ (by have := Nat.two_pow_pos it.bps; omega)
  · rw [Nat.testBit_and,Nat.testBit_shiftRight,Nat.testBit_two_pow_sub_one,Buffer.testBit_field]
    simp [hk,show it.currentOffset*it.bps+k < 8*it.base.size by omega,position,Nat.add_assoc]

theorem set_writes {it : SampleIterator} (hn : it.currentBase+it.base.size ≤ n) (hb : 0 < it.bps)
    (ho : it.currentOffset*it.bps+it.bps ≤ 8*it.base.size) {value : ℕ} (hv : value < 2^it.bps) :
    Buffer.Writes (fun b : Buffer n => it.set b value)
      {a | it.position ≤ a ∧ a < it.position+it.bps} fun a => value.testBit (a-it.position) := by
  intro b
  obtain ⟨c,hc,hp⟩ := Base.store_writes (n := n) hn
    ((Buffer.field b (8*it.currentBase) (8*it.base.size)).ldiff
      (mask it.bps <<< (it.currentOffset*it.bps)) ||| (value <<< (it.currentOffset*it.bps))) b
  refine ⟨c,by simpa [set,Base.load_eq hn] using hc,?_⟩
  have hbits : ∀ a, 8*it.currentBase ≤ a → a < 8*it.currentBase+8*it.base.size → Buffer.bit c a =
      if it.position ≤ a ∧ a < it.position+it.bps then value.testBit (a-it.position)
      else Buffer.bit b a := by
    intro a hl hr
    rw [hp.1 a ⟨hl,hr⟩]
    dsimp only
    rw [Nat.testBit_or,Nat.testBit_ldiff,Nat.testBit_shiftLeft,Nat.testBit_shiftLeft,
      mask_eq hb,Nat.testBit_two_pow_sub_one,Buffer.testBit_field,
      if_pos (show a-8*it.currentBase < 8*it.base.size by omega),
      Nat.add_sub_cancel' hl,Nat.sub_sub,← position]
    by_cases hpos : it.position ≤ a
    · have hge : a-8*it.currentBase ≥ it.currentOffset*it.bps := by
        simp only [position] at hpos
        omega
      by_cases hlt : a < it.position+it.bps
      · have hk : a-it.position < it.bps := by omega
        simp [hpos,hlt,hge,hk]
      · have hk : ¬ a-it.position < it.bps := by omega
        have hz : value.testBit (a-it.position) = false :=
          Nat.testBit_lt_two_pow (hv.trans_le (Nat.pow_le_pow_right (by decide) (Nat.le_of_not_lt hk)))
        simp [hlt,hk,hz]
    · have hge : ¬ a-8*it.currentBase ≥ it.currentOffset*it.bps := by
        simp only [position] at hpos
        omega
      simp [hpos,hge]
  constructor
  · rintro a ⟨hl,hr⟩
    simp only [position] at hl hr
    rw [hbits a (by omega) (by omega),if_pos]
    simp only [position]
    exact ⟨hl,hr⟩
  · intro a ha
    by_cases hin : 8*it.currentBase ≤ a ∧ a < 8*it.currentBase+8*it.base.size
    · exact (hbits a hin.1 hin.2).trans (if_neg ha)
    · exact hp.2 a hin

/-- The place of a sample in a row of words, counted from the low end of each word. -/
def mirror (s k : ℕ) : ℕ := s*(k/s)+(s-1-k%s)

theorem mirror_mirror {s : ℕ} (hs : 0 < s) (k : ℕ) : mirror s (mirror s k) = k := by
  have hm := Nat.mod_lt k hs
  have hl : s-1-k%s < s := by omega
  have hd : mirror s k/s = k/s := by
    rw [mirror,Nat.mul_add_div hs,Nat.div_eq_of_lt hl]
    rfl
  have hr : mirror s k%s = s-1-k%s := by
    rw [mirror,Nat.mul_add_mod,Nat.mod_eq_of_lt hl]
  have hk := Nat.div_add_mod k s
  rw [mirror,hd,hr]
  omega

theorem mirror_lt {s k c : ℕ} (hs : 0 < s) (h : k < s*c) : mirror s k < s*c := by
  have hq : k/s+1 ≤ c := Nat.div_lt_of_lt_mul h
  have hm := Nat.mul_le_mul_left s hq
  rw [Nat.mul_add] at hm
  unfold mirror
  omega

section Create
variable {base : Base} {ptr bps s k : ℕ}

theorem samples_pos (hs : s*bps = 8*base.size) : 0 < s := by
  refine Nat.pos_of_ne_zero fun h => ?_
  rw [h,Nat.zero_mul] at hs
  cases base <;> simp [Base.size] at hs

theorem create_eq (hs : s*bps = 8*base.size) (hb : 0 < bps) :
    create base ptr k bps = ⟨base,bps,ptr+base.size*(k/s),s-1-k%s⟩ := by
  have h : 8*base.size/bps = s := by rw [← hs,Nat.mul_div_cancel _ hb]
  simp [create,h]

theorem position_create (hs : s*bps = 8*base.size) (hb : 0 < bps) :
    (create base ptr k bps).position = 8*ptr+bps*mirror s k := by
  rw [create_eq hs hb]
  have h : 8*(base.size*(k/s)) = bps*(s*(k/s)) := by
    rw [← Nat.mul_assoc,← hs]
    ring
  simp only [position,mirror,Nat.mul_add,h]
  ring

theorem offset_create (hs : s*bps = 8*base.size) (hb : 0 < bps) :
    (create base ptr k bps).currentOffset*bps+bps ≤ 8*base.size := by
  have hp := samples_pos hs
  have h : (s-1-k%s+1)*bps ≤ s*bps := Nat.mul_le_mul_right _ (by omega)
  rw [create_eq hs hb,← hs]
  simpa [Nat.succ_mul] using h

theorem get_create (hs : s*bps = 8*base.size) (hb : 0 < bps)
    (hn : ptr+base.size*(k/s)+base.size ≤ n) (b : Buffer n) :
    (next^[k] (create base ptr 0 bps)).get b = some (Buffer.field b (8*ptr+bps*mirror s k) bps) := by
  have h : 0 < 8*base.size/bps := by
    rw [← hs,Nat.mul_div_cancel _ hb]
    exact samples_pos hs
  rw [iterate_next h,get_eq (by rw [create_eq hs hb]; exact hn) hb (offset_create hs hb),
    position_create hs hb]
  rfl

theorem set_create_writes (hs : s*bps = 8*base.size) (hb : 0 < bps)
    (hn : ptr+base.size*(k/s)+base.size ≤ n) {value : ℕ} (hv : value < 2^bps) :
    Buffer.Writes (fun b : Buffer n => (next^[k] (create base ptr 0 bps)).set b value)
      {a | 8*ptr+bps*mirror s k ≤ a ∧ a < 8*ptr+bps*mirror s k+bps}
      fun a => value.testBit (a-(8*ptr+bps*mirror s k)) := by
  have h : 0 < 8*base.size/bps := by
    rw [← hs,Nat.mul_div_cancel _ hb]
    exact samples_pos hs
  rw [iterate_next h,← position_create hs hb]
  exact set_writes (by rw [create_eq hs hb]; exact hn) hb (offset_create hs hb) hv

end Create
end SampleIterator
end Scroom
