import Scroom.SampleIterator

/-! Which sample an iterator is at, however it came there, and how the samples lie in the buffer. -/
namespace Scroom
namespace SampleIterator
open MachineInt

variable {n : ℕ} {base : Base} {bps s ptr k l o : ℕ}

/-- The constructor for a sum of offsets, which becomes an `int`. A negative one would lead to before the buffer. -/
def createInt (base : Base) (ptr : ℕ) (offset : ℤ) (bps : ℕ) : Option SampleIterator :=
  let offset := wrap offset
  if 0 ≤ offset then some (create base ptr offset.toNat bps) else none

def bits (it : SampleIterator) : Set ℕ := {a | it.position ≤ a ∧ a < it.position+it.bps}

/-- Adding `x` at once and constructing at the sum lead to where `x` single steps lead. -/
structure Reaches (base : Base) (bps ptr offset x : ℕ) : Prop where
  skip : (create base ptr offset bps).skip x = some (next^[x] (create base ptr offset bps))
  construct : createInt base ptr (offset+x) bps = some (next^[x] (create base ptr offset bps))

/-- The samples are all the bits from `ptr` on, each of them once, and a word is read from its high end down. -/
structure Enumerates (base : Base) (bps ptr : ℕ) : Prop where
  once : ∀ a, 8*ptr ≤ a ↔ ∃! k, a ∈ (create base ptr k bps).bits
  word : ∀ {n : ℕ} (b : Buffer n) (e : ℕ), ptr+base.size*e+base.size ≤ n → ∃ sample : ℕ → ℕ,
    (∀ r < 8*base.size/bps, sample r < 2^bps ∧
      (create base ptr (8*base.size/bps*e+r) bps).get b = some (sample r)) ∧
    base.load b (ptr+base.size*e) = some (∑ r ∈ Finset.range (8*base.size/bps),
      sample r*2^(bps*(8*base.size/bps-1-r)))

/-- Setting a sample of the buffer sets that one and no others. -/
def SetsOne (base : Base) (bps ptr : ℕ) : Prop :=
  ∀ {n : ℕ} (b : Buffer n) (k v : ℕ), (create base ptr k bps).currentBase+base.size ≤ n → v < 2^bps →
    ∃ c, (create base ptr k bps).set b v = some c ∧ (create base ptr k bps).get c = some v ∧
      (∀ l ≠ k, (create base ptr l bps).get c = (create base ptr l bps).get b) ∧
      ∀ a ∉ (create base ptr k bps).bits, Buffer.bit c a = Buffer.bit b a

section Create
variable (hs : s*bps = 8*base.size) (hb : 0 < bps)
include hs hb

theorem create_inj (h : create base ptr k bps = create base ptr l bps) : k = l := by
  have hp := samples_pos hs
  rw [create_eq hs hb,create_eq hs hb] at h
  simp only [SampleIterator.mk.injEq,true_and,Nat.add_left_cancel_iff] at h
  have hsize : 0 < base.size := by cases base <;> decide
  have hq := Nat.eq_of_mul_eq_mul_left hsize h.1
  have hk := Nat.mod_lt k hp
  have hl := Nat.mod_lt l hp
  have hr : k%s = l%s := by omega
  rw [← Nat.div_add_mod k s,← Nat.div_add_mod l s,hq,hr]

theorem mem_bits_create {a : ℕ} : a ∈ (create base ptr k bps).bits ↔ 8*ptr ≤ a ∧ (a-8*ptr)/bps = mirror s k := by
  have hbps : (create base ptr k bps).bps = bps := rfl
  simp only [bits,Set.mem_ofPred_eq,position_create hs hb,hbps]
  constructor
  · rintro ⟨hl,hr⟩
    refine ⟨by omega,Nat.div_eq_of_lt_le ?_ ?_⟩
    · rw [Nat.mul_comm]
      omega
    · rw [Nat.add_mul,Nat.one_mul,Nat.mul_comm (mirror s k)]
      omega
  · rintro ⟨hl,hq⟩
    have hle := Nat.mul_div_le (a-8*ptr) bps
    have hlt := Nat.lt_mul_div_succ (a-8*ptr) hb
    rw [hq] at hle hlt
    rw [Nat.mul_add,Nat.mul_one] at hlt
    omega

theorem bits_once (a : ℕ) : 8*ptr ≤ a ↔ ∃! k, a ∈ (create base ptr k bps).bits := by
  have hp := samples_pos hs
  constructor
  · intro ha
    refine ⟨mirror s ((a-8*ptr)/bps),(mem_bits_create hs hb).mpr ⟨ha,(mirror_mirror hp _).symm⟩,fun k hk => ?_⟩
    rw [((mem_bits_create hs hb).mp hk).2,mirror_mirror hp]
  · rintro ⟨k,hk,-⟩
    exact ((mem_bits_create hs hb).mp hk).1

theorem bits_disjoint (hkl : k ≠ l) {a : ℕ} (ha : a ∈ (create base ptr k bps).bits) :
    a ∉ (create base ptr l bps).bits := by
  intro ha'
  obtain ⟨m,-,hm⟩ := (bits_once hs hb a).mp ((mem_bits_create hs hb).mp ha).1
  exact hkl ((hm k ha).trans (hm l ha').symm)

omit hs hb in
/-- A number of `s` digits is the sum of them, from the first one down. -/
theorem sum_digits (v w s : ℕ) : v%2^(w*s) = ∑ r ∈ Finset.range s, v/2^(w*(s-1-r))%2^w*2^(w*(s-1-r)) := by
  have hup : v%2^(w*s) = ∑ r ∈ Finset.range s, v/2^(w*r)%2^w*2^(w*r) := by
    induction s with
    | zero => simp [Nat.mod_one]
    | succ s ih => rw [Finset.sum_range_succ,← ih,Nat.mul_succ,Nat.pow_add,Nat.mod_mul,Nat.mul_comm (2^(w*s))]
  rw [hup,← Finset.sum_range_reflect]

theorem words_read (b : Buffer n) (e : ℕ) (hn : ptr+base.size*e+base.size ≤ n) : ∃ sample : ℕ → ℕ,
    (∀ r < s, sample r < 2^bps ∧ (create base ptr (s*e+r) bps).get b = some (sample r)) ∧
      base.load b (ptr+base.size*e) = some (∑ r ∈ Finset.range s, sample r*2^(bps*(s-1-r))) := by
  have hp := samples_pos hs
  set v := Buffer.field b (8*(ptr+base.size*e)) (8*base.size) with hv
  refine ⟨fun r => v/2^(bps*(s-1-r))%2^bps,fun r hr => ⟨Nat.mod_lt _ (Nat.two_pow_pos _),?_⟩,?_⟩
  · have hq : (s*e+r)/s = e := by rw [Nat.mul_add_div hp,Nat.div_eq_of_lt hr,Nat.add_zero]
    have hm : (s*e+r)%s = r := by rw [Nat.mul_add_mod,Nat.mod_eq_of_lt hr]
    have ho : (create base ptr (s*e+r) bps).currentOffset*bps+bps ≤ 8*base.size := offset_create hs hb
    have hc : create base ptr (s*e+r) bps = ⟨base,bps,ptr+base.size*e,s-1-r⟩ := by rw [create_eq hs hb,hq,hm]
    rw [hc] at ho ⊢
    rw [Nat.mul_comm] at ho
    rw [get_eq hn hb (by rwa [Nat.mul_comm])]
    dsimp only
    rw [hv,Buffer.field_div_mod _ ho,position,Nat.mul_comm (s-1-r)]
  · rw [Base.load_eq hn,← sum_digits,Nat.mul_comm bps s,hs,Nat.mod_eq_of_lt (Buffer.field_lt _ _ _)]

omit hs hb in
theorem load_eq_none {i : ℕ} (h : ¬ i+base.size ≤ n) (b : Buffer n) : base.load b i = none := by
  cases base with
  | uint8 =>
    have hi : ¬ i < n := h
    simp [Base.load,hi]
  | uint16 =>
    have hi : ¬ i+1 < n := h
    simp only [Base.load,Vector.getElem?_eq_none (Nat.le_of_not_lt hi),Option.map_none,Option.bind_eq_bind,
      Option.bind_none,Option.bind_fun_none]

/-- Only its own bits determine what a sample is. -/
theorem get_congr {b c : Buffer n} (h : ∀ a ∈ (create base ptr k bps).bits, Buffer.bit c a = Buffer.bit b a) :
    (create base ptr k bps).get c = (create base ptr k bps).get b := by
  by_cases hn : (create base ptr k bps).currentBase+base.size ≤ n
  · have ho : (create base ptr k bps).currentOffset*bps+bps ≤ 8*base.size := offset_create hs hb
    rw [get_eq hn hb ho,get_eq hn hb ho,Option.some.injEq]
    refine (Buffer.eq_field_iff (Buffer.field_lt _ _ _)).mpr fun i hi => ?_
    rw [Buffer.testBit_field,if_pos hi]
    exact h _ ⟨Nat.le_add_right _ _,Nat.add_lt_add_left hi _⟩
  · have hload : ∀ d : Buffer n, (create base ptr k bps).get d = none := fun d => by
      rw [get,show (create base ptr k bps).base = base from rfl,load_eq_none hn,Option.map_none]
    rw [hload,hload]

theorem sets_one : SetsOne base bps ptr := by
  intro n b k v hn hv
  have ho : (create base ptr k bps).currentOffset*bps+bps ≤ 8*base.size := offset_create hs hb
  obtain ⟨c,hc,hown,hframe⟩ := set_writes hn hb ho hv b
  refine ⟨c,hc,?_,fun l hl => ?_,hframe⟩
  · rw [get_eq hn hb ho,Option.some.injEq,eq_comm]
    refine (Buffer.eq_field_iff hv).mpr fun i hi => ?_
    have hbit := hown ((create base ptr k bps).position+i) ⟨Nat.le_add_right _ _,Nat.add_lt_add_left hi _⟩
    rw [hbit]
    exact congrArg v.testBit (Nat.add_sub_cancel_left _ _).symm
  · exact get_congr hs hb fun a ha => hframe a (bits_disjoint hs hb hl ha)

/-- An `int` holds the offset, or the constructor gives another sample or none. -/
theorem createInt_iff : createInt base ptr o bps = some (create base ptr o bps) ↔ (o:ℤ) ≤ intMax := by
  constructor
  · intro h
    by_cases hw : 0 ≤ wrap o
    · rw [createInt,if_pos hw,Option.some.injEq] at h
      have heq := create_inj hs hb h
      have hlt : wrap o < (2^32+1)/2 := Int.bmod_lt (by decide)
      simp only [intMax]
      omega
    · rw [createInt,if_neg hw] at h
      cases h
  · intro h
    have hw : wrap o = o := wrap_of_mem (by simp only [intMin]; omega) h
    simp only [createInt,hw,Int.natCast_nonneg,if_true,Int.toNat_natCast]

end Create

/-- The three ways agree exactly when the sum of the offset and the number of steps is an `int`. -/
theorem reaches_iff (hs : s*bps = 8*base.size) (hb : 0 < bps) :
    Reaches base bps ptr o k ↔ (o:ℤ)+k ≤ intMax := by
  have hspb : 8*base.size/bps = s := by rw [← hs,Nat.mul_div_cancel _ hb]
  have hpos : 0 < 8*base.size/bps := hspb ▸ samples_pos hs
  have hsteps : next^[k] (create base ptr o bps) = create base ptr (o+k) bps := by
    rw [iterate_next_create hpos,iterate_next hpos]
  have hconstruct : createInt base ptr (o+k) bps = some (create base ptr (o+k) bps) ↔ (o:ℤ)+k ≤ intMax := by
    exact_mod_cast createInt_iff hs hb
  constructor
  · intro h
    exact hconstruct.mp (h.construct.trans (congrArg some hsteps))
  · intro h
    refine ⟨?_,(hconstruct.mpr h).trans (congrArg some hsteps.symm)⟩
    rw [hsteps]
    have hmod := Nat.mod_le o (8*base.size/bps)
    refine skip_create hpos ptr o ?_
    simp only [intMax] at h
    omega

/-- For every base type and every size of samples that divides its width: the ways to reach a sample agree as long
as its number is an `int`, the samples are the bits of the buffer, and setting one leaves the others alone. -/
theorem addressed_iff (base : Base) (bps : ℕ) (h : bps ∣ 8*base.size) (ptr : ℕ) :
    (∀ o x : ℕ, Reaches base bps ptr o x ↔ (o:ℤ)+x ≤ intMax) ∧ Enumerates base bps ptr ∧ SetsOne base bps ptr := by
  have hs : 8*base.size/bps*bps = 8*base.size := Nat.div_mul_cancel h
  have hb : 0 < bps := Nat.pos_of_dvd_of_pos h (by cases base <;> decide)
  exact ⟨fun o x => reaches_iff hs hb,⟨bits_once hs hb,words_read hs hb⟩,sets_one hs hb⟩

theorem addressed_iff_nibbles : 4 ∣ 8*Base.uint16.size ∧
    (∀ o x : ℕ, Reaches .uint16 4 6 o x ↔ (o:ℤ)+x ≤ intMax) ∧ Enumerates .uint16 4 6 ∧ SetsOne .uint16 4 6 :=
  ⟨by decide,addressed_iff .uint16 4 (by decide) 6⟩

theorem hugeSkip_goesBack : ¬ ∀ (base : Base) (bps : ℕ), bps ∣ 8*base.size → ∀ ptr o x : ℕ, (o:ℤ) ≤ intMax →
    x < 2^32 → Reaches base bps ptr o x := by
  intro h
  have hskip := (h .uint8 1 (by decide) 0 0 (2^31) (by decide) (by decide)).skip
  have hnone : (create .uint8 0 0 1).skip ((2^31 : ℕ) : ℤ) = none := by decide
  rw [hnone] at hskip
  cases hskip

end SampleIterator
end Scroom
