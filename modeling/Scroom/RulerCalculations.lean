import Mathlib.Data.List.GetD
import Scroom.MachineInt

/-! How far apart the major ticks of a ruler are. The arithmetic on `double` is exact here. -/
namespace Scroom
namespace RulerCalculations
open MachineInt

def validIntervals : List ℕ := [1,5,10,25]

/-- `MIN_SPACE_MAJORTICKS` -/
def minSpaceMajorTicks : ℤ := 80

/-- `none` where a `require` fails, or where the spacing does not fit in the `int` that is returned. -/
def intervalPixelSpacing (interval lower upper allocatedSize : ℚ) : Option ℤ :=
  if lower < upper ∧ 0 < allocatedSize then checked ⌊allocatedSize/(upper-lower)*interval⌋ else none

theorem validIntervals_pos : ∀ v ∈ validIntervals, 0 < v := by decide

theorem le_nine {v n : ℕ} (hv : v ∈ validIntervals) (h : ((v*10^n : ℕ):ℤ) ≤ intMax) : n ≤ 9 := by
  by_contra hn
  have hpow : 10^10 ≤ 10^n := Nat.pow_le_pow_right (by decide) (by omega)
  have hle : 10^n ≤ v*10^n := Nat.le_mul_of_pos_left _ (validIntervals_pos v hv)
  simp only [intMax] at h
  omega

/-- The loop: `none` also where an interval does not fit in an `int`. -/
def search (lower upper allocatedSize : ℚ) (intervalIndex intervalN : ℕ) : Option ℤ :=
  if hi : intervalIndex < validIntervals.length then
    let interval : ℤ := (validIntervals[intervalIndex]*10^intervalN : ℕ)
    if hf : interval ≤ intMax then
      (intervalPixelSpacing interval lower upper allocatedSize).bind fun spacing =>
        if spacing < 0 then some (-1)
        else if minSpaceMajorTicks ≤ spacing then some interval
        else if intervalIndex+1 = validIntervals.length then search lower upper allocatedSize 0 (intervalN+1)
        else search lower upper allocatedSize (intervalIndex+1) intervalN
    else none
  else none
termination_by 44-(4*intervalN+intervalIndex)
decreasing_by
  all_goals
    have hn := le_nine (List.getElem_mem hi) hf
    have hlength : validIntervals.length = 4 := rfl
    omega

def calculateInterval (lower upper allocatedSize : ℚ) : Option ℤ :=
  if lower < upper ∧ 1 ≤ upper-lower ∧ 0 < allocatedSize then search lower upper allocatedSize 0 0 else none

def intervals : Set ℕ := {i | ∃ v ∈ validIntervals, ∃ n, i = v*10^n}

/-- Ticks are far enough apart on the screen. -/
def Readable (lower upper allocatedSize : ℚ) (interval : ℕ) : Prop :=
  minSpaceMajorTicks ≤ ⌊allocatedSize/(upper-lower)*interval⌋

/-- The intervals in the order in which the loop tries them. -/
def tried (k : ℕ) : ℕ := validIntervals.getD (k%4) 0*10^(k/4)

def TriedFit (lower upper allocatedSize : ℚ) : Prop :=
  ∀ k, (∀ j < k, ¬ Readable lower upper allocatedSize (tried j)) → (tried k : ℤ) ≤ intMax

section Tried
variable {i k m : ℕ}

theorem tried_four_mul (n a : ℕ) (ha : a < 4) : tried (4*n+a) = validIntervals.getD a 0*10^n := by
  have hm : (4*n+a)%4 = a := by omega
  have hd : (4*n+a)/4 = n := by omega
  rw [tried,hm,hd]

theorem mem_intervals_iff : i ∈ intervals ↔ ∃ k, tried k = i := by
  constructor
  · rintro ⟨v,hv,n,rfl⟩
    obtain ⟨a,ha,rfl⟩ := List.getElem_of_mem hv
    refine ⟨4*n+a,?_⟩
    rw [tried_four_mul n a ha,List.getD_eq_getElem _ _ ha]
  · rintro ⟨k,rfl⟩
    have ha : k%4 < validIntervals.length := Nat.mod_lt _ (by decide)
    exact ⟨_,List.getElem_mem ha,k/4,by rw [tried,List.getD_eq_getElem _ _ ha]⟩

/-- Although the order is not increasing, all smaller intervals are tried before. -/
theorem tried_before (h : tried k < tried m) : ∃ j < m, tried j = tried k := by
  by_cases hkm : k < m
  · exact ⟨k,hkm,rfl⟩
  · obtain ⟨p,b,hb,rfl⟩ : ∃ p b, b < 4 ∧ k = 4*p+b := ⟨k/4,k%4,Nat.mod_lt _ (by decide),by omega⟩
    obtain ⟨n,a,ha,rfl⟩ : ∃ n a, a < 4 ∧ m = 4*n+a := ⟨m/4,m%4,Nat.mod_lt _ (by decide),by omega⟩
    rw [tried_four_mul p b hb,tried_four_mul n a ha] at h
    have hpow := Nat.two_pow_pos n
    obtain rfl | rfl | hp : p = n ∨ p = n+1 ∨ n+2 ≤ p := by omega
    · -- later with the same number of zeros is larger
      have hsorted : ∀ a < 4, ∀ b < 4, a ≤ b → validIntervals.getD a 0 ≤ validIntervals.getD b 0 := by decide
      have hle := Nat.mul_le_mul_right (10^p) (hsorted a ha b hb (by omega))
      omega
    · -- only 10 comes after 25, and then the second time
      have hnext : ∀ a < 4, ∀ b < 4, validIntervals.getD a 0 ≤ validIntervals.getD b 0*10 ∨ (a = 3 ∧ b = 0) := by
        decide
      rcases hnext a ha b hb with hle | ⟨rfl,rfl⟩
      · have hle' := Nat.mul_le_mul_right (10^n) hle
        rw [Nat.pow_succ,Nat.mul_comm (10^n),← Nat.mul_assoc] at h
        omega
      · refine ⟨4*n+2,by omega,?_⟩
        rw [tried_four_mul n 2 (by decide),tried_four_mul (n+1) 0 (by decide),Nat.pow_succ]
        simp only [validIntervals,List.getD_cons_zero,List.getD_cons_succ]
        omega
    · have hfar : ∀ a < 4, ∀ b < 4, validIntervals.getD a 0 ≤ validIntervals.getD b 0*100 := by decide
      have hle := Nat.mul_le_mul_right (10^n) (hfar a ha b hb)
      have hlarge : 100*10^n ≤ 10^p := by
        calc 100*10^n = 10^(n+2) := by ring
          _ ≤ 10^p := Nat.pow_le_pow_right (by decide) hp
      have hle' := Nat.mul_le_mul_left (validIntervals.getD b 0) hlarge
      rw [← Nat.mul_assoc] at hle'
      omega

theorem tried_succ_le (k : ℕ) : tried (k+1) ≤ 5*tried k := by
  obtain ⟨n,a,ha,rfl⟩ : ∃ n a, a < 4 ∧ k = 4*n+a := ⟨k/4,k%4,Nat.mod_lt _ (by decide),by omega⟩
  obtain hlt | rfl : a < 3 ∨ a = 3 := by omega
  · have hnext : ∀ a < 3, validIntervals.getD (a+1) 0 ≤ 5*validIntervals.getD a 0 := by decide
    rw [Nat.add_assoc,tried_four_mul n (a+1) (by omega),tried_four_mul n a ha,← Nat.mul_assoc]
    exact Nat.mul_le_mul_right _ (hnext a hlt)
  · rw [show 4*n+3+1 = 4*(n+1)+0 by omega,tried_four_mul (n+1) 0 (by decide),tried_four_mul n 3 ha,Nat.pow_succ]
    simp only [validIntervals,List.getD_cons_zero,List.getD_cons_succ]
    omega

end Tried

section Search
variable {lower upper allocatedSize : ℚ} {i k m : ℕ}

theorem rate_pos (hr : lower < upper) (hs : 0 < allocatedSize) : 0 < allocatedSize/(upper-lower) :=
  div_pos hs (sub_pos.mpr hr)

theorem spacing_nonneg (hr : lower < upper) (hs : 0 < allocatedSize) {x : ℚ} (hx : 0 ≤ x) :
    0 ≤ ⌊allocatedSize/(upper-lower)*x⌋ := Int.floor_nonneg.mpr (mul_nonneg (rate_pos hr hs).le hx)

theorem Readable.mono (hr : lower < upper) (hs : 0 < allocatedSize) (h : Readable lower upper allocatedSize i)
    (hik : i ≤ k) : Readable lower upper allocatedSize k := by
  have hcast : (i:ℚ) ≤ k := by exact_mod_cast hik
  exact h.trans (Int.floor_le_floor (mul_le_mul_of_nonneg_left hcast (rate_pos hr hs).le))

instance : DecidablePred (Readable lower upper allocatedSize) := fun _ => inferInstanceAs (Decidable (_ ≤ _))

theorem intervalPixelSpacing_eq (hr : lower < upper) (hs : 0 < allocatedSize)
    (h : ⌊allocatedSize/(upper-lower)*i⌋ ≤ intMax) :
    intervalPixelSpacing i lower upper allocatedSize = some ⌊allocatedSize/(upper-lower)*i⌋ := by
  have hnonneg := spacing_nonneg hr hs (Nat.cast_nonneg (α := ℚ) i)
  have hmin : intMin ≤ 0 := by decide
  rw [intervalPixelSpacing,if_pos ⟨hr,hs⟩]
  exact checked_eq_some.mpr ⟨⟨hmin.trans hnonneg,h⟩,rfl⟩

theorem search_eq (hr : lower < upper) (hs : 0 < allocatedSize) (hfit : (tried k : ℤ) ≤ intMax)
    (hspacing : ⌊allocatedSize/(upper-lower)*tried k⌋ ≤ intMax) :
    search lower upper allocatedSize (k%4) (k/4) =
      if Readable lower upper allocatedSize (tried k) then some (tried k : ℤ)
      else search lower upper allocatedSize ((k+1)%4) ((k+1)/4) := by
  have hk : k%4 < validIntervals.length := Nat.mod_lt _ (by decide)
  have hget : validIntervals[k%4]*10^(k/4) = tried k := by rw [tried,List.getD_eq_getElem _ _ hk]
  have hnonneg := spacing_nonneg hr hs (Nat.cast_nonneg (α := ℚ) (tried k))
  rw [search,dif_pos hk]
  simp only [hget]
  rw [dif_pos hfit,Int.cast_natCast,intervalPixelSpacing_eq hr hs hspacing]
  simp only [Option.bind_some,if_neg (not_lt.mpr hnonneg)]
  refine if_congr Iff.rfl rfl ?_
  have hlength : validIntervals.length = 4 := rfl
  rw [hlength]
  split
  · rename_i h
    rw [show (k+1)%4 = 0 by omega,show (k+1)/4 = k/4+1 by omega]
  · rename_i h
    rw [show (k+1)%4 = k%4+1 by omega,show (k+1)/4 = k/4 by omega]

theorem search_skip (hr : lower < upper) (hs : 0 < allocatedSize)
    (h : ∀ j < k, (tried j : ℤ) ≤ intMax ∧ ¬ Readable lower upper allocatedSize (tried j)) :
    search lower upper allocatedSize 0 0 = search lower upper allocatedSize (k%4) (k/4) := by
  induction k with
  | zero => rfl
  | succ k ih =>
    obtain ⟨hfit,hread⟩ := h k (Nat.lt_succ_self k)
    have hspacing : ⌊allocatedSize/(upper-lower)*tried k⌋ ≤ intMax := (not_le.mp hread).le.trans (by decide)
    rw [ih fun j hj => h j (by omega),search_eq hr hs hfit hspacing,if_neg hread]

theorem search_eq_none (h : intMax < tried k) : search lower upper allocatedSize (k%4) (k/4) = none := by
  have hk : k%4 < validIntervals.length := Nat.mod_lt _ (by decide)
  have hget : validIntervals[k%4]*10^(k/4) = tried k := by rw [tried,List.getD_eq_getElem _ _ hk]
  rw [search,dif_pos hk]
  simp only [hget]
  rw [dif_neg (not_le.mpr h)]

theorem search_first_eq_none (h : intMax < ⌊allocatedSize/(upper-lower)⌋) :
    search lower upper allocatedSize 0 0 = none := by
  have hlong : checked ⌊allocatedSize/(upper-lower)⌋ = none := if_neg fun hfit => absurd hfit.2 (not_le.mpr h)
  have hone : intervalPixelSpacing 1 lower upper allocatedSize = none := by
    rw [intervalPixelSpacing,mul_one,hlong,ite_self]
  have hget : ((validIntervals[0]*10^0 : ℕ) : ℤ) = 1 := rfl
  rw [search,dif_pos (by decide),hget]
  simp only [Int.cast_one,hone,Option.bind_none,dite_eq_ite,ite_self]

theorem exists_readable (hr : lower < upper) (hs : 0 < allocatedSize) :
    ∃ k, Readable lower upper allocatedSize (tried k) := by
  have hrate := rate_pos hr hs
  obtain ⟨n,hn⟩ := pow_unbounded_of_one_lt (80/(allocatedSize/(upper-lower))) (by norm_num : (1:ℚ) < 10)
  refine ⟨4*n,Int.le_floor.mpr ?_⟩
  rw [div_lt_iff₀ hrate] at hn
  have htried : tried (4*n) = 10^n := by
    have h := tried_four_mul n 0 (by decide)
    simpa [validIntervals] using h
  rw [htried]
  push_cast
  simp only [minSpaceMajorTicks]
  push_cast
  linarith

theorem exists_first (hr : lower < upper) (hs : 0 < allocatedSize) :
    ∃ m, Readable lower upper allocatedSize (tried m) ∧ ∀ j < m, ¬ Readable lower upper allocatedSize (tried j) :=
  ⟨Nat.find (exists_readable hr hs),Nat.find_spec (exists_readable hr hs),
    fun _ hj => Nat.find_min (exists_readable hr hs) hj⟩

theorem search_eq_first (hr : lower < upper) (hs : 0 < allocatedSize)
    (hm : Readable lower upper allocatedSize (tried m))
    (hbefore : ∀ j < m, ¬ Readable lower upper allocatedSize (tried j))
    (hfit : ∀ k ≤ m, (tried k : ℤ) ≤ intMax) (hspacing : ⌊allocatedSize/(upper-lower)*tried m⌋ ≤ intMax) :
    search lower upper allocatedSize 0 0 = some (tried m : ℤ) := by
  rw [search_skip hr hs fun j hj => ⟨hfit j hj.le,hbefore j hj⟩,search_eq hr hs (hfit m le_rfl) hspacing,if_pos hm]

theorem spacing_le (hr : lower < upper) (hs : 0 < allocatedSize) (hfirst : ⌊allocatedSize/(upper-lower)⌋ ≤ intMax)
    (hbefore : ∀ j < k, ¬ Readable lower upper allocatedSize (tried j)) :
    ⌊allocatedSize/(upper-lower)*tried k⌋ ≤ intMax := by
  cases k with
  | zero =>
    have htried : tried 0 = 1 := rfl
    rwa [htried,Nat.cast_one,mul_one]
  | succ k =>
    have hlast : allocatedSize/(upper-lower)*tried k < 80 := by
      have h := not_le.mp (hbefore k (Nat.lt_succ_self k))
      exact_mod_cast Int.floor_lt.mp h
    have hrate := (rate_pos hr hs).le
    have hnext : allocatedSize/(upper-lower)*tried (k+1) ≤ 400 := by
      calc allocatedSize/(upper-lower)*tried (k+1) ≤ allocatedSize/(upper-lower)*(5*tried k : ℕ) :=
            mul_le_mul_of_nonneg_left (by exact_mod_cast tried_succ_le k) hrate
        _ = 5*(allocatedSize/(upper-lower)*tried k) := by push_cast; ring
        _ ≤ 400 := by linarith
    have hfloor : ⌊allocatedSize/(upper-lower)*tried (k+1)⌋ ≤ 400 := by
      have h := Int.floor_le_floor hnext
      rwa [show (400:ℚ) = ((400:ℤ):ℚ) by norm_num,Int.floor_intCast] at h
    exact hfloor.trans (by decide)

theorem first_spacing_le (hs : 0 < allocatedSize) (hrange : 1 ≤ upper-lower) (hint : allocatedSize ≤ intMax) :
    ⌊allocatedSize/(upper-lower)⌋ ≤ intMax := by
  have h := Int.floor_le_floor ((div_le_self hs.le hrange).trans hint)
  rwa [Int.floor_intCast] at h

theorem isLeast_first (hm : Readable lower upper allocatedSize (tried m))
    (hbefore : ∀ j < m, ¬ Readable lower upper allocatedSize (tried j)) :
    IsLeast {i | i ∈ intervals ∧ Readable lower upper allocatedSize i} (tried m) := by
  refine ⟨⟨mem_intervals_iff.mpr ⟨m,rfl⟩,hm⟩,?_⟩
  rintro i ⟨hi,hread⟩
  obtain ⟨k,rfl⟩ := mem_intervals_iff.mp hi
  by_contra hlt
  obtain ⟨j,hj,he⟩ := tried_before (not_le.mp hlt)
  exact hbefore j hj (he ▸ hread)

theorem calculateInterval_of_readable (hrange : 1 ≤ upper-lower) (hs : 0 < allocatedSize)
    (hread : Readable lower upper allocatedSize (10^9)) (hfirst : ⌊allocatedSize/(upper-lower)⌋ ≤ intMax) :
    ∃ m, calculateInterval lower upper allocatedSize = some (tried m : ℤ) := by
  have hr : lower < upper := by linarith
  obtain ⟨m,hm,hbefore⟩ := exists_first hr hs
  have hle : m ≤ 34 := by
    by_contra hlt
    exact hbefore 34 (by omega) (by simpa [tried,validIntervals] using hread)
  have hfit : ∀ k ≤ 34, (tried k : ℤ) ≤ intMax := by decide +kernel
  rw [calculateInterval,if_pos ⟨hr,hrange,hs⟩]
  exact ⟨m,search_eq_first hr hs hm hbefore (fun k hk => hfit k (hk.trans hle)) (spacing_le hr hs hfirst hbefore)⟩

theorem calculateInterval_of_not_readable (hr : lower < upper) (hs : 0 < allocatedSize)
    (hread : ¬ Readable lower upper allocatedSize (10^9)) : calculateInterval lower upper allocatedSize = none := by
  have hsmall : ∀ j < 35, tried j ≤ 10^9 ∧ (tried j : ℤ) ≤ intMax := by decide +kernel
  have hskip := search_skip (k := 35) hr hs fun j hj =>
    ⟨(hsmall j hj).2,fun h => hread (h.mono hr hs (hsmall j hj).1)⟩
  rw [calculateInterval,hskip,search_eq_none (by decide +kernel),ite_self]

theorem calculateInterval_isSome_iff (hr : lower < upper) (hs : 0 < allocatedSize) :
    (∃ i, calculateInterval lower upper allocatedSize = some i) ↔
      1 ≤ upper-lower ∧ Readable lower upper allocatedSize (10^9) ∧ ⌊allocatedSize/(upper-lower)⌋ ≤ intMax := by
  constructor
  · rintro ⟨i,hi⟩
    refine ⟨?_,?_,?_⟩
    · by_contra hrange
      simp [calculateInterval,hrange] at hi
    · by_contra hread
      rw [calculateInterval_of_not_readable hr hs hread] at hi
      contradiction
    · by_contra hfirst
      rw [calculateInterval,search_first_eq_none (not_le.mp hfirst),ite_self] at hi
      contradiction
  · rintro ⟨hrange,hread,hfirst⟩
    obtain ⟨m,hm⟩ := calculateInterval_of_readable hrange hs hread hfirst
    exact ⟨_,hm⟩

theorem search_spacing {intervalIndex intervalN : ℕ} {i : ℤ}
    (h : search lower upper allocatedSize intervalIndex intervalN = some i) (hr : lower < upper)
    (hs : 0 < allocatedSize) : 1 ≤ i ∧ ∃ spacing, intervalPixelSpacing i lower upper allocatedSize = some spacing ∧
      spacing = ⌊allocatedSize/(upper-lower)*i⌋ ∧ minSpaceMajorTicks ≤ spacing := by
  fun_induction search lower upper allocatedSize intervalIndex intervalN with
  | case1 intervalIndex intervalN hi interval hf ihNext ih =>
    obtain ⟨spacing,hspacing,h⟩ := Option.bind_eq_some_iff.mp h
    have hinterval : 1 ≤ interval := by
      have hpow : 0 < 10^intervalN := Nat.pow_pos (by decide)
      have hpos := Nat.mul_pos (validIntervals_pos _ (List.getElem_mem hi)) hpow
      exact Int.ofNat_le.mpr hpos
    have hs' := hspacing
    rw [intervalPixelSpacing,if_pos ⟨hr,hs⟩] at hs'
    obtain rfl := (checked_eq_some.mp hs').2
    have hnonneg : ¬ ⌊allocatedSize/(upper-lower)*interval⌋ < 0 := by
      have hcast : (0:ℚ) ≤ interval := by exact_mod_cast (by omega : 0 ≤ interval)
      exact not_lt.mpr (spacing_nonneg hr hs hcast)
    rw [if_neg hnonneg] at h
    split at h
    · obtain rfl := Option.some.inj h
      exact ⟨hinterval,_,hspacing,rfl,‹_›⟩
    · split at h
      · exact ihNext ‹_› h
      · exact ih h
  | case2 => contradiction
  | case3 => contradiction

theorem calculateInterval_spacing {i : ℤ} (h : calculateInterval lower upper allocatedSize = some i) :
    1 ≤ i ∧ ∃ spacing, intervalPixelSpacing i lower upper allocatedSize = some spacing ∧
      spacing = ⌊allocatedSize/(upper-lower)*i⌋ ∧ minSpaceMajorTicks ≤ spacing := by
  rw [calculateInterval] at h
  split at h
  case isTrue hc => exact search_spacing h hc.1 hc.2.2
  case isFalse => contradiction

end Search

/-- The calculation ends with the least interval whose ticks are readable. The first spacing fits in an `int` as
long as the allocated size does, and then so do all that the loop comes to. -/
theorem calculateInterval_isLeast (lower upper allocatedSize : ℚ) (hrange : 1 ≤ upper-lower)
    (hsize : 0 < allocatedSize) (hfit : TriedFit lower upper allocatedSize)
    (hfirst : ⌊allocatedSize/(upper-lower)⌋ ≤ intMax) :
    ∃ i : ℕ, calculateInterval lower upper allocatedSize = some (i : ℤ) ∧
      IsLeast {i | i ∈ intervals ∧ Readable lower upper allocatedSize i} i := by
  have hr : lower < upper := by linarith
  obtain ⟨m,hm,hbefore⟩ := exists_first hr hsize
  refine ⟨tried m,?_,isLeast_first hm hbefore⟩
  rw [calculateInterval,if_pos ⟨hr,hrange,hsize⟩]
  exact search_eq_first hr hsize hm hbefore (fun k hk => hfit k fun j hj => hbefore j (hj.trans_le hk))
    (spacing_le hr hsize hfirst hbefore)

theorem triedFit_hundred : TriedFit 0 10 100 := by
  intro k hk
  have hread : Readable 0 10 100 (tried 2) := by decide +kernel
  have hle : k ≤ 2 := by
    by_contra hlt
    exact hk 2 (by omega) hread
  have hall : ∀ k ≤ 2, (tried k : ℤ) ≤ intMax := by decide
  exact hall k hle

theorem calculateInterval_isLeast_hundred : ∃ i : ℕ, calculateInterval 0 10 100 = some (i : ℤ) ∧
    IsLeast {i | i ∈ intervals ∧ Readable 0 10 100 i} i :=
  calculateInterval_isLeast 0 10 100 (by norm_num) (by norm_num) triedFit_hundred
    (first_spacing_le (by norm_num) (by norm_num) (by norm_num [intMax]))

end RulerCalculations
end Scroom
