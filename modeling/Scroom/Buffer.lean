import Scroom.Loops
import Mathlib.Order.CompletePartialOrder

/-! Byte buffers of a fixed size with checked accesses, seen as a row of bits. The bits of a
byte are counted from the least significant one, so that a number stored with its low byte
first occupies consecutive bits. -/
namespace Scroom

abbrev Buffer (n : ℕ) := Vector UInt8 n

namespace Buffer

variable {n m : ℕ}

def write (b : Buffer n) (i : ℕ) (x : UInt8) : Option (Buffer n) :=
  if h : i < n then some (b.set i x h) else none

/-- Copy `k` bytes from place `s` of one buffer to place `d` of another. -/
def copy (dst : Buffer n) (d : ℕ) (src : Buffer m) (s k : ℕ) : Option (Buffer n) :=
  if s+k ≤ m ∧ d+k ≤ n then
    some (Vector.ofFn fun i => if d ≤ i.val ∧ i.val < d+k then (src[s+(i.val-d)]?).getD 0 else dst[i.val])
  else none

theorem copy_isSome {dst : Buffer n} {d : ℕ} {src : Buffer m} {s k : ℕ} :
    (copy dst d src s k).isSome ↔ s+k ≤ m ∧ d+k ≤ n := by
  unfold copy
  split <;> simp_all

theorem getElem?_copy {dst r : Buffer n} {d : ℕ} {src : Buffer m} {s k : ℕ}
    (h : copy dst d src s k = some r) (o : ℕ) :
    r[o]? = if d ≤ o ∧ o < d+k then src[s+(o-d)]? else dst[o]? := by
  unfold copy at h
  split at h
  case isFalse => cases h
  case isTrue hb =>
    cases h
    by_cases ho : o < n
    · rw [Vector.getElem?_eq_getElem ho,Vector.getElem_ofFn,Vector.getElem?_eq_getElem ho]
      by_cases hd : d ≤ o ∧ o < d+k
      · have hs : s+(o-d) < m := by omega
        simp [hd,hs]
      · simp [hd]
    · have hd : ¬ (d ≤ o ∧ o < d+k) := by omega
      simp [ho,hd]

def bit (b : Buffer n) (a : ℕ) : Bool := ((b[a/8]?).getD 0).toNat.testBit (a%8)

theorem byte_ext {x y : UInt8} (h : ∀ k < 8, x.toNat.testBit k = y.toNat.testBit k) : x = y := by
  refine UInt8.toNat_inj.mp (Nat.eq_of_testBit_eq fun k => ?_)
  by_cases hk : k < 8
  · exact h k hk
  · have hp : (256:ℕ) ≤ 2^k := Nat.pow_le_pow_right (n := 2) (by decide) (Nat.le_of_not_lt hk)
    rw [Nat.testBit_lt_two_pow (x.toNat_lt.trans_le hp),Nat.testBit_lt_two_pow (y.toNat_lt.trans_le hp)]

theorem ext_bit {b c : Buffer n} (h : ∀ a, bit b a = bit c a) : b = c := by
  refine Vector.ext fun i hi => byte_ext fun k hk => ?_
  have ha := h (8*i+k)
  have hd : (8*i+k)/8 = i := by omega
  have hm : (8*i+k)%8 = k := by omega
  simpa [bit,hd,hm,hi] using ha

/-- `c` is `b` with the bits of `R` replaced by those of `v`. -/
def Patch (R : Set ℕ) (v : ℕ → Bool) (b c : Buffer n) : Prop :=
  (∀ a ∈ R, bit c a = v a) ∧ ∀ a ∉ R, bit c a = bit b a

theorem Patch.refl (v : ℕ → Bool) (b : Buffer n) : Patch ∅ v b b :=
  ⟨fun _ h => h.elim,fun _ _ => rfl⟩

theorem Patch.trans {R S : Set ℕ} {v : ℕ → Bool} {b c d : Buffer n} (h : Patch R v b c)
    (hh : Patch S v c d) : Patch (R ∪ S) v b d := by
  constructor
  · intro a ha
    by_cases hs : a ∈ S
    · exact hh.1 a hs
    · exact (hh.2 a hs).trans (h.1 a (ha.resolve_right hs))
  · intro a ha
    have hr : a ∉ R := fun hr => ha (Or.inl hr)
    have hs : a ∉ S := fun hs => ha (Or.inr hs)
    exact (hh.2 a hs).trans (h.2 a hr)

theorem Patch.unique {R : Set ℕ} {v : ℕ → Bool} {b c d : Buffer n} (h : Patch R v b c)
    (hh : Patch R v b d) : c = d := by
  refine ext_bit fun a => ?_
  by_cases ha : a ∈ R
  · rw [h.1 a ha,hh.1 a ha]
  · rw [h.2 a ha,hh.2 a ha]

theorem Patch.congr {R : Set ℕ} {v w : ℕ → Bool} {b c : Buffer n} (h : Patch R v b c)
    (hv : ∀ a ∈ R, v a = w a) : Patch R w b c :=
  ⟨fun a ha => (h.1 a ha).trans (hv a ha),h.2⟩

/-- The action succeeds on every buffer and sets the bits of `R` to those of `v`, whatever
they were; it changes no other bit. -/
def Writes (f : Buffer n → Option (Buffer n)) (R : Set ℕ) (v : ℕ → Bool) : Prop :=
  ∀ b, ∃ c, f b = some c ∧ Patch R v b c

theorem Writes.congr {f : Buffer n → Option (Buffer n)} {R S : Set ℕ} {v w : ℕ → Bool}
    (h : Writes f R v) (hr : R = S) (hv : ∀ a ∈ R, v a = w a) : Writes f S w := by
  subst hr
  intro b
  obtain ⟨c,hc,hp⟩ := h b
  exact ⟨c,hc,hp.congr hv⟩

/-- Two writes to bits that do not overlap can be done in any order. -/
theorem Writes.comm {f g : Buffer n → Option (Buffer n)} {R S : Set ℕ} {v w : ℕ → Bool}
    (hf : Writes f R v) (hg : Writes g S w) (hd : Disjoint R S) (b : Buffer n) :
    (f b).bind g = (g b).bind f := by
  classical
  obtain ⟨c,hc,hpc⟩ := hf b
  obtain ⟨d,hcd,hpd⟩ := hg c
  obtain ⟨c',hc',hpc'⟩ := hg b
  obtain ⟨d',hcd',hpd'⟩ := hf c'
  let u : ℕ → Bool := fun a => if a ∈ R then v a else w a
  have hu : ∀ a ∈ R, v a = u a := fun a ha => by simp [u,ha]
  have hu' : ∀ a ∈ S, w a = u a := fun a ha => by
    have hn : a ∉ R := Set.disjoint_right.mp hd ha
    simp [u,hn]
  have hp := (hpc.congr hu).trans (hpd.congr hu')
  have hp' := (hpc'.congr hu').trans (hpd'.congr hu)
  rw [Set.union_comm] at hp'
  simp [hc,hcd,hc',hcd',hp.unique hp']

/-- A loop of writes: every turn writes its own bits. -/
theorem Writes.loop {step : Buffer n → ℕ → Option (Buffer n)} {R : ℕ → Set ℕ} {v : ℕ → ℕ → Bool}
    {count : ℕ} (h : ∀ k < count, Writes (fun b => step b k) (R k) (v k))
    (hd : ∀ k < count, ∀ l < k, Disjoint (R l) (R k)) :
    ∃ w : ℕ → Bool, (∀ k < count, ∀ a ∈ R k, w a = v k a) ∧
      Writes (fun b => (List.range count).foldlM step b) {a | ∃ k < count, a ∈ R k} w := by
  classical
  induction count with
  | zero =>
    refine ⟨fun _ => false,by simp,fun b => ⟨b,rfl,?_⟩⟩
    simpa using Patch.refl _ b
  | succ count ih =>
    obtain ⟨w,hw,hs⟩ := ih (fun k hk => h k (by omega)) (fun k hk => hd k (by omega))
    let u : ℕ → Bool := fun a => if a ∈ R count then v count a else w a
    have hu : ∀ k < count, ∀ a ∈ R k, u a = w a := fun k hk a ha => by
      have hn : a ∉ R count := Set.disjoint_left.mp (hd count (by omega) k hk) ha
      simp [u,hn]
    refine ⟨u,fun k hk a ha => ?_,fun b => ?_⟩
    · rcases Nat.lt_succ_iff_lt_or_eq.mp hk with hk | rfl
      · exact (hu k hk a ha).trans (hw k hk a ha)
      · simp [u,ha]
    · obtain ⟨c,hc,hp⟩ := hs b
      obtain ⟨d,hcd,hq⟩ := h count (by omega) c
      refine ⟨d,?_,?_⟩
      · dsimp only at hc hcd ⊢
        rw [List.range_succ,List.foldlM_append,hc]
        simpa using hcd
      · have hp' := (hp.congr (w := u) fun a ⟨k,hk,ha⟩ => (hu k hk a ha).symm).trans
          (hq.congr (w := u) fun a ha => by simp [u,ha])
        convert hp' using 1
        ext a
        simp only [Set.mem_ofPred_eq,Set.mem_union,Nat.lt_succ_iff_lt_or_eq]
        constructor
        · rintro ⟨k,hk | rfl,ha⟩
          · exact Or.inl ⟨k,hk,ha⟩
          · exact Or.inr ha
        · rintro (⟨k,hk,ha⟩ | ha)
          · exact ⟨k,Or.inl hk,ha⟩
          · exact ⟨count,Or.inr rfl,ha⟩

/-- Writing one byte. -/
theorem write_writes {i : ℕ} (h : i < n) (x : UInt8) :
    Writes (fun b : Buffer n => write b i x) {a | a/8 = i} fun a => x.toNat.testBit (a%8) := by
  intro b
  refine ⟨b.set i x h,by simp [write,h],fun a ha => ?_,fun a ha => ?_⟩
  · have hi : a/8 = i := ha
    simp [bit,hi]
  · have hi : i ≠ a/8 := fun hi => ha hi.symm
    simp [bit,hi]

end Buffer
end Scroom
