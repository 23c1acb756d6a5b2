import Mathlib.Tactic

/-! Rules for loops over lists and ranges whose body may fail. -/
namespace Scroom
namespace Loops

variable {S ι : Type*}

/-- A loop establishes an invariant that knows how many turns were made. -/
theorem foldlM_range {f : S → ℕ → Option S} {I : ℕ → S → Prop} {n : ℕ} {s : S} (h : I 0 s)
    (hstep : ∀ k < n, ∀ t, I k t → ∃ t', f t k = some t' ∧ I (k+1) t') :
    ∃ s', (List.range n).foldlM f s = some s' ∧ I n s' := by
  induction n with
  | zero => exact ⟨s,rfl,h⟩
  | succ n ih =>
    obtain ⟨t,ht,hi⟩ := ih fun k hk => hstep k (by omega)
    obtain ⟨t',ht',hi'⟩ := hstep n (by omega) t hi
    refine ⟨t',?_,hi'⟩
    rw [List.range_succ,List.foldlM_append]
    simp [ht,ht']

theorem foldlM_exists {f : S → ℕ → Option S} {P : S → Prop} {Q : ℕ → Prop} {n : ℕ}
    (hstep : ∀ k < n, ∀ t, ∃ t', f t k = some t' ∧ (P t' ↔ P t ∨ Q k)) (s : S) :
    ∃ s', (List.range n).foldlM f s = some s' ∧ (P s' ↔ P s ∨ ∃ k < n, Q k) := by
  refine foldlM_range (I := fun k t => P t ↔ P s ∨ ∃ l < k, Q l) (by simp) ?_
  intro k hk t ht
  obtain ⟨t',ht',hP⟩ := hstep k hk t
  refine ⟨t',ht',?_⟩
  rw [hP,ht,Nat.exists_lt_succ_right,or_assoc]

theorem mapM_eq_some_map {T : Type*} {f : ι → Option T} {g : ι → T} {l : List ι} (h : ∀ k ∈ l, f k = some (g k)) :
    l.mapM f = some (l.map g) := by
  induction l with
  | nil => rfl
  | cons k l ih =>
    rw [List.mapM_cons,h k List.mem_cons_self,ih fun k hk => h k (List.mem_cons_of_mem _ hk)]
    rfl

theorem guard_bind {T : Type*} {p : Prop} [Decidable p] (x : Option T) :
    (guard p : Option PUnit).bind (fun _ => x) = if p then x else none := by
  by_cases hp : p <;> simp [hp]

theorem mapM_eq_some_iff {T : Type*} {f : ι → Option T} {l : List ι} {ts : List T} :
    l.mapM f = some ts ↔ List.Forall₂ (fun k t => f k = some t) l ts := by
  induction l generalizing ts with
  | nil => simp [eq_comm]
  | cons k l ih =>
    simp only [List.mapM_cons,Option.pure_def,Option.bind_eq_bind,Option.bind_eq_some_iff,Option.some.injEq,
      List.forall₂_cons_left_iff,ih]
    constructor
    · rintro ⟨t,ht,rest,hrest,rfl⟩
      exact ⟨t,rest,ht,hrest,rfl⟩
    · rintro ⟨t,rest,ht,hrest,rfl⟩
      exact ⟨t,ht,rest,hrest,rfl⟩

/-- The rule for two nested loops, with one count of the turns. -/
theorem foldlM_grid {f : S → ℕ → ℕ → Option S} {I : ℕ → S → Prop} {rows cols : ℕ} {s : S} (h : I 0 s)
    (hstep : ∀ k < rows, ∀ l < cols, ∀ t, I (k*cols+l) t → ∃ t', f t k l = some t' ∧ I (k*cols+l+1) t') :
    ∃ s', (List.range rows).foldlM (fun s k => (List.range cols).foldlM (fun s l => f s k l) s) s = some s' ∧
      I (rows*cols) s' := by
  apply foldlM_range (I := fun k => I (k*cols))
  · simpa using h
  · intro k hk t ht
    rw [Nat.succ_mul]
    apply foldlM_range (I := fun l => I (k*cols+l)) ht
    exact hstep k hk

theorem foldlM_preserves {f : S → ι → Option S} {I : S → Prop} (hstep : ∀ s k t, f s k = some t → I s → I t)
    {l : List ι} {s t : S} (h : l.foldlM f s = some t) (hs : I s) : I t := by
  induction l generalizing s with
  | nil =>
    cases h
    exact hs
  | cons k l ih =>
    rw [List.foldlM_cons,Option.bind_eq_bind,Option.bind_eq_some_iff] at h
    obtain ⟨u,hu,hut⟩ := h
    exact ih hut (hstep s k u hu hs)

theorem foldlM_range_one {f : S → ℕ → Option S} {n b : ℕ} {s : S} (hb : b < n)
    (hother : ∀ k < n, k ≠ b → ∀ t, t = s ∨ f s b = some t → f t k = some t) :
    (List.range n).foldlM f s = f s b := by
  cases hf : f s b with
  | some u =>
    obtain ⟨t,ht,hi⟩ := foldlM_range (f := f) (n := n) (s := s) (I := fun k t => t = if k ≤ b then s else u)
      (by simp) fun k hk t ht => by
        subst ht
        rcases lt_trichotomy k b with h | rfl | h
        · refine ⟨s,?_,by rw [if_pos (by omega)]⟩
          rw [if_pos (by omega)]
          exact hother k hk h.ne s (Or.inl rfl)
        · refine ⟨u,?_,by rw [if_neg (by omega)]⟩
          rw [if_pos le_rfl,hf]
        · refine ⟨u,?_,by rw [if_neg (by omega)]⟩
          rw [if_neg (by omega)]
          exact hother k hk h.ne' u (Or.inr hf)
    rw [ht,hi,if_neg (by omega)]
  | none =>
    obtain ⟨t,ht,rfl⟩ := foldlM_range (f := f) (n := b) (s := s) (I := fun _ t => t = s) rfl fun k hk t ht => by
      subst ht
      exact ⟨t,hother k (by omega) hk.ne t (Or.inl rfl),rfl⟩
    have hsplit : List.range n = List.range b ++ b::(List.range (n-b-1)).map (b+1+·) := by
      rw [show n = b+(1+(n-b-1)) by omega,List.range_add,List.range_add]
      simp [Nat.add_assoc]
    rw [hsplit,List.foldlM_append,ht]
    simp [hf]

theorem filterMap_one {T U : Type*} {f : T → Option U} {l : List T} {i : ℕ} {x : T} (hi : l[i]? = some x)
    (hother : ∀ k y, l[k]? = some y → k ≠ i → f y = none) : l.filterMap f = (f x).toList := by
  induction l generalizing i with
  | nil => simp at hi
  | cons y l ih =>
    cases i with
    | zero =>
      obtain rfl : y = x := Option.some.inj hi
      have hrest : l.filterMap f = [] := List.filterMap_eq_nil_iff.mpr fun z hz => by
        obtain ⟨k,hk⟩ := List.mem_iff_getElem?.mp hz
        exact hother (k+1) z hk (Nat.succ_ne_zero k)
      cases hy : f y <;> simp [hy,hrest]
    | succ i =>
      rw [List.filterMap_cons,hother 0 y rfl (Nat.succ_ne_zero i).symm]
      exact ih hi fun k z hz hk => hother (k+1) z hz fun h => hk (Nat.succ.inj h)

theorem foldl_least {T : Type*} (f : T → ℕ) (l : List T) (m : T) :
    ∀ x ∈ m::l, f (l.foldl (fun m x => if f x < f m then x else m) m) ≤ f x := by
  induction l generalizing m with
  | nil => simp
  | cons y l ih =>
    have hleast : f (if f y < f m then y else m) ≤ f y ∧ f (if f y < f m then y else m) ≤ f m := by
      split_ifs <;> omega
    have hrest := ih (if f y < f m then y else m)
    intro x hx
    rw [List.foldl_cons]
    rcases List.mem_cons.mp hx with rfl | hx
    · exact (hrest _ List.mem_cons_self).trans hleast.2
    · rcases List.mem_cons.mp hx with rfl | hx
      · exact (hrest _ List.mem_cons_self).trans hleast.1
      · exact hrest x (List.mem_cons_of_mem _ hx)

end Loops
end Scroom
