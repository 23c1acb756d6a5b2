import Mathlib.Tactic

/-! Transition systems whose steps are partial functions on a state: finite runs,
the induction rule for invariants, and runs whose steps all meet a side condition. -/
namespace Scroom
namespace Transitions

variable {S A : Type*}

/-- The state after a list of actions, if each of them was enabled when its turn came. -/
def run (step : S → A → Option S) : List A → S → Option S
  | [], s => some s
  | a::as, s => (step s a).bind (run step as)

@[simp] theorem run_nil (step : S → A → Option S) (s : S) : run step [] s = some s := rfl

theorem run_cons_eq_some {step : S → A → Option S} {a : A} {as : List A} {s s' : S} :
    run step (a::as) s = some s' ↔ ∃ t, step s a = some t ∧ run step as t = some s' := by
  simp [run,Option.bind_eq_some_iff]

/-- The invariant rule for an invariant that depends on what has happened so far. -/
theorem run_invariant_history {H : Type*} {step : S → A → Option S} (next : H → A → H)
    {Inv : H → S → Prop}
    (hstep : ∀ k s a s', Inv k s → step s a = some s' → Inv (next k a) s')
    {as : List A} {k : H} {s s' : S} (hs : Inv k s) (hr : run step as s = some s') :
    Inv (as.foldl next k) s' := by
  induction as generalizing k s with
  | nil =>
    have he : s = s' := by simpa using hr
    exact he ▸ hs
  | cons a as ih =>
    obtain ⟨t,ht,hr⟩ := run_cons_eq_some.mp hr
    exact ih (hstep k s a t hs ht) hr

/-- What one step preserves, a run preserves. -/
theorem run_invariant {step : S → A → Option S} {Inv : S → Prop}
    (hstep : ∀ s a s', Inv s → step s a = some s' → Inv s')
    {as : List A} {s s' : S} (hs : Inv s) (hr : run step as s = some s') : Inv s' :=
  run_invariant_history (fun (u : Unit) _ => u) (fun _ => hstep) (k := ()) hs hr

/-- Two systems whose steps keep related states related do so for runs, and fail together. -/
theorem run_rel {T : Type*} {step : S → A → Option S} {step' : T → A → Option T} {R : S → T → Prop}
    (hstep : ∀ s t a, R s t → Option.Rel R (step s a) (step' t a)) {s : S} {t : T} (h : R s t) (as : List A) :
    Option.Rel R (run step as s) (run step' as t) := by
  induction as generalizing s t with
  | nil => exact .some h
  | cons a as ih =>
    rw [run,run]
    have hst := hstep s t a h
    generalize step s a = s',step' t a = t' at hst
    cases hst with
    | none => exact .none
    | some h => exact ih h

/-- If every step costs something, a run is no longer than what there is to spend. -/
theorem run_length_le {step : S → A → Option S} {Inv : S → Prop} {cost : S → ℕ}
    (hstep : ∀ s a s', Inv s → step s a = some s' → Inv s' ∧ cost s' < cost s)
    {as : List A} {s s' : S} (hs : Inv s) (hr : run step as s = some s') : as.length+cost s' ≤ cost s := by
  induction as generalizing s with
  | nil =>
    have he : s = s' := by simpa using hr
    simp [he]
  | cons a as ih =>
    obtain ⟨t,ht,hr⟩ := run_cons_eq_some.mp hr
    obtain ⟨hi,hlt⟩ := hstep s a t hs ht
    have hle := ih hi hr
    simp only [List.length_cons]
    omega

/-- Every step of the run is taken from a state where `ok` allows its action. -/
def Within (step : S → A → Option S) (ok : S → A → Prop) : List A → S → Prop
  | [], _ => True
  | a::as, s => ok s a ∧ ∀ t, step s a = some t → Within step ok as t

instance decidableWithin (step : S → A → Option S) (ok : S → A → Prop)
    [∀ s a, Decidable (ok s a)] : ∀ as s, Decidable (Within step ok as s)
  | [], _ => isTrue trivial
  | a::as, s =>
    have : Decidable (∀ t, step s a = some t → Within step ok as t) :=
      match step s a with
      | none => isTrue fun _ h => nomatch h
      | some t =>
        have := decidableWithin step ok as t
        decidable_of_iff (Within step ok as t) (by simp)
    inferInstanceAs (Decidable (ok s a ∧ _))

/-- If a step is enabled exactly where `ok` allows it, then the runs within `ok` are those that go through. -/
theorem exists_run_iff_within {step : S → A → Option S} {ok : S → A → Prop}
    (hstep : ∀ s a, (∃ t, step s a = some t) ↔ ok s a) {as : List A} {s : S} :
    (∃ t, run step as s = some t) ↔ Within step ok as s := by
  induction as generalizing s with
  | nil => exact iff_of_true ⟨s,rfl⟩ trivial
  | cons a as ih =>
    constructor
    · rintro ⟨u,hu⟩
      obtain ⟨t,ht,hr⟩ := run_cons_eq_some.mp hu
      refine ⟨(hstep s a).mp ⟨t,ht⟩,fun t' ht' => ?_⟩
      obtain rfl := Option.some.inj (ht.symm.trans ht')
      exact ih.mp ⟨u,hr⟩
    · rintro ⟨hok,hrest⟩
      obtain ⟨t,ht⟩ := (hstep s a).mpr hok
      obtain ⟨u,hu⟩ := ih.mpr (hrest t ht)
      exact ⟨u,run_cons_eq_some.mpr ⟨t,ht,hu⟩⟩

/-- The invariant rule for runs whose steps all meet a condition. -/
theorem run_invariant_within {step : S → A → Option S} {ok : S → A → Prop} {Inv : S → Prop}
    (hstep : ∀ s a s', Inv s → ok s a → step s a = some s' → Inv s')
    {as : List A} {s s' : S} (hs : Inv s) (hok : Within step ok as s)
    (hr : run step as s = some s') : Inv s' := by
  induction as generalizing s with
  | nil =>
    have he : s = s' := by simpa using hr
    exact he ▸ hs
  | cons a as ih =>
    obtain ⟨t,ht,hr⟩ := run_cons_eq_some.mp hr
    exact ih (hstep s a t hs hok.1 ht) (hok.2 t ht) hr

/-- If what `ok` allows can be done and keeps the invariant, then the runs within `ok` go through. -/
theorem exists_run_within {step : S → A → Option S} {ok : S → A → Prop} {Inv : S → Prop}
    (hstep : ∀ s a, Inv s → ok s a → ∃ t, step s a = some t ∧ Inv t) {as : List A} {s : S} (hs : Inv s)
    (hok : Within step ok as s) : ∃ t, run step as s = some t ∧ Inv t := by
  induction as generalizing s with
  | nil => exact ⟨s,rfl,hs⟩
  | cons a as ih =>
    obtain ⟨t,ht,hit⟩ := hstep s a hs hok.1
    obtain ⟨u,hu,hiu⟩ := ih hit (hok.2 t ht)
    exact ⟨u,run_cons_eq_some.mpr ⟨t,ht,hu⟩,hiu⟩

/-- `P` holds in every state that the run goes through. -/
def Always (step : S → A → Option S) (P : S → Prop) : List A → S → Prop
  | [], s => P s
  | a::as, s => P s ∧ ∀ t, step s a = some t → Always step P as t

theorem Always.of_run {step : S → A → Option S} {P : S → Prop} {as : List A} {s s' : S}
    (h : Always step P as s) (hr : run step as s = some s') : P s' := by
  induction as generalizing s with
  | nil =>
    have he : s = s' := by simpa using hr
    exact he ▸ h
  | cons a as ih =>
    obtain ⟨t,ht,hr⟩ := run_cons_eq_some.mp hr
    exact ih (h.2 t ht) hr

/-- If the steps that `ok` allows keep the invariant, and are those that keep `P`, then `P` holds all along the
runs that stay within `ok`, and along no others. -/
theorem always_iff_within_of_inv {step : S → A → Option S} {ok : S → A → Prop} {I P : S → Prop}
    (hP : ∀ s, I s → P s) (hinv : ∀ s a s', I s → ok s a → step s a = some s' → I s')
    (hstep : ∀ s a s', I s → step s a = some s' → (P s' ↔ ok s a))
    {as : List A} {s s' : S} (hi : I s) (hr : run step as s = some s') :
    Always step P as s ↔ Within step ok as s := by
  induction as generalizing s with
  | nil => exact iff_of_true (hP s hi) trivial
  | cons a as ih =>
    obtain ⟨t,ht,hr⟩ := run_cons_eq_some.mp hr
    have hone := hstep s a t hi ht
    have hrest : ∀ Q : S → Prop, (∀ u, step s a = some u → Q u) ↔ Q t := fun Q =>
      ⟨fun h => h t ht,fun h u hu => Option.some.inj (ht.symm.trans hu) ▸ h⟩
    rw [Always,Within,hrest,hrest]
    constructor
    · rintro ⟨-,ha⟩
      have hPt : P t := by
        cases as with
        | nil => exact ha
        | cons b as => exact ha.1
      have hok := hone.mp hPt
      exact ⟨hok,(ih (hinv s a t hi hok ht) hr).mp ha⟩
    · rintro ⟨hok,hw⟩
      exact ⟨hP s hi,(ih (hinv s a t hi hok ht) hr).mpr hw⟩

theorem always_iff_within {step : S → A → Option S} {ok : S → A → Prop} {Inv P : S → Prop}
    (hinv : ∀ s a s', Inv s → step s a = some s' → Inv s')
    (hstep : ∀ s a s', Inv s → P s → step s a = some s' → (P s' ↔ ok s a))
    {as : List A} {s s' : S} (hi : Inv s) (hP : P s) (hr : run step as s = some s') :
    Always step P as s ↔ Within step ok as s :=
  always_iff_within_of_inv (I := fun s => Inv s ∧ P s) (fun _ h => h.2)
    (fun s a t h hok ht => ⟨hinv s a t h.1 ht,(hstep s a t h.1 h.2 ht).mpr hok⟩)
    (fun s a t h ht => hstep s a t h.1 h.2 ht) ⟨hi,hP⟩ hr

theorem Always.imp {step : S → A → Option S} {P Q : S → Prop} (hPQ : ∀ s, P s → Q s) {as : List A} {s : S}
    (h : Always step P as s) : Always step Q as s := by
  induction as generalizing s with
  | nil => exact hPQ s h
  | cons a as ih => exact ⟨hPQ s h.1,fun t ht => ih (h.2 t ht)⟩

/-- `P` holds in every state that actions of a kind can lead to. -/
def Henceforth (step : S → A → Option S) (C : A → Prop) (P : S → Prop) (s : S) : Prop :=
  ∀ as t, (∀ a ∈ as, C a) → run step as s = some t → P t

section Henceforth
variable {step : S → A → Option S} {C : A → Prop} {I P : S → Prop} {ok : S → A → Prop} {a : A} {s t : S}

theorem Henceforth.now (h : Henceforth step C P s) : P s := h [] s (by simp) rfl

theorem Henceforth.of_step (h : Henceforth step C P s) (ha : C a) (ht : step s a = some t) :
    Henceforth step C P t := by
  intro as u has hr
  refine h (a::as) u ?_ (run_cons_eq_some.mpr ⟨t,ht,hr⟩)
  simpa using ⟨ha,has⟩

theorem henceforth_of_inv (hP : ∀ s, I s → P s) (hinv : ∀ s a t, I s → C a → step s a = some t → I t) (hi : I s) :
    Henceforth step C P s := by
  intro as t has hr
  induction as generalizing s with
  | nil =>
    have he : s = t := by simpa using hr
    exact he ▸ hP s hi
  | cons a as ih =>
    obtain ⟨u,hu,hr⟩ := run_cons_eq_some.mp hr
    exact ih (hinv s a u hi (has a List.mem_cons_self) hu) (fun b hb => has b (List.mem_cons_of_mem _ hb)) hr

/-- The rule for a condition under which `P` holds, and without which actions of a kind lead to where it does
not. -/
theorem always_henceforth_iff_within (hP : ∀ s, I s → P s) (hC : ∀ s a, C a → ok s a)
    (hinv : ∀ s a t, I s → ok s a → step s a = some t → I t)
    (hbad : ∀ s a t, I s → step s a = some t → Henceforth step C P t → ok s a)
    {as : List A} (hi : I s) (hr : run step as s = some t) :
    (Within step ok as s → Always step P as s) ∧ (Within step ok as s ↔ Always step (Henceforth step C P) as s) := by
  have hlast : ∀ s, I s → Henceforth step C P s := fun s hi =>
    henceforth_of_inv hP (fun s a t hi ha ht => hinv s a t hi (hC s a ha) ht) hi
  have hiff : Always step (Henceforth step C P) as s ↔ Within step ok as s :=
    always_iff_within_of_inv hlast hinv
      (fun s a t hi ht => ⟨hbad s a t hi ht,fun hok => hlast t (hinv s a t hi hok ht)⟩) hi hr
  exact ⟨fun hw => (hiff.mpr hw).imp fun _ hl => hl.now,hiff.symm⟩

end Henceforth

/-- `Q` holds of every step of the run. -/
def Throughout (step : S → A → Option S) (Q : S → A → S → Prop) : List A → S → Prop
  | [], _ => True
  | a::as, s => ∀ t, step s a = some t → Q s a t ∧ Throughout step Q as t

/-- If the steps that `ok` allows keep the invariant, and are those of which `Q` holds, then `Q` holds
throughout the runs that stay within `ok`, and throughout no others. -/
theorem throughout_iff_within {step : S → A → Option S} {Q : S → A → S → Prop} {ok : S → A → Prop}
    {Inv : S → Prop} (hinv : ∀ s a s', Inv s → ok s a → step s a = some s' → Inv s')
    (hstep : ∀ s a s', Inv s → step s a = some s' → (Q s a s' ↔ ok s a))
    {as : List A} {s s' : S} (hi : Inv s) (hr : run step as s = some s') :
    Throughout step Q as s ↔ Within step ok as s := by
  induction as generalizing s with
  | nil => exact Iff.rfl
  | cons a as ih =>
    obtain ⟨t,ht,hr⟩ := run_cons_eq_some.mp hr
    have hone := hstep s a t hi ht
    constructor
    · intro h
      have hok := hone.mp (h t ht).1
      refine ⟨hok,fun u hu => ?_⟩
      cases ht.symm.trans hu
      exact (ih (hinv s a t hi hok ht) hr).mp (h t ht).2
    · rintro ⟨hok,h⟩ u hu
      cases ht.symm.trans hu
      exact ⟨hone.mpr hok,(ih (hinv s a t hi hok ht) hr).mpr (h t ht)⟩

/-- If every step from where the invariant holds is possible, keeps it, and is one of which `Q` holds, then every
run can be gone through, and `Q` holds throughout. -/
theorem exists_run_throughout {step : S → A → Option S} {Q : S → A → S → Prop} {Inv : S → Prop}
    (hstep : ∀ s a, Inv s → ∃ t, step s a = some t ∧ Inv t ∧ Q s a t) (as : List A) {s : S} (hi : Inv s) :
    ∃ t, run step as s = some t ∧ Inv t ∧ Throughout step Q as s := by
  induction as generalizing s with
  | nil => exact ⟨s,rfl,hi,trivial⟩
  | cons a as ih =>
    obtain ⟨t,ht,hit,hq⟩ := hstep s a hi
    obtain ⟨u,hr,hiu,hall⟩ := ih hit
    refine ⟨u,run_cons_eq_some.mpr ⟨t,ht,hr⟩,hiu,fun v hv => ?_⟩
    cases ht.symm.trans hv
    exact ⟨hq,hall⟩

/-- If every step that is possible keeps the invariant, and is one of which `Q` holds, then `Q` holds throughout. -/
theorem throughout_of_inv {step : S → A → Option S} {Q : S → A → S → Prop} {Inv : S → Prop}
    (hstep : ∀ s a t, Inv s → step s a = some t → Inv t ∧ Q s a t) (as : List A) {s : S} (hi : Inv s) :
    Throughout step Q as s := by
  induction as generalizing s with
  | nil => exact trivial
  | cons a as ih =>
    intro t ht
    obtain ⟨hit,hq⟩ := hstep s a t hi ht
    exact ⟨hq,ih hit⟩

/-! ### Many parties

A list holds the states of the parties, one of which moves. -/

variable {P : Type*} {l : List P} {i : ℕ} {a b : P}

theorem countP_set_add {p : P → Bool} (h : l[i]? = some a) :
    (l.set i b).countP p+(if p a then 1 else 0) = l.countP p+if p b then 1 else 0 := by
  obtain ⟨hi,ha⟩ := List.getElem?_eq_some_iff.mp h
  have hpos : p a = true → 0 < l.countP p := fun hp =>
    List.countP_pos_iff.mpr ⟨a,ha ▸ List.getElem_mem hi,hp⟩
  rw [List.countP_set hi,ha]
  split_ifs <;> simp_all

theorem forall_mem_set {Q : P → Prop} (hall : ∀ x ∈ l, Q x) (hb : Q b) : ∀ x ∈ l.set i b, Q x := by
  intro x hx
  rcases List.mem_or_eq_of_mem_set hx with hx | rfl
  · exact hall x hx
  · exact hb

theorem getElem?_set_of_getElem? (h : l[i]? = some a) : (l.set i b)[i]? = some b :=
  List.getElem?_set_self (List.getElem?_eq_some_iff.mp h).1

theorem getElem?_append_of_getElem? (h : l[i]? = some a) : (l ++ [b])[i]? = some a := by
  rw [List.getElem?_append_left (List.getElem?_eq_some_iff.mp h).1]
  exact h

theorem getElem?_set_cases (h : l[i]? = some a) {k : ℕ} {x : P} (hk : (l.set i b)[k]? = some x) :
    k = i ∧ x = b ∨ k ≠ i ∧ l[k]? = some x := by
  by_cases he : i = k
  · subst he
    exact .inl ⟨rfl,Option.some.inj (hk.symm.trans (getElem?_set_of_getElem? h))⟩
  · exact .inr ⟨Ne.symm he,(List.getElem?_set_ne he).symm.trans hk⟩

theorem getElem?_append_singleton (h : (l ++ [b])[i]? = some a) : l[i]? = some a ∨ i = l.length ∧ a = b := by
  rw [List.getElem?_append] at h
  split_ifs at h with hlt
  · exact .inl h
  · rw [List.getElem?_singleton] at h
    split_ifs at h with hz
    exact .inr ⟨by omega,(Option.some.inj h).symm⟩

theorem sum_map_set_add (g : P → ℕ) (h : l[i]? = some a) :
    ((l.set i b).map g).sum+g a = (l.map g).sum+g b := by
  induction l generalizing i with
  | nil => simp at h
  | cons x l ih =>
    cases i with
    | zero =>
      cases h
      simp only [List.set_cons_zero,List.map_cons,List.sum_cons]
      omega
    | succ i =>
      have ht := ih (i := i) h
      simp only [List.set_cons_succ,List.map_cons,List.sum_cons]
      omega

/-! ### What has happened

A list holds what has happened, the latest first. -/

variable {E : Type*} {events : List E} {e : E} {Q R : List E → E → List E → Prop}

/-- `Q` holds of everything that has happened, with what came after it and what came before. -/
def Along (events : List E) (Q : List E → E → List E → Prop) : Prop :=
  ∀ newer e older, events = newer ++ e::older → Q newer e older

theorem along_nil (Q : List E → E → List E → Prop) : Along [] Q := by
  intro newer e older h
  simp at h

theorem along_cons : Along (e::events) Q ↔ Q [] e events ∧ Along events fun newer => Q (e::newer) := by
  constructor
  · intro h
    exact ⟨h [] e events rfl,fun newer x older he => h (e::newer) x older (by rw [he,List.cons_append])⟩
  · rintro ⟨hone,h⟩ newer x older he
    rcases List.cons_eq_append_iff.mp he with ⟨rfl,hx⟩ | ⟨newer,rfl,htail⟩
    · cases hx
      exact hone
    · exact h newer x older htail

theorem Along.imp (h : Along events Q) (hQR : ∀ newer x older, Q newer x older → R newer x older) :
    Along events R :=
  fun newer x older he => hQR newer x older (h newer x older he)

theorem Along.cons (h : Along events Q) (hone : R [] e events)
    (hQR : ∀ newer x older, Q newer x older → R (e::newer) x older) : Along (e::events) R :=
  along_cons.mpr ⟨hone,h.imp hQR⟩

end Transitions
end Scroom
