import Scroom.Callbacks

/-! What holds of the application in all of its runs. -/
namespace Scroom
namespace Callbacks
open Transitions Switches

section Views
variable {P V O Q K : Type} {c d : Config P V O Q K} {p : P}

/-- What most steps do to views: the map and the menu change, if anything. -/
def SameViews (views views' : List (V × View P O)) : Prop :=
  ∀ e' ∈ views', ∃ e ∈ views, e'.1 = e.1 ∧ e'.2.presentation = e.2.presentation ∧ e'.2.token = e.2.token

theorem SameViews.refl (views : List (V × View P O)) : SameViews views views := fun e he => ⟨e,he,rfl,rfl,rfl⟩

theorem sameViews_created [DecidableEq P] (c : Config P V O Q K) (p : P) :
    SameViews c.views (on_presentation_created c p).views := by
  intro e' he'
  obtain ⟨e,he,rfl⟩ := List.mem_map.mp he'
  exact ⟨e,he,rfl,rfl,rfl⟩

theorem sameViews_destroyed [DecidableEq P] (c : Config P V O Q K) :
    SameViews c.views (on_presentation_possibly_destroyed c).views := by
  rw [on_presentation_possibly_destroyed]
  split_ifs
  · exact .refl _
  · intro e' he'
    obtain ⟨e,he,rfl⟩ := List.mem_map.mp he'
    exact ⟨e,he,rfl,rfl,rfl⟩

theorem destroyed_observers [DecidableEq P] (c : Config P V O Q K) :
    (on_presentation_possibly_destroyed c).viewObservers = c.viewObservers := by
  rw [on_presentation_possibly_destroyed]
  split_ifs <;> rfl

theorem sameViews_clear [DecidableEq V] (c : Config P V O Q K) (vi : V) (v : View P O) :
    SameViews c.views (clearPresentation c vi v).views := fun e he => ⟨e,List.mem_of_mem_eraseP he,rfl,rfl,rfl⟩

theorem expire_eq [DecidableEq P] (hd : expire c p = some d) : d.views = c.views ∧ d.viewObservers = c.viewObservers ∧
    d.presentations = c.presentations ∧ d.expired = p::c.expired := by
  obtain ⟨-,hd⟩ := Option.ite_none_left_eq_some.mp hd
  cases hd
  exact ⟨rfl,rfl,rfl,rfl⟩

end Views

section Runs
variable {P V O Q K : Type} [DecidableEq P] [DecidableEq V] {c d : Config P V O Q K} {p : P} {i : ℕ} {vi : V}
  {v : View P O}

/-- All views show something. -/
structure Filled (c : Config P V O Q K) : Prop where
  inv : Inv c
  filled : ∀ e ∈ c.views, e.2.presentation.isSome = true

theorem Filled.of_same (h : Filled c) (hi : Inv d) (hs : SameViews c.views d.views) : Filled d := by
  refine ⟨hi,fun e' he' => ?_⟩
  obtain ⟨e,he,-,hp,-⟩ := hs e' he'
  exact hp ▸ h.filled e he

theorem kept_filled [DecidableEq O] [DecidableEq Q] [DecidableEq K] :
    Kept (fun _ _ => True) (fun _ _ => True) False (Filled : Config P V O Q K → Prop) where
  base _ h := h.inv.toBase
  new _ _ _ := trivial
  make c p h := h.of_same (kept_inv.make c p h.inv) (.refl _)
  created c p h hp ha hf := h.of_same (kept_inv.created c p h.inv hp ha hf) (sameViews_created c p)
  destroyed c h := h.of_same (kept_inv.destroyed c h.inv) (sameViews_destroyed c)
  fills c vi v p h hv hnone hp ha := by
    refine ⟨kept_inv.fills c vi v p h.inv hv hnone hp ha,fun e he => ?_⟩
    rcases (mem_fills e).mp he with rfl | ⟨he,-⟩
    · rfl
    · exact h.filled e he
  creates c i vi presentation d h hd hp hbare := by
    refine ⟨kept_inv.creates c i vi presentation d h.inv hd hp fun _ => trivial,fun e he => ?_⟩
    rcases ((mem_creates hd).2.2.2 e).mp he with he | rfl
    · exact h.filled e he
    · have hnew : (newView c presentation).presentation = presentation := (tellPresentations_presentation c _).1
      exact (congrArg Option.isSome hnew).trans (Option.isSome_iff_ne_none.mpr hbare)
  clears c vi v h hv := h.of_same (kept_inv.clears c vi v h.inv hv) (sameViews_clear c vi v)
  expires c p d h hd := h.of_same (kept_inv.expires c p d h.inv hd) ((expire_eq hd).1 ▸ .refl _)
  registers c o h hr := by
    refine ⟨kept_inv.registers c o h.inv hr,fun e he => ?_⟩
    obtain ⟨f,hviews,hf⟩ := registered_presentation c o
    obtain ⟨e',he',rfl⟩ := List.mem_map.mp (hviews ▸ he)
    exact (hf e').2.1 ▸ h.filled e' he'
  loads c key p h hl := h.of_same (kept_inv.loads c key p h.inv hl) (.refl _)
  observers c q h := h.of_same (kept_inv.observers c q h.inv) (.refl _)
  quits c b h := h.of_same (kept_inv.quits c b h.inv) (.refl _)

theorem Inv.hides (h : Inv c) (hvi : vi ∈ c.views.map (·.1)) (last : Bool) : ∃ d,
    on_scroom_hide c vi last = some d ∧ d.views.map (·.1) = (c.views.map (·.1)).erase vi := by
  obtain ⟨⟨wi,v⟩,hv,rfl⟩ := List.mem_map.mp hvi
  have hfind := Maps.find?_eq_some h.views hv
  have hkeys : ∀ t : Config P V O Q K,
      (on_presentation_possibly_destroyed t).views.map (·.1) = t.views.map (·.1) := fun t => by
    rw [on_presentation_possibly_destroyed]
    split_ifs
    · rfl
    · exact keys_map fun _ => rfl
  have hexpire : ∀ (t : Config P V O Q K) q, ((expire t q).getD t).views = t.views := fun t q => by
    cases he : expire t q with
    | none => rfl
    | some e => exact (expire_eq he).1
  refine ⟨_,Option.bind_eq_some_iff.mpr ⟨_,Option.bind_eq_some_iff.mpr ⟨_,hfind,rfl⟩,rfl⟩,?_⟩
  rw [Maps.keys_eraseP]
  refine (hkeys _).trans ?_
  cases v.presentation with
  | none => rfl
  | some q =>
    dsimp only
    split_ifs
    · rw [hexpire]
      rfl
    · rfl

theorem Inv.quits [DecidableEq O] [DecidableEq Q] [DecidableEq K] (h : Inv c) (last : V → Bool) : ∃ d,
    on_quit_activate c last = some d ∧ d.views = [] ∧ d.quit = true ∧ Inv d := by
  have hall : ∀ (l : List V) (t : Config P V O Q K), Inv t → t.views.map (·.1) = l → ∃ u,
      l.foldlM (fun c vi => on_scroom_hide c vi (last vi)) t = some u ∧ u.views = [] ∧ Inv u := by
    intro l
    induction l with
    | nil => exact fun t ht hl => ⟨t,rfl,List.map_eq_nil_iff.mp hl,ht⟩
    | cons vi l ih =>
      intro t ht hl
      obtain ⟨u,hu,hkeys⟩ := ht.hides (hl ▸ List.mem_cons_self) (last vi)
      rw [hl,List.erase_cons_head] at hkeys
      obtain ⟨w,hw,hviews,hi⟩ := ih u (kept_inv.hide ht hu) hkeys
      exact ⟨w,Option.bind_eq_some_iff.mpr ⟨u,hu,hw⟩,hviews,hi⟩
  obtain ⟨u,hu,hviews,hi⟩ := hall _ c h rfl
  exact ⟨_,Option.bind_eq_some_iff.mpr ⟨u,hu,rfl⟩,hviews,rfl,kept_inv.quits u true hi⟩

/-- In all runs, every presentation is open in the views that show it, and each call on it comes in its turn. Views show
presentations that were announced and exist, and only one exists that was loaded for a key. An application that was
started with files has no views when no presentations are left. It can always be quit, and then nothing is open. -/
theorem presentations_open [DecidableEq O] [DecidableEq Q] [DecidableEq K] {as : List (Action P V O Q K)}
    (hr : run step as {} = some c) :
    Logged c.views c.calls ∧ (∀ vi p, Shows c.views vi p → p ∈ c.presentations ∧ alive c p = true) ∧
      (∀ key p q, (key,p) ∈ c.opened → (key,q) ∈ c.opened → alive c p = true → alive c q = true → p = q) ∧
      ((∀ vi, Action.create_scroom vi ∉ as) → c.presentations = [] → c.views = []) ∧
      ∀ last, ∃ d, on_quit_activate c last = some d ∧ d.views = [] ∧ d.quit = true ∧ ∀ k, isOn d.calls k = false := by
  have hi : Inv c := run_invariant (fun s a t hi ht => kept_inv.step hi (by cases a <;> trivial) ht) inv_initial hr
  refine ⟨hi.logged,hi.shown,fun key p q hp hq hpa hqa => ?_,fun hbare hnone => ?_,fun last => ?_⟩
  · have hfind := Maps.find?_eq_some hi.loaded (hi.current key p hp hpa)
    rw [Maps.find?_eq_some hi.loaded (hi.current key q hq hqa)] at hfind
    cases hfind
    rfl
  · have hfilled : Filled c := henceforth_of_inv
      (fun _ h => h) (fun s a t hs (ha : ∀ vi, a ≠ .create_scroom vi) ht => kept_filled.step hs
        (by cases a <;> first | trivial | exact absurd rfl (ha _)) ht)
      ⟨inv_initial,by simp⟩ as c
      (show ∀ a ∈ as, ∀ vi, a ≠ Action.create_scroom vi from fun a ha vi hvi => hbare vi (hvi ▸ ha)) hr
    refine List.eq_nil_iff_forall_not_mem.mpr fun e he => ?_
    obtain ⟨p,hp⟩ := Option.isSome_iff_exists.mp (hfilled.filled e he)
    have hann := (hi.shown e.1 p ⟨e.2,he,hp⟩).1
    rw [hnone] at hann
    cases hann
  · obtain ⟨d,hd,hviews,hquit,hid⟩ := hi.quits last
    refine ⟨d,hd,hviews,hquit,fun k => ?_⟩
    rw [← Bool.not_eq_true,hid.logged.isOn_iff,hviews]
    rintro ⟨v,hv,-⟩
    cases hv

/-- A presentation in two windows, one of which is closed. -/
theorem presentations_open_two :
    let as : List (Action ℕ ℕ ℕ ℕ ℕ) := [.load 1 0 1,.on_newWindow_activate 1 1 2,.hide 1 true]
    ∃ c : Config ℕ ℕ ℕ ℕ ℕ, run step as {} = some c ∧
      Logged c.views c.calls ∧ (∀ vi p, Shows c.views vi p → p ∈ c.presentations ∧ alive c p = true) ∧
      (∀ key p q, (key,p) ∈ c.opened → (key,q) ∈ c.opened → alive c p = true → alive c q = true → p = q) ∧
      ((∀ vi, Action.create_scroom vi ∉ as) → c.presentations = [] → c.views = []) ∧
      ∀ last, ∃ d, on_quit_activate c last = some d ∧ d.views = [] ∧ d.quit = true ∧ ∀ k, isOn d.calls k = false :=
  ⟨_,rfl,presentations_open rfl⟩

/-- The views that the observers of views were told of. -/
def ViewsTold [DecidableEq O] (c : Config P V O Q K) : Prop :=
  ∀ e ∈ c.views, ∀ o, e.2.token.count o = if e.2.presentation.isSome = true ∧ o ∈ c.viewObservers then 1 else 0

/-- An observer is registered once, unless there is nothing to see. -/
def Once (c : Config P V O Q K) (o : O) : Prop := o ∉ c.viewObservers ∨ ∀ e ∈ c.views, e.2.presentation = none

structure Observed [DecidableEq O] (c : Config P V O Q K) : Prop where
  inv : Inv c
  observers : c.viewObservers.Nodup
  told : ViewsTold c

section Observers
variable [DecidableEq O]

theorem Observed.of_same (h : Observed c) (hi : Inv d) (hs : SameViews c.views d.views)
    (ho : d.viewObservers = c.viewObservers) : Observed d := by
  refine ⟨hi,ho ▸ h.observers,fun e' he' o => ?_⟩
  obtain ⟨e,he,-,hp,ht⟩ := hs e' he'
  rw [ht,hp,ho]
  exact h.told e he o

omit [DecidableEq P] [DecidableEq V] in
theorem mem_registers {o : O} {e : V × View P O} (he : e ∈ (registerViewObserver c o).views) : ∃ e' ∈ c.views,
    e.2.presentation = e'.2.presentation ∧
      e.2.token = if e'.2.presentation.isSome then e'.2.token ++ [o] else e'.2.token := by
  obtain ⟨e',he',rfl⟩ := List.mem_map.mp he
  refine ⟨e',he',?_⟩
  split_ifs <;> exact ⟨rfl,rfl⟩

theorem Observed.registers (h : Observed c) {o : O} (hr : Once c o) : Observed (registerViewObserver c o) := by
  refine ⟨h.inv.registers o,h.observers.insert,fun e he q => ?_⟩
  obtain ⟨e',he',hp,ht⟩ := mem_registers he
  have hold := h.told e' he' q
  have hmem : q ∈ (registerViewObserver c o).viewObservers ↔ q = o ∨ q ∈ c.viewObservers := List.mem_insert_iff
  rw [hp,ht]
  by_cases hshown : e'.2.presentation.isSome = true
  · have ho : o ∉ c.viewObservers := hr.resolve_right fun hnone => by simp [hnone e' he'] at hshown
    simp only [hshown,true_and,if_true,hmem,List.count_append,List.count_singleton,beq_iff_eq] at hold ⊢
    rw [hold]
    by_cases hq : o = q
    · subst hq
      simp [ho]
    · simp [hq,Ne.symm hq]
  · rw [if_neg hshown,hold,if_neg fun hh => hshown hh.1,if_neg fun hh => hshown hh.1]

theorem kept_observed [DecidableEq Q] [DecidableEq K] :
    Kept (fun _ _ => True) Once True (Observed : Config P V O Q K → Prop) where
  base _ h := h.inv.toBase
  new _ _ _ := trivial
  make c p h := h.of_same (kept_inv.make c p h.inv) (.refl _) rfl
  created c p h hp ha hf := h.of_same (kept_inv.created c p h.inv hp ha hf) (sameViews_created c p) rfl
  destroyed c h := h.of_same (kept_inv.destroyed c h.inv) (sameViews_destroyed c) (destroyed_observers c)
  fills c vi v p h hv hnone hp ha := by
    refine ⟨kept_inv.fills c vi v p h.inv hv hnone hp ha,h.observers,fun e he o => ?_⟩
    rcases (mem_fills e).mp he with rfl | ⟨he,-⟩
    · have hold := h.told _ hv o
      rw [hnone,if_neg fun hh => by simp at hh] at hold
      rw [List.count_append,hold,zero_add,h.observers.count]
      exact if_congr (by simp [on_presentation_added_to_view,setPresentation]) rfl rfl
    · exact h.told e he o
  creates c i vi presentation d h hd hp hbare := by
    obtain ⟨-,hobs,-,hmem⟩ := mem_creates hd
    refine ⟨kept_inv.creates c i vi presentation d h.inv hd hp hbare,hobs ▸ h.observers,fun e he o => ?_⟩
    rw [hobs]
    rcases (hmem e).mp he with he | rfl
    · exact h.told e he o
    · have hnew : (newView c presentation).presentation = presentation := (tellPresentations_presentation c _).1
      dsimp only
      rw [hnew]
      split_ifs with hsome hboth hboth
      · rw [h.observers.count,if_pos hboth.2]
      · rw [h.observers.count,if_neg fun ho => hboth ⟨hsome,ho⟩]
      · exact absurd hboth.1 hsome
      · rfl
  clears c vi v h hv := h.of_same (kept_inv.clears c vi v h.inv hv) (sameViews_clear c vi v) rfl
  expires c p d h hd := h.of_same (kept_inv.expires c p d h.inv hd) ((expire_eq hd).1 ▸ .refl _) (expire_eq hd).2.1
  registers c o h hr := h.registers hr
  loads c key p h hl := h.of_same (kept_inv.loads c key p h.inv hl) (.refl _) rfl
  observers c q h := h.of_same (kept_inv.observers c q h.inv) (.refl _) rfl
  quits c b h := h.of_same (kept_inv.quits c b h.inv) (.refl _) rfl

/-- In all runs in which an observer of views is registered once, or there is nothing to see, every observer has told
each view once that shows something, and no other, whichever came first. In all others some view was told twice. -/
theorem viewsTold_iff [DecidableEq Q] [DecidableEq K] {as : List (Action P V O Q K)} (hr : run step as {} = some c) :
    Always step ViewsTold as ({} : Config P V O Q K) ↔ Within step (Ok (fun _ _ => True) Once True) as {} := by
  refine always_iff_within_of_inv (fun _ h => h.told) (fun s a t hs hok ht => kept_observed.step hs hok ht)
    (fun s a t hs ht => ⟨fun htold => ?_,fun hok => (kept_observed.step hs hok ht).told⟩)
    (show Observed _ from ⟨inv_initial,List.nodup_nil,by simp [ViewsTold]⟩) hr
  cases a with
  | registerViewObserver o =>
    by_contra hno
    obtain ⟨ho,hviews⟩ := not_or.mp hno
    obtain ⟨e,he,hshown⟩ := not_forall₂.mp hviews
    have ho := not_not.mp ho
    have hsome : e.2.presentation.isSome = true := Option.isSome_iff_ne_none.mpr hshown
    cases ht
    -- the view has told the observer once before
    have hold := hs.told e he o
    rw [if_pos ⟨hsome,ho⟩] at hold
    have htwice := htold _ (List.mem_map.mpr ⟨e,he,if_pos hsome⟩) o
    rw [List.count_append,hold,List.count_singleton_self] at htwice
    split_ifs at htwice
    omega
  | _ => trivial

end Observers

/-- An observer that registers between two views. -/
theorem viewsTold_iff_between :
    let as : List (Action ℕ ℕ ℕ ℕ ℕ) := [.load 1 0 1,.registerViewObserver 7,.load 2 1 2]
    ∃ c : Config ℕ ℕ ℕ ℕ ℕ, run step as {} = some c ∧
      (Always step ViewsTold as ({} : Config ℕ ℕ ℕ ℕ ℕ) ↔ Within step (Ok (fun _ _ => True) Once True) as {}) :=
  ⟨_,rfl,viewsTold_iff rfl⟩

/-- A menu offers every presentation once that was announced and exists. -/
def Offers (c : Config P V O Q K) (m : NewWindowMenu P) : Prop :=
  ∀ p, m.offers p ≤ 1 ∧ (0 < m.offers p → p ∈ c.presentations) ∧
    (p ∈ c.presentations → alive c p = true → m.offers p = 1)

/-- The menus are right, also that of the next view. -/
def MenusRight (c : Config P V O Q K) : Prop :=
  (∀ e ∈ c.views, Offers c e.2.menu) ∧ Offers c (newView c none).menu

/-- What the steps keep that announce presentations once. -/
structure MenuOk (presentations : List P) (alive : P → Bool) (m : NewWindowMenu P) : Prop where
  right : m.Right
  announced : ∀ p ∈ m.keys, p ∈ presentations
  offered : ∀ p ∈ presentations, alive p = true → p ∈ m.keys

section Menus
variable {presentations : List P} {exists' : P → Bool} {m : NewWindowMenu P}

omit [DecidableEq V] in
theorem MenuOk.offers (h : MenuOk c.presentations (alive c) m) : Offers c m := fun p => by
  rw [h.right.offers_eq]
  split_ifs with hp
  · exact ⟨le_rfl,fun _ => h.announced p hp,fun _ _ => rfl⟩
  · exact ⟨Nat.zero_le _,fun hlt => absurd hlt (lt_irrefl 0),fun hmem ha => absurd (h.offered p hmem ha) hp⟩

theorem MenuOk.created (h : MenuOk presentations exists' m) (hp : p ∉ presentations) :
    MenuOk (presentations ++ [p]) exists' (m.on_presentation_created exists' p) := by
  obtain ⟨hright,hkeys⟩ := h.right.created (fun hm => hp (h.announced p hm)) exists'
  refine ⟨hright,fun q hq => ?_,fun q hq hqa => ?_⟩
  · rw [hkeys] at hq
    rcases List.mem_append.mp (List.mem_of_mem_filter hq) with hq | hq
    · exact List.mem_append_left _ (h.announced q hq)
    · exact List.mem_append_right _ hq
  · rw [hkeys]
    refine List.mem_filter.mpr ⟨?_,hqa⟩
    rcases List.mem_append.mp hq with hq | hq
    · exact List.mem_append_left _ (h.offered q hq hqa)
    · exact List.mem_append_right _ hq

omit [DecidableEq P] [DecidableEq V] in
theorem MenuOk.destroyed (h : MenuOk presentations exists' m) :
    MenuOk (presentations.filter exists') exists' (m.on_presentation_destroyed exists') := by
  obtain ⟨hright,hkeys⟩ := h.right.destroyed exists'
  refine ⟨hright,fun q hq => ?_,fun q hq hqa => ?_⟩
  · rw [hkeys] at hq
    obtain ⟨hq,hqa⟩ := List.mem_filter.mp hq
    exact List.mem_filter.mpr ⟨h.announced q hq,hqa⟩
  · rw [hkeys]
    exact List.mem_filter.mpr ⟨h.offered q (List.mem_of_mem_filter hq) hqa,hqa⟩

omit [DecidableEq P] in
theorem MenuOk.mono {exists'' : P → Bool} (h : MenuOk presentations exists' m)
    (hless : ∀ q, exists'' q = true → exists' q = true) : MenuOk presentations exists'' m :=
  ⟨h.right,h.announced,fun q hq ha => h.offered q hq (hless q ha)⟩

omit [DecidableEq P] in
theorem MenuOk.skip (h : MenuOk presentations exists' m) (ha : ¬exists' p = true) :
    MenuOk (presentations ++ [p]) exists' m := by
  refine ⟨h.right,fun q hq => List.mem_append_left _ (h.announced q hq),fun q hq hqa => ?_⟩
  rcases List.mem_append.mp hq with hq | hq
  · exact h.offered q hq hqa
  · exact absurd (List.mem_singleton.mp hq ▸ hqa) ha

/-- The menu of a view that is told of presentations. -/
def tellMenu (exists' : P → Bool) (l : List P) (m : NewWindowMenu P) : NewWindowMenu P :=
  l.foldl (fun m p => if exists' p then m.on_presentation_created exists' p else m) m

omit [DecidableEq V] in
theorem tellPresentations_menu (c : Config P V O Q K) (v : View P O) :
    (tellPresentations c v).menu = tellMenu (alive c) c.presentations v.menu := by
  rw [tellPresentations,tellMenu]
  induction c.presentations generalizing v with
  | nil => rfl
  | cons p l ih =>
    rw [List.foldl_cons,List.foldl_cons,ih]
    split_ifs <;> rfl

theorem tellMenu_ok (l done : List P) (hl : (done ++ l).Nodup) (h : MenuOk done exists' m) :
    MenuOk (done ++ l) exists' (tellMenu exists' l m) := by
  induction l generalizing done m with
  | nil => simpa [tellMenu] using h
  | cons p l ih =>
    have hp : p ∉ done := fun hm => List.disjoint_of_nodup_append hl hm List.mem_cons_self
    have hstep : MenuOk (done ++ [p]) exists' (if exists' p then m.on_presentation_created exists' p else m) := by
      split_ifs with ha
      · exact h.created hp
      · exact h.skip ha
    have hrest := ih (done ++ [p]) (by simpa using hl) hstep
    rw [List.append_assoc] at hrest
    exact hrest

omit [DecidableEq V] in
theorem newView_menu (hn : c.presentations.Nodup) (presentation : Option P) :
    MenuOk c.presentations (alive c) (newView c presentation).menu := by
  rw [newView,tellPresentations_menu]
  exact tellMenu_ok c.presentations [] hn ⟨.initial,by simp [NewWindowMenu.keys],by simp⟩

theorem tellMenu_items (l : List P) (h : m.Full exists') : (tellMenu exists' l m).items.map (·.2) =
    m.items.map (·.2) ++ l.filter exists' := by
  induction l generalizing m with
  | nil => simp [tellMenu]
  | cons p l ih =>
    rw [tellMenu,List.foldl_cons,List.filter_cons]
    split_ifs with ha
    · obtain ⟨hfull,hitems⟩ := h.created ha
      exact (ih hfull).trans (by rw [hitems,List.append_assoc]; rfl)
    · exact ih h

end Menus

structure Listed (c : Config P V O Q K) : Prop where
  inv : Inv c
  presentations : c.presentations.Nodup
  menus : ∀ e ∈ c.views, MenuOk c.presentations (alive c) e.2.menu

theorem Listed.menusRight (h : Listed c) : MenusRight c :=
  ⟨fun e he => (h.menus e he).offers,(newView_menu h.presentations none).offers⟩

theorem kept_listed [DecidableEq O] [DecidableEq Q] [DecidableEq K] :
    Kept (fun l p => p ∉ l) (fun _ _ => True) True (Listed : Config P V O Q K → Prop) where
  base _ h := h.inv.toBase
  new _ _ hp := hp
  make c p h := ⟨kept_inv.make c p h.inv,h.presentations,h.menus⟩
  created c p h hp ha hf := by
    refine ⟨kept_inv.created c p h.inv hp ha trivial,?_,fun e he => ?_⟩
    · exact h.presentations.append (List.nodup_singleton p) (List.disjoint_singleton.mpr hf)
    · obtain ⟨e',he',rfl⟩ := List.mem_map.mp he
      exact (h.menus e' he').created hf
  destroyed c h := by
    have hi := kept_inv.destroyed c h.inv
    rw [on_presentation_possibly_destroyed] at hi ⊢
    split_ifs at hi ⊢
    · exact h
    · refine ⟨hi,h.presentations.filter _,fun e he => ?_⟩
      obtain ⟨e',he',rfl⟩ := List.mem_map.mp he
      exact (h.menus e' he').destroyed
  fills c vi v p h hv hnone hp ha := by
    refine ⟨kept_inv.fills c vi v p h.inv hv hnone hp ha,h.presentations,fun e he => ?_⟩
    rcases (mem_fills e).mp he with rfl | ⟨he,-⟩
    · exact h.menus (vi,v) hv
    · exact h.menus e he
  creates c i vi presentation d h hd hp hbare := by
    obtain ⟨hpres,-,hexp,hmem⟩ := mem_creates hd
    have halive : alive d = alive c := by
      funext p
      rw [alive,alive,hexp]
    refine ⟨kept_inv.creates c i vi presentation d h.inv hd hp hbare,hpres ▸ h.presentations,fun e he => ?_⟩
    rw [hpres,halive]
    rcases (hmem e).mp he with he | rfl
    · exact h.menus e he
    · exact newView_menu h.presentations presentation
  clears c vi v h hv :=
    ⟨kept_inv.clears c vi v h.inv hv,h.presentations,fun e he => h.menus e (List.mem_of_mem_eraseP he)⟩
  expires c p d h hd := by
    obtain ⟨hviews,-,hpres,hexp⟩ := expire_eq hd
    refine ⟨kept_inv.expires c p d h.inv hd,hpres ▸ h.presentations,fun e he => ?_⟩
    rw [hpres]
    refine (h.menus e (hviews ▸ he)).mono fun q hq => ?_
    rw [alive,hexp] at hq
    exact alive_cons _ hq
  registers c o h hr := by
    refine ⟨kept_inv.registers c o h.inv hr,h.presentations,fun e he => ?_⟩
    obtain ⟨f,hviews,hf⟩ := registered_presentation c o
    obtain ⟨e',he',rfl⟩ := List.mem_map.mp (hviews ▸ he)
    exact (hf e').2.2 ▸ h.menus e' he'
  loads c key p h hl := ⟨kept_inv.loads c key p h.inv hl,h.presentations,h.menus⟩
  observers c q h := ⟨kept_inv.observers c q h.inv,h.presentations,h.menus⟩
  quits c b h := ⟨kept_inv.quits c b h.inv,h.presentations,h.menus⟩

theorem find_or_create_keeps (hd : find_or_create_scroom c i vi p = some d) :
    d.presentations = c.presentations ∧ d.expired = c.expired := by
  rw [find_or_create_scroom] at hd
  split at hd
  · cases hd
    exact ⟨rfl,rfl⟩
  · obtain ⟨hpres,-,hexp,-⟩ := mem_creates hd
    exact ⟨hpres,hexp⟩

/-- In all runs in which `showPresentation` shows what has not been announced before, all menus offer every presentation
once that was announced and exists. In all others some menu did not: what `newPresentation`, `newAggregate` and
`loadPresentation` return has been announced. -/
theorem menusRight_iff [DecidableEq O] [DecidableEq Q] [DecidableEq K] {as : List (Action P V O Q K)}
    (hr : run step as {} = some c) :
    Always step MenusRight as ({} : Config P V O Q K) ↔
      Within step (Ok (fun l p => p ∉ l) (fun _ _ => True) True) as {} := by
  refine always_iff_within_of_inv (fun _ h => h.menusRight) (fun s a t hs hok ht => kept_listed.step hs hok ht)
    (fun s a t hs ht => ⟨fun hright => ?_,fun hok => (kept_listed.step hs hok ht).menusRight⟩)
    (show Listed _ from ⟨inv_initial,List.nodup_nil,by simp⟩) hr
  cases a with
  | showPresentation p i vi =>
    intro hp
    obtain ⟨ha,hd⟩ := Option.ite_none_right_eq_some.mp ht
    obtain ⟨hpres,hexp⟩ := find_or_create_keeps hd
    -- the next view has two items
    have halive : alive t p = true := by
      rw [alive,hexp]
      exact ha
    have hitems : (newView t none).menu.items.map (·.2) = t.presentations.filter (alive t) := by
      rw [newView,tellPresentations_menu]
      exact tellMenu_items t.presentations
        ⟨List.nodup_nil,by simp [NewWindowMenu.keys],by simp [NewWindowMenu.Complete]⟩
    have hone := (hright.2 p).1
    rw [NewWindowMenu.offers,hitems,List.count_filter halive,hpres] at hone
    have htwice : (s.presentations ++ [p]).count p = s.presentations.count p+1 := by simp
    have hpos := List.count_pos_iff.mpr hp
    have hle : (s.presentations ++ [p]).count p ≤ 1 := hone
    omega
  | _ => trivial

/-- A plugin shows what it loaded. -/
theorem menusRight_iff_loaded :
    let as : List (Action ℕ ℕ ℕ ℕ ℕ) := [.loadPresentation 5 0,.showPresentation 0 0 0,.load 1 0 1]
    ∃ c : Config ℕ ℕ ℕ ℕ ℕ, run step as {} = some c ∧
      (Always step MenusRight as ({} : Config ℕ ℕ ℕ ℕ ℕ) ↔
        Within step (Ok (fun l p => p ∉ l) (fun _ _ => True) True) as {}) :=
  ⟨_,rfl,menusRight_iff rfl⟩

end Runs
end Callbacks
end Scroom
