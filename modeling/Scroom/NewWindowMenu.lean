import Scroom.Maps

/-! The menu of a view from which new windows are opened. It has an entry for every presentation. -/
namespace Scroom

/-- `View::presentations`, which maps presentations to their menu items, and the menu. Items are numbered as they are
created. They open the presentation that they were created for. -/
structure NewWindowMenu (P : Type) where
  presentations : List (P × Option ℕ) := []
  items : List (ℕ × P) := []
  created : ℕ := 0

namespace NewWindowMenu

section Updates
variable {P : Type} [DecidableEq P]
/- The presentations that still exist. -/
variable (alive : P → Bool)

omit [DecidableEq P] in
/-- The body of the loop of `updateNewWindowMenu`. -/
def updateItem (m : NewWindowMenu P) : P × Option ℕ → NewWindowMenu P
  | (p,some item) =>
    if alive p then { m with presentations := m.presentations ++ [(p,some item)] }
    else { m with items := m.items.filter (·.1 ≠ item) }
  | (p,none) =>
    if alive p then
      { presentations := m.presentations ++ [(p,some m.created)]
        items := m.items ++ [(m.created,p)]
        created := m.created+1 }
    else m

omit [DecidableEq P] in
/-- Without presentations, the menu is dropped. -/
def updateNewWindowMenu (m : NewWindowMenu P) : NewWindowMenu P :=
  let m := m.presentations.foldl (updateItem alive) { m with presentations := [] }
  if m.presentations.isEmpty then { m with items := [] } else m

def on_presentation_created (m : NewWindowMenu P) (p : P) : NewWindowMenu P :=
  updateNewWindowMenu alive { m with presentations := Maps.assign m.presentations p none }

omit [DecidableEq P] in
def on_presentation_destroyed (m : NewWindowMenu P) : NewWindowMenu P := updateNewWindowMenu alive m

end Updates

section Items
variable {P : Type} {alive : P → Bool} {m : NewWindowMenu P} {p : P}

def keys (m : NewWindowMenu P) : List P := m.presentations.map (·.1)

/-- The items that the map knows. -/
def known (presentations : List (P × Option ℕ)) : List (ℕ × P) :=
  presentations.filterMap fun e => e.2.map (·,e.1)

/-- The map knows all items. -/
structure Linked (presentations : List (P × Option ℕ)) (m : NewWindowMenu P) : Prop where
  items : (known presentations).Perm m.items
  numbers : (m.items.map (·.1)).Nodup
  lt_created : ∀ i ∈ m.items, i.1 < m.created

theorem known_append (l l' : List (P × Option ℕ)) : known (l ++ l') = known l ++ known l' := List.filterMap_append

theorem known_some (p : P) (item : ℕ) (l : List (P × Option ℕ)) : known ((p,some item)::l) = (item,p)::known l := rfl

theorem known_none (p : P) (l : List (P × Option ℕ)) : known ((p,none)::l) = known l := rfl

theorem Linked.keeps {rest : List (P × Option ℕ)} {item : ℕ} (h : Linked (m.presentations ++ (p,some item)::rest) m) :
    Linked (m.presentations ++ [(p,some item)] ++ rest)
      { m with presentations := m.presentations ++ [(p,some item)] } :=
  ⟨by simpa using h.items,h.numbers,h.lt_created⟩

theorem Linked.removes {rest : List (P × Option ℕ)} {item : ℕ} (h : Linked (m.presentations ++ (p,some item)::rest) m) :
    Linked (m.presentations ++ rest) { m with items := m.items.filter (·.1 ≠ item) } := by
  have hperm : m.items.Perm ((item,p)::known (m.presentations ++ rest)) := by
    have hmiddle := h.items.symm
    rw [known_append,known_some] at hmiddle
    rw [known_append]
    exact hmiddle.trans List.perm_middle
  have hothers : ∀ i ∈ known (m.presentations ++ rest), i.1 ≠ item := fun i hi he => by
    have hnumbers := (hperm.map (·.1)).nodup_iff.mp h.numbers
    exact (List.nodup_cons.mp hnumbers).1 (he ▸ List.mem_map.mpr ⟨i,hi,rfl⟩)
  have hkeep : (known (m.presentations ++ rest)).filter (fun i => decide (i.1 ≠ item)) =
      known (m.presentations ++ rest) :=
    List.filter_eq_self.mpr fun i hi => decide_eq_true (hothers i hi)
  have hfilter := hperm.filter fun i => decide (i.1 ≠ item)
  rw [List.filter_cons_of_neg (by simp),hkeep] at hfilter
  exact ⟨hfilter.symm,h.numbers.sublist (List.filter_sublist.map _),
    fun i hi => h.lt_created i (List.mem_of_mem_filter hi)⟩

theorem Linked.adds {rest : List (P × Option ℕ)} (h : Linked (m.presentations ++ (p,none)::rest) m) :
    Linked (m.presentations ++ [(p,some m.created)] ++ rest)
      { presentations := m.presentations ++ [(p,some m.created)]
        items := m.items ++ [(m.created,p)]
        created := m.created+1 } := by
  refine ⟨?_,?_,fun i hi => ?_⟩
  · have hperm := h.items
    rw [known_append,known_none] at hperm
    rw [List.append_assoc,List.singleton_append,known_append,known_some]
    exact List.perm_middle.trans ((hperm.cons _).trans (List.perm_append_singleton _ _).symm)
  · rw [List.map_append]
    refine h.numbers.append (List.nodup_singleton _) (List.disjoint_singleton.mpr fun hm => ?_)
    obtain ⟨i,hi,he⟩ := List.mem_map.mp hm
    exact Nat.lt_irrefl _ (he ▸ h.lt_created i hi)
  · rcases List.mem_append.mp hi with hi | hi
    · exact Nat.lt_succ_of_lt (h.lt_created i hi)
    · obtain rfl := List.mem_singleton.mp hi
      exact Nat.lt_succ_self _

theorem Linked.updateItem {rest : List (P × Option ℕ)} {e : P × Option ℕ}
    (h : Linked (m.presentations ++ e::rest) m) :
    Linked ((updateItem alive m e).presentations ++ rest) (updateItem alive m e) := by
  obtain ⟨p,_ | item⟩ := e
  · rw [NewWindowMenu.updateItem]
    split_ifs
    · exact h.adds
    · exact ⟨by simpa only [known_append,known_none] using h.items,h.numbers,h.lt_created⟩
  · rw [NewWindowMenu.updateItem]
    split_ifs
    · exact h.keeps
    · exact h.removes

def Complete (m : NewWindowMenu P) : Prop := ∀ e ∈ m.presentations, e.2.isSome = true

theorem keys_updateItem (e : P × Option ℕ) :
    (updateItem alive m e).keys = m.keys ++ [e.1].filter alive := by
  obtain ⟨p,_ | item⟩ := e <;> by_cases hp : alive p = true <;> simp [updateItem,keys,hp]

theorem Complete.updateItem (h : Complete m) (e : P × Option ℕ) : Complete (updateItem alive m e) := by
  obtain ⟨p,_ | item⟩ := e <;> by_cases hp : alive p = true
  all_goals
    simp only [NewWindowMenu.updateItem,hp,if_true,if_false,Bool.false_eq_true]
    intro e he
    first
    | exact h e he
    | rcases List.mem_append.mp he with he | he
      · exact h e he
      · obtain rfl := List.mem_singleton.mp he
        rfl

theorem keys_foldl (rest : List (P × Option ℕ)) :
    (rest.foldl (updateItem alive) m).keys = m.keys ++ (rest.map (·.1)).filter alive := by
  induction rest generalizing m with
  | nil => simp
  | cons e rest ih =>
    rw [List.foldl_cons,ih,keys_updateItem,List.append_assoc,← List.filter_append,List.map_cons,List.singleton_append]

theorem Complete.foldl (h : Complete m) (rest : List (P × Option ℕ)) :
    Complete (rest.foldl (NewWindowMenu.updateItem alive) m) := by
  induction rest generalizing m with
  | nil => exact h
  | cons e rest ih => exact ih (h.updateItem e)

theorem Linked.foldl (rest : List (P × Option ℕ)) (h : Linked (m.presentations ++ rest) m) :
    Linked (rest.foldl (NewWindowMenu.updateItem alive) m).presentations
      (rest.foldl (NewWindowMenu.updateItem alive) m) := by
  induction rest generalizing m with
  | nil => simpa using h
  | cons e rest ih => exact ih h.updateItem

structure Right (m : NewWindowMenu P) : Prop where
  keys : m.keys.Nodup
  linked : Linked m.presentations m
  complete : Complete m

theorem Right.initial : Right ({} : NewWindowMenu P) :=
  ⟨List.nodup_nil,⟨.nil,List.nodup_nil,by simp⟩,by simp [Complete]⟩

theorem updateNewWindowMenu_right (alive : P → Bool) (hk : m.keys.Nodup) (hl : Linked m.presentations m) :
    Right (updateNewWindowMenu alive m) ∧ (updateNewWindowMenu alive m).keys = m.keys.filter alive := by
  set t := m.presentations.foldl (updateItem alive) { m with presentations := [] } with ht
  have hlinked : Linked t.presentations t :=
    .foldl m.presentations ⟨hl.items,hl.numbers,hl.lt_created⟩
  have hcomplete : Complete t := .foldl (by simp [Complete]) _
  have hkeys : t.keys = m.keys.filter alive := keys_foldl m.presentations
  have hright : Right t := ⟨by rw [hkeys]; exact hk.filter _,hlinked,hcomplete⟩
  have hupdate : updateNewWindowMenu alive m = if t.presentations.isEmpty then { t with items := [] } else t := rfl
  rw [hupdate]
  split_ifs with hempty
  · -- then there are no items anyway
    have hnil : t.presentations = [] := List.isEmpty_iff.mp hempty
    have hitems : t.items = [] := by
      have hperm := hlinked.items
      rw [hnil] at hperm
      exact hperm.nil_eq.symm
    have hsame : { t with items := [] } = t := by rw [← hitems]
    rw [hsame]
    exact ⟨hright,hkeys⟩
  · exact ⟨hright,hkeys⟩

theorem Right.destroyed (h : Right m) (alive : P → Bool) :
    Right (on_presentation_destroyed alive m) ∧ (on_presentation_destroyed alive m).keys = m.keys.filter alive :=
  updateNewWindowMenu_right alive h.keys h.linked

/-- The map or the menu has the presentation. -/
def Mentions (m : NewWindowMenu P) (p : P) : Prop := p ∈ m.keys ∨ p ∈ m.items.map (·.2)

theorem mem_items_foldl (rest : List (P × Option ℕ)) (h : p ∈ (rest.foldl (updateItem alive) m).items.map (·.2)) :
    p ∈ m.items.map (·.2) ∨ p ∈ rest.map (·.1) := by
  induction rest generalizing m with
  | nil => exact Or.inl h
  | cons e rest ih =>
    rw [List.map_cons,List.mem_cons,← or_assoc]
    refine (ih h).imp_left fun hp => ?_
    obtain ⟨q,_ | item⟩ := e <;> by_cases hq : alive q = true <;>
      simp only [updateItem,hq,if_true,if_false,Bool.false_eq_true] at hp
    · rw [List.map_append] at hp
      exact (List.mem_append.mp hp).imp_right List.mem_singleton.mp
    · exact Or.inl hp
    · exact Or.inl hp
    · exact Or.inl ((List.filter_sublist.map _).subset hp)

theorem mentions_update (h : Mentions (updateNewWindowMenu alive m) p) : Mentions m p := by
  set t := m.presentations.foldl (updateItem alive) { m with presentations := [] } with ht
  have hmentions : Mentions t p := by
    have hupdate : updateNewWindowMenu alive m = if t.presentations.isEmpty then { t with items := [] } else t := rfl
    rw [hupdate] at h
    split_ifs at h
    · exact h.imp_right fun hp => by cases hp
    · exact h
  rcases hmentions with hp | hp
  · rw [ht,keys_foldl] at hp
    exact Or.inl (List.mem_of_mem_filter hp)
  · exact (mem_items_foldl m.presentations hp).symm

theorem mentions_created [DecidableEq P] {q : P} (h : Mentions (on_presentation_created alive m p) q) :
    Mentions m q ∨ q = p := by
  rcases mentions_update h with hq | hq
  · have hkeys : q ∈ (Maps.assign m.presentations p none).map (·.1) := hq
    rw [Maps.keys_assign] at hkeys
    split_ifs at hkeys
    · exact Or.inl (Or.inl hkeys)
    · exact (List.mem_append.mp hkeys).imp Or.inl List.mem_singleton.mp
  · exact Or.inl (Or.inr hq)

def offers [DecidableEq P] (m : NewWindowMenu P) (p : P) : ℕ := (m.items.map (·.2)).count p

theorem known_of_complete {l : List (P × Option ℕ)} (h : ∀ e ∈ l, e.2.isSome = true) :
    (known l).map (·.2) = l.map (·.1) := by
  induction l with
  | nil => rfl
  | cons e l ih =>
    obtain ⟨p,_ | item⟩ := e
    · exact absurd (h _ List.mem_cons_self) (by simp)
    · rw [known_some,List.map_cons,List.map_cons,ih fun e he => h e (List.mem_cons_of_mem _ he)]

section Offers
variable [DecidableEq P]

theorem Right.offers_eq (h : Right m) (p : P) : m.offers p = if p ∈ m.keys then 1 else 0 := by
  rw [offers,← (h.linked.items.map (·.2)).count_eq,known_of_complete h.complete]
  exact h.keys.count

theorem Right.created (h : Right m) (hp : p ∉ m.keys) (alive : P → Bool) :
    Right (on_presentation_created alive m p) ∧
      (on_presentation_created alive m p).keys = (m.keys ++ [p]).filter alive := by
  have hassign : Maps.assign m.presentations p none = m.presentations ++ [(p,none)] := Maps.assign_of_notMem hp none
  have hkeys : ({ m with presentations := m.presentations ++ [(p,none)] } : NewWindowMenu P).keys = m.keys ++ [p] := by
    simp [NewWindowMenu.keys]
  rw [on_presentation_created,hassign,← hkeys]
  refine updateNewWindowMenu_right alive ?_ ⟨?_,h.linked.numbers,h.linked.lt_created⟩
  · rw [hkeys]
    exact h.keys.append (List.nodup_singleton p) (List.disjoint_singleton.mpr hp)
  · rw [known_append,known_none]
    simpa [known] using h.linked.items

/-- All presentations exist, and each has an item. -/
structure Full (alive : P → Bool) (m : NewWindowMenu P) : Prop where
  keys : m.keys.Nodup
  alive : ∀ k ∈ m.keys, alive k = true
  complete : Complete m

omit [DecidableEq P] in
/-- As long as all presentations exist, items are only added. -/
theorem foldl_updateItem_items (rest : List (P × Option ℕ)) (h : ∀ e ∈ rest, alive e.1 = true) :
    (rest.foldl (updateItem alive) m).items.map (·.2) =
      m.items.map (·.2) ++ (rest.filter (·.2.isNone)).map (·.1) := by
  induction rest generalizing m with
  | nil => simp
  | cons e rest ih =>
    rw [List.foldl_cons,ih fun e he => h e (List.mem_cons_of_mem _ he)]
    have he := h e List.mem_cons_self
    obtain ⟨p,_ | item⟩ := e <;> simp [updateItem,he]

omit [DecidableEq P] in
theorem filter_isNone {l : List (P × Option ℕ)} (h : ∀ e ∈ l, e.2.isSome = true) : l.filter (·.2.isNone) = [] :=
  List.filter_eq_nil_iff.mpr fun e he => by
    rw [Option.isNone_iff_eq_none,← Option.not_isSome_iff_eq_none,not_not]
    exact h e he

theorem assign_isNone {l : List (P × Option ℕ)} (hk : (l.map (·.1)).Nodup) (hl : ∀ e ∈ l, e.2.isSome = true) (p : P) :
    ((Maps.assign l p none).filter (·.2.isNone)).map (·.1) = [p] := by
  by_cases hp : p ∈ l.map (·.1)
  · have hnew : ((l.map fun e => if e.1 = p then (p,none) else e).filter (·.2.isNone)).map (·.1) =
        (l.map (·.1)).filter (· = p) := by
      clear hk hp
      induction l with
      | nil => rfl
      | cons e l ih =>
        have he := hl e List.mem_cons_self
        rw [List.map_cons,List.map_cons,List.filter_cons,List.filter_cons,
          ← ih fun e he => hl e (List.mem_cons_of_mem _ he)]
        by_cases hep : e.1 = p
        · simp [hep]
        · simp [hep,Option.isSome_iff_ne_none.mp he]
    rw [Maps.assign_of_mem hp,hnew,List.filter_eq,hk.count,if_pos hp]
    rfl
  · rw [Maps.assign_of_notMem hp,List.filter_append,filter_isNone hl]
    rfl

theorem Full.created (h : Full alive m) (hp : alive p = true) :
    Full alive (on_presentation_created alive m p) ∧
      (on_presentation_created alive m p).items.map (·.2) = m.items.map (·.2) ++ [p] := by
  set l := Maps.assign m.presentations p none with hl
  have hkeys : l.map (·.1) = if p ∈ m.keys then m.keys else m.keys ++ [p] := Maps.keys_assign _ _ _
  have hnodup : (l.map (·.1)).Nodup := by
    rw [hkeys]
    split_ifs with hmem
    · exact h.keys
    · exact h.keys.append (List.nodup_singleton p) (List.disjoint_singleton.mpr hmem)
  have halive : ∀ k ∈ l.map (·.1), alive k = true := by
    rw [hkeys]
    split_ifs with hmem
    · exact h.alive
    · intro k hk
      rcases List.mem_append.mp hk with hk | hk
      · exact h.alive k hk
      · exact List.mem_singleton.mp hk ▸ hp
  set t := l.foldl (updateItem alive) { m with presentations := [] } with ht
  have htkeys : t.keys = l.map (·.1) := (keys_foldl l).trans (List.filter_eq_self.mpr halive)
  have hitems : t.items.map (·.2) = m.items.map (·.2) ++ [p] := by
    rw [ht,foldl_updateItem_items l fun e he => halive _ (List.mem_map.mpr ⟨e,he,rfl⟩),assign_isNone h.keys h.complete]
  have hupdate : on_presentation_created alive m p = t := by
    refine if_neg fun hempty => ?_
    have hnil : t.keys = [] := by rw [NewWindowMenu.keys,List.isEmpty_iff.mp hempty,List.map_nil]
    have hp' : p ∈ t.keys := by
      rw [htkeys,hkeys]
      split_ifs with hmem
      · exact hmem
      · exact List.mem_append_right _ (List.mem_singleton_self p)
    rw [hnil] at hp'
    cases hp'
  rw [hupdate]
  exact ⟨⟨htkeys ▸ hnodup,htkeys ▸ halive,.foldl (by simp [Complete]) l⟩,hitems⟩

end Offers
end Items
end NewWindowMenu
end Scroom
