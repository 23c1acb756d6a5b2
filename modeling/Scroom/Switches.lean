import Mathlib.Tactic

/-! Things that are switched on and off. A log holds what was switched, the latest first. -/
namespace Scroom
namespace Switches

variable {K : Type*} [DecidableEq K]

/-- The last thing that happened to the key was that it was switched on. -/
def isOn : List (K × Bool) → K → Bool
  | [], _ => false
  | (k',b)::log, k => if k' = k then b else isOn log k

/-- Nothing is switched on that is on, or off that is off. -/
def Alternates : List (K × Bool) → Prop
  | [] => True
  | (k,b)::log => isOn log k = !b ∧ Alternates log

instance decidableAlternates : ∀ log : List (K × Bool), Decidable (Alternates log)
  | [] => isTrue trivial
  | (k,b)::log =>
    have := decidableAlternates log
    inferInstanceAs (Decidable (isOn log k = !b ∧ Alternates log))

/-- Some keys are switched, one after the other. -/
def switch (b : Bool) (keys : List K) (log : List (K × Bool)) : List (K × Bool) :=
  keys.foldl (fun log k => (k,b)::log) log

variable {b : Bool} {k k' : K} {keys : List K} {log : List (K × Bool)}

@[simp] theorem isOn_nil (k : K) : isOn [] k = false := rfl

@[simp] theorem isOn_cons : isOn ((k',b)::log) k = if k' = k then b else isOn log k := rfl

omit [DecidableEq K] in
@[simp] theorem switch_nil : switch b [] log = log := rfl

omit [DecidableEq K] in
theorem switch_cons : switch b (k::keys) log = switch b keys ((k,b)::log) := rfl

theorem isOn_switch_of_notMem (h : k ∉ keys) : isOn (switch b keys log) k = isOn log k := by
  induction keys generalizing log with
  | nil => rfl
  | cons k' keys ih =>
    obtain ⟨hne,hk⟩ := not_or.mp (mt List.mem_cons.mpr h)
    rw [switch_cons,ih hk,isOn_cons,if_neg (Ne.symm hne)]

theorem isOn_switch_of_mem (h : k ∈ keys) : isOn (switch b keys log) k = b := by
  induction keys generalizing log with
  | nil => cases h
  | cons k' keys ih =>
    rw [switch_cons]
    by_cases hk : k ∈ keys
    · exact ih hk
    · rw [isOn_switch_of_notMem hk,isOn_cons,if_pos ((List.mem_cons.mp h).resolve_right hk).symm]

theorem Alternates.switch (h : Alternates log) (hkeys : keys.Nodup) (hoff : ∀ k ∈ keys, isOn log k = !b) :
    Alternates (switch b keys log) := by
  induction keys generalizing log with
  | nil => exact h
  | cons k keys ih =>
    obtain ⟨hk,hkeys⟩ := List.nodup_cons.mp hkeys
    refine ih ⟨hoff k List.mem_cons_self,h⟩ hkeys fun k' hk' => ?_
    have hne : k ≠ k' := fun he => hk (he ▸ hk')
    rw [isOn_cons,if_neg hne]
    exact hoff k' (List.mem_cons_of_mem _ hk')

theorem Alternates.of_switch (h : Alternates (Switches.switch b keys log)) : Alternates log := by
  induction keys generalizing log with
  | nil => exact h
  | cons k keys ih => exact (ih h).2

theorem alternates_switch_iff (h : Alternates log) :
    Alternates (switch b keys log) ↔ keys.Nodup ∧ ∀ k ∈ keys, isOn log k = !b := by
  refine ⟨fun ha => ?_,fun ⟨hkeys,hoff⟩ => h.switch hkeys hoff⟩
  induction keys generalizing log with
  | nil => exact ⟨List.nodup_nil,by simp⟩
  | cons k keys ih =>
    have hk : Alternates ((k,b)::log) := .of_switch (switch_cons ▸ ha : Alternates (switch b keys _))
    obtain ⟨hnodup,hoff⟩ := ih hk ha
    have hne : ∀ k' ∈ keys, k ≠ k' := fun k' hk' he => by
      have hb := hoff k' hk'
      rw [isOn_cons,if_pos he] at hb
      simp at hb
    refine ⟨List.nodup_cons.mpr ⟨fun hmem => hne k hmem rfl,hnodup⟩,fun k' hk' => ?_⟩
    rcases List.mem_cons.mp hk' with rfl | hk'
    · exact hk.1
    · have hb := hoff k' hk'
      rwa [isOn_cons,if_neg (hne k' hk')] at hb

end Switches
end Scroom
