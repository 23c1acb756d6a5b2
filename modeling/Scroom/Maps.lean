import Mathlib.Tactic

/-! Maps as lists of keys and values. -/
namespace Scroom
namespace Maps

variable {K V : Type*} [DecidableEq K]

/-- `m[k] = v` for a `std::map`. -/
def assign (m : List (K × V)) (k : K) (v : V) : List (K × V) :=
  if m.any (·.1 = k) then m.map fun e => if e.1 = k then (k,v) else e else m ++ [(k,v)]

variable {m : List (K × V)} {k : K} {v : V}

theorem any_key_iff : m.any (·.1 = k) = true ↔ k ∈ m.map (·.1) := by simp

theorem assign_of_mem (h : k ∈ m.map (·.1)) (v : V) : assign m k v = m.map fun e => if e.1 = k then (k,v) else e :=
  if_pos (any_key_iff.mpr h)

theorem assign_of_notMem (h : k ∉ m.map (·.1)) (v : V) : assign m k v = m ++ [(k,v)] := if_neg (mt any_key_iff.mp h)

theorem keys_assign (m : List (K × V)) (k : K) (v : V) :
    (assign m k v).map (·.1) = if k ∈ m.map (·.1) then m.map (·.1) else m.map (·.1) ++ [k] := by
  by_cases h : k ∈ m.map (·.1)
  · rw [assign_of_mem h,if_pos h,List.map_map]
    exact List.map_congr_left fun e _ => by
      by_cases he : e.1 = k <;> simp [he]
  · rw [assign_of_notMem h,if_neg h,List.map_append]
    rfl

theorem mem_assign (m : List (K × V)) (k : K) (v : V) (e : K × V) :
    e ∈ assign m k v ↔ e = (k,v) ∨ e ∈ m ∧ e.1 ≠ k := by
  by_cases h : k ∈ m.map (·.1)
  · rw [assign_of_mem h,List.mem_map]
    constructor
    · rintro ⟨e',he',rfl⟩
      split_ifs with hk
      · exact Or.inl rfl
      · exact Or.inr ⟨he',hk⟩
    · rintro (rfl | ⟨he,hk⟩)
      · obtain ⟨e',he',hk⟩ := List.mem_map.mp h
        exact ⟨e',he',if_pos hk⟩
      · exact ⟨e,he,if_neg hk⟩
  · rw [assign_of_notMem h,List.mem_append,List.mem_singleton,or_comm]
    exact or_congr_right (and_iff_left_of_imp fun he hk => h (List.mem_map.mpr ⟨e,he,hk⟩)).symm

theorem keys_eraseP (m : List (K × V)) (k : K) : (m.map (·.1)).erase k = (m.eraseP (·.1 = k)).map (·.1) := by
  rw [List.erase_eq_eraseP',List.eraseP_map]
  rfl

theorem find?_eq_some (hm : (m.map (·.1)).Nodup) (h : (k,v) ∈ m) : m.find? (·.1 = k) = some (k,v) := by
  cases hf : m.find? (·.1 = k) with
  | none => exact absurd (List.find?_eq_none.mp hf _ h) (by simp)
  | some e =>
    have he : e.1 = k := by simpa using List.find?_some hf
    rw [List.inj_on_of_nodup_map hm (List.mem_of_find?_eq_some hf) h he]

theorem mem_eraseP (hm : (m.map (·.1)).Nodup) (e : K × V) : e ∈ m.eraseP (·.1 = k) ↔ e ∈ m ∧ e.1 ≠ k := by
  induction m with
  | nil => simp
  | cons e' m ih =>
    obtain ⟨he',hm⟩ := List.nodup_cons.mp hm
    by_cases hk : e'.1 = k
    · rw [List.eraseP_cons_of_pos (by simpa using hk),List.mem_cons]
      refine ⟨fun he => ⟨Or.inr he,fun hek => he' ?_⟩,fun ⟨he,hek⟩ => he.resolve_left fun h => hek (h ▸ hk)⟩
      exact List.mem_map.mpr ⟨e,he,hek.trans hk.symm⟩
    · rw [List.eraseP_cons_of_neg (by simpa using hk),List.mem_cons,List.mem_cons,ih hm]
      constructor
      · rintro (rfl | ⟨he,hek⟩)
        · exact ⟨Or.inl rfl,hk⟩
        · exact ⟨Or.inr he,hek⟩
      · rintro ⟨rfl | he,hek⟩
        · exact Or.inl rfl
        · exact Or.inr ⟨he,hek⟩

end Maps
end Scroom
