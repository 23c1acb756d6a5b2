import Mathlib.Data.List.Dedup
import Scroom.Bookkeeping

/-! What the operations of a map look like to one who only reads it with `get`, as long as nothing is
removed explicitly. -/
namespace Scroom
namespace Bookkeeping
open Transitions

variable {K V : Type*}

def keyOf (c : Config K V) (i : ℕ) : Option K := (c.tokens[i]?).map Token.key

/-- Tokens stay, for the keys that they were handed out for, and none of these is removed explicitly. -/
structure Grows (c d : Config K V) : Prop where
  key : ∀ i k, keyOf c i = some k → keyOf d i = some k
  current : (∀ token ∈ c.tokens, token.current = true) → ∀ token ∈ d.tokens, token.current = true

variable {c d e : Config K V} {k k' o : K} {v w : V} {i j id : ℕ} {token : Token K V} {pv : ValueType V}

theorem Grows.of_tokens (h : d.tokens = c.tokens) : Grows c d :=
  ⟨fun i k hk => by simpa [keyOf,h] using hk,fun hc => h ▸ hc⟩

theorem Grows.trans (h : Grows c d) (h' : Grows d e) : Grows c e :=
  ⟨fun i k hk => h'.key i k (h.key i k hk),fun hc => h'.current (h.current hc)⟩

theorem grows_setPhase (hget : c.tokens[i]? = some token) (phase : Phase) : Grows c (setPhase c i token phase) where
  key := fun j k hk => by
    by_cases hj : i = j
    · subst hj
      simpa [keyOf,setPhase,getElem?_set_of_getElem? hget,hget] using hk
    · simpa [keyOf,setPhase,List.getElem?_set_ne hj] using hk
  current := fun hc => forall_mem_set hc (hc token (List.mem_of_getElem? hget))

theorem grows_copy (i : ℕ) : Grows c (copy c i) := by
  unfold copy
  split
  next token hget =>
    split
    · exact grows_setPhase hget _
    · exact .of_tokens rfl
  next => exact .of_tokens rfl

theorem grows_drop (h : drop c i = some d) : Grows c d := by
  obtain ⟨token,n,hget,-,rfl⟩ := drop_eq_some_iff.mp h
  exact grows_setPhase hget _

theorem grows_release (h : release c i = some d) : Grows c d := by
  obtain ⟨token,hget,h⟩ := Option.bind_eq_some_iff.mp h
  obtain ⟨-,⟨⟩⟩ := Option.ite_none_right_eq_some.mp h
  exact grows_setPhase hget _

theorem grows_createValue [Inhabited V] : Grows c (createValue c) := .of_tokens rfl

theorem grows_assign (id : ℕ) (v : V) : Grows c (assign c id v) := by
  cases hpv : c.cells[id]? with
  | none => exact .of_tokens (by simp [assign,hpv])
  | some pv =>
    refine ⟨fun i k hk => ?_,fun hc token hm => ?_⟩
    · simpa [keyOf,assign_tokens hpv,Option.map_map,Function.comp_def] using hk
    · obtain ⟨i,hget⟩ := List.getElem?_of_mem hm
      rw [assign_tokens hpv] at hget
      obtain ⟨old,hold,rfl⟩ := Option.map_eq_some_iff.mp hget
      simpa using hc old (List.mem_of_getElem? hold)

theorem grows_set (k : K) (v : V) : Grows c (set c k v).2 := by
  unfold set
  split
  · exact grows_assign _ _
  · exact .of_tokens rfl

/-! What `get` finds. -/

theorem Inv.get_eq_ok (hi : Inv c) :
    get c k = .ok v ↔ ∃ id pv, c.map k = some id ∧ c.cells[id]? = some pv ∧ pv.value = v := by
  cases hk : c.map k with
  | none => simp [get,Bookkeeping.lockKey,hk]
  | some id =>
    obtain ⟨pv,-,-,hpv,-⟩ := hi.entry k id hk
    simp [get,hi.lockKey hk hpv,hpv]

theorem Inv.get_congr (hi : Inv c) (hd : Inv d) (hmap : d.map = c.map) (hcells : d.cells = c.cells) :
    get d k = .ok v ↔ get c k = .ok v := by
  rw [hi.get_eq_ok,hd.get_eq_ok,hmap,hcells]

theorem Inv.get_copy (hi : Inv c) : get (Bookkeeping.copy c i) k = .ok v ↔ get c k = .ok v :=
  hi.get_congr (hi.copy i) (copy_map c i) (copy_cells c i)

theorem Inv.get_drop (hi : Inv c) (h : Bookkeeping.drop c i = some d) : get d k = .ok v ↔ get c k = .ok v := by
  obtain ⟨token,n,-,-,hd⟩ := drop_eq_some_iff.mp h
  exact hi.get_congr (hi.drop h) (hd ▸ rfl) (hd ▸ rfl)

theorem Inv.get_release (hi : Inv c) (h : Bookkeeping.release c i = some d) : get d k = .ok v ↔ get c k = .ok v := by
  have hd := hi.release h
  obtain ⟨token,-,h⟩ := Option.bind_eq_some_iff.mp h
  obtain ⟨-,⟨⟩⟩ := Option.ite_none_right_eq_some.mp h
  exact hi.get_congr hd rfl rfl

section Map
variable [DecidableEq K]

theorem Inv.get_assign (hi : Inv c) (hk : c.map o = some id) (v : V) :
    get (Bookkeeping.assign c id v) k = .ok w ↔ if k = o then v = w else get c k = .ok w := by
  obtain ⟨pv,-,-,hpv,-⟩ := hi.entry o id hk
  have hmap : (Bookkeeping.assign c id v).map = c.map := by simp [Bookkeeping.assign,hpv]
  rw [(hi.assign id v).get_eq_ok,hmap]
  simp only [assign_cells hpv]
  split_ifs with he
  · subst he
    simp [hk,hpv]
  · rw [hi.get_eq_ok]
    constructor
    · rintro ⟨id',pv',hk',hpv',rfl⟩
      have hne : id ≠ id' := fun h => he (hi.map_injective hk' (h ▸ hk))
      exact ⟨id',pv',hk',by simpa [hne] using hpv',rfl⟩
    · rintro ⟨id',pv',hk',hpv',rfl⟩
      have hne : id ≠ id' := fun h => he (hi.map_injective hk' (h ▸ hk))
      exact ⟨id',pv',hk',by simp [hne,hpv'],rfl⟩

/-- What can be read can be set. -/
theorem Inv.set_of_get (hi : Inv c) (hget : get c o = .ok w) (v : V) : ∃ d, Bookkeeping.set c o v = (.ok (),d) ∧
    ∀ k w, get d k = .ok w ↔ if k = o then v = w else get c k = .ok w := by
  obtain ⟨id,pv,hk,hpv,-⟩ := hi.get_eq_ok.mp hget
  exact ⟨_,by rw [Bookkeeping.set,hi.lockKey hk hpv],fun k w => hi.get_assign hk v⟩

theorem removeToken_tokens (k : K) (i : ℕ) : (removeToken c k i).tokens = c.tokens := by
  unfold removeToken
  split
  · split
    · split_ifs <;> rfl
    · rfl
  · rfl

theorem takes_destroy (h : destroy c i = some d) : Takes c d [] := by
  obtain ⟨token,hget,h⟩ := Option.bind_eq_some_iff.mp h
  obtain ⟨hp,⟨⟩⟩ := Option.ite_none_right_eq_some.mp h
  have htokens := removeToken_tokens (c := c) token.key i
  have hexpired : token.phase = .expired := by simpa [Token.pending] using hp
  have hset : Takes _ (setPhase (removeToken c token.key i) i token .removed) [] :=
    takes_setPhase (htokens ▸ hget) (by simp [hexpired,Phase.useCount]) rfl (by simp)
  simpa using (Takes.of_tokens htokens).trans hset

theorem grows_destroy (h : destroy c i = some d) : Grows c d := by
  obtain ⟨token,hget,h⟩ := Option.bind_eq_some_iff.mp h
  obtain ⟨-,⟨⟩⟩ := Option.ite_none_right_eq_some.mp h
  have htokens := removeToken_tokens (c := c) token.key i
  exact (Grows.of_tokens htokens).trans (grows_setPhase (htokens ▸ hget) _)

theorem grows_createToken : Grows c (createToken c k id v) where
  key := fun i k hk => by
    obtain ⟨token,hget,rfl⟩ := Option.map_eq_some_iff.mp hk
    simp [keyOf,createToken,getElem?_append_of_getElem? hget]
  current := fun hc token hm => by
    rcases List.mem_append.mp hm with hm | hm
    · exact hc token hm
    · rw [List.mem_singleton.mp hm]

theorem keyOf_createToken : keyOf (createToken c k id v) c.tokens.length = some k := by
  simp [keyOf,createToken]

theorem grows_reReserve [Inhabited V] (o : K) : Grows c (reReserve c o).2 := by
  unfold reReserve
  split
  · split
    · exact grows_copy _
    · exact grows_createToken
  · exact grows_createValue.trans grows_createToken

/-- A destructor adds nothing. -/
theorem Inv.get_destroy (hi : Inv c) (h : Bookkeeping.destroy c i = some d) (hv : get d k = .ok v) :
    get c k = .ok v := by
  obtain ⟨id,pv,hk,hpv,rfl⟩ := (hi.destroy h).get_eq_ok.mp hv
  obtain ⟨token,hget,h⟩ := Option.bind_eq_some_iff.mp h
  obtain ⟨hpending,⟨⟩⟩ := Option.ite_none_right_eq_some.mp h
  have hexpired := lockToken_of_not_live hget (not_live_of_pending hpending)
  rcases hi.removeToken (k := token.key) hexpired with ⟨he,-⟩ | ⟨he,-⟩
  · rw [he] at hk hpv
    have hne : k ≠ token.key := by
      rintro rfl
      simp [Bookkeeping.setPhase,Bookkeeping.erase] at hk
    exact hi.get_eq_ok.mpr ⟨id,pv,by simpa [Bookkeeping.setPhase,Bookkeeping.erase,hne] using hk,hpv,rfl⟩
  · rw [he] at hk hpv
    exact hi.get_eq_ok.mpr ⟨id,pv,hk,hpv,rfl⟩

theorem Inv.get_reReserve [Inhabited V] (hi : Inv c) (o : K) :
    get (Bookkeeping.reReserve c o).2 k = .ok v ↔
      get c k = .ok v ∨ k = o ∧ v = default ∧ ∀ w, get c o ≠ .ok w := by
  have hd := hi.reReserve o
  unfold Bookkeeping.reReserve at hd ⊢
  cases hk : c.map o with
  | none =>
    have hl : Bookkeeping.lockKey c o = none := by simp [Bookkeeping.lockKey,hk]
    have hno : ∀ w, get c o ≠ .ok w := by simp [get,hl]
    simp only [hl] at hd ⊢
    rw [hd.get_eq_ok,hi.get_eq_ok]
    simp only [Bookkeeping.createToken,Bookkeeping.createValue]
    by_cases he : k = o
    · subst he
      simp [hk,hno,eq_comm]
    · rw [Function.update_of_ne he]
      have hnew : ∀ id pv, c.map k = some id → c.cells[id]? = some pv →
          ((c.cells ++ [({ value := default } : ValueType V)]).set c.cells.length
            { value := default, token := some c.tokens.length })[id]? = some pv := by
        intro id pv _ hpv
        have hlt := (List.getElem?_eq_some_iff.mp hpv).1
        rw [List.getElem?_set_ne (by omega)]
        exact getElem?_append_of_getElem? hpv
      constructor
      · rintro ⟨id,pv,hk',hpv,rfl⟩
        obtain ⟨pv',-,-,hpv',-⟩ := hi.entry k id hk'
        have he' : pv = pv' := Option.some.inj (hpv.symm.trans (hnew id pv' hk' hpv'))
        exact .inl ⟨id,pv',hk',hpv',he' ▸ rfl⟩
      · rintro (⟨id,pv,hk',hpv,rfl⟩ | ⟨he',-⟩)
        · exact ⟨id,pv,hk',hnew id pv hk' hpv,rfl⟩
        · exact absurd he' he
  | some id =>
    obtain ⟨pv,-,-,hpv,-⟩ := hi.entry o id hk
    have hget : get c o = .ok pv.value := hi.get_eq_ok.mpr ⟨id,pv,hk,hpv,rfl⟩
    have hno : ¬(k = o ∧ v = default ∧ ∀ w, get c o ≠ .ok w) := fun h => h.2.2 _ hget
    rw [or_iff_left hno]
    simp only [hi.lockKey hk hpv] at hd ⊢
    split
    · exact hi.get_copy
    next hl =>
      simp only [hl] at hd
      rw [hd.get_eq_ok,hi.get_eq_ok]
      have hmap : Function.update c.map o (some id) = c.map := by rw [← hk,Function.update_eq_self]
      have hlt := (List.getElem?_eq_some_iff.mp hpv).1
      simp only [Bookkeeping.createToken,hmap]
      refine exists_congr fun id' => ?_
      by_cases he : id = id'
      · subst he
        simp [List.getElem?_set_self hlt,hpv]
      · simp [List.getElem?_set_ne he]

/-- The token that is handed out is one of the key. -/
theorem Inv.keyOf_reReserve [Inhabited V] (hi : Inv c) (o : K) :
    keyOf (Bookkeeping.reReserve c o).2 (Bookkeeping.reReserve c o).1 = some o := by
  have hgrows := grows_reReserve (c := c) o
  cases hk : c.map o with
  | none =>
    have hl : Bookkeeping.lockKey c o = none := by simp [Bookkeeping.lockKey,hk]
    simp only [Bookkeeping.reReserve,hl]
    exact keyOf_createToken
  | some id =>
    obtain ⟨pv,i,token,hpv,ht,hget,hkey,-⟩ := hi.entry o id hk
    have hkeyOf : keyOf c i = some o := by simp [keyOf,hget,hkey]
    simp only [Bookkeeping.reReserve,hi.lockKey hk hpv,ht,Option.bind_some] at hgrows ⊢
    cases hl : lockToken c i with
    | none => exact keyOf_createToken
    | some j =>
      obtain ⟨rfl,-⟩ := lockToken_eq_some.mp hl
      simp only [hl] at hgrows
      exact hgrows.key i o hkeyOf

/-- There are entries for keys of tokens only. -/
def keys (c : Config K V) : List K := (c.tokens.map Token.key).dedup.filter fun k => (c.map k).isSome

def values (c : Config K V) : List V := (keys c).filterMap fun k => (lockKey c k).map fun (_,pv) => pv.value

theorem keys_nodup (c : Config K V) : (keys c).Nodup := (List.nodup_dedup _).filter _

theorem Inv.mem_keys (hi : Inv c) : k ∈ keys c ↔ (c.map k).isSome = true := by
  simp only [keys,List.mem_filter,List.mem_dedup,and_iff_right_iff_imp]
  intro hk
  obtain ⟨id,hk⟩ := Option.isSome_iff_exists.mp hk
  obtain ⟨pv,i,token,-,-,hget,hkey,-⟩ := hi.entry k id hk
  exact List.mem_map.mpr ⟨token,List.mem_of_getElem? hget,hkey⟩

theorem Inv.mem_values (hi : Inv c) : v ∈ values c ↔ ∃ k, get c k = .ok v := by
  have hget : ∀ k, get c k = .ok v ↔ (Bookkeeping.lockKey c k).map (fun (_,pv) => pv.value) = some v := by
    intro k
    unfold get
    cases Bookkeeping.lockKey c k <;> simp
  simp only [values,List.mem_filterMap,← hget]
  refine exists_congr fun k => and_iff_right_of_imp fun hk => ?_
  obtain ⟨id,pv,hk,-⟩ := hi.get_eq_ok.mp hk
  exact hi.mem_keys.mpr (by simp [hk])

/-- The values are those of the keys, one each. -/
theorem Inv.forall₂_values (hi : Inv c) : List.Forall₂ (fun v k => get c k = .ok v) (values c) (keys c) := by
  have hget : ∀ k ∈ keys c, ∃ v, (Bookkeeping.lockKey c k).map (fun (_,pv) => pv.value) = some v ∧ get c k = .ok v := by
    intro k hk
    obtain ⟨id,hk⟩ := Option.isSome_iff_exists.mp (hi.mem_keys.mp hk)
    obtain ⟨pv,-,-,hpv,-⟩ := hi.entry k id hk
    exact ⟨pv.value,by rw [hi.lockKey hk hpv]; rfl,hi.get_eq_ok.mpr ⟨id,pv,hk,hpv,rfl⟩⟩
  unfold values
  generalize keys c = ks at hget ⊢
  induction ks with
  | nil => exact .nil
  | cons k ks ih =>
    obtain ⟨v,hv,hgetv⟩ := hget k List.mem_cons_self
    simp only [List.filterMap_cons,hv]
    exact .cons hgetv (ih fun k' hk' => hget k' (List.mem_cons_of_mem _ hk'))

end Map

end Bookkeeping
end Scroom
