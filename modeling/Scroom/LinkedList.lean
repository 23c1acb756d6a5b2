import Mathlib.Data.List.Nodup

/-! Lists whose nodes keep their identity: an iterator stays where it is while other nodes come and go. -/
namespace Scroom

/-- The nodes in their order, each with its key and its value. -/
structure LinkedList (α : Type*) where
  nodes : List (ℕ × α) := []
  fresh : ℕ := 0
  nodup : (nodes.map Prod.fst).Nodup := by simp
  lt_fresh : ∀ x ∈ nodes, x.1 < fresh := by simp

namespace LinkedList

/-- A `singular` iterator is one that was never assigned. -/
inductive Iterator
  | singular | past | node (key : ℕ)
  deriving DecidableEq

variable {α β : Type*} {l : LinkedList α} {k : ℕ} {a : α}

def values (l : LinkedList α) : List α := l.nodes.map Prod.snd

/-- Where a list of nodes begins. -/
def start : List (ℕ × α) → Iterator
  | [] => .past
  | x::_ => .node x.1

def begin (l : LinkedList α) : Iterator := start l.nodes

/-- The value of a node, if it is there. -/
def find (l : LinkedList α) (k : ℕ) : Option α := (l.nodes.find? fun x => x.1 == k).map Prod.snd

/-- The iterator to the node that follows -/
def next (l : LinkedList α) (k : ℕ) : Iterator := start (l.nodes.dropWhile fun x => x.1 != k).tail

def pushBack (l : LinkedList α) (a : α) : LinkedList α where
  nodes := l.nodes ++ [(l.fresh,a)]
  fresh := l.fresh+1
  nodup := by
    rw [List.map_append,List.nodup_append']
    refine ⟨l.nodup,List.nodup_singleton _,?_⟩
    intro k hk hk'
    obtain ⟨x,hx,rfl⟩ := List.mem_map.mp hk
    have hlt := l.lt_fresh x hx
    simp only [List.map_cons,List.map_nil,List.mem_singleton] at hk'
    omega
  lt_fresh := by
    intro x hx
    rcases List.mem_append.mp hx with hx | hx
    · exact Nat.lt_succ_of_lt (l.lt_fresh x hx)
    · rw [List.mem_singleton.mp hx]
      exact Nat.lt_succ_self _

def erase (l : LinkedList α) (k : ℕ) : LinkedList α where
  nodes := l.nodes.filter fun x => x.1 != k
  fresh := l.fresh
  nodup := l.nodup.sublist (List.filter_sublist.map _)
  lt_fresh := fun x hx => l.lt_fresh x (List.mem_of_mem_filter hx)

/-- Every value becomes another. -/
def map (f : α → β) (l : LinkedList α) : LinkedList β where
  nodes := l.nodes.map fun x => (x.1,f x.2)
  fresh := l.fresh
  nodup := by simpa [Function.comp_def] using l.nodup
  lt_fresh := by
    intro x hx
    obtain ⟨y,hy,rfl⟩ := List.mem_map.mp hx
    exact l.lt_fresh y hy

/-- Where an iterator may be: at a node of the list, or past the last. -/
def Valid (l : LinkedList α) : Iterator → Prop
  | .singular => False
  | .past => True
  | .node k => k ∈ l.nodes.map Prod.fst

@[simp] theorem values_pushBack : (l.pushBack a).values = l.values ++ [a] := by simp [values,pushBack]

@[simp] theorem values_map (f : α → β) : (l.map f).values = l.values.map f := by simp [values,map]

@[simp] theorem nodes_pushBack : (l.pushBack a).nodes = l.nodes ++ [(l.fresh,a)] := rfl

@[simp] theorem nodes_map_eq_nil (f : α → β) : (l.map f).nodes = [] ↔ l.nodes = [] := by simp [map]

@[simp] theorem keys_map (f : α → β) : (l.map f).nodes.map Prod.fst = l.nodes.map Prod.fst := by simp [map]

theorem Valid.pushBack {it : Iterator} (h : l.Valid it) : (l.pushBack a).Valid it := by
  cases it with
  | singular => exact h
  | past => trivial
  | node k =>
    simp only [Valid,LinkedList.pushBack,List.map_append]
    exact List.mem_append_left _ h

theorem Valid.map {f : α → β} {it : Iterator} (h : l.Valid it) : (l.map f).Valid it := by
  cases it with
  | singular => exact h
  | past => trivial
  | node k =>
    rw [Valid,keys_map]
    exact h

theorem mem_values : a ∈ l.values ↔ ∃ k, (k,a) ∈ l.nodes := by simp [values]

theorem find_eq_some_iff : l.find k = some a ↔ (k,a) ∈ l.nodes := by
  constructor
  · intro h
    obtain ⟨x,hx,rfl⟩ := Option.map_eq_some_iff.mp h
    have hk : x.1 = k := by simpa using List.find?_some hx
    exact hk ▸ List.mem_of_find?_eq_some hx
  · intro h
    obtain ⟨x,hx⟩ : ∃ x, l.nodes.find? (fun x => x.1 == k) = some x :=
      Option.isSome_iff_exists.mp (List.find?_isSome.mpr ⟨(k,a),h,by simp⟩)
    have hk : x.1 = k := by simpa using List.find?_some hx
    have he : x = (k,a) := List.inj_on_of_nodup_map l.nodup (List.mem_of_find?_eq_some hx) h hk
    rw [find,hx,he,Option.map_some]

theorem valid_iff_find : l.Valid (.node k) ↔ ∃ a, l.find k = some a := by
  simp [Valid,find_eq_some_iff]

theorem valid_begin : l.Valid l.begin := by
  cases h : l.nodes with
  | nil => simp [begin,start,h,Valid]
  | cons x xs => simp [begin,start,h,Valid]

theorem begin_ne_past (h : l.nodes ≠ []) : l.begin ≠ .past := by
  cases hn : l.nodes with
  | nil => exact absurd hn h
  | cons x xs => simp [begin,start,hn]

theorem exists_split (h : l.Valid (.node k)) :
    ∃ xs a ys, l.nodes = xs ++ (k,a)::ys ∧ l.next k = start ys ∧ (l.erase k).nodes = xs ++ ys := by
  obtain ⟨x,hx,rfl⟩ := List.mem_map.mp h
  obtain ⟨xs,ys,he⟩ := List.append_of_mem hx
  have hnodup := l.nodup
  rw [he,List.map_append,List.map_cons,List.nodup_append',List.nodup_cons] at hnodup
  obtain ⟨-,⟨hys,-⟩,hdisjoint⟩ := hnodup
  have hbefore : ∀ y ∈ xs, y.1 ≠ x.1 := fun y hy hk =>
    hdisjoint (List.mem_map_of_mem hy) (hk ▸ List.mem_cons_self)
  have hafter : ∀ y ∈ ys, y.1 ≠ x.1 := fun y hy hk => hys (hk ▸ List.mem_map_of_mem hy)
  refine ⟨xs,x.2,ys,he,?_,?_⟩
  · rw [next,he,List.dropWhile_append_of_pos (by simpa using hbefore)]
    simp
  · simp only [erase,he,List.filter_append]
    rw [List.filter_eq_self.mpr (by simpa using hbefore),List.filter_cons_of_neg (by simp),
      List.filter_eq_self.mpr (by simpa using hafter)]

theorem valid_of_start {xs ys : List (ℕ × α)} (h : l.nodes = xs ++ ys) : l.Valid (start ys) := by
  cases ys with
  | nil => trivial
  | cons y ys => simp [start,Valid,h]

theorem valid_next (h : l.Valid (.node k)) : l.Valid (l.next k) := by
  obtain ⟨xs,a,ys,he,hn,-⟩ := exists_split h
  have hsplit : l.nodes = (xs ++ [(k,a)]) ++ ys := by rw [he,List.append_assoc,List.singleton_append]
  rw [hn]
  exact valid_of_start hsplit

theorem valid_erase_next (h : l.Valid (.node k)) : (l.erase k).Valid (l.next k) := by
  obtain ⟨xs,a,ys,-,hn,he⟩ := exists_split h
  rw [hn]
  exact valid_of_start he

theorem length_erase (h : l.Valid (.node k)) : (l.erase k).nodes.length+1 = l.nodes.length := by
  obtain ⟨xs,a,ys,he,-,hn⟩ := exists_split h
  rw [he,hn]
  simp only [List.length_append,List.length_cons]
  omega

theorem values_perm_erase (h : l.find k = some a) : l.values.Perm (a::(l.erase k).values) := by
  obtain ⟨xs,b,ys,he,-,hn⟩ := exists_split (valid_iff_find.mpr ⟨a,h⟩)
  have hb : l.find k = some b := find_eq_some_iff.mpr (by simp [he])
  obtain rfl := Option.some.inj (h.symm.trans hb)
  simp only [values,he,hn,List.map_append,List.map_cons]
  exact List.perm_middle

end LinkedList
end Scroom
