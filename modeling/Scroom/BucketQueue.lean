import Mathlib.Data.List.Basic
import Mathlib.Data.List.Pairwise
import Mathlib.Data.Prod.Lex

/-! Priority queues that keep, in the order of the keys, one queue for each key. -/
namespace Scroom
namespace BucketQueue

variable {K A : Type*}

def items (buckets : List (K × List A)) : List (K × A) :=
  buckets.flatMap fun bucket => bucket.2.map fun a => (bucket.1,a)

/-- Skip the empty queues in front. -/
def eraseEmpty (buckets : List (K × List A)) : List (K × List A) :=
  buckets.dropWhile fun bucket => bucket.2.isEmpty

def pop (buckets : List (K × List A)) : Option ((K × A) × List (K × List A)) :=
  match eraseEmpty buckets with
  | (k,a::queue)::buckets => some ((k,a),(k,queue)::buckets)
  | _ => none

/-- The keys are in order, and so is each queue. -/
structure Sorted [LT K] (older : A → A → Prop) (buckets : List (K × List A)) : Prop where
  keys : buckets.Pairwise fun bucket bucket' => bucket.1 < bucket'.1
  queues : ∀ bucket ∈ buckets, bucket.2.Pairwise older

section Emplace
variable [LinearOrder K]

/-- Put something at the end of the queue of its key, which is made if there is none. -/
def emplace (k : K) (a : A) : List (K × List A) → List (K × List A)
  | [] => [(k,[a])]
  | bucket::buckets =>
    if k < bucket.1 then (k,[a])::bucket::buckets
    else if k = bucket.1 then (k,bucket.2 ++ [a])::buckets
    else bucket::emplace k a buckets

end Emplace

@[simp] theorem items_nil : items ([] : List (K × List A)) = [] := rfl

@[simp] theorem items_cons (bucket : K × List A) (buckets : List (K × List A)) :
    items (bucket::buckets) = bucket.2.map (fun a => (bucket.1,a)) ++ items buckets := rfl

variable {buckets rest : List (K × List A)} {k : K} {a : A} {x : K × A} {older : A → A → Prop}

theorem mem_items : x ∈ items buckets ↔ ∃ bucket ∈ buckets, bucket.1 = x.1 ∧ x.2 ∈ bucket.2 := by
  constructor
  · intro hx
    obtain ⟨bucket,hb,hx⟩ := List.mem_flatMap.mp hx
    obtain ⟨a,ha,rfl⟩ := List.mem_map.mp hx
    exact ⟨bucket,hb,rfl,ha⟩
  · rintro ⟨bucket,hb,hk,hx⟩
    exact List.mem_flatMap.mpr ⟨bucket,hb,List.mem_map.mpr ⟨x.2,hx,Prod.ext hk rfl⟩⟩

@[simp] theorem items_eraseEmpty : items (eraseEmpty buckets) = items buckets := by
  induction buckets with
  | nil => rfl
  | cons bucket buckets ih =>
    rw [eraseEmpty,List.dropWhile_cons]
    split
    case isTrue he =>
      rw [items_cons,List.isEmpty_iff.mp he]
      exact ih
    case isFalse => rfl

/-- The first of what there is comes out. -/
theorem pop_items (h : pop buckets = some (x,rest)) : items buckets = x::items rest := by
  rw [← items_eraseEmpty]
  unfold pop at h
  split at h
  next k a queue tail he =>
    cases h
    simp [he]
  next => cases h

theorem pop_isSome (h : items buckets ≠ []) : ∃ x rest, pop buckets = some (x,rest) := by
  rw [← items_eraseEmpty] at h
  have hhead := List.head?_dropWhile_not (fun bucket : K × List A => bucket.2.isEmpty) buckets
  rw [← eraseEmpty.eq_def] at hhead
  unfold pop
  cases he : eraseEmpty buckets with
  | nil => simp [he] at h
  | cons bucket tail =>
    obtain ⟨k,queue⟩ := bucket
    cases queue with
    | nil => simp [he] at hhead
    | cons a queue => exact ⟨_,_,rfl⟩

section Order
variable [LinearOrder K]

theorem Sorted.eraseEmpty (hs : Sorted older buckets) : Sorted older (eraseEmpty buckets) where
  keys := hs.keys.sublist (List.dropWhile_sublist _)
  queues := fun bucket hb => hs.queues bucket ((List.dropWhile_sublist _).mem hb)

theorem Sorted.pop (hs : Sorted older buckets) (h : pop buckets = some (x,rest)) : Sorted older rest := by
  have he := hs.eraseEmpty
  unfold BucketQueue.pop at h
  split at h
  next k a queue tail ht =>
    cases h
    rw [ht] at he
    exact {
      keys := List.pairwise_cons.mpr (List.pairwise_cons.mp he.keys)
      queues := fun bucket hb => by
        rcases List.mem_cons.mp hb with rfl | hb
        · exact (List.pairwise_cons.mp (he.queues (k,a::queue) List.mem_cons_self)).2
        · exact he.queues bucket (List.mem_cons_of_mem _ hb) }
  next => cases h

/-- Smaller keys come first, and of one key what is older. -/
theorem Sorted.items (hs : Sorted older buckets) : (items buckets).Pairwise (Prod.Lex (· < ·) older) := by
  refine List.pairwise_flatMap.mpr ⟨fun bucket hb => ?_,?_⟩
  · exact List.pairwise_map.mpr ((hs.queues bucket hb).imp fun h => Prod.Lex.right _ h)
  · refine hs.keys.imp fun hk x hx y hy => ?_
    obtain ⟨a,-,rfl⟩ := List.mem_map.mp hx
    obtain ⟨b,-,rfl⟩ := List.mem_map.mp hy
    exact Prod.Lex.left _ _ hk

theorem items_emplace (k : K) (a : A) (buckets : List (K × List A)) :
    (items (emplace k a buckets)).Perm ((k,a)::items buckets) := by
  induction buckets with
  | nil => simp [emplace]
  | cons bucket buckets ih =>
    unfold emplace
    split_ifs with hlt heq
    · simp
    · subst heq
      simp only [items_cons,List.map_append,List.map_cons,List.map_nil,List.append_assoc,List.singleton_append]
      exact List.perm_middle
    · exact (ih.append_left _).trans List.perm_middle

theorem key_emplace {bucket : K × List A} (h : bucket ∈ emplace k a buckets) :
    bucket.1 = k ∨ ∃ bucket' ∈ buckets, bucket.1 = bucket'.1 := by
  induction buckets with
  | nil => exact .inl (congrArg Prod.fst (List.mem_singleton.mp h))
  | cons head buckets ih =>
    unfold emplace at h
    split_ifs at h with hlt heq
    · rcases List.mem_cons.mp h with rfl | h
      · exact .inl rfl
      · exact .inr ⟨bucket,h,rfl⟩
    · rcases List.mem_cons.mp h with rfl | h
      · exact .inl rfl
      · exact .inr ⟨bucket,List.mem_cons_of_mem _ h,rfl⟩
    · rcases List.mem_cons.mp h with rfl | h
      · exact .inr ⟨bucket,List.mem_cons_self,rfl⟩
      · refine (ih h).imp_right fun ⟨bucket',hb,hk⟩ => ⟨bucket',List.mem_cons_of_mem _ hb,hk⟩

theorem Sorted.emplace (hs : Sorted older buckets) (k : K) (hyoung : ∀ x ∈ BucketQueue.items buckets, older x.2 a) :
    Sorted older (emplace k a buckets) := by
  induction buckets with
  | nil => exact ⟨List.pairwise_singleton _ _,fun bucket hb => by simp [List.mem_singleton.mp hb]⟩
  | cons bucket buckets ih =>
    obtain ⟨hkeys,hkeys'⟩ := List.pairwise_cons.mp hs.keys
    have hqueues := List.forall_mem_cons.mp hs.queues
    have htail : Sorted older buckets := ⟨hkeys',hqueues.2⟩
    unfold BucketQueue.emplace
    split_ifs with hlt heq
    · refine ⟨List.pairwise_cons.mpr ⟨?_,hs.keys⟩,List.forall_mem_cons.mpr ⟨List.pairwise_singleton _ _,hs.queues⟩⟩
      exact List.forall_mem_cons.mpr ⟨hlt,fun bucket' hb => hlt.trans (hkeys bucket' hb)⟩
    · refine ⟨List.pairwise_cons.mpr ⟨fun bucket' hb => heq ▸ hkeys bucket' hb,hkeys'⟩,?_⟩
      refine List.forall_mem_cons.mpr ⟨?_,hqueues.2⟩
      refine List.pairwise_append.mpr ⟨hqueues.1,List.pairwise_singleton _ _,fun b hb c hc => ?_⟩
      rw [List.mem_singleton.mp hc]
      exact hyoung (bucket.1,b) (mem_items.mpr ⟨bucket,List.mem_cons_self,rfl,hb⟩)
    · have hi := ih htail fun x hx => hyoung x (List.mem_append_right _ hx)
      refine ⟨List.pairwise_cons.mpr ⟨fun bucket' hb => ?_,hi.keys⟩,List.forall_mem_cons.mpr ⟨hqueues.1,hi.queues⟩⟩
      rcases key_emplace hb with hk | ⟨other,ho,hk⟩
      · exact hk ▸ lt_of_le_of_ne (not_lt.mp hlt) (Ne.symm heq)
      · exact hk ▸ hkeys other ho

end Order
end BucketQueue
end Scroom
