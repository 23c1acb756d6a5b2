import Mathlib.Logic.Function.Basic
import Scroom.Rectangle
import Scroom.Transitions

/-! The common size of the presentations in an overlay, of which the resizable ones are kept informed
for each view that is open. -/
namespace Scroom
namespace SizeDeterminer
open Transitions

/-- `std::numeric_limits<double>::max()` and `min()` -/
def doubleMax : ℚ := (2^53-1)*2^971
def doubleMin : ℚ := 1/2^1022

/-- One round of the loop over the presentations, on the left, top, right and bottom so far. -/
def extend (e : ℚ × ℚ × ℚ × ℚ) (rect : Rectangle ℚ) : ℚ × ℚ × ℚ × ℚ :=
  (min e.1 rect.getLeft,min e.2.1 rect.getTop,max e.2.2.1 rect.getRight,max e.2.2.2 rect.getBottom)

def determineSize (rects : List (Rectangle ℚ)) : Rectangle ℚ :=
  let (left,top,right,bottom) := rects.foldl extend (doubleMax,doubleMax,doubleMin,doubleMin)
  .make left top (right-left) (bottom-top)

/-- The list of the fixed presentations, the map with its keys and the views of each, and which `setRect`
calls were made, the latest first. The last field records what was opened and not closed since. -/
structure Config (C V : Type) where
  presentations : List C := []
  resizablePresentationData : List C := []
  views : C → List V := fun _ => []
  sent : List ((C × V) × Rectangle ℚ) := []
  opened : C → V → Bool := fun _ _ => false

section Children
variable {C V : Type} [DecidableEq C] [DecidableEq V]
/- The children: which of them are `ResizablePresentationInterface`s, and their rectangles. -/
variable (isResizable : C → Bool) (rect : C → Rectangle ℚ)

def getRect (c : Config C V) : Rectangle ℚ :=
  if c.presentations ≠ [] then determineSize (c.presentations.map rect)
  else if c.resizablePresentationData ≠ [] then determineSize (c.resizablePresentationData.map rect)
  else .empty

def setRect (r : Rectangle ℚ) (c : Config C V) (pair : C × V) : Config C V := { c with sent := (pair,r)::c.sent }

def sendUpdates (c : Config C V) : Config C V :=
  c.resizablePresentationData.foldl
    (fun d p => (c.views p).foldl (fun d view => setRect (getRect rect c) d (p,view)) d) c

def add (c : Config C V) (p : C) : Config C V :=
  sendUpdates rect <|
    if isResizable p then
      if p ∈ c.resizablePresentationData then c
      else
        { c with
          resizablePresentationData := c.resizablePresentationData ++ [p]
          views := Function.update c.views p [] }
    else { c with presentations := c.presentations ++ [p] }

/-- `open`, and in the next one `close`: `none` where a `require` fails. -/
def open' (c : Config C V) (p : C) (vi : V) : Option (Config C V) :=
  if p ∈ c.resizablePresentationData then
    if vi ∈ c.views p then none
    else
      let d := { c with views := Function.update c.views p (vi::c.views p) }
      some (setRect (getRect rect d) d (p,vi))
  else if isResizable p then none else some c

def close (c : Config C V) (p : C) (vi : V) : Option (Config C V) :=
  if p ∈ c.resizablePresentationData then
    if vi ∈ c.views p then some { c with views := Function.update c.views p ((c.views p).erase vi) }
    else none
  else if isResizable p then none else some c

/-- A pair of a child and a view was opened or closed. -/
def mark (c : Config C V) (p : C) (vi : V) (b : Bool) : Config C V :=
  { c with opened := Function.update c.opened p (Function.update (c.opened p) vi b) }

inductive Action (C V : Type)
  | add (p : C)
  | open' (p : C) (vi : V)
  | close (p : C) (vi : V)

def step (c : Config C V) : Action C V → Option (Config C V)
  | .add p => some (add isResizable rect c p)
  | .open' p vi => (open' isResizable rect c p vi).map (mark · p vi true)
  | .close p vi => (close isResizable c p vi).map (mark · p vi false)

def lastRect (c : Config C V) (pair : C × V) : Option (Rectangle ℚ) := (c.sent.find? (·.1 = pair)).map (·.2)

/-- The resizable children know the common size in the views that are open for them, and nobody is told in
a view that is not. -/
structure Informed (c : Config C V) : Prop where
  known : ∀ p vi, isResizable p = true → c.opened p vi = true → lastRect c (p,vi) = some (getRect rect c)
  sent : ∀ a d, step isResizable rect c a = some d → ∃ new, d.sent = new ++ c.sent ∧
    ∀ e ∈ new, isResizable e.1.1 = true ∧ d.opened e.1.1 e.1.2 = true

structure Inv (c : Config C V) : Prop where
  resizable : ∀ p ∈ c.resizablePresentationData, isResizable p = true
  nodup : ∀ p, (c.views p).Nodup
  views_nil : ∀ p, p ∉ c.resizablePresentationData → c.views p = []
  mem_views : ∀ p vi, isResizable p = true → (vi ∈ c.views p ↔ c.opened p vi = true)
  last : ∀ p, ∀ vi ∈ c.views p, lastRect c (p,vi) = some (getRect rect c)

variable {isResizable rect}

omit [DecidableEq C] [DecidableEq V] in
/-- The calls that an update makes, the latest first. -/
theorem sendUpdates_eq (c : Config C V) : sendUpdates rect c =
    { c with sent := (c.resizablePresentationData.flatMap fun p =>
      (c.views p).map fun view => ((p,view),getRect rect c)).reverse ++ c.sent } := by
  have hviews : ∀ (r : Rectangle ℚ) (p : C) (l : List V) (d : Config C V),
      l.foldl (fun d view => setRect r d (p,view)) d =
        { d with sent := (l.map fun view => ((p,view),r)).reverse ++ d.sent } := by
    intro r p l
    induction l with
    | nil => intro d; rfl
    | cons view l ih =>
      intro d
      rw [List.foldl_cons,ih]
      simp [setRect]
  have hchildren : ∀ (r : Rectangle ℚ) (l : List C) (d : Config C V),
      l.foldl (fun d p => (c.views p).foldl (fun d view => setRect r d (p,view)) d) d =
        { d with sent := (l.flatMap fun p => (c.views p).map fun view => ((p,view),r)).reverse ++ d.sent } := by
    intro r l
    induction l with
    | nil => intro d; rfl
    | cons p l ih =>
      intro d
      rw [List.foldl_cons,ih,hviews]
      simp
  exact hchildren _ _ _

variable {c d : Config C V} {p q : C} {vi wi : V}

theorem inv_initial : Inv isResizable rect ({} : Config C V) where
  resizable := by simp
  nodup := by simp
  views_nil := by simp
  mem_views := by simp
  last := by simp

theorem lastRect_setRect (r : Rectangle ℚ) (c : Config C V) (pair other : C × V) :
    lastRect (setRect r c pair) other = if pair = other then some r else lastRect c other := by
  by_cases he : pair = other <;> simp [lastRect,setRect,he]

theorem lastRect_sendUpdates (hp : p ∈ c.resizablePresentationData) (hvi : vi ∈ c.views p) :
    lastRect (sendUpdates rect c) (p,vi) = some (getRect rect c) := by
  have hmem : ((p,vi),getRect rect c) ∈ (c.resizablePresentationData.flatMap fun p =>
      (c.views p).map fun view => ((p,view),getRect rect c)).reverse :=
    List.mem_reverse.mpr (List.mem_flatMap.mpr ⟨p,hp,List.mem_map.mpr ⟨vi,hvi,rfl⟩⟩)
  rw [lastRect,sendUpdates_eq,List.find?_append]
  cases hf : List.find? _ _ with
  | none => exact absurd (List.find?_eq_none.mp hf _ hmem) (by simp)
  | some e =>
    obtain ⟨q,-,he⟩ := List.mem_flatMap.mp (List.mem_reverse.mp (List.mem_of_find?_eq_some hf))
    obtain ⟨view,-,rfl⟩ := List.mem_map.mp he
    rfl

theorem Inv.sendUpdates (hresizable : ∀ p ∈ c.resizablePresentationData, isResizable p = true)
    (hnodup : ∀ p, (c.views p).Nodup) (hnil : ∀ p, p ∉ c.resizablePresentationData → c.views p = [])
    (hmem : ∀ p vi, isResizable p = true → (vi ∈ c.views p ↔ c.opened p vi = true)) :
    Inv isResizable rect (sendUpdates rect c) := by
  have hlast : ∀ p, ∀ vi ∈ c.views p, lastRect (SizeDeterminer.sendUpdates rect c) (p,vi) = some (getRect rect c) := by
    intro p vi hvi
    refine lastRect_sendUpdates ?_ hvi
    by_contra hp
    simp [hnil p hp] at hvi
  rw [sendUpdates_eq] at hlast ⊢
  exact ⟨hresizable,hnodup,hnil,hmem,hlast⟩

theorem Inv.add (hi : Inv isResizable rect c) (p : C) : Inv isResizable rect (add isResizable rect c p) := by
  unfold SizeDeterminer.add
  split_ifs with hr hp
  · exact .sendUpdates hi.resizable hi.nodup hi.views_nil hi.mem_views
  · -- a new child has no views yet
    have hviews : Function.update c.views p [] = c.views :=
      Function.update_eq_self_iff.mpr (hi.views_nil p hp).symm
    rw [hviews]
    refine .sendUpdates (fun q hq => ?_) hi.nodup (fun q hq => ?_) hi.mem_views
    · rcases List.mem_append.mp hq with hq | hq
      · exact hi.resizable q hq
      · exact List.mem_singleton.mp hq ▸ hr
    · exact hi.views_nil q fun h => hq (List.mem_append_left _ h)
  · exact .sendUpdates hi.resizable hi.nodup hi.views_nil hi.mem_views

theorem mark_opened (b : Bool) (q : C) (wi : V) :
    (mark c p vi b).opened q wi = if q = p ∧ wi = vi then b else c.opened q wi := by
  by_cases hq : q = p
  · subst hq
    by_cases hw : wi = vi <;> simp [mark,hw]
  · simp [mark,hq]

theorem Inv.mark (hi : Inv isResizable rect c) (hp : ¬isResizable p = true) (vi : V) (b : Bool) :
    Inv isResizable rect (mark c p vi b) where
  resizable := hi.resizable
  nodup := hi.nodup
  views_nil := hi.views_nil
  mem_views := fun q wi hq => by
    have hne : q ≠ p := by
      rintro rfl
      exact hp hq
    rw [mark_opened,if_neg fun h => hne h.1]
    exact hi.mem_views q wi hq
  last := hi.last

theorem Inv.open' (hi : Inv isResizable rect c) (h : open' isResizable rect c p vi = some d) :
    Inv isResizable rect (SizeDeterminer.mark d p vi true) := by
  unfold SizeDeterminer.open' at h
  split_ifs at h with hp hvi hr
  · cases h
    refine ⟨hi.resizable,fun q => ?_,fun q hq => ?_,fun q wi hq => ?_,fun q wi hwi => ?_⟩
    · by_cases he : q = p
      · subst he
        simpa [SizeDeterminer.mark,setRect] using ⟨hvi,hi.nodup q⟩
      · simpa [SizeDeterminer.mark,setRect,he] using hi.nodup q
    · have hne : q ≠ p := by
        rintro rfl
        exact hq hp
      simpa [SizeDeterminer.mark,setRect,hne] using hi.views_nil q hq
    · have hm := hi.mem_views q wi hq
      rw [mark_opened]
      by_cases he : q = p
      · subst he
        by_cases hw : wi = vi <;> simp [SizeDeterminer.mark,setRect,hw,hm]
      · simpa [SizeDeterminer.mark,setRect,he] using hm
    · change lastRect (setRect _ _ _) _ = _
      rw [lastRect_setRect]
      split_ifs with he
      · rfl
      · have hm : wi ∈ c.views q := by
          by_cases hq : q = p
          · subst hq
            have hne : wi ≠ vi := by
              rintro rfl
              exact he rfl
            simpa [SizeDeterminer.mark,setRect,hne] using hwi
          · simpa [SizeDeterminer.mark,setRect,hq] using hwi
        exact hi.last q wi hm
  · cases h
    exact hi.mark hr vi true

theorem Inv.close (hi : Inv isResizable rect c) (h : close isResizable c p vi = some d) :
    Inv isResizable rect (SizeDeterminer.mark d p vi false) := by
  unfold SizeDeterminer.close at h
  split_ifs at h with hp hvi hr
  · cases h
    refine ⟨hi.resizable,fun q => ?_,fun q hq => ?_,fun q wi hq => ?_,fun q wi hwi => ?_⟩
    · by_cases he : q = p
      · subst he
        simpa [SizeDeterminer.mark] using (hi.nodup q).erase vi
      · simpa [SizeDeterminer.mark,he] using hi.nodup q
    · have hne : q ≠ p := by
        rintro rfl
        exact hq hp
      simpa [SizeDeterminer.mark,hne] using hi.views_nil q hq
    · have hm := hi.mem_views q wi hq
      rw [mark_opened]
      by_cases he : q = p
      · subst he
        by_cases hw : wi = vi
        · simp [SizeDeterminer.mark,hw,(hi.nodup q).not_mem_erase]
        · simp [SizeDeterminer.mark,hw,hm]
      · simpa [SizeDeterminer.mark,he] using hm
    · refine hi.last q wi ?_
      by_cases he : q = p
      · subst he
        exact List.mem_of_mem_erase (by simpa [SizeDeterminer.mark] using hwi)
      · simpa [SizeDeterminer.mark,he] using hwi
  · cases h
    exact hi.mark hr vi false

theorem Inv.step (hi : Inv isResizable rect c) {a : Action C V} (h : step isResizable rect c a = some d) :
    Inv isResizable rect d := by
  cases a with
  | add p =>
    cases h
    exact hi.add p
  | open' p vi =>
    obtain ⟨e,he,rfl⟩ := Option.map_eq_some_iff.mp h
    exact hi.open' he
  | close p vi =>
    obtain ⟨e,he,rfl⟩ := Option.map_eq_some_iff.mp h
    exact hi.close he

theorem Inv.sent_sendUpdates (hi : Inv isResizable rect (SizeDeterminer.sendUpdates rect c)) :
    ∃ new, (SizeDeterminer.sendUpdates rect c).sent = new ++ c.sent ∧
      ∀ e ∈ new, isResizable e.1.1 = true ∧ (SizeDeterminer.sendUpdates rect c).opened e.1.1 e.1.2 = true := by
  rw [sendUpdates_eq] at hi ⊢
  refine ⟨_,rfl,fun e he => ?_⟩
  obtain ⟨q,hq,he⟩ := List.mem_flatMap.mp (List.mem_reverse.mp he)
  obtain ⟨view,hv,rfl⟩ := List.mem_map.mp he
  have hr := hi.resizable q hq
  exact ⟨hr,(hi.mem_views q view hr).mp hv⟩

theorem Inv.sent (hi : Inv isResizable rect c) {a : Action C V}
    (h : SizeDeterminer.step isResizable rect c a = some d) :
    ∃ new, d.sent = new ++ c.sent ∧ ∀ e ∈ new, isResizable e.1.1 = true ∧ d.opened e.1.1 e.1.2 = true := by
  cases a with
  | add p =>
    cases h
    have hd := hi.add p
    unfold SizeDeterminer.add at hd ⊢
    split_ifs at hd ⊢
    · exact hd.sent_sendUpdates
    · exact hd.sent_sendUpdates
    · exact hd.sent_sendUpdates
  | open' p vi =>
    obtain ⟨e,he,rfl⟩ := Option.map_eq_some_iff.mp h
    unfold SizeDeterminer.open' at he
    split_ifs at he with hp hvi hr
    · cases he
      refine ⟨[_],rfl,fun e hm => ?_⟩
      cases List.mem_singleton.mp hm
      exact ⟨hi.resizable p hp,by simp [mark_opened]⟩
    · cases he
      exact ⟨[],rfl,by simp⟩
  | close p vi =>
    obtain ⟨e,he,rfl⟩ := Option.map_eq_some_iff.mp h
    refine ⟨[],?_,by simp⟩
    unfold SizeDeterminer.close at he
    split_ifs at he <;> cases he <;> rfl

theorem Inv.toInformed (hi : Inv isResizable rect c) : Informed isResizable rect c where
  known := fun p vi hr ho => hi.last p vi ((hi.mem_views p vi hr).mpr ho)
  sent := fun _ _ h => hi.sent h

variable (isResizable rect)

/-- After any calls whose `require`s hold, every resizable child knows the common size in every view that is
open for it. -/
theorem informed (as : List (Action C V)) (c : Config C V) (h : run (step isResizable rect) as {} = some c) :
    Informed isResizable rect c :=
  (run_invariant (fun _ _ _ hi h => Inv.step hi h) inv_initial h).toInformed

/-- A resizable child that is open when a fixed one is added. -/
theorem informed_fixedLast :
    let c := (run (step (fun p : ℕ => p = 0) fun p => ⟨⟨p,1⟩,⟨p,1⟩⟩)
      [.add 0,.open' 0 5,.open' 0 6,.close 0 6,.add 1] {}).get rfl
    Informed (fun p : ℕ => p = 0) (fun p => ⟨⟨p,1⟩,⟨p,1⟩⟩) c ∧ c.sent.map (·.1) = [(0,5),(0,6),(0,5)] :=
  ⟨informed _ _ _ _ (Option.some_get _).symm,by decide⟩

end Children
end SizeDeterminer
end Scroom
