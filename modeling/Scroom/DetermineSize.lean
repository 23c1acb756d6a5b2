import Scroom.SizeDeterminer

/-! When the common size of an overlay is the smallest rectangle around its children. The arithmetic on
`double` is exact here. -/
namespace Scroom
namespace SizeDeterminer

/-- As the constructor leaves a rectangle. -/
structure Normal (r : Rectangle ℚ) : Prop where
  width : 0 ≤ r.horizontally.size
  height : 0 ≤ r.vertically.size

/-- The smallest rectangle that contains all of these. -/
structure IsBoundingBox (box : Rectangle ℚ) (rects : List (Rectangle ℚ)) : Prop where
  contains : ∀ r ∈ rects, box.containsRectangle r
  least : ∀ other : Rectangle ℚ, (∀ r ∈ rects, other.containsRectangle r) → other.containsRectangle box

/-- The values that `determineSize` starts with leave the edges of some rectangle on each side. -/
structure SentinelsNeutral (rects : List (Rectangle ℚ)) : Prop where
  left : ∃ r ∈ rects, r.getLeft ≤ doubleMax
  top : ∃ r ∈ rects, r.getTop ≤ doubleMax
  right : ∃ r ∈ rects, doubleMin ≤ r.getRight
  bottom : ∃ r ∈ rects, doubleMin ≤ r.getBottom

/-- The left, top, right and bottom of a rectangle. -/
def edges (r : Rectangle ℚ) : ℚ × ℚ × ℚ × ℚ := (r.getLeft,r.getTop,r.getRight,r.getBottom)

/-- The first edges lie around the second ones. -/
def Encloses (a e : ℚ × ℚ × ℚ × ℚ) : Prop :=
  (a.1 ≤ e.1 ∧ a.2.1 ≤ e.2.1) ∧ e.2.2.1 ≤ a.2.2.1 ∧ e.2.2.2 ≤ a.2.2.2

/-- The edges that the loop starts with. -/
def sentinels : ℚ × ℚ × ℚ × ℚ := (doubleMax,doubleMax,doubleMin,doubleMin)

variable {rects rects' : List (Rectangle ℚ)} {a e : ℚ × ℚ × ℚ × ℚ} {r s : Rectangle ℚ}

theorem Encloses.refl (a : ℚ × ℚ × ℚ × ℚ) : Encloses a a := ⟨⟨le_rfl,le_rfl⟩,le_rfl,le_rfl⟩

theorem Encloses.antisymm (h : Encloses a e) (h' : Encloses e a) : a = e :=
  Prod.ext (le_antisymm h.1.1 h'.1.1) (Prod.ext (le_antisymm h.1.2 h'.1.2)
    (Prod.ext (le_antisymm h'.2.1 h.2.1) (le_antisymm h'.2.2 h.2.2)))

theorem containsRectangle_iff : r.containsRectangle s ↔ Encloses (edges r) (edges s) := by
  simp only [Rectangle.containsRectangle,Segment.containsSegment,Encloses,edges,Rectangle.getLeft,
    Rectangle.getTop,Rectangle.getRight,Rectangle.getBottom]
  tauto

theorem encloses_extend : Encloses a (extend e r) ↔ Encloses a e ∧ Encloses a (edges r) := by
  simp only [Encloses,extend,edges,le_min_iff,max_le_iff]
  tauto

theorem encloses_foldl :
    Encloses a (rects.foldl extend e) ↔ Encloses a e ∧ ∀ r ∈ rects, Encloses a (edges r) := by
  induction rects generalizing e with
  | nil => simp
  | cons r rects ih => simp [ih,encloses_extend,and_assoc]

theorem foldl_extend_congr (h : ∀ r, r ∈ rects ↔ r ∈ rects') : rects.foldl extend e = rects'.foldl extend e := by
  have hiff : ∀ a, Encloses a (rects.foldl extend e) ↔ Encloses a (rects'.foldl extend e) := by
    intro a
    simp only [encloses_foldl,h]
  exact ((hiff _).mp (.refl _)).antisymm ((hiff _).mpr (.refl _))

theorem determineSize_congr (h : ∀ r, r ∈ rects ↔ r ∈ rects') : determineSize rects = determineSize rects' := by
  rw [determineSize,determineSize,foldl_extend_congr h]

/-- The rectangle with these edges. -/
def ofEdges (a : ℚ × ℚ × ℚ × ℚ) : Rectangle ℚ := ⟨⟨a.1,a.2.2.1-a.1⟩,⟨a.2.1,a.2.2.2-a.2.1⟩⟩

theorem edges_ofEdges (a : ℚ × ℚ × ℚ × ℚ) : edges (ofEdges a) = a := by
  simp [edges,ofEdges,Rectangle.getLeft,Rectangle.getTop,Rectangle.getRight,Rectangle.getBottom,Segment.getEnd]

theorem edges_determineSize (hne : rects ≠ []) (hn : ∀ r ∈ rects, Normal r) :
    edges (determineSize rects) = rects.foldl extend sentinels := by
  obtain ⟨r,hr⟩ := List.exists_mem_of_ne_nil rects hne
  have henc := (encloses_foldl.mp (Encloses.refl (rects.foldl extend sentinels))).2 r hr
  have hw : 0 ≤ (rects.foldl extend sentinels).2.2.1-(rects.foldl extend sentinels).1 := by
    have h₁ := henc.1.1
    have h₂ := henc.2.1
    have h₃ := (hn r hr).width
    simp only [edges,Rectangle.getLeft,Rectangle.getRight,Segment.getEnd] at h₁ h₂
    linarith
  have hh : 0 ≤ (rects.foldl extend sentinels).2.2.2-(rects.foldl extend sentinels).2.1 := by
    have h₁ := henc.1.2
    have h₂ := henc.2.2
    have h₃ := (hn r hr).height
    simp only [edges,Rectangle.getTop,Rectangle.getBottom,Segment.getEnd] at h₁ h₂
    linarith
  have hsize : determineSize rects = ofEdges (rects.foldl extend sentinels) := by
    rw [determineSize]
    exact congrArg₂ Rectangle.mk (Segment.make_of_nonneg hw) (Segment.make_of_nonneg hh)
  rw [hsize,edges_ofEdges]

theorem exists_outermost (hne : rects ≠ []) : ∃ a, (∀ r ∈ rects, Encloses a (edges r)) ∧
    ((∃ r ∈ rects, r.getLeft = a.1) ∧ ∃ r ∈ rects, r.getTop = a.2.1) ∧
    (∃ r ∈ rects, r.getRight = a.2.2.1) ∧ ∃ r ∈ rects, r.getBottom = a.2.2.2 := by
  have hfin : {r | r ∈ rects}.Finite := List.finite_toSet rects
  have hnonempty : {r | r ∈ rects}.Nonempty := List.exists_mem_of_ne_nil rects hne
  obtain ⟨l,hl,hleft⟩ := Set.exists_min_image _ Rectangle.getLeft hfin hnonempty
  obtain ⟨t,ht,htop⟩ := Set.exists_min_image _ Rectangle.getTop hfin hnonempty
  obtain ⟨r,hr,hright⟩ := Set.exists_max_image _ Rectangle.getRight hfin hnonempty
  obtain ⟨b,hb,hbottom⟩ := Set.exists_max_image _ Rectangle.getBottom hfin hnonempty
  exact ⟨(l.getLeft,t.getTop,r.getRight,b.getBottom),
    fun s hs => ⟨⟨hleft s hs,htop s hs⟩,hright s hs,hbottom s hs⟩,⟨⟨l,hl,rfl⟩,t,ht,rfl⟩,⟨r,hr,rfl⟩,b,hb,rfl⟩

theorem isBoundingBox_iff (hne : rects ≠ []) (hn : ∀ r ∈ rects, Normal r) :
    IsBoundingBox (determineSize rects) rects ↔ SentinelsNeutral rects := by
  have hedges := edges_determineSize hne hn
  constructor
  · intro h
    obtain ⟨a,ha,⟨⟨l,hl,hle⟩,t,ht,hte⟩,⟨r,hr,hre⟩,b,hb,hbe⟩ := exists_outermost hne
    have hall : ∀ r ∈ rects, (ofEdges a).containsRectangle r := by
      intro r hr
      rw [containsRectangle_iff,edges_ofEdges]
      exact ha r hr
    have hleast := h.least _ hall
    rw [containsRectangle_iff,edges_ofEdges,hedges,encloses_foldl] at hleast
    obtain ⟨⟨⟨h₁,h₂⟩,h₃,h₄⟩,-⟩ := hleast
    exact ⟨⟨l,hl,hle.trans_le h₁⟩,⟨t,ht,hte.trans_le h₂⟩,⟨r,hr,h₃.trans_eq hre.symm⟩,b,hb,h₄.trans_eq hbe.symm⟩
  · rintro ⟨⟨l,hl,hle⟩,⟨t,ht,hte⟩,⟨r,hr,hre⟩,b,hb,hbe⟩
    refine ⟨fun s hs => ?_,fun other hother => ?_⟩
    · rw [containsRectangle_iff,hedges]
      exact (encloses_foldl.mp (.refl _)).2 s hs
    · have hall := fun r hr => containsRectangle_iff.mp (hother r hr)
      rw [containsRectangle_iff,hedges,encloses_foldl]
      exact ⟨⟨⟨(hall l hl).1.1.trans hle,(hall t ht).1.2.trans hte⟩,hre.trans (hall r hr).2.1,
        hbe.trans (hall b hb).2.2⟩,hall⟩

section Children
variable {C V : Type} {isResizable : C → Bool} {rect : C → Rectangle ℚ} {c : Config C V} {p : C}
  {children children' : List C}

/-- The children that it takes into account. -/
def counted (isResizable : C → Bool) (children : List C) : List C :=
  if ∃ p ∈ children, isResizable p = false then children.filter fun p => !isResizable p
  else children.filter fun p => isResizable p

theorem mem_counted_congr (h : ∀ p, p ∈ children ↔ p ∈ children') (p : C) :
    p ∈ counted isResizable children ↔ p ∈ counted isResizable children' := by
  simp only [counted,h]
  split_ifs <;> simp [h]

theorem counted_ne_nil (hne : children ≠ []) : counted isResizable children ≠ [] := by
  unfold counted
  split_ifs with h
  · obtain ⟨p,hp,hr⟩ := h
    exact List.ne_nil_of_mem (List.mem_filter.mpr ⟨hp,by simp [hr]⟩)
  · obtain ⟨p,hp⟩ := List.exists_mem_of_ne_nil children hne
    have hr : isResizable p = true := by
      by_contra hr
      exact h ⟨p,hp,Bool.not_eq_true _ ▸ hr⟩
    exact List.ne_nil_of_mem (List.mem_filter.mpr ⟨hp,hr⟩)

variable [DecidableEq C]

/-- The determiner after children were added to it. -/
def added (isResizable : C → Bool) (rect : C → Rectangle ℚ) (V : Type) (children : List C) : Config C V :=
  children.foldl (add isResizable rect) {}

theorem add_presentations : (add isResizable rect c p).presentations =
    c.presentations ++ [p].filter fun p => !isResizable p := by
  simp only [add,sendUpdates_eq]
  split_ifs with h hp <;> simp [h]

theorem mem_add_resizable {q : C} : q ∈ (add isResizable rect c p).resizablePresentationData ↔
    q ∈ c.resizablePresentationData ∨ (q = p ∧ isResizable q = true) := by
  simp only [add,sendUpdates_eq]
  split_ifs with h hp
  · refine ⟨Or.inl,fun hq => hq.elim id ?_⟩
    rintro ⟨rfl,-⟩
    exact hp
  · rw [List.mem_append,List.mem_singleton]
    refine or_congr_right ⟨fun hq => ⟨hq,hq ▸ h⟩,And.left⟩
  · refine ⟨Or.inl,fun hq => hq.elim id ?_⟩
    rintro ⟨rfl,hr⟩
    exact absurd hr h

theorem foldl_add_presentations : (children.foldl (add isResizable rect) c).presentations =
    c.presentations ++ children.filter fun p => !isResizable p := by
  induction children generalizing c with
  | nil => simp
  | cons p children ih =>
    rw [List.foldl_cons,ih,add_presentations,List.append_assoc,← List.filter_append]
    rfl

theorem mem_foldl_add_resizable {q : C} :
    q ∈ (children.foldl (add isResizable rect) c).resizablePresentationData ↔
      q ∈ c.resizablePresentationData ∨ (q ∈ children ∧ isResizable q = true) := by
  induction children generalizing c with
  | nil => simp
  | cons p children ih =>
    rw [List.foldl_cons,ih,mem_add_resizable,List.mem_cons]
    tauto

theorem getRect_added (hne : children ≠ []) :
    getRect rect (added isResizable rect V children) = determineSize ((counted isResizable children).map rect) := by
  have hfixed : (added isResizable rect V children).presentations = children.filter fun p => !isResizable p := by
    rw [added,foldl_add_presentations]
    rfl
  by_cases h : ∃ p ∈ children, isResizable p = false
  · obtain ⟨p,hp,hr⟩ := h
    have hmem : p ∈ children.filter fun p => !isResizable p := by simp [hp,hr]
    rw [getRect,hfixed,if_pos (List.ne_nil_of_mem hmem),counted,if_pos ⟨p,hp,hr⟩]
  · have hall : ∀ p ∈ children, isResizable p = true := by simpa using h
    have hnil : (children.filter fun p => !isResizable p) = [] := by simpa using hall
    obtain ⟨p,hp⟩ := List.exists_mem_of_ne_nil children hne
    have hmem : ∀ q, q ∈ (added isResizable rect V children).resizablePresentationData ↔
        q ∈ children.filter fun p => isResizable p := by
      intro q
      rw [added,mem_foldl_add_resizable]
      simp
    rw [getRect,hfixed,hnil,if_neg (by simp),
      if_pos (List.ne_nil_of_mem ((hmem p).mpr (by simp [hp,hall p hp]))),counted,if_neg h]
    refine determineSize_congr fun r => ?_
    simp only [List.mem_map,hmem]

/-- The common size is the smallest rectangle around the children that count, whatever the order in which
they were added, exactly if the values that the loop starts with are neutral. -/
theorem getRect_isBoundingBox_iff (isResizable : C → Bool) (rect : C → Rectangle ℚ) (hn : ∀ p, Normal (rect p))
    (V : Type) (children : List C) (hne : children ≠ []) :
    (IsBoundingBox (getRect rect (added isResizable rect V children)) ((counted isResizable children).map rect) ∧
      ∀ children', children'.Perm children → getRect rect (added isResizable rect V children') =
        getRect rect (added isResizable rect V children)) ↔
    SentinelsNeutral ((counted isResizable children).map rect) := by
  have hcounted : (counted isResizable children).map rect ≠ [] := by
    simpa using counted_ne_nil hne
  have hnormal : ∀ r ∈ (counted isResizable children).map rect, Normal r := by
    intro r hr
    obtain ⟨p,-,rfl⟩ := List.mem_map.mp hr
    exact hn p
  rw [getRect_added hne,isBoundingBox_iff hcounted hnormal]
  refine and_iff_left_of_imp fun _ children' hperm => ?_
  have hne' : children' ≠ [] := by
    rintro rfl
    exact hne hperm.nil_eq.symm
  rw [getRect_added hne']
  refine determineSize_congr fun r => ?_
  simp only [List.mem_map,mem_counted_congr fun p => hperm.mem_iff]

end Children

/-- A single child from -10 to -5 in both directions, and the size that the overlay has then. -/
def negativeRect : Unit → Rectangle ℚ := fun _ => ⟨⟨-10,5⟩,⟨-10,5⟩⟩

theorem negativeRect_enlarged :
    getRect negativeRect (added (fun _ => false) negativeRect Unit [()]) =
      ⟨⟨-10,10+doubleMin⟩,⟨-10,10+doubleMin⟩⟩ ∧
    ¬ IsBoundingBox (getRect negativeRect (added (fun _ => false) negativeRect Unit [()])) [negativeRect ()] := by
  have hrect : getRect negativeRect (added (fun _ => false) negativeRect Unit [()]) =
      ⟨⟨-10,10+doubleMin⟩,⟨-10,10+doubleMin⟩⟩ := by decide +kernel
  refine ⟨hrect,fun h => ?_⟩
  have hleast := h.least (negativeRect ()) (by decide +kernel)
  rw [hrect] at hleast
  exact absurd hleast (by decide +kernel)

theorem getRect_isBoundingBox_iff_negativeRect :
    (IsBoundingBox (getRect negativeRect (added (fun _ => false) negativeRect Unit [()]))
        ((counted (fun _ => false) [()]).map negativeRect) ∧
      ∀ children', children'.Perm [()] → getRect negativeRect (added (fun _ => false) negativeRect Unit children') =
        getRect negativeRect (added (fun _ => false) negativeRect Unit [()])) ↔
    SentinelsNeutral ((counted (fun _ => false) [()]).map negativeRect) :=
  getRect_isBoundingBox_iff (fun _ => false) negativeRect
    (fun _ => ⟨by norm_num [negativeRect],by norm_num [negativeRect]⟩) Unit [()] (by simp)

end SizeDeterminer
end Scroom
