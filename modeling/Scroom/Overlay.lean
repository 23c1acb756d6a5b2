import Scroom.Color
import Scroom.Loops
import Scroom.Maps
import Scroom.Presentation
import Scroom.SizeDeterminer

/-! An overlay of presentations. Every child has a view of its own for each view of the overlay. -/
namespace Scroom
namespace SizeDeterminer
variable {C V : Type} [DecidableEq C] [DecidableEq V] {isResizable : C → Bool} {rect : C → Rectangle ℚ}
  {c d : Config C V} {p : C} {vi : V}

theorem Inv.opens (hi : Inv isResizable rect c) (hr : isResizable p = true → p ∈ c.resizablePresentationData)
    (hoff : c.opened p vi = false) : ∃ d, SizeDeterminer.step isResizable rect c (.open' p vi) = some d ∧
      d.resizablePresentationData = c.resizablePresentationData ∧
        ∀ q wi, d.opened q wi = if q = p ∧ wi = vi then true else c.opened q wi := by
  by_cases hp : p ∈ c.resizablePresentationData
  · have hvi : vi ∉ c.views p := by
      rw [hi.mem_views p vi (hi.resizable p hp),hoff]
      simp
    simp only [SizeDeterminer.step,SizeDeterminer.open',if_pos hp,if_neg hvi,Option.map_some]
    exact ⟨_,rfl,rfl,fun q wi => mark_opened _ q wi⟩
  · simp only [SizeDeterminer.step,SizeDeterminer.open',if_neg hp,if_neg (mt hr hp),Option.map_some]
    exact ⟨_,rfl,rfl,fun q wi => mark_opened _ q wi⟩

theorem Inv.closes (hi : Inv isResizable rect c) (hr : isResizable p = true → p ∈ c.resizablePresentationData)
    (hon : c.opened p vi = true) : ∃ d, SizeDeterminer.step isResizable rect c (.close p vi) = some d ∧
      d.resizablePresentationData = c.resizablePresentationData ∧
        ∀ q wi, d.opened q wi = if q = p ∧ wi = vi then false else c.opened q wi := by
  by_cases hp : p ∈ c.resizablePresentationData
  · have hvi : vi ∈ c.views p := (hi.mem_views p vi (hi.resizable p hp)).mpr hon
    simp only [SizeDeterminer.step,SizeDeterminer.close,if_pos hp,if_pos hvi,Option.map_some]
    exact ⟨_,rfl,rfl,fun q wi => mark_opened _ q wi⟩
  · simp only [SizeDeterminer.step,SizeDeterminer.close,if_neg hp,if_neg (mt hr hp),Option.map_some]
    exact ⟨_,rfl,rfl,fun q wi => mark_opened _ q wi⟩

omit [DecidableEq V] in
theorem add_adds (isResizable : C → Bool) (rect : C → Rectangle ℚ) (c : Config C V) (p : C) :
    (add isResizable rect c p).opened = c.opened ∧
      ∀ q, q ∈ (add isResizable rect c p).resizablePresentationData ↔
        q ∈ c.resizablePresentationData ∨ q = p ∧ isResizable p = true := by
  simp only [add,sendUpdates_eq]
  split_ifs with hr hp
  · refine ⟨rfl,fun q => ⟨Or.inl,?_⟩⟩
    rintro (hq | ⟨rfl,-⟩)
    · exact hq
    · exact hp
  · exact ⟨rfl,fun q => by simp [hr]⟩
  · exact ⟨rfl,fun q => by simp [hr]⟩
end SizeDeterminer

namespace TransparentOverlay
open Transitions Switches Maps PresentationBase

/-- `TransparentOverlayViewInfo`: the map from children to their views, and which buttons are active. -/
structure ViewInfo (P : Type) where
  childViews : List (P × ℕ) := []
  children : List P := []
  buttons : List Bool := []

/-- `TransparentOverlayPresentation`, with the colours of the children. Their views are numbered as they are created.
The last field holds the calls on the children, the latest first: `open` is `true`, `close` is `false`. -/
structure Overlay (P V : Type) where
  children : List P := []
  sizeDeterminer : SizeDeterminer.Config P ℕ := {}
  viewData : List (V × ViewInfo P) := []
  monochromeColor : P → Color := fun _ => {}
  created : ℕ := 0
  calls : List ((P × ℕ) × Bool) := []

def doubleFromByte (b : ℕ) : ℚ := b/255

def colors : List Color :=
  [(2,63,165),(142,6,59),(74,111,227),(211,63,106),(17,198,56),(239,151,8),(15,207,192),(247,156,212)].map
    fun (red,green,blue) =>
      { red := doubleFromByte red, green := doubleFromByte green, blue := doubleFromByte blue }

section Steps
variable {P V : Type} [DecidableEq P] [DecidableEq V]
/- The children: which of them have a monochrome colormap and which are `ResizablePresentationInterface`s, and their
rectangles. -/
variable (isMonochrome isResizable : P → Bool) (rect : P → Rectangle ℚ)

def currentColors (t : Overlay P V) (color : Color) : ℕ :=
  t.children.countP fun child => isMonochrome child && t.monochromeColor child = color

def setMonochromeColor (t : Overlay P V) (p : P) (color : Color) : Overlay P V :=
  { t with monochromeColor := Function.update t.monochromeColor p color }

def setOptimalColor (t : Overlay P V) (p : P) : Overlay P V :=
  setMonochromeColor t p (colors.foldl
    (fun minimumColor color =>
      if currentColors isMonochrome t color < currentColors isMonochrome t minimumColor then color else minimumColor)
    (t.monochromeColor p))

/-- What is noted of a child and its view. -/
def ViewInfo.add (info : ViewInfo P) (child : P) (view : ℕ) : ViewInfo P where
  childViews := assign info.childViews child view
  children := info.children ++ [child]
  buttons := info.buttons ++ [true]

/-- `none` where a `require` of the size determiner fails. -/
def addChild (t : Overlay P V) (info : ViewInfo P) (child : P) : Option (Overlay P V × ViewInfo P) := do
  let view := t.created
  let calls := ((child,view),true)::t.calls
  let sizeDeterminer ← SizeDeterminer.step isResizable rect t.sizeDeterminer (.open' child view)
  return ({ t with created := t.created+1, calls := calls, sizeDeterminer := sizeDeterminer },info.add child view)

def addChildren (t : Overlay P V) (info : ViewInfo P) (children : List P) : Option (Overlay P V × ViewInfo P) :=
  children.foldlM (fun s child => addChild isResizable rect s.1 s.2 child) (t,info)

/-- The loop of `addPresentation` over the views. -/
def addToViews (p : P) (t : Overlay P V) : List (V × ViewInfo P) → Option (Overlay P V × List (V × ViewInfo P))
  | [] => some (t,[])
  | (vi,info)::views => do
    let (t,info) ← addChild isResizable rect t info p
    let (t,views) ← addToViews p t views
    return (t,(vi,info)::views)

def addPresentation (t : Overlay P V) (p : P) : Option (Overlay P V) := do
  let t := if isMonochrome p then setOptimalColor isMonochrome t p else t
  let sizeDeterminer ← SizeDeterminer.step isResizable rect t.sizeDeterminer (.add p)
  let (t,viewData) ← addToViews isResizable rect p
    { t with children := t.children ++ [p], sizeDeterminer := sizeDeterminer } t.viewData
  return { t with viewData := viewData }

def viewAdded (t : Overlay P V) (vi : V) : Option (Overlay P V) := do
  let (t,tovi) ← addChildren isResizable rect t {} t.children
  return { t with viewData := assign t.viewData vi tovi }

/-- `TransparentOverlayViewInfo::close` -/
def closeChildren (t : Overlay P V) (info : ViewInfo P) : Option (Overlay P V) :=
  info.childViews.foldlM (fun t v => do
    let sizeDeterminer ← SizeDeterminer.step isResizable rect t.sizeDeterminer (.close v.1 v.2)
    return { t with sizeDeterminer := sizeDeterminer, calls := (v,false)::t.calls }) t

def viewRemoved (t : Overlay P V) (vi : V) : Option (Overlay P V) :=
  match t.viewData.find? (·.1 = vi) with
  | none => some t
  | some e => do
    let t ← closeChildren isResizable rect t e.2
    return { t with viewData := t.viewData.eraseP (·.1 = vi) }

def getChild (info : ViewInfo P) (cv : ℕ) : Option P := (info.childViews.find? (·.2 = cv)).map (·.1)

/-- A button of a view is toggled. -/
def toggle (t : Overlay P V) (vi : V) (i : ℕ) : Overlay P V :=
  { t with viewData := t.viewData.map fun e =>
      if e.1 = vi then (vi,{ e.2 with buttons := e.2.buttons.modify i (!·) }) else e }

inductive Update (P V : Type)
  | addPresentation (p : P)
  | toggle (vi : V) (i : ℕ)
  | setMonochromeColor (p : P) (color : Color)

/-- The overlay as a presentation. -/
def presentation : PresentationBase (Overlay P V) V (Update P V) where
  viewAdded := viewAdded isResizable rect
  viewRemoved := viewRemoved isResizable rect
  getViews t := t.viewData.map (·.1)
  update t
    | .addPresentation p => addPresentation isMonochrome isResizable rect t p
    | .toggle vi i => some (toggle t vi i)
    | .setMonochromeColor p color => some (setMonochromeColor t p color)

end Steps

section Views
variable {P V : Type} [DecidableEq P] [DecidableEq V] {isMonochrome isResizable : P → Bool} {rect : P → Rectangle ℚ}
  {t u : Overlay P V} {info : ViewInfo P} {l : List (P × ℕ)} {p child : P}

structure Opened (isResizable : P → Bool) (rect : P → Rectangle ℚ) (t : Overlay P V) (l : List (P × ℕ)) : Prop where
  alternates : Alternates t.calls
  isOn_iff : ∀ k, isOn t.calls k = true ↔ k ∈ l
  numbers : (l.map (·.2)).Nodup
  lt_created : ∀ k ∈ l, k.2 < t.created
  sizes : SizeDeterminer.Inv isResizable rect t.sizeDeterminer
  opened_eq : ∀ p n, t.sizeDeterminer.opened p n = isOn t.calls (p,n)

/-- A view has all children. -/
structure ViewInfo.Has (info : ViewInfo P) (children : List P) : Prop where
  childViews : info.childViews.map (·.1) = children
  children_eq : info.children = children
  buttons : info.buttons.length = children.length

/-- What opening and closing the children leaves alone. -/
structure SameChildren (t u : Overlay P V) : Prop where
  children : u.children = t.children
  viewData : u.viewData = t.viewData
  monochromeColor : u.monochromeColor = t.monochromeColor
  resizable : u.sizeDeterminer.resizablePresentationData = t.sizeDeterminer.resizablePresentationData

omit [DecidableEq P] [DecidableEq V] in
theorem SameChildren.refl (t : Overlay P V) : SameChildren t t := ⟨rfl,rfl,rfl,rfl⟩

omit [DecidableEq P] [DecidableEq V] in
theorem SameChildren.trans {v : Overlay P V} (h : SameChildren t u) (h' : SameChildren u v) : SameChildren t v :=
  ⟨h'.children.trans h.children,h'.viewData.trans h.viewData,h'.monochromeColor.trans h.monochromeColor,
    h'.resizable.trans h.resizable⟩

omit [DecidableEq V] in
theorem Opened.perm {l' : List (P × ℕ)} (h : Opened isResizable rect t l) (hp : l.Perm l') :
    Opened isResizable rect t l' :=
  ⟨h.alternates,fun k => (h.isOn_iff k).trans hp.mem_iff,(hp.map _).nodup_iff.mp h.numbers,
    fun k hk => h.lt_created k (hp.mem_iff.mpr hk),h.sizes,h.opened_eq⟩

omit [DecidableEq V] in
theorem Opened.of_eq (h : Opened isResizable rect t l) (hc : u.calls = t.calls) (hn : u.created = t.created)
    (hs : u.sizeDeterminer = t.sizeDeterminer) : Opened isResizable rect u l :=
  ⟨hc ▸ h.alternates,fun k => hc ▸ h.isOn_iff k,h.numbers,fun k hk => hn ▸ h.lt_created k hk,hs ▸ h.sizes,
    fun p n => by rw [hc,hs,h.opened_eq]⟩

omit [DecidableEq V] in
theorem addChild_opens (h : Opened isResizable rect t l)
    (hr : isResizable child = true → child ∈ t.sizeDeterminer.resizablePresentationData) (info : ViewInfo P) :
    ∃ u, addChild isResizable rect t info child = some (u,info.add child t.created) ∧ SameChildren t u ∧
      Opened isResizable rect u ((child,t.created)::l) := by
  have hnew : (child,t.created) ∉ l := fun hm => Nat.lt_irrefl _ (h.lt_created _ hm)
  have hoff : isOn t.calls (child,t.created) = false := by
    rw [← Bool.not_eq_true,h.isOn_iff]
    exact hnew
  obtain ⟨sizes,hs,hrs,hopened⟩ := h.sizes.opens hr ((h.opened_eq child t.created).trans hoff)
  refine ⟨{ t with
      created := t.created+1
      calls := ((child,t.created),true)::t.calls
      sizeDeterminer := sizes },by rw [addChild,hs]; rfl,⟨rfl,rfl,rfl,hrs⟩,⟨hoff,h.alternates⟩,fun k => ?_,?_,
    fun k hk => ?_,h.sizes.step hs,fun q n => ?_⟩
  · rw [isOn_cons,List.mem_cons,← h.isOn_iff k]
    by_cases he : (child,t.created) = k
    · simp [he]
    · simp [he,Ne.symm he]
  · refine List.nodup_cons.mpr ⟨fun hm => ?_,h.numbers⟩
    obtain ⟨k,hk,he⟩ := List.mem_map.mp hm
    exact Nat.lt_irrefl _ (he ▸ h.lt_created k hk)
  · rcases List.mem_cons.mp hk with rfl | hk
    · exact Nat.lt_succ_self _
    · exact (h.lt_created k hk).trans (Nat.lt_succ_self _)
  · rw [hopened,isOn_cons,h.opened_eq]
    exact if_congr (by rw [Prod.mk.injEq,eq_comm,@eq_comm _ n]) rfl rfl

theorem ViewInfo.Has.childViews_add {cs : List P} (h : info.Has cs) (hp : p ∉ cs) (n : ℕ) :
    (info.add p n).childViews = info.childViews ++ [(p,n)] :=
  Maps.assign_of_notMem (by rwa [h.childViews]) n

theorem ViewInfo.Has.add {cs : List P} (h : info.Has cs) (hp : p ∉ cs) (n : ℕ) : (info.add p n).Has (cs ++ [p]) := by
  refine ⟨?_,by simp [ViewInfo.add,h.children_eq],by simp [ViewInfo.add,h.buttons]⟩
  rw [h.childViews_add hp,List.map_append,h.childViews]
  rfl

omit [DecidableEq V] in
theorem addChildren_opens (cs : List P) {done : List P} (hinfo : info.Has done) (hcs : (done ++ cs).Nodup)
    (hr : ∀ p ∈ cs, isResizable p = true → p ∈ t.sizeDeterminer.resizablePresentationData)
    (h : Opened isResizable rect t (info.childViews ++ l)) : ∃ u tovi,
      addChildren isResizable rect t info cs = some (u,tovi) ∧ tovi.Has (done ++ cs) ∧ SameChildren t u ∧
        Opened isResizable rect u (tovi.childViews ++ l) := by
  induction cs generalizing t info done with
  | nil => exact ⟨t,info,rfl,by simpa using hinfo,.refl t,h⟩
  | cons p cs ih =>
    have hp : p ∉ done := fun hm => List.disjoint_of_nodup_append hcs hm List.mem_cons_self
    obtain ⟨u,hu,hsame,hopen⟩ := addChild_opens h (hr p List.mem_cons_self) info
    have hhas := hinfo.add hp t.created
    have hperm : ((p,t.created)::(info.childViews ++ l)).Perm ((info.add p t.created).childViews ++ l) := by
      rw [hinfo.childViews_add hp,List.append_assoc]
      exact List.perm_middle.symm
    obtain ⟨v,tovi,hv,hhas',hsame',hopen'⟩ := ih hhas (by simpa using hcs)
      (fun q hq hres => hsame.resizable ▸ hr q (List.mem_cons_of_mem _ hq) hres) (hopen.perm hperm)
    refine ⟨v,tovi,?_,by simpa using hhas',hsame.trans hsame',hopen'⟩
    rw [addChildren,List.foldlM_cons,show addChild isResizable rect (t,info).1 (t,info).2 p = _ from hu]
    exact hv

/-- The views of the children that views of the overlay have. -/
def childViews (views : List (V × ViewInfo P)) : List (P × ℕ) := views.flatMap (·.2.childViews)

omit [DecidableEq P] [DecidableEq V] in
theorem childViews_cons (e : V × ViewInfo P) (views : List (V × ViewInfo P)) :
    childViews (e::views) = e.2.childViews ++ childViews views := List.flatMap_cons

omit [DecidableEq V] in
theorem addToViews_opens {cs : List P} (hp : p ∉ cs) (views : List (V × ViewInfo P)) (hviews : ∀ e ∈ views, e.2.Has cs)
    (hr : isResizable p = true → p ∈ t.sizeDeterminer.resizablePresentationData)
    (h : Opened isResizable rect t (childViews views ++ l)) : ∃ u views',
      addToViews isResizable rect p t views = some (u,views') ∧ views'.map (·.1) = views.map (·.1) ∧
        (∀ e ∈ views', e.2.Has (cs ++ [p])) ∧ SameChildren t u ∧
          Opened isResizable rect u (childViews views' ++ l) := by
  induction views generalizing t l with
  | nil => exact ⟨t,[],rfl,rfl,by simp,.refl t,h⟩
  | cons e views ih =>
    obtain ⟨vi,info⟩ := e
    obtain ⟨u,hu,hsame,hopen⟩ := addChild_opens h hr info
    have hinfo := hviews (vi,info) List.mem_cons_self
    have hperm : ((p,t.created)::(childViews ((vi,info)::views) ++ l)).Perm
        (childViews views ++ ((info.add p t.created).childViews ++ l)) := by
      rw [hinfo.childViews_add hp,childViews_cons]
      refine List.perm_iff_count.mpr fun k => ?_
      simp only [List.count_cons,List.count_append,List.count_nil]
      omega
    obtain ⟨v,views',hv,hkeys,hhas,hsame',hopen'⟩ := ih (fun e he => hviews e (List.mem_cons_of_mem _ he))
      (hsame.resizable ▸ hr) (hopen.perm hperm)
    refine ⟨v,(vi,info.add p t.created)::views',?_,by simp [hkeys],?_,hsame.trans hsame',hopen'.perm ?_⟩
    · rw [addToViews,hu]
      simp only [Option.bind_eq_bind,Option.bind_some,hv]
      rfl
    · intro e he
      rcases List.mem_cons.mp he with rfl | he
      · exact hinfo.add hp t.created
      · exact hhas e he
    · rw [childViews_cons]
      refine List.perm_iff_count.mpr fun k => ?_
      simp only [List.count_append]
      omega

omit [DecidableEq V] in
theorem closeChildren_closes (views : List (P × ℕ))
    (hr : ∀ k ∈ views, isResizable k.1 = true → k.1 ∈ t.sizeDeterminer.resizablePresentationData)
    (h : Opened isResizable rect t (views ++ l)) (hinfo : info.childViews = views) : ∃ u,
      closeChildren isResizable rect t info = some u ∧ SameChildren t u ∧ Opened isResizable rect u l := by
  induction views generalizing t info with
  | nil =>
    refine ⟨t,?_,.refl t,h⟩
    rw [closeChildren,hinfo]
    rfl
  | cons k views ih =>
    have hon : isOn t.calls k = true := (h.isOn_iff k).mpr (List.mem_append_left _ List.mem_cons_self)
    obtain ⟨sizes,hs,hrs,hopened⟩ := h.sizes.closes (hr k List.mem_cons_self) ((h.opened_eq k.1 k.2).trans hon)
    have hk : k ∉ views ++ l := (List.nodup_cons.mp (h.numbers.of_map)).1
    have hclosed : Opened isResizable rect { t with sizeDeterminer := sizes, calls := (k,false)::t.calls }
        (views ++ l) := by
      refine ⟨⟨hon,h.alternates⟩,fun k' => ?_,(List.nodup_cons.mp h.numbers).2,
        fun k' hk' => h.lt_created k' (List.mem_cons_of_mem _ hk'),h.sizes.step hs,fun q n => ?_⟩
      · rw [isOn_cons]
        by_cases he : k = k'
        · subst he
          simp [hk]
        · rw [if_neg he,h.isOn_iff]
          simp [Ne.symm he]
      · rw [hopened,isOn_cons,h.opened_eq]
        exact if_congr (by rw [Prod.ext_iff,eq_comm,@eq_comm _ n]) rfl rfl
    obtain ⟨u,hu,hsame,hopen⟩ := ih (fun k' hk' hres => hrs ▸ hr k' (List.mem_cons_of_mem _ hk') hres) hclosed
      (show ViewInfo.childViews { info with childViews := views } = views from rfl)
    refine ⟨u,?_,⟨hsame.children,hsame.viewData,hsame.monochromeColor,hsame.resizable.trans hrs⟩,hopen⟩
    rw [closeChildren,hinfo,List.foldlM_cons,hs]
    exact hu

/-- The overlay has its children, and each of its views has them. -/
structure Consistent (isResizable : P → Bool) (rect : P → Rectangle ℚ) (t : Overlay P V) : Prop where
  children : t.children.Nodup
  views : (t.viewData.map (·.1)).Nodup
  has : ∀ e ∈ t.viewData, e.2.Has t.children
  opened : Opened isResizable rect t (childViews t.viewData)
  resizable : ∀ p ∈ t.children, isResizable p = true → p ∈ t.sizeDeterminer.resizablePresentationData

omit [DecidableEq V] in
theorem Consistent.setMonochromeColor (h : Consistent isResizable rect t) (p : P) (color : Color) :
    Consistent isResizable rect (setMonochromeColor t p color) :=
  ⟨h.children,h.views,h.has,h.opened.of_eq rfl rfl rfl,h.resizable⟩

omit [DecidableEq V] in
theorem Consistent.addPresentation (h : Consistent isResizable rect t) (hp : p ∉ t.children) : ∃ u,
    addPresentation isMonochrome isResizable rect t p = some u ∧ Consistent isResizable rect u ∧
      u.children = t.children ++ [p] ∧
        u.monochromeColor = (if isMonochrome p then setOptimalColor isMonochrome t p else t).monochromeColor := by
  have hcolor : ∃ t', (if isMonochrome p then setOptimalColor isMonochrome t p else t) = t' ∧
      Consistent isResizable rect t' ∧ t'.children = t.children ∧ t'.viewData = t.viewData := by
    split_ifs
    · exact ⟨_,rfl,h.setMonochromeColor _ _,rfl,rfl⟩
    · exact ⟨_,rfl,h,rfl,rfl⟩
  obtain ⟨t',ht',h',hcs,hvs⟩ := hcolor
  obtain ⟨hopened,hmem⟩ := SizeDeterminer.add_adds isResizable rect t'.sizeDeterminer p
  have hadded : Opened isResizable rect { t' with
      children := t'.children ++ [p]
      sizeDeterminer := SizeDeterminer.add isResizable rect t'.sizeDeterminer p } (childViews t'.viewData ++ []) := by
    rw [List.append_nil]
    exact ⟨h'.opened.alternates,h'.opened.isOn_iff,h'.opened.numbers,h'.opened.lt_created,h'.opened.sizes.add p,
      fun q n => (congrFun (congrFun hopened q) n).trans (h'.opened.opened_eq q n)⟩
  obtain ⟨u,views,hu,hkeys,hhas,hsame,hopen⟩ := addToViews_opens (hcs ▸ hp) t'.viewData h'.has
    (fun hr => (hmem p).mpr (Or.inr ⟨rfl,hr⟩)) hadded
  have hchildren : u.children = t.children ++ [p] := hsame.children.trans (congrArg (· ++ [p]) hcs)
  refine ⟨{ u with viewData := views },?_,⟨?_,?_,?_,?_,?_⟩,hchildren,?_⟩
  · simp only [TransparentOverlay.addPresentation,ht']
    exact Option.bind_eq_some_iff.mpr ⟨_,rfl,Option.bind_eq_some_iff.mpr ⟨_,hu,rfl⟩⟩
  · rw [hchildren]
    exact h.children.append (List.nodup_singleton p) (List.disjoint_singleton.mpr hp)
  · rw [hkeys,hvs]
    exact h.views
  · rw [hchildren,← hcs]
    exact hhas
  · rw [List.append_nil] at hopen
    exact hopen.of_eq rfl rfl rfl
  · intro q hq hres
    rw [hchildren] at hq
    rw [hsame.resizable,hmem]
    rcases List.mem_append.mp hq with hq | hq
    · exact Or.inl (h'.resizable q (hcs ▸ hq) hres)
    · obtain rfl := List.mem_singleton.mp hq
      exact Or.inr ⟨rfl,hres⟩
  · rw [ht']
    exact hsame.monochromeColor

theorem Consistent.viewAdded (h : Consistent isResizable rect t) {vi : V} (hvi : vi ∉ t.viewData.map (·.1)) : ∃ u,
    viewAdded isResizable rect t vi = some u ∧ Consistent isResizable rect u ∧ u.children = t.children ∧
      u.monochromeColor = t.monochromeColor := by
  obtain ⟨u,tovi,hu,hhas,hsame,hopen⟩ := addChildren_opens (t := t) (l := childViews t.viewData)
    t.children (show ViewInfo.Has {} ([] : List P) from ⟨rfl,rfl,rfl⟩) h.children h.resizable h.opened
  have hassign : assign u.viewData vi tovi = t.viewData ++ [(vi,tovi)] := by
    rw [hsame.viewData]
    exact Maps.assign_of_notMem hvi tovi
  refine ⟨{ u with viewData := assign u.viewData vi tovi },?_,⟨?_,?_,?_,?_,?_⟩,hsame.children,hsame.monochromeColor⟩
  · rw [TransparentOverlay.viewAdded,hu]
    rfl
  · rw [hsame.children]
    exact h.children
  · rw [hassign,List.map_append]
    exact h.views.append (List.nodup_singleton vi) (List.disjoint_singleton.mpr hvi)
  · intro e he
    rw [hassign] at he
    rw [hsame.children]
    rcases List.mem_append.mp he with he | he
    · exact h.has e he
    · obtain rfl := List.mem_singleton.mp he
      exact hhas
  · have hperm : (tovi.childViews ++ childViews t.viewData).Perm (childViews (assign u.viewData vi tovi)) := by
      rw [hassign,childViews,childViews,List.flatMap_append,List.flatMap_singleton]
      exact List.perm_append_comm
    exact (hopen.perm hperm).of_eq rfl rfl rfl
  · rw [hsame.children,hsame.resizable]
    exact h.resizable

theorem Consistent.viewRemoved (h : Consistent isResizable rect t) (vi : V) : ∃ u,
    viewRemoved isResizable rect t vi = some u ∧ Consistent isResizable rect u ∧ u.children = t.children ∧
      u.monochromeColor = t.monochromeColor := by
  cases hf : t.viewData.find? (·.1 = vi) with
  | none => exact ⟨t,by rw [TransparentOverlay.viewRemoved,hf],h,rfl,rfl⟩
  | some e =>
    obtain ⟨he,before,after,hviews,hbefore⟩ := List.find?_eq_some_iff_append.mp hf
    obtain rfl : e.1 = vi := by simpa using he
    have hrest : t.viewData.eraseP (·.1 = e.1) = before ++ after := by
      rw [hviews,List.eraseP_append_right _ (by simpa using hbefore),List.eraseP_cons_of_pos (by simp)]
    have hkeys : (before ++ after).map (·.1) = (t.viewData.map (·.1)).erase e.1 := by rw [keys_eraseP,hrest]
    have hmem : e ∈ t.viewData := hviews ▸ List.mem_append_right _ List.mem_cons_self
    have hperm : (childViews t.viewData).Perm (e.2.childViews ++ childViews (before ++ after)) := by
      simp only [hviews,childViews,List.flatMap_append,List.flatMap_cons]
      exact List.perm_append_comm_assoc _ _ _
    have hresizable : ∀ k ∈ e.2.childViews, isResizable k.1 = true →
        k.1 ∈ t.sizeDeterminer.resizablePresentationData := fun k hk =>
      h.resizable k.1 ((h.has e hmem).childViews ▸ List.mem_map.mpr ⟨k,hk,rfl⟩)
    obtain ⟨u,hu,hsame,hopen⟩ := closeChildren_closes e.2.childViews hresizable (h.opened.perm hperm) rfl
    refine ⟨{ u with viewData := u.viewData.eraseP (·.1 = e.1) },?_,⟨?_,?_,?_,?_,?_⟩,hsame.children,
      hsame.monochromeColor⟩
    · rw [TransparentOverlay.viewRemoved,hf]
      exact Option.bind_eq_some_iff.mpr ⟨_,hu,rfl⟩
    · rw [hsame.children]
      exact h.children
    · rw [hsame.viewData,hrest,hkeys]
      exact h.views.erase _
    · rw [hsame.viewData,hrest,hsame.children]
      refine fun e' he' => h.has e' (hviews ▸ ?_)
      rcases List.mem_append.mp he' with he' | he'
      · exact List.mem_append_left _ he'
      · exact List.mem_append_right _ (List.mem_cons_of_mem _ he')
    · rw [hsame.viewData,hrest]
      exact hopen.of_eq rfl rfl rfl
    · rw [hsame.children,hsame.resizable]
      exact h.resizable

omit [DecidableEq P] in
theorem keys_toggle (t : Overlay P V) (vi : V) (i : ℕ) :
    (toggle t vi i).viewData.map (·.1) = t.viewData.map (·.1) := by
  rw [toggle,List.map_map]
  exact List.map_congr_left fun e _ => by
    by_cases he : e.1 = vi <;> simp [he]

theorem Consistent.toggle (h : Consistent isResizable rect t) (vi : V) (i : ℕ) :
    Consistent isResizable rect (toggle t vi i) := by
  have hviews : childViews (TransparentOverlay.toggle t vi i).viewData = childViews t.viewData := by
    rw [childViews,childViews,TransparentOverlay.toggle,List.flatMap_map]
    exact List.flatMap_congr fun e _ => by
      by_cases he : e.1 = vi <;> simp [he]
  refine ⟨h.children,keys_toggle t vi i ▸ h.views,fun e he => ?_,hviews ▸ h.opened.of_eq rfl rfl rfl,h.resizable⟩
  obtain ⟨e',he',rfl⟩ := List.mem_map.mp he
  have hhas := h.has e' he'
  split_ifs
  · exact ⟨hhas.childViews,hhas.children_eq,(List.length_modify _ _ _).trans hhas.buttons⟩
  · exact hhas

omit [DecidableEq V] in
theorem keys_addToViews {views views' : List (V × ViewInfo P)}
    (h : addToViews isResizable rect p t views = some (u,views')) : views'.map (·.1) = views.map (·.1) := by
  induction views generalizing t views' with
  | nil =>
    cases h
    rfl
  | cons e views ih =>
    obtain ⟨⟨v,info⟩,-,h⟩ := Option.bind_eq_some_iff.mp h
    obtain ⟨⟨w,rest⟩,hrest,h⟩ := Option.bind_eq_some_iff.mp h
    cases h
    rw [List.map_cons,List.map_cons,ih hrest]

theorem presentation_tracks : Tracks (presentation (V := V) isMonochrome isResizable rect)
    fun t => (t.viewData.map (·.1)).Nodup where
  nodup _ h := h
  added t vi u h hu := by
    obtain ⟨⟨v,tovi⟩,hv,hu⟩ := Option.bind_eq_some_iff.mp hu
    cases hu
    have hviews : v.viewData = t.viewData := Loops.foldlM_preserves
      (I := fun s : Overlay P V × ViewInfo P => s.1.viewData = t.viewData) (fun s p s' hs hi => ?_) hv rfl
    · change ((assign v.viewData vi tovi).map (·.1)).Nodup ∧ ∀ w, w ∈ (assign v.viewData vi tovi).map (·.1) ↔ _
      rw [hviews,keys_assign]
      split_ifs with hvi
      · refine ⟨h,fun w => ⟨Or.inr,?_⟩⟩
        rintro (rfl | hw)
        · exact hvi
        · exact hw
      · refine ⟨h.append (List.nodup_singleton vi) (List.disjoint_singleton.mpr hvi),fun w => ?_⟩
        rw [List.mem_append,List.mem_singleton,or_comm]
        rfl
    · obtain ⟨sizes,-,hs⟩ := Option.bind_eq_some_iff.mp hs
      cases hs
      exact hi
  removed t vi u h hu := by
    have hkeys : u.viewData.map (·.1) = (t.viewData.map (·.1)).erase vi := by
      change viewRemoved isResizable rect t vi = some u at hu
      rw [keys_eraseP]
      cases hf : t.viewData.find? (·.1 = vi) with
      | none =>
        rw [viewRemoved,hf] at hu
        cases hu
        rw [List.eraseP_of_forall_not (List.find?_eq_none.mp hf)]
      | some e =>
        rw [viewRemoved,hf] at hu
        obtain ⟨v,hv,hu⟩ := Option.bind_eq_some_iff.mp hu
        cases hu
        have hviews : v.viewData = t.viewData := Loops.foldlM_preserves
          (I := fun s : Overlay P V => s.viewData = t.viewData) (fun s k s' hs hi => ?_) hv rfl
        · rw [hviews]
        · obtain ⟨sizes,-,hs⟩ := Option.bind_eq_some_iff.mp hs
          cases hs
          exact hi
    change (u.viewData.map (·.1)).Nodup ∧ ∀ w, w ∈ u.viewData.map (·.1) ↔ _
    rw [hkeys]
    exact ⟨h.erase vi,fun w => h.mem_erase_iff⟩
  update t a u h hu := by
    have hsame : ∀ u : Overlay P V, u.viewData.map (·.1) = t.viewData.map (·.1) → (u.viewData.map (·.1)).Nodup ∧
        ∀ w, w ∈ u.viewData.map (·.1) ↔ w ∈ t.viewData.map (·.1) := fun u he => by
      rw [he]
      exact ⟨h,fun _ => Iff.rfl⟩
    cases a with
    | addPresentation p =>
      obtain ⟨⟨v,views⟩,hv,hu⟩ := Option.bind_eq_some_iff.mp hu
      cases hu
      refine hsame _ ((keys_addToViews hv).trans ?_)
      split_ifs <;> rfl
    | toggle vi i =>
      cases hu
      exact hsame _ (keys_toggle t vi i)
    | setMonochromeColor p color =>
      cases hu
      exact hsame _ rfl

/-- Every view of the overlay has one view of every child, which is open, and no others are. The calls on the children
come in turn, the resizable ones know the common size in every view, and every view of a child knows whose it is. -/
structure Shows (isResizable : P → Bool) (rect : P → Rectangle ℚ) (t : Overlay P V) : Prop where
  alternates : Alternates t.calls
  each : ∀ e ∈ t.viewData, ∀ p ∈ t.children, ∃! n, (p,n) ∈ e.2.childViews
  isOn_iff : ∀ k, isOn t.calls k = true ↔ ∃ e ∈ t.viewData, k ∈ e.2.childViews
  informed : ∀ p n, isResizable p = true → isOn t.calls (p,n) = true →
    SizeDeterminer.lastRect t.sizeDeterminer (p,n) = some (SizeDeterminer.getRect rect t.sizeDeterminer)
  current : ∀ e ∈ t.viewData, ∀ k ∈ e.2.childViews, getChild e.2 k.2 = some k.1
  buttons : ∀ e ∈ t.viewData, e.2.children = t.children ∧ e.2.buttons.length = t.children.length

omit [DecidableEq V] in
theorem Consistent.shows (h : Consistent isResizable rect t) : Shows isResizable rect t where
  alternates := h.opened.alternates
  each e he p hp := by
    have hhas := (h.has e he).childViews
    obtain ⟨⟨q,n⟩,hk,rfl⟩ := List.mem_map.mp (hhas ▸ hp)
    refine ⟨n,hk,fun m hm => ?_⟩
    exact (Prod.mk.inj (List.inj_on_of_nodup_map (hhas ▸ h.children) hm hk rfl)).2
  isOn_iff k := (h.opened.isOn_iff k).trans List.mem_flatMap
  informed p n hr hon := by
    have hopened := (h.opened.opened_eq p n).trans hon
    exact h.opened.sizes.last p n ((h.opened.sizes.mem_views p n hr).mpr hopened)
  current e he k hk := by
    have hnumbers : (e.2.childViews.map (·.2)).Nodup := by
      have hall := h.opened.numbers
      rw [childViews,List.map_flatMap] at hall
      exact (List.nodup_flatMap.mp hall).1 e he
    rw [getChild]
    cases hf : e.2.childViews.find? (·.2 = k.2) with
    | none => exact absurd (List.find?_eq_none.mp hf k hk) (by simp)
    | some k' =>
      have hk' : k'.2 = k.2 := by simpa using List.find?_some hf
      rw [List.inj_on_of_nodup_map hnumbers (List.mem_of_find?_eq_some hf) hk hk']
      rfl
  buttons e he := ⟨(h.has e he).children_eq,(h.has e he).buttons⟩

/-- Views are opened and closed in turn, a child is added once, and no observer registers who has views open. -/
def Fits {O : Type} [DecidableEq O] (c : PresentationBase.Config (Overlay P V) O V) :
    PresentationBase.Action O V (Update P V) → Prop
  | .open' vi => vi ∉ c.state.viewData.map (·.1)
  | .close vi => vi ∈ c.state.viewData.map (·.1)
  | .registerObserver observer => ∀ vi, isOn c.calls (observer,vi) = false
  | .update (.addPresentation p) => p ∉ c.state.children
  | _ => True

instance {O : Type} [DecidableEq O] [Fintype V] (c : PresentationBase.Config (Overlay P V) O V) :
    DecidablePred (Fits (P := P) c)
  | .open' vi => inferInstanceAs (Decidable (vi ∉ c.state.viewData.map (·.1)))
  | .close vi => inferInstanceAs (Decidable (vi ∈ c.state.viewData.map (·.1)))
  | .registerObserver observer => inferInstanceAs (Decidable (∀ vi, isOn c.calls (observer,vi) = false))
  | .unregisterObserver _ => inferInstanceAs (Decidable True)
  | .update (.addPresentation p) => inferInstanceAs (Decidable (p ∉ c.state.children))
  | .update (.toggle _ _) => inferInstanceAs (Decidable True)
  | .update (.setMonochromeColor _ _) => inferInstanceAs (Decidable True)

section Runs
variable {O : Type} [DecidableEq O] {c : PresentationBase.Config (Overlay P V) O V}

structure Good (isMonochrome isResizable : P → Bool) (rect : P → Rectangle ℚ)
    (c : PresentationBase.Config (Overlay P V) O V) : Prop where
  served : Served (presentation isMonochrome isResizable rect) c
  observers : c.observers.Nodup
  consistent : Consistent isResizable rect c.state

theorem Good.step (h : Good isMonochrome isResizable rect c) {a : PresentationBase.Action O V (Update P V)}
    (hok : Fits c a) : ∃ d, step (presentation isMonochrome isResizable rect) c a = some d ∧
      Good isMonochrome isResizable rect d := by
  have hi : Inv (presentation isMonochrome isResizable rect) (fun t : Overlay P V => (t.viewData.map (·.1)).Nodup) c :=
    ⟨h.consistent.views,h.observers⟩
  -- a step that can be taken keeps the observers served, as it is proper
  have hkeep : ∀ d, PresentationBase.step (presentation isMonochrome isResizable rect) c a = some d →
      Proper (presentation isMonochrome isResizable rect) c a → Consistent isResizable rect d.state →
        ∃ d, PresentationBase.step (presentation isMonochrome isResizable rect) c a = some d ∧
          Good isMonochrome isResizable rect d := fun d hd hp hc =>
    ⟨d,hd,(served_step_iff presentation_tracks hi h.served hd).mpr hp,(hi.step presentation_tracks hd).observers,hc⟩
  cases a with
  | open' vi =>
    obtain ⟨u,hu,hc,-,-⟩ := h.consistent.viewAdded hok
    exact hkeep _ (Option.bind_eq_some_iff.mpr ⟨u,hu,rfl⟩) (fun _ => hok) hc
  | close vi =>
    obtain ⟨u,hu,hc,-,-⟩ := h.consistent.viewRemoved vi
    exact hkeep _ (Option.bind_eq_some_iff.mpr ⟨u,hu,rfl⟩) (fun _ => hok) hc
  | registerObserver observer => exact hkeep _ rfl hok h.consistent
  | unregisterObserver observer => exact hkeep _ rfl trivial h.consistent
  | update a =>
    cases a with
    | addPresentation p =>
      obtain ⟨u,hu,hc,-,-⟩ := h.consistent.addPresentation hok
      exact hkeep _ (Option.map_eq_some_iff.mpr ⟨u,hu,rfl⟩) trivial hc
    | toggle vi i => exact hkeep _ rfl trivial (h.consistent.toggle vi i)
    | setMonochromeColor p color => exact hkeep _ rfl trivial (h.consistent.setMonochromeColor p color)

theorem good_initial (color : P → Color) : Good isMonochrome isResizable rect
    ({ state := { monochromeColor := color } } : PresentationBase.Config (Overlay P V) O V) where
  served := ⟨trivial,by simp⟩
  observers := List.nodup_nil
  consistent := ⟨List.nodup_nil,List.nodup_nil,by simp,
    ⟨trivial,by simp [childViews],List.nodup_nil,by simp [childViews],SizeDeterminer.inv_initial,fun _ _ => rfl⟩,
    by simp⟩

theorem Good.of_run {color : P → Color} {as : List (PresentationBase.Action O V (Update P V))}
    (hw : Within (PresentationBase.step (presentation isMonochrome isResizable rect)) Fits as
      { state := { monochromeColor := color } })
    (hr : run (PresentationBase.step (presentation isMonochrome isResizable rect)) as
      { state := { monochromeColor := color } } = some c) : Good isMonochrome isResizable rect c :=
  run_invariant_within (fun s a t hi hok ht => by
    obtain ⟨d,hd,hgood⟩ := Good.step hi hok
    cases hd.symm.trans ht
    exact hgood) (good_initial color) hw hr

/-- Whatever views are opened and closed, whatever children are added and buttons are toggled, in any order: if all of
it fits, no `require` fails, and all views show all children. -/
theorem overlay_shows (isMonochrome isResizable : P → Bool) (rect : P → Rectangle ℚ) (color : P → Color)
    (as : List (PresentationBase.Action O V (Update P V)))
    (hw : Within (step (presentation isMonochrome isResizable rect)) Fits as
      { state := { monochromeColor := color } }) :
    ∃ c, run (step (presentation isMonochrome isResizable rect)) as { state := { monochromeColor := color } } = some c ∧
      Served (presentation isMonochrome isResizable rect) c ∧ Shows isResizable rect c.state := by
  obtain ⟨c,hr,hc⟩ := exists_run_within (fun _ _ hi hok => hi.step hok)
    (show Good isMonochrome isResizable rect _ from good_initial color) hw
  exact ⟨c,hr,hc.served,hc.consistent.shows⟩

/-- A child that is added between two views. -/
theorem overlay_shows_betweenViews : ∃ c, run
    (step (presentation (P := ℕ) (V := Fin 2) (fun _ => true) (fun _ => true) fun _ => .make 0 0 4 4))
    [.update (.addPresentation 3),.open' 0,.registerObserver 7,.update (.addPresentation 4),.open' 1,.close 0]
    { state := { monochromeColor := fun _ => {} } } = some c ∧
      Served (O := ℕ) (presentation (fun _ => true) (fun _ => true) fun _ => .make 0 0 4 4) c ∧
        Shows (fun _ => true) (fun _ => .make 0 0 4 4) c.state :=
  overlay_shows _ _ _ _ _ (by decide +kernel)

/-- The colour of a child is not set from elsewhere. -/
def Untouched (c : PresentationBase.Config (Overlay P V) O V) : PresentationBase.Action O V (Update P V) → Prop
  | .update (.setMonochromeColor p _) => p ∉ c.state.children
  | _ => True

instance (c : PresentationBase.Config (Overlay P V) O V) : DecidablePred (Untouched c)
  | .open' _ | .close _ | .registerObserver _ | .unregisterObserver _ => inferInstanceAs (Decidable True)
  | .update (.setMonochromeColor p _) => inferInstanceAs (Decidable (p ∉ c.state.children))
  | .update (.addPresentation _) | .update (.toggle _ _) => inferInstanceAs (Decidable True)

/-- No colour is used more than once more than any of the list. -/
def Balanced (isMonochrome : P → Bool) (t : Overlay P V) : Prop :=
  ∀ color, ∀ q ∈ colors, currentColors isMonochrome t color ≤ currentColors isMonochrome t q+1

omit [DecidableEq P] [DecidableEq V] in
theorem currentColors_congr {t u : Overlay P V} (hcs : u.children = t.children)
    (hcolor : ∀ p ∈ t.children, u.monochromeColor p = t.monochromeColor p) (color : Color) :
    currentColors isMonochrome u color = currentColors isMonochrome t color := by
  rw [currentColors,currentColors,hcs]
  exact List.countP_congr fun p hp => by rw [hcolor p hp]

omit [DecidableEq P] [DecidableEq V] in
theorem Balanced.congr {t u : Overlay P V} (h : Balanced isMonochrome t) (hcs : u.children = t.children)
    (hcolor : ∀ p ∈ t.children, u.monochromeColor p = t.monochromeColor p) : Balanced isMonochrome u := by
  intro color q hq
  rw [currentColors_congr hcs hcolor,currentColors_congr hcs hcolor]
  exact h color q hq

/-- The optimal colour. -/
def minimumColor (isMonochrome : P → Bool) (t : Overlay P V) (p : P) : Color :=
  (setOptimalColor isMonochrome t p).monochromeColor p

omit [DecidableEq V] in
theorem minimumColor_le (isMonochrome : P → Bool) (t : Overlay P V) (p : P) :
    ∀ q ∈ colors, currentColors isMonochrome t (minimumColor isMonochrome t p) ≤ currentColors isMonochrome t q := by
  intro q hq
  have hleast := Loops.foldl_least (currentColors isMonochrome t) colors (t.monochromeColor p) q
    (List.mem_cons_of_mem _ hq)
  simpa [minimumColor,setOptimalColor,setMonochromeColor] using hleast

omit [DecidableEq V] in
theorem currentColors_add {t u : Overlay P V} (hp : p ∉ t.children) (hcs : u.children = t.children ++ [p])
    (hcolor : u.monochromeColor = (if isMonochrome p then setOptimalColor isMonochrome t p else t).monochromeColor)
    (color : Color) : currentColors isMonochrome u color = currentColors isMonochrome t color+
      if isMonochrome p = true ∧ minimumColor isMonochrome t p = color then 1 else 0 := by
  have hold : ∀ q ∈ t.children, u.monochromeColor q = t.monochromeColor q := fun q hq => by
    have hne : q ≠ p := fun he => hp (he ▸ hq)
    rw [hcolor]
    split_ifs
    · exact Function.update_of_ne hne _ _
    · rfl
  have hnew : isMonochrome p = true → u.monochromeColor p = minimumColor isMonochrome t p := fun hm => by
    rw [hcolor,if_pos hm,minimumColor]
  have hcount : t.children.countP (fun child => isMonochrome child && u.monochromeColor child = color) =
      currentColors isMonochrome t color :=
    List.countP_congr fun q hq => by rw [hold q hq]
  rw [currentColors,hcs,List.countP_append,hcount,List.countP_singleton]
  congr 1
  by_cases hm : isMonochrome p = true
  · simp [hm,hnew hm]
  · simp [hm]

omit [DecidableEq V] in
theorem Balanced.add {t u : Overlay P V} (h : Balanced isMonochrome t) (hp : p ∉ t.children)
    (hcs : u.children = t.children ++ [p])
    (hcolor : u.monochromeColor = (if isMonochrome p then setOptimalColor isMonochrome t p else t).monochromeColor) :
    Balanced isMonochrome u := by
  intro color q hq
  rw [currentColors_add hp hcs hcolor,currentColors_add hp hcs hcolor]
  have hone := h color q hq
  by_cases hnew : isMonochrome p = true ∧ minimumColor isMonochrome t p = color
  · have hleast := minimumColor_le isMonochrome t p q hq
    rw [if_pos hnew]
    rw [hnew.2] at hleast
    omega
  · rw [if_neg hnew]
    omega

theorem Balanced.step {d : PresentationBase.Config (Overlay P V) O V} (h : Good isMonochrome isResizable rect c)
    (hb : Balanced isMonochrome c.state) {a : PresentationBase.Action O V (Update P V)} (hok : Fits c a)
    (hu : Untouched c a) (hs : PresentationBase.step (presentation isMonochrome isResizable rect) c a = some d) :
    Balanced isMonochrome d.state := by
  cases a with
  | open' vi =>
    obtain ⟨u,hv,-,hcs,hcolor⟩ := h.consistent.viewAdded hok
    obtain ⟨t,ht,hd⟩ := Option.bind_eq_some_iff.mp hs
    cases hd
    cases hv.symm.trans ht
    exact hb.congr hcs fun p _ => congrFun hcolor p
  | close vi =>
    obtain ⟨u,hv,-,hcs,hcolor⟩ := h.consistent.viewRemoved vi
    obtain ⟨t,ht,hd⟩ := Option.bind_eq_some_iff.mp hs
    cases hd
    cases hv.symm.trans ht
    exact hb.congr hcs fun p _ => congrFun hcolor p
  | registerObserver observer =>
    cases hs
    exact hb
  | unregisterObserver observer =>
    cases hs
    exact hb
  | update a =>
    obtain ⟨t,ht,hd⟩ := Option.map_eq_some_iff.mp hs
    cases hd
    cases a with
    | addPresentation p =>
      obtain ⟨u,hv,-,hcs,hcolor⟩ := h.consistent.addPresentation hok
      cases hv.symm.trans ht
      exact hb.add hok hcs hcolor
    | toggle vi i =>
      cases ht
      exact hb.congr rfl fun _ _ => rfl
    | setMonochromeColor p color =>
      cases ht
      refine hb.congr rfl fun q hq => Function.update_of_ne ?_ _ _
      rintro rfl
      exact hu hq

omit [DecidableEq P] [DecidableEq V] in
/-- As long as there are colours enough, no two children have the same. -/
theorem Balanced.nodup {t : Overlay P V} (h : Balanced isMonochrome t)
    (hfew : t.children.countP isMonochrome ≤ colors.length) :
    ((t.children.filter isMonochrome).map t.monochromeColor).Nodup := by
  set used := (t.children.filter isMonochrome).map t.monochromeColor with hused
  have hcount : ∀ color, used.count color = currentColors isMonochrome t color := fun color => by
    rw [hused,List.count_eq_countP,List.countP_map,List.countP_filter]
    exact List.countP_congr fun p _ => by simp [and_comm]
  by_contra hdup
  obtain ⟨color,hcolor⟩ := List.exists_duplicate_iff_not_nodup.mpr hdup
  have htwice := List.duplicate_iff_two_le_count.mp hcolor
  -- then all colours of the list are used, and one of the children is left
  have hall : colors ⊆ used.dedup := fun q hq => by
    have hone := h color q hq
    rw [← hcount,← hcount] at hone
    exact List.mem_dedup.mpr (List.count_pos_iff.mp (by omega))
  have hle : colors.length ≤ used.dedup.length :=
    ((show colors.Nodup by decide +kernel).subperm hall).length_le
  have hlt : used.dedup.length < used.length := by
    refine lt_of_le_of_ne (List.dedup_sublist used).length_le fun he => hdup ?_
    rw [← (List.dedup_sublist used).eq_of_length he]
    exact List.nodup_dedup used
  have hlength : used.length = t.children.countP isMonochrome := by
    rw [hused,List.length_map,← List.countP_eq_length_filter]
  omega

/-- What the steps that leave the colours alone keep. -/
structure Colored (isMonochrome isResizable : P → Bool) (rect : P → Rectangle ℚ)
    (c : PresentationBase.Config (Overlay P V) O V) : Prop where
  good : Good isMonochrome isResizable rect c
  balanced : Balanced isMonochrome c.state

theorem Colored.step (h : Colored isMonochrome isResizable rect c) {a : PresentationBase.Action O V (Update P V)}
    (hok : Fits c a ∧ Untouched c a) : ∃ d,
      PresentationBase.step (presentation isMonochrome isResizable rect) c a = some d ∧
        Colored isMonochrome isResizable rect d := by
  obtain ⟨d,hd,hgood⟩ := h.good.step hok.1
  exact ⟨d,hd,hgood,h.balanced.step h.good hok.1 hok.2 hd⟩

/-- In runs in which the children keep the colours that they get, these are used evenly. -/
theorem overlay_colors (isMonochrome isResizable : P → Bool) (rect : P → Rectangle ℚ) (color : P → Color)
    (as : List (PresentationBase.Action O V (Update P V)))
    (hw : Within (step (presentation isMonochrome isResizable rect)) (fun c a => Fits c a ∧ Untouched c a) as
      { state := { monochromeColor := color } }) :
    ∃ c, run (step (presentation isMonochrome isResizable rect)) as { state := { monochromeColor := color } } = some c ∧
      (∀ color, ∀ q ∈ colors, currentColors isMonochrome c.state color ≤ currentColors isMonochrome c.state q+1) ∧
        (c.state.children.countP isMonochrome ≤ colors.length →
          ((c.state.children.filter isMonochrome).map c.state.monochromeColor).Nodup) := by
  obtain ⟨c,hr,hc⟩ := exists_run_within (fun _ _ hi hok => hi.step hok)
    (show Colored isMonochrome isResizable rect _ from ⟨good_initial color,fun _ _ _ => Nat.zero_le _⟩) hw
  exact ⟨c,hr,hc.balanced,hc.balanced.nodup⟩

/-- Two children that had the same colour. -/
theorem overlay_colors_two : ∃ c, run
    (step (presentation (P := ℕ) (V := Fin 2) (fun _ => true) (fun _ => false) fun _ => .empty))
    [.update (.addPresentation 3),.open' 0,.update (.setMonochromeColor 4 {}),.update (.addPresentation 4)]
    ({ state := { monochromeColor := fun _ => {} } } : PresentationBase.Config (Overlay ℕ (Fin 2)) ℕ (Fin 2)) = some c ∧
      (∀ color, ∀ q ∈ colors,
        currentColors (fun _ => true) c.state color ≤ currentColors (fun _ => true) c.state q+1) ∧
        (c.state.children.countP (fun _ => true) ≤ colors.length →
          ((c.state.children.filter fun _ => true).map c.state.monochromeColor).Nodup) :=
  overlay_colors _ _ _ _ _ (by decide +kernel)

end Runs

end Views
end TransparentOverlay
end Scroom
