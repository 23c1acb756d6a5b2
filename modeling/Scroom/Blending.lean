import Scroom.OffscreenSurface
import Scroom.Overlay

/-! How a view of an overlay puts the pictures of its children together. -/
namespace Scroom
namespace Color

inductive Component
  | alpha
  | red
  | green
  | blue

def get (c : Color) : Component → ℚ
  | .alpha => c.alpha
  | .red => c.red
  | .green => c.green
  | .blue => c.blue

def clear : Color := ⟨0,0,0,0⟩

@[simp] theorem get_mul (c : Color) (d : ℚ) (k : Component) : (c.mul d).get k = c.get k*d := by cases k <;> rfl

@[simp] theorem get_add (c d : Color) (k : Component) : (c.add d).get k = c.get k+d.get k := by cases k <;> rfl

theorem get_ext {c d : Color} (h : ∀ k, c.get k = d.get k) : c = d := by
  cases c
  cases d
  exact Color.mk.injEq .. ▸ ⟨h .alpha,h .red,h .green,h .blue⟩

@[simp] theorem get_clear (k : Component) : clear.get k = 0 := by cases k <;> rfl

/-- No component is further off. -/
def Near (ε : ℚ) (c d : Color) : Prop := ∀ k, |c.get k-d.get k| ≤ ε

/-- What is painted over a colour, if the components are multiplied by alpha and nothing is rounded. -/
def paintOver (source : Color) (alpha : ℚ) (target : Color) : Color :=
  (source.mul alpha).add (target.mul (1-alpha*source.alpha))

/-- Painting rounds. -/
def Paints (paint : Color → ℚ → Color → Color) (ε : ℚ) : Prop :=
  ∀ source alpha target, 0 ≤ alpha → alpha ≤ 1 → 0 ≤ source.alpha → source.alpha ≤ 1 →
    Near ε (paint source alpha target) (paintOver source alpha target)

theorem Paints.near {paint : Color → ℚ → Color → Color} {ε δ alpha : ℚ} (h : Paints paint ε)
    {source target exact' : Color} (ha : 0 ≤ alpha) (ha' : alpha ≤ 1) (hs : 0 ≤ source.alpha) (hs' : source.alpha ≤ 1)
    (ht : Near δ target exact') : Near (δ+ε) (paint source alpha target) (paintOver source alpha exact') := by
  intro k
  have hround := h source alpha target ha ha' hs hs' k
  have hrest : |(paintOver source alpha target).get k-(paintOver source alpha exact').get k| ≤ δ := by
    have hfactor : 0 ≤ 1-alpha*source.alpha ∧ 1-alpha*source.alpha ≤ 1 :=
      ⟨sub_nonneg.mpr (mul_le_one₀ ha' hs hs'),sub_le_self 1 (mul_nonneg ha hs)⟩
    have heq : (paintOver source alpha target).get k-(paintOver source alpha exact').get k =
        (target.get k-exact'.get k)*(1-alpha*source.alpha) := by
      simp only [paintOver,get_add,get_mul]
      ring
    rw [heq,abs_mul,abs_of_nonneg hfactor.1]
    exact (mul_le_of_le_one_right (abs_nonneg _) hfactor.2).trans (ht k)
  calc |(paint source alpha target).get k-(paintOver source alpha exact').get k|
    _ ≤ _ := abs_sub_le _ ((paintOver source alpha target).get k) _
    _ ≤ δ+ε := by linarith

def rounded (c : Color) : Color where
  alpha := round (255*c.alpha)/255
  red := round (255*c.red)/255
  green := round (255*c.green)/255
  blue := round (255*c.blue)/255

theorem paints_rounded : Paints (fun source alpha target => (paintOver source alpha target).rounded) (1/510) := by
  intro source alpha target _ _ _ _ k
  have hround : ∀ q : ℚ, |round (255*q)/255-q| ≤ 1/510 := fun q => by
    have h := abs_sub_round (255*q)
    rw [abs_le] at h ⊢
    constructor <;> linarith
  cases k <;> exact hround _

end Color

namespace TransparentOverlayViewInfo
open TransparentOverlay Transitions Switches

/-- The picture that is drawn on, how many children count in it, and whose background is transparent. -/
structure Canvas (P : Type) where
  target : ℤ × ℤ → Color
  count : ℕ := 0
  transparentBackground : P → Bool

section Redraw
variable {P : Type} [DecidableEq P]
/- The children that have the property `TRANSPARENT_BACKGROUND`, what each of them draws on a clear surface for one of
its views, and how a colour is painted over another. -/
variable (isPropertyDefined : P → Bool) (draw : P → Option ℕ → Bool → ℤ × ℤ → Color) (paint : Color → ℚ → Color → Color)
  (info : ViewInfo P) (viewArea : Point ℤ)

def childView (p : P) : Option ℕ := (info.childViews.find? (·.1 = p)).map (·.2)

def onSurface (x : ℤ × ℤ) : Bool := 0 ≤ x.1 && x.1 < viewArea.x && 0 ≤ x.2 && x.2 < viewArea.y

def redrawChild (s : Canvas P) (p : P) : Canvas P :=
  let hasTransparentBackground := isPropertyDefined p && decide (s.count ≠ 0)
  let transparentBackground :=
    if isPropertyDefined p then Function.update s.transparentBackground p (decide (s.count ≠ 0))
    else s.transparentBackground
  let surface := draw p (childView info p) (isPropertyDefined p && transparentBackground p)
  let alpha := if hasTransparentBackground then 1 else 1/(s.count+1 : ℚ)
  { target := fun x => if onSurface viewArea x then paint (surface x) alpha (s.target x) else s.target x
    count := if hasTransparentBackground then s.count else s.count+1
    transparentBackground := transparentBackground }

def visible : List P := ((info.children.zip info.buttons).filter (·.2)).map (·.1)

def redraw (s : Canvas P) : Canvas P :=
  (info.children.zip info.buttons).foldl
    (fun s e => if e.2 then redrawChild isPropertyDefined draw paint info viewArea s e.1 else s) s

end Redraw

/-- What a view shows of a pixel: the colours of the children in the order in which they are painted, and which of
them are transparent. -/
abbrev Layers := List (Color × Bool)

namespace Layers

/-- What the transparent ones let through. -/
def through : Layers → ℚ
  | [] => 1
  | (color,isTransparent)::layers => if isTransparent then (1-color.alpha)*through layers else through layers

/-- How many are not transparent. -/
def opaques (layers : Layers) : ℕ := layers.countP (!·.2)

/-- Those that are not transparent have equal shares. What is painted later is in front of what is transparent, and
takes its share of it. -/
def mixture (total : ℕ) : ℕ → Layers → Color
  | _, [] => .clear
  | n, (color,isTransparent)::layers =>
    (color.mul ((if isTransparent then n else 1)/total*through layers)).add
      (mixture total (if isTransparent then n else n+1) layers)

def paintAll : ℕ → Layers → Color → Color
  | _, [], target => target
  | n, (color,isTransparent)::layers, target =>
    paintAll (if isTransparent then n else n+1) layers
      (color.paintOver (if isTransparent then 1 else 1/(n+1 : ℚ)) target)

/-- Those that are not transparent hide what is behind them. -/
def Opaque (layers : Layers) : Prop := ∀ l ∈ layers, l.2 = false → l.1.alpha = 1

variable {layers : Layers} {target : Color} {n : ℕ}

theorem Opaque.tail {l : Color × Bool} (h : Opaque (l::layers)) : Opaque layers := fun l' hl =>
  h l' (List.mem_cons_of_mem _ hl)

theorem paintAll_get (h : Opaque layers) (hn : 0 < n) (k : Color.Component) :
    (paintAll n layers target).get k =
      target.get k*(n/(n+layers.opaques : ℕ)*layers.through)+(mixture (n+layers.opaques) n layers).get k := by
  induction layers generalizing n target with
  | nil =>
    have hn' : (n:ℚ) ≠ 0 := by exact_mod_cast hn.ne'
    simp [paintAll,mixture,opaques,through,hn']
  | cons l layers ih =>
    obtain ⟨color,isTransparent⟩ := l
    cases isTransparent with
    | true =>
      have hopaques : opaques ((color,true)::layers) = opaques layers := by simp [opaques]
      rw [paintAll,hopaques,mixture,through]
      simp only [if_true,ih h.tail hn,Color.paintOver,Color.get_add,Color.get_mul]
      ring
    | false =>
      have hopaques : n+opaques ((color,false)::layers) = n+1+opaques layers := by
        simp only [opaques,List.countP_cons,Bool.not_false,if_true]
        omega
      have halpha : color.alpha = 1 := h _ List.mem_cons_self rfl
      have hn' : (n:ℚ)+1 ≠ 0 := by positivity
      rw [paintAll,hopaques,mixture,through]
      simp only [Bool.false_eq_true,if_false,ih h.tail n.succ_pos,Color.paintOver,Color.get_add,Color.get_mul,halpha]
      generalize (mixture (n+1+opaques layers) (n+1) layers).get k = rest
      push_cast
      field_simp
      ring

/-- The first picture hides what was there before. -/
theorem paintAll_mixture {color : Color} (target : Color) (h : Opaque ((color,false)::layers)) :
    paintAll 0 ((color,false)::layers) target = mixture (1+layers.opaques) 0 ((color,false)::layers) := by
  have halpha : color.alpha = 1 := h _ List.mem_cons_self rfl
  refine Color.get_ext fun k => ?_
  rw [paintAll,mixture]
  simp only [Bool.false_eq_true,if_false,zero_add,paintAll_get h.tail one_pos,Color.paintOver,Color.get_add,
    Color.get_mul,halpha]
  push_cast
  ring

/-- If none is transparent, the mixture is the mean. -/
theorem mixture_get (h : ∀ l ∈ layers, l.2 = false) (total : ℕ) (k : Color.Component) :
    (mixture total n layers).get k = (layers.map (·.1.get k)).sum/total := by
  have hthrough : ∀ {layers : Layers}, (∀ l ∈ layers, l.2 = false) → layers.through = 1 := fun {layers} h => by
    induction layers with
    | nil => rfl
    | cons l layers ih =>
      rw [through,h l List.mem_cons_self]
      exact ih fun l' hl => h l' (List.mem_cons_of_mem _ hl)
  induction layers generalizing n with
  | nil => simp [mixture]
  | cons l layers ih =>
    have hrest : ∀ l' ∈ layers, l'.2 = false := fun l' hl => h l' (List.mem_cons_of_mem _ hl)
    obtain ⟨color,isTransparent⟩ := l
    obtain rfl : isTransparent = false := h _ List.mem_cons_self
    rw [mixture,Color.get_add,Color.get_mul,hthrough hrest,ih hrest,List.map_cons,List.sum_cons]
    simp only [Bool.false_eq_true,if_false]
    ring

end Layers

section Views
variable {P : Type} [DecidableEq P] {isPropertyDefined : P → Bool} {draw : P → Option ℕ → Bool → ℤ × ℤ → Color}
  {paint : Color → ℚ → Color → Color} {ε : ℚ} {info : ViewInfo P} {viewArea : Point ℤ} {x : ℤ × ℤ} {s : Canvas P}

/-- What a child draws on a pixel. -/
def pixel (draw : P → Option ℕ → Bool → ℤ × ℤ → Color) (info : ViewInfo P) (x : ℤ × ℤ) (p : P)
    (isTransparent : Bool) : Color × Bool :=
  (draw p (childView info p) isTransparent x,isTransparent)

/-- The first child is not transparent. -/
def layers (isPropertyDefined : P → Bool) (draw : P → Option ℕ → Bool → ℤ × ℤ → Color) (info : ViewInfo P)
    (x : ℤ × ℤ) : List P → Layers
  | [] => []
  | p::ps => pixel draw info x p false::ps.map fun p => pixel draw info x p (isPropertyDefined p)

/-- Without a transparent background, children fill the pixel. -/
def Fills (draw : P → Option ℕ → Bool → ℤ × ℤ → Color) (info : ViewInfo P) (x : ℤ × ℤ) (ps : List P) : Prop :=
  ∀ p ∈ ps, ∀ b, 0 ≤ (pixel draw info x p b).1.alpha ∧ (pixel draw info x p b).1.alpha ≤ 1 ∧
    (b = false → (pixel draw info x p b).1.alpha = 1)

theorem redraw_eq (s : Canvas P) : redraw isPropertyDefined draw paint info viewArea s =
    (visible info).foldl (redrawChild isPropertyDefined draw paint info viewArea) s := by
  rw [redraw,visible,List.foldl_map,List.foldl_filter]

theorem redrawChild_target (hx : onSurface viewArea x = true) (p : P) :
    (redrawChild isPropertyDefined draw paint info viewArea s p).target x =
      paint (pixel draw info x p (isPropertyDefined p && decide (s.count ≠ 0))).1
        (if isPropertyDefined p && decide (s.count ≠ 0) then 1 else 1/(s.count+1 : ℚ)) (s.target x) := by
  have hbackground : (isPropertyDefined p &&
      (if isPropertyDefined p then Function.update s.transparentBackground p (decide (s.count ≠ 0))
        else s.transparentBackground) p) = (isPropertyDefined p && decide (s.count ≠ 0)) := by
    cases isPropertyDefined p <;> simp
  simp only [redrawChild,hx,hbackground,if_true,pixel]

theorem redrawChild_count (p : P) : (redrawChild isPropertyDefined draw paint info viewArea s p).count =
    if isPropertyDefined p && decide (s.count ≠ 0) then s.count else s.count+1 := rfl

theorem alpha_mem (n : ℕ) (b : Bool) : 0 ≤ (if b then 1 else 1/(n+1 : ℚ)) ∧ (if b then 1 else 1/(n+1 : ℚ)) ≤ 1 := by
  cases b
  · exact ⟨by simp only [Bool.false_eq_true,if_false]; positivity,
      (div_le_one₀ (by positivity)).mpr (by simp)⟩
  · simp

theorem foldl_near (hp : Color.Paints paint ε) (hx : onSurface viewArea x = true) (ps : List P)
    (hfills : Fills draw info x ps) (hs : 0 < s.count) {δ : ℚ} {exact' : Color}
    (ht : Color.Near δ (s.target x) exact') :
    Color.Near (δ+ps.length*ε) ((ps.foldl (redrawChild isPropertyDefined draw paint info viewArea) s).target x)
      (Layers.paintAll s.count (ps.map fun p => pixel draw info x p (isPropertyDefined p)) exact') := by
  induction ps generalizing s δ exact' with
  | nil => simpa [Layers.paintAll] using ht
  | cons p ps ih =>
    have hflag : (isPropertyDefined p && decide (s.count ≠ 0)) = isPropertyDefined p := by simp [hs.ne']
    obtain ⟨h0,h1,-⟩ := hfills p List.mem_cons_self (isPropertyDefined p)
    obtain ⟨ha,ha'⟩ := alpha_mem s.count (isPropertyDefined p)
    set t := redrawChild isPropertyDefined draw paint info viewArea s p with htdef
    have htarget : t.target x = paint (pixel draw info x p (isPropertyDefined p)).1
        (if isPropertyDefined p then 1 else 1/(s.count+1 : ℚ)) (s.target x) := by
      rw [htdef,redrawChild_target hx,hflag]
    have hcount : t.count = if isPropertyDefined p then s.count else s.count+1 := by
      rw [htdef,redrawChild_count,hflag]
    have hrest := ih (s := t) (fun q hq => hfills q (List.mem_cons_of_mem _ hq)) (by rw [hcount]; split_ifs <;> omega)
      (htarget ▸ hp.near ha ha' h0 h1 ht)
    rw [hcount] at hrest
    have herror : δ+ε+ps.length*ε = δ+((ps.length+1 : ℕ) : ℚ)*ε := by
      push_cast
      ring
    rw [List.foldl_cons,List.map_cons,List.length_cons,← herror]
    exact hrest

theorem fills_layers (isPropertyDefined : P → Bool) {p : P} {ps : List P} (h : Fills draw info x (p::ps)) :
    Layers.Opaque (layers isPropertyDefined draw info x (p::ps)) := by
  intro l hl hflag
  rcases List.mem_cons.mp hl with rfl | hl
  · exact (h p List.mem_cons_self false).2.2 rfl
  · obtain ⟨q,hq,rfl⟩ := List.mem_map.mp hl
    exact (h q (List.mem_cons_of_mem _ hq) _).2.2 hflag

theorem redraw_near (isPropertyDefined : P → Bool) (hp : Color.Paints paint ε) (hx : onSurface viewArea x = true)
    {p : P} {ps : List P} (hvisible : visible info = p::ps) (hfills : Fills draw info x (p::ps)) (hs : s.count = 0) :
    Color.Near ((ps.length+1)*ε) ((redraw isPropertyDefined draw paint info viewArea s).target x)
      (Layers.mixture (ps.countP (!isPropertyDefined ·)+1) 0 (layers isPropertyDefined draw info x (p::ps))) := by
  have hflag : (isPropertyDefined p && decide (s.count ≠ 0)) = false := by simp [hs]
  set t := redrawChild isPropertyDefined draw paint info viewArea s p with ht
  have htarget : t.target x = paint (pixel draw info x p false).1 (1/((0 : ℕ)+1 : ℚ)) (s.target x) := by
    rw [ht,redrawChild_target hx,hflag,hs]
    rfl
  have hcount : t.count = 1 := by
    rw [ht,redrawChild_count,hflag,hs]
    rfl
  obtain ⟨h0,h1,-⟩ := hfills p List.mem_cons_self false
  have hone : Color.Near (0+ε) (t.target x)
      ((pixel draw info x p false).1.paintOver (1/((0 : ℕ)+1 : ℚ)) (s.target x)) :=
    htarget ▸ hp.near (alpha_mem 0 false).1 (alpha_mem 0 false).2 h0 h1 fun k => by rw [sub_self,abs_zero]
  have hall : Color.Near (0+ε+ps.length*ε)
      ((ps.foldl (redrawChild isPropertyDefined draw paint info viewArea) t).target x)
      (Layers.paintAll t.count (ps.map fun p => pixel draw info x p (isPropertyDefined p)) _) :=
    foldl_near hp hx ps (fun q hq => hfills q (List.mem_cons_of_mem _ hq)) (by omega) hone
  have hmixture := Layers.paintAll_mixture (s.target x) (fills_layers isPropertyDefined hfills)
  have hopaques : Layers.opaques (ps.map fun p => pixel draw info x p (isPropertyDefined p)) =
      ps.countP (!isPropertyDefined ·) := by
    rw [Layers.opaques,List.countP_map]
    rfl
  have herror : (ps.length+1)*ε = 0+ε+ps.length*ε := by ring
  rw [redraw_eq,hvisible,List.foldl_cons,layers,herror,add_comm _ 1,← hopaques]
  rw [hcount] at hall
  exact hmixture ▸ hall

omit [DecidableEq P] in
theorem visible_subset (info : ViewInfo P) : visible info ⊆ info.children := by
  intro p hp
  obtain ⟨e,he,rfl⟩ := List.mem_map.mp hp
  exact (List.of_mem_zip (List.mem_of_mem_filter he)).1

end Views

section Runs
variable {P V O : Type} [DecidableEq P] [DecidableEq V] [DecidableEq O]

/-- A pixel is the mixture of what the visible children draw through the views that they have open, and the mean if no
background is transparent, but for what is rounded when a child is painted. -/
structure Blends (isPropertyDefined : P → Bool) (draw : P → Option ℕ → Bool → ℤ × ℤ → Color) (ε : ℚ)
    (calls : List ((P × ℕ) × Bool)) (info : ViewInfo P) (x : ℤ × ℤ) (p : P) (ps : List P) (shown : Color) : Prop where
  opened : ∀ q ∈ p::ps, ∃ n, childView info q = some n ∧ isOn calls (q,n) = true
  mixture : Color.Near ((ps.length+1)*ε) shown
    (Layers.mixture (ps.countP (!isPropertyDefined ·)+1) 0 (layers isPropertyDefined draw info x (p::ps)))
  mean : (∀ q ∈ ps, isPropertyDefined q = false) → ∀ k,
    |shown.get k-((p::ps).map fun q => (draw q (childView info q) false x).get k).sum/(ps.length+1)| ≤ (ps.length+1)*ε

/-- Whatever has happened to an overlay, its views blend the children whose buttons are active. -/
theorem overlay_blends (isMonochrome isResizable isPropertyDefined : P → Bool) (rect : P → Rectangle ℚ)
    (color : P → Color) (draw : P → Option ℕ → Bool → ℤ × ℤ → Color) {paint : Color → ℚ → Color → Color} {ε : ℚ}
    (hpaint : Color.Paints paint ε) (as : List (PresentationBase.Action O V (Update P V)))
    (hw : Within (PresentationBase.step (presentation isMonochrome isResizable rect)) Fits as
      { state := { monochromeColor := color } })
    {c : PresentationBase.Config (Overlay P V) O V}
    (hr : run (PresentationBase.step (presentation isMonochrome isResizable rect)) as
      { state := { monochromeColor := color } } = some c)
    {vi : V} {info : ViewInfo P} (he : (vi,info) ∈ c.state.viewData) {p : P} {ps : List P}
    (hvisible : visible info = p::ps) (pa : Rectangle ℚ) (zoom : ℤ) {x : ℤ × ℤ} (hfills : Fills draw info x (p::ps))
    {s : Canvas P} (hs : s.count = 0) : ∀ surface, viewArea pa zoom = some surface → onSurface surface x = true →
      Blends isPropertyDefined draw ε c.state.calls info x p ps
        ((redraw isPropertyDefined draw paint info surface s).target x) := by
  intro surface _ hx
  have hgood := Good.of_run hw hr
  have hshows := hgood.consistent.shows
  have hnear := redraw_near isPropertyDefined hpaint hx hvisible hfills hs
  refine ⟨fun q hq => ?_,hnear,fun hnone k => ?_⟩
  · have hmem : q ∈ c.state.children := (hshows.buttons _ he).1 ▸ visible_subset info (hvisible ▸ hq)
    obtain ⟨n,hn,-⟩ := hshows.each _ he q hmem
    have hfind : childView info q = some n := by
      rw [childView,Maps.find?_eq_some ((hgood.consistent.has _ he).childViews ▸ hgood.consistent.children) hn]
      rfl
    exact ⟨n,hfind,(hshows.isOn_iff _).mpr ⟨_,he,hn⟩⟩
  · have hopaque : ∀ l ∈ layers isPropertyDefined draw info x (p::ps), l.2 = false := by
      intro l hl
      rcases List.mem_cons.mp hl with rfl | hl
      · rfl
      · obtain ⟨q,hq,rfl⟩ := List.mem_map.mp hl
        exact hnone q hq
    have hcount : ps.countP (!isPropertyDefined ·) = ps.length :=
      List.countP_eq_length.mpr fun q hq => by simp [hnone q hq]
    have hlayers : (layers isPropertyDefined draw info x (p::ps)).map (·.1.get k) =
        (p::ps).map fun q => (draw q (childView info q) false x).get k := by
      rw [layers,List.map_cons,List.map_map,List.map_cons]
      congr 1
      exact List.map_congr_left fun q hq => by simp [pixel,hnone q hq]
    have hk := hnear k
    rw [Layers.mixture_get hopaque,hlayers,hcount] at hk
    exact_mod_cast hk

/-- Two children, the second of which was added later. -/
theorem overlay_blends_two : ∃ (c : PresentationBase.Config (Overlay ℕ (Fin 2)) ℕ (Fin 2)) (info : ViewInfo ℕ),
    run (PresentationBase.step (presentation (fun _ => true) (fun _ => false) fun _ => .empty))
      [.update (.addPresentation 3),.open' 0,.update (.addPresentation 4)]
      { state := { monochromeColor := fun _ => {} } } = some c ∧
      Blends (fun _ => false) (fun p _ _ _ => .gray ((p : ℕ)/4)) (1/510) c.state.calls info (5,6) 3 [4]
        ((redraw (fun _ => false) (fun p _ _ _ => .gray ((p : ℕ)/4))
          (fun source alpha target => (Color.paintOver source alpha target).rounded) info ⟨8,8⟩
            ⟨fun _ => .clear,0,fun _ => false⟩).target (5,6)) := by
  refine ⟨_,_,rfl,overlay_blends (O := ℕ) (V := Fin 2) (fun _ => true) (fun _ => false) (fun _ => false)
    (fun _ => .empty) (fun _ => {}) _ Color.paints_rounded
      [.update (.addPresentation 3),.open' 0,.update (.addPresentation 4)]
    (by decide +kernel) rfl (List.mem_singleton.mpr rfl) rfl (.make 0 0 8 8) 0 ?_ rfl _ (by decide +kernel)
    (by decide +kernel)⟩
  simp [Fills,pixel,Color.gray]

end Runs
end TransparentOverlayViewInfo
end Scroom
