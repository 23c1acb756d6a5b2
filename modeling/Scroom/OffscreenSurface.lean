import Scroom.View

/-! The off-screen surfaces that a view's drawing area is filled from. They have to be at least as large. -/
namespace Scroom

namespace Rectangle
variable {r : Rectangle ℚ}

def toGdkRectangle (r : Rectangle ℚ) : Option (Rectangle ℤ) := do
  return ⟨⟨← MachineInt.toInt r.getLeft,← MachineInt.toInt r.getWidth⟩,
    ⟨← MachineInt.toInt r.getTop,← MachineInt.toInt r.getHeight⟩⟩

/-- The place and the size become numbers that an `int` can hold. -/
def FitsInt (r : Rectangle ℚ) : Prop := ∀ q ∈ [r.getLeft,r.getWidth,r.getTop,r.getHeight], -2^31-1 < q ∧ q < 2^31

theorem toGdkRectangle_eq_some {gdk : Rectangle ℤ} (h : r.toGdkRectangle = some gdk) :
    gdk.getWidth = MachineInt.trunc r.getWidth ∧ gdk.getHeight = MachineInt.trunc r.getHeight := by
  obtain ⟨left,-,h⟩ := Option.bind_eq_some_iff.mp h
  obtain ⟨width,hw,h⟩ := Option.bind_eq_some_iff.mp h
  obtain ⟨top,-,h⟩ := Option.bind_eq_some_iff.mp h
  obtain ⟨height,hh,h⟩ := Option.bind_eq_some_iff.mp h
  obtain rfl := Option.some.inj h
  exact ⟨(MachineInt.checked_eq_some.mp hw).2.symm,(MachineInt.checked_eq_some.mp hh).2.symm⟩

theorem exists_toGdkRectangle_iff : (∃ gdk, r.toGdkRectangle = some gdk) ↔ r.FitsInt := by
  simp only [FitsInt,List.forall_mem_cons,← MachineInt.toInt_isSome_iff,Option.isSome_iff_exists]
  constructor
  · rintro ⟨gdk,h⟩
    obtain ⟨left,hleft,h⟩ := Option.bind_eq_some_iff.mp h
    obtain ⟨width,hwidth,h⟩ := Option.bind_eq_some_iff.mp h
    obtain ⟨top,htop,h⟩ := Option.bind_eq_some_iff.mp h
    obtain ⟨height,hheight,-⟩ := Option.bind_eq_some_iff.mp h
    exact ⟨⟨left,hleft⟩,⟨width,hwidth⟩,⟨top,htop⟩,⟨height,hheight⟩,by simp⟩
  · rintro ⟨⟨left,hleft⟩,⟨width,hwidth⟩,⟨top,htop⟩,⟨height,hheight⟩,-⟩
    exact ⟨⟨⟨left,width⟩,⟨top,height⟩⟩,by simp [toGdkRectangle,hleft,hwidth,htop,hheight]⟩

end Rectangle

namespace View

def tweakedPosition (v : View) : Point ℚ :=
  TweakPresentationPosition.tweakPosition v.aspectRatio.ratio v.position.value (pixelSizeFromZoom v.zoom)

/-- The area that `redraw` asks of the presentation. -/
def presentationArea (v : View) : Rectangle ℚ :=
  let visibleRegionSize := (Point.ofInt v.drawingAreaSize).div (pixelSizeFromZoom v.zoom)
  .make v.tweakedPosition.x v.tweakedPosition.y visibleRegionSize.x visibleRegionSize.y

end View

/-- The size of the surface on which `TransparentOverlayViewInfo::redraw` puts its children together. -/
def TransparentOverlayViewInfo.viewArea (pa : Rectangle ℚ) (zoom : ℤ) : Option (Point ℤ) := do
  let presentationArea ← pa.toGdkRectangle
  if 0 < zoom then
    let pixelSize := 2^zoom.toNat
    return ⟨presentationArea.getWidth*pixelSize,presentationArea.getHeight*pixelSize⟩
  else
    let pixelSize := 2^(-zoom).toNat
    return ⟨presentationArea.getWidth.tdiv pixelSize,presentationArea.getHeight.tdiv pixelSize⟩

/-- The size of the surface that `TransformPresentation::redraw` keeps for a view. -/
def TransformPresentation.viewArea (presentationArea : Rectangle ℚ) (zoom : ℤ) (aspectRatio : Point ℚ) : Point ℤ :=
  let area := (presentationArea.mul (View.pixelSizeFromZoom zoom)).divPoint aspectRatio
  ⟨⌈area.getWidth⌉,⌈area.getHeight⌉⟩

/-- Every pixel of the drawing area is on the surface. -/
def Covers (surface drawingAreaSize : Point ℤ) : Prop :=
  drawingAreaSize.x ≤ surface.x ∧ drawingAreaSize.y ≤ surface.y

namespace View

theorem pixelSizeFromZoom_pos (zoom : ℤ) : 0 < pixelSizeFromZoom zoom := zpow_pos two_pos zoom

theorem pixelSizeFromZoom_of_pos {zoom : ℤ} (h : 0 < zoom) : pixelSizeFromZoom zoom = ((2^zoom.toNat : ℤ) : ℚ) := by
  obtain ⟨n,rfl⟩ := Int.eq_ofNat_of_zero_le h.le
  simp [pixelSizeFromZoom]

theorem pixelSizeFromZoom_of_nonpos {zoom : ℤ} (h : zoom ≤ 0) :
    (pixelSizeFromZoom zoom)⁻¹ = ((2^(-zoom).toNat : ℤ) : ℚ) := by
  obtain ⟨n,hn⟩ := Int.eq_ofNat_of_zero_le (neg_nonneg.mpr h)
  obtain rfl : zoom = -n := by omega
  simp [pixelSizeFromZoom]

theorem le_trunc_mul_iff {n d : ℤ} (hn : 0 ≤ n) (hd : 0 < d) : n ≤ MachineInt.trunc (n/d)*d ↔ d ∣ n := by
  have hd' : (0:ℚ) < d := by exact_mod_cast hd
  have hq : (0:ℚ) ≤ n/d := div_nonneg (by exact_mod_cast hn) hd'.le
  rw [MachineInt.trunc_of_nonneg hq]
  constructor
  · intro h
    have hle : (⌊(n/d:ℚ)⌋:ℚ)*d ≤ n := (le_div_iff₀ hd').mp (Int.floor_le _)
    have hle' : ⌊(n/d:ℚ)⌋*d ≤ n := by exact_mod_cast hle
    exact ⟨⌊(n/d:ℚ)⌋,by linarith [mul_comm d ⌊(n/d:ℚ)⌋]⟩
  · rintro ⟨k,rfl⟩
    have hk : (((d*k:ℤ):ℚ)/d) = (k:ℚ) := by
      rw [Int.cast_mul,mul_div_cancel_left₀ _ hd'.ne']
    rw [hk,Int.floor_intCast,mul_comm]

section Sizes
variable {v : View} {W H : ℕ}

theorem getWidth_presentationArea (hv : v.drawingAreaSize = ⟨W,H⟩) :
    v.presentationArea.getWidth = (W:ℤ)/pixelSizeFromZoom v.zoom := by
  have h : (0:ℚ) ≤ W/pixelSizeFromZoom v.zoom := div_nonneg W.cast_nonneg (pixelSizeFromZoom_pos _).le
  simp [presentationArea,hv,Rectangle.make,Rectangle.getWidth,Point.ofInt,Point.div,Segment.make_of_nonneg h]

theorem getHeight_presentationArea (hv : v.drawingAreaSize = ⟨W,H⟩) :
    v.presentationArea.getHeight = (H:ℤ)/pixelSizeFromZoom v.zoom := by
  have h : (0:ℚ) ≤ H/pixelSizeFromZoom v.zoom := div_nonneg H.cast_nonneg (pixelSizeFromZoom_pos _).le
  simp [presentationArea,hv,Rectangle.make,Rectangle.getHeight,Point.ofInt,Point.div,Segment.make_of_nonneg h]

theorem overlay_length_iff {n : ℕ} {zoom : ℤ} (h : 0 < zoom) :
    (n:ℤ) ≤ MachineInt.trunc ((n:ℤ)/pixelSizeFromZoom zoom)*2^zoom.toNat ↔ 2^zoom.toNat ∣ n := by
  rw [pixelSizeFromZoom_of_pos h,le_trunc_mul_iff n.cast_nonneg (by positivity)]
  exact_mod_cast Iff.rfl

theorem overlay_length {n : ℕ} {zoom : ℤ} (h : zoom ≤ 0) :
    (MachineInt.trunc ((n:ℤ)/pixelSizeFromZoom zoom)).tdiv (2^(-zoom).toNat) = n := by
  have hd : (0:ℤ) < 2^(-zoom).toNat := by positivity
  rw [div_eq_mul_inv,pixelSizeFromZoom_of_nonpos h,← Int.cast_mul,
    MachineInt.trunc_intCast,Int.mul_tdiv_cancel _ hd.ne']

theorem transform_covers (v : View) (hv : v.drawingAreaSize = ⟨W,H⟩) :
    Covers (TransformPresentation.viewArea v.presentationArea v.zoom ⟨1,1⟩) ⟨W,H⟩ := by
  have hp := (pixelSizeFromZoom_pos v.zoom).ne'
  have hw := getWidth_presentationArea hv
  have hh := getHeight_presentationArea hv
  simp only [Rectangle.getWidth,Rectangle.getHeight] at hw hh
  simp only [Covers,TransformPresentation.viewArea,Rectangle.getWidth,Rectangle.getHeight,Rectangle.divPoint,
    Rectangle.mul,Segment.div,Segment.mul,hw,hh,div_mul_cancel₀ _ hp,div_one,Int.ceil_intCast,le_refl,and_self]

theorem overlay_covers_iff (v : View) (hv : v.drawingAreaSize = ⟨W,H⟩) :
    (∃ surface, TransparentOverlayViewInfo.viewArea v.presentationArea v.zoom = some surface ∧ Covers surface ⟨W,H⟩) ↔
      v.presentationArea.FitsInt ∧ (0 < v.zoom → 2^v.zoom.toNat ∣ W ∧ 2^v.zoom.toNat ∣ H) := by
  -- once there is a surface, only its size matters
  have hsize : ∀ gdk, v.presentationArea.toGdkRectangle = some gdk →
      ((∃ surface, TransparentOverlayViewInfo.viewArea v.presentationArea v.zoom = some surface ∧
        Covers surface ⟨W,H⟩) ↔ (0 < v.zoom → 2^v.zoom.toNat ∣ W ∧ 2^v.zoom.toNat ∣ H)) := by
    intro gdk hgdk
    obtain ⟨hw,hh⟩ := Rectangle.toGdkRectangle_eq_some hgdk
    rw [getWidth_presentationArea hv] at hw
    rw [getHeight_presentationArea hv] at hh
    rw [TransparentOverlayViewInfo.viewArea,hgdk,Option.bind_eq_bind,Option.bind_some,hw,hh]
    split
    case isTrue h =>
      rw [forall_prop_of_true h]
      constructor
      · rintro ⟨surface,⟨⟩,hwidth,hheight⟩
        exact ⟨(overlay_length_iff h).mp hwidth,(overlay_length_iff h).mp hheight⟩
      · exact fun ⟨hwidth,hheight⟩ =>
          ⟨_,rfl,(overlay_length_iff h).mpr hwidth,(overlay_length_iff h).mpr hheight⟩
    case isFalse h =>
      exact iff_of_true ⟨_,rfl,(overlay_length (not_lt.mp h)).ge,(overlay_length (not_lt.mp h)).ge⟩
        fun hzoom => absurd hzoom h
  rw [← Rectangle.exists_toGdkRectangle_iff]
  constructor
  · rintro ⟨surface,hs,hcovers⟩
    obtain ⟨gdk,hgdk,-⟩ := Option.bind_eq_some_iff.mp hs
    exact ⟨⟨gdk,hgdk⟩,(hsize gdk hgdk).mp ⟨surface,hs,hcovers⟩⟩
  · rintro ⟨⟨gdk,hgdk⟩,h⟩
    exact (hsize gdk hgdk).mpr h

end Sizes

/-- The overlay has a surface as large as the drawing area exactly if the area that is asked for fits an `int` and,
zoomed in, whole pixels of the presentation fill the drawing area; the surface of a transformation with square pixels
always is. -/
theorem surfaces_cover_iff (v : View) (W H : ℕ) :
    let w := { v with drawingAreaSize := ⟨W,H⟩ }
    ((∃ surface, TransparentOverlayViewInfo.viewArea w.presentationArea w.zoom = some surface ∧
      Covers surface w.drawingAreaSize) ↔
        w.presentationArea.FitsInt ∧ (0 < w.zoom → 2^w.zoom.toNat ∣ W ∧ 2^w.zoom.toNat ∣ H)) ∧
    Covers (TransformPresentation.viewArea w.presentationArea w.zoom ⟨1,1⟩) w.drawingAreaSize :=
  ⟨overlay_covers_iff { v with drawingAreaSize := ⟨W,H⟩ } rfl,
    transform_covers { v with drawingAreaSize := ⟨W,H⟩ } rfl⟩

/-- A window of 10 by 10 pixels at zoom 2 gets a surface of 8 by 8. -/
theorem tenPixels_uncovered :
    let v : View := ⟨⟨⟨0,0⟩,0⟩,2,⟨10,10⟩,⟨⟨1,1⟩,by norm_num,by norm_num⟩,false,⟨0,0⟩,[]⟩
    TransparentOverlayViewInfo.viewArea v.presentationArea v.zoom = some ⟨8,8⟩ ∧ ¬ Covers ⟨8,8⟩ v.drawingAreaSize :=
  ⟨by decide +kernel,fun h => absurd h.1 (by decide)⟩

end View
end Scroom
