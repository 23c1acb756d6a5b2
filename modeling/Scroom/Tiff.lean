import Scroom.LayerSpec

/-! Opening a TIFF file: which headers are accepted, and the metadata made from them. -/
namespace Scroom
namespace Tiff

/-- The tags that are read, where the file has them. -/
structure Tags where
  samplesPerPixel : Option UInt16
  bitsPerSample : Option UInt16
  imageWidth : Option UInt32
  imageLength : Option UInt32
  photometric : Option UInt16
  colorMap : Option (ℕ → UInt16 × UInt16 × UInt16)

def photometricMinIsWhite : UInt16 := 0
def photometricMinIsBlack : UInt16 := 1
def photometricRgb : UInt16 := 2
def photometricPalette : UInt16 := 3
def photometricSeparated : UInt16 := 5

namespace Tags

def spp (tags : Tags) : ℕ := (tags.samplesPerPixel.getD 1).toNat
def bps (tags : Tags) : ℕ := (tags.bitsPerSample.getD (if tags.spp = 1 then 1 else 8)).toNat

end Tags

def getColorMap (tags : Tags) : Option Colormap :=
  tags.colorMap.map fun colors => (List.range (1 <<< tags.bps)).map fun i =>
    { red := (colors i).1.toNat/0xFFFF, green := (colors i).2.1.toNat/0xFFFF, blue := (colors i).2.2.toNat/0xFFFF }

def numberOfGreyscaleColors (bps : ℕ) : ℕ := if bps = 2 ∨ bps = 4 then 1 <<< bps else 2

/-- The colormap helper that is chosen by `photometric`, unless its value is not recognised.
Shifts by more bits than an `int` has are not undefined here; such `bps` are rejected below. -/
def colormapHelperFor (tags : Tags) (photometric : UInt16) : Option (Option Colormap) :=
  let colormapHelper := if photometric ≠ photometricPalette then none else getColorMap tags
  if photometric = photometricMinIsBlack then
    some (some (.createDefault (numberOfGreyscaleColors tags.bps)))
  else if photometric = photometricMinIsWhite then
    some (some (.createDefaultInverted (numberOfGreyscaleColors tags.bps)))
  else if photometric = photometricPalette then
    some (some (colormapHelper.getD (.createDefault (1 <<< tags.bps))))
  else if photometric = photometricRgb ∨ photometric = photometricSeparated then some colormapHelper
  else none

/-- `Scroom::Tiff::open`. The outer `none` is an overflow in the rectangle, which is computed
before the last checks; the inner one is a rejected header. -/
def openTiff (tags : Tags) : Option (Option BitmapMetaData) :=
  match tags.imageWidth,tags.imageLength,tags.photometric with
  | some width,some height,some photometric =>
    match colormapHelperFor tags photometric with
    | some colormapHelper => do
      let rect ← Rectangle.makeInt 0 0 (MachineInt.wrap width.toNat) (MachineInt.wrap height.toNat)
      if tags.bps ∉ [1,2,4,8] then return none
      else if tags.spp = 4 then return some ⟨.cmyk,tags.bps,tags.spp,rect,colormapHelper⟩
      else if tags.spp = 3 then
        if tags.bps ≠ 8 then return none else return some ⟨.rgb,tags.bps,tags.spp,rect,colormapHelper⟩
      else if tags.spp = 1 then
        let type := if photometric = photometricPalette then .colormapped else .greyscale
        return some ⟨type,tags.bps,tags.spp,rect,colormapHelper⟩
      else return none
    | none => some none
  | _,_,_ => some none

/-- The kinds of sample that `open` has a layout for. -/
def SupportedSamples (tags : Tags) : Prop :=
  tags.bps ∈ [1,2,4,8] ∧ (tags.spp = 1 ∨ tags.spp = 4 ∨ tags.spp = 3 ∧ tags.bps = 8)

instance (tags : Tags) : Decidable (SupportedSamples tags) := inferInstanceAs (Decidable (_ ∧ _))

def knownPhotometric (photometric : UInt16) : Prop :=
  photometric ∈ [photometricMinIsWhite,photometricMinIsBlack,photometricRgb,photometricPalette,photometricSeparated]

instance (photometric : UInt16) : Decidable (knownPhotometric photometric) :=
  inferInstanceAs (Decidable (_ ∈ _))

/-- The type of the bitmap for supported samples. -/
def bitmapType (tags : Tags) (photometric : UInt16) : BitmapType :=
  if tags.spp = 4 then .cmyk
  else if tags.spp = 3 then .rgb
  else if photometric = photometricPalette then .colormapped
  else .greyscale

variable {tags : Tags}

theorem colormapHelperFor_isSome {photometric : UInt16} :
    (colormapHelperFor tags photometric).isSome ↔ knownPhotometric photometric := by
  simp only [colormapHelperFor,knownPhotometric,List.mem_cons,List.not_mem_nil,or_false]
  split_ifs <;> simp_all

/-- The header says what `open` needs before it makes the rectangle. -/
structure Described (tags : Tags) (width height : UInt32) (photometric : UInt16) : Prop where
  width_eq : tags.imageWidth = some width
  height_eq : tags.imageLength = some height
  photometric_eq : tags.photometric = some photometric
  known : knownPhotometric photometric

theorem openTiff_described {width height : UInt32} {photometric : UInt16} {colormapHelper : Option Colormap}
    (h : Described tags width height photometric)
    (hc : colormapHelperFor tags photometric = some colormapHelper) :
    openTiff tags =
      (Rectangle.makeInt 0 0 (MachineInt.wrap width.toNat) (MachineInt.wrap height.toNat)).map fun rect =>
        if SupportedSamples tags then
          some ⟨bitmapType tags photometric,tags.bps,tags.spp,rect,colormapHelper⟩
        else none := by
  simp only [openTiff,h.width_eq,h.height_eq,h.photometric_eq,hc]
  cases Rectangle.makeInt 0 0 (MachineInt.wrap width.toNat) (MachineInt.wrap height.toNat) with
  | none => rfl
  | some rect =>
    simp only [SupportedSamples,bitmapType,Option.bind_eq_bind,Option.bind_some,Option.map_some]
    split_ifs <;> simp_all

theorem openTiff_undescribed (h : ∀ width height photometric, ¬ Described tags width height photometric) :
    openTiff tags = some none := by
  unfold openTiff
  split
  · rename_i width height photometric hw hh hp
    have hk : ¬ (colormapHelperFor tags photometric).isSome := fun hk =>
      h width height photometric ⟨hw,hh,hp,colormapHelperFor_isSome.mp hk⟩
    rw [Option.not_isSome_iff_eq_none.mp hk]
  · rfl

/-- What an accepted header and its metadata are. -/
theorem openTiff_accepted {bmd : BitmapMetaData} (h : openTiff tags = some (some bmd)) :
    SupportedSamples tags ∧ ∃ width height photometric colormapHelper rect,
      Described tags width height photometric ∧ colormapHelperFor tags photometric = some colormapHelper ∧
      Rectangle.makeInt 0 0 (MachineInt.wrap width.toNat) (MachineInt.wrap height.toNat) = some rect ∧
      bmd = ⟨bitmapType tags photometric,tags.bps,tags.spp,rect,colormapHelper⟩ := by
  by_cases hd : ∃ width height photometric, Described tags width height photometric
  · obtain ⟨width,height,photometric,hd⟩ := hd
    obtain ⟨colormapHelper,hc⟩ := Option.isSome_iff_exists.mp (colormapHelperFor_isSome.mpr hd.known)
    rw [openTiff_described hd hc,Option.map_eq_some_iff] at h
    obtain ⟨rect,hr,hif⟩ := h
    by_cases hs : SupportedSamples tags
    · rw [if_pos hs] at hif
      exact ⟨hs,width,height,photometric,colormapHelper,rect,hd,hc,hr,(Option.some.inj hif).symm⟩
    · rw [if_neg hs] at hif
      cases hif
  · have hn := openTiff_undescribed fun width height photometric hd' => hd ⟨width,height,photometric,hd'⟩
    rw [hn] at h
    cases h

end Tiff
end Scroom
