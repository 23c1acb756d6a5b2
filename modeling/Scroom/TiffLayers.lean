import Scroom.Tiff

/-! Whether the layer operations that are chosen for an accepted TIFF file suit its metadata. -/
namespace Scroom

open Buffer

variable {n : ℕ}

theorem mapM_isSome {α β : Type} {f : α → Option β} {l : List α} :
    (l.mapM f).isSome ↔ ∀ x ∈ l, (f x).isSome := by
  induction l with
  | nil => simp
  | cons x l ih =>
    rw [List.mapM_cons,List.forall_mem_cons,← ih]
    cases f x with
    | none => simp
    | some y => cases l.mapM f <;> simp

theorem cachePixels_isSome {pixel : ℕ → ℕ → Option ℕ} :
    (cachePixels pixel).isSome ↔ ∀ j < height, ∀ i < width, (pixel j i).isSome := by
  simp only [cachePixels,mapM_isSome,List.mem_range]

namespace LayerOperations

theorem cache_isSome {lo : LayerOperations} (hd : lo.Draws) (hb : lo.IndexBits) {tile : Tile lo.getBpp} :
    (lo.cache tile).isSome ↔
      ∀ j < height, ∀ i < width, (lo.draw (lo.pixel tile j i)).isSome := by
  have hcache : lo.cache tile = cachePixels fun j i => lo.cachePixel tile j i := by
    cases lo with
    | operations1bppClipped colormap => exact hd.elim
    | _ => rfl
  rw [hcache,cachePixels_isSome]
  refine forall₂_congr fun j hj => forall₂_congr fun i hi => ?_
  rw [cachePixel_eq hb rfl tile hj hi]

theorem cache_isSome_of_colors {lo : LayerOperations} (hd : lo.Draws) (hb : lo.IndexBits)
    (hc : lo.colorsNeeded ≤ lo.colormap.length) (tile : Tile lo.getBpp) : (lo.cache tile).isSome :=
  (cache_isSome hd hb).mpr fun j _ i _ => draw_isSome hd hc (lo.pixel_lt tile j i)

end LayerOperations

theorem field_ones {a w : ℕ} (h : a+w ≤ 8*n) : field (Vector.replicate n 255 : Buffer n) a w = 2^w-1 := by
  refine ((eq_field_iff (Nat.sub_lt (Nat.two_pow_pos w) Nat.one_pos)).mpr fun k hk => ?_).symm
  have hi : (a+k)/8 < n := by omega
  have hall : ∀ k < 8, Nat.testBit 255 k = true := by decide
  have hbit : (255:UInt8).toNat.testBit ((a+k)%8) = true := hall _ (Nat.mod_lt _ (by decide))
  rw [Nat.testBit_two_pow_sub_one,decide_eq_true hk,bit,Vector.getElem?_eq_getElem hi,
    Vector.getElem_replicate,Option.getD_some,hbit]

/-- Indices with more values than there are colours cannot all be drawn. -/
theorem Operations.cache_ones {colormap : Colormap} {bpp : ℕ} (hb : bpp ∈ [1,2,4,8])
    (hc : colormap.length < 2^bpp) : ∃ tile : Tile bpp,
      ¬ ((LayerOperations.operations colormap bpp).cache tile).isSome := by
  refine ⟨Vector.replicate _ 255,fun h => ?_⟩
  have hfield : (LayerOperations.operations colormap bpp).pixel
      (Vector.replicate (width*height*bpp/8) 255 : Tile bpp) 0 0 = 2^bpp-1 := by
    apply field_ones
    show bpp*(width*0+SampleIterator.mirror (pixelsPerByte bpp) 0)+bpp ≤ 8*(width*height*bpp/8)
    simp only [List.mem_cons,List.not_mem_nil,or_false] at hb
    rcases hb with rfl | rfl | rfl | rfl <;> decide
  have hdraws : LayerOperations.Draws (.operations colormap bpp) := trivial
  have h0 : ((LayerOperations.operations colormap bpp).draw (2^bpp-1)).isSome := by
    rw [← hfield]
    exact (LayerOperations.cache_isSome hdraws hb).mp h 0 (by decide) 0 (by decide)
  have hn : colormap[2^bpp-1]? = none := List.getElem?_eq_none (by omega)
  simp [LayerOperations.draw,hn] at h0

/-- The layer operations for a bitmap exist, the first has the bits of a pixel, and each of
them finds the colours for every content of a tile. -/
def LayersAgree (bmd : BitmapMetaData) : Prop :=
  ∃ ls colormapHelper, layerSpecForBitmap bmd = some (ls,colormapHelper) ∧
    (∃ lo, ls[0]? = some lo ∧ lo.getBpp = bmd.bitsPerSample*bmd.samplesPerPixel) ∧
    ∀ lo ∈ ls, ∀ tile : Tile lo.getBpp, (lo.cache tile).isSome

variable {bmd : BitmapMetaData}

theorem layersAgree_of_colors {ls : LayerSpec} {colormapHelper : Option Colormap} {lo : LayerOperations}
    (h : layerSpecForBitmap bmd = some (ls,colormapHelper)) (hfirst : ls[0]? = some lo)
    (hbpp : lo.getBpp = bmd.bitsPerSample*bmd.samplesPerPixel)
    (hall : ∀ lo ∈ ls, lo.Draws ∧ lo.IndexBits ∧ lo.colorsNeeded ≤ lo.colormap.length) : LayersAgree bmd := by
  refine ⟨ls,colormapHelper,h,⟨lo,hfirst,hbpp⟩,fun lo hlo tile => ?_⟩
  have hlo' := hall lo hlo
  exact LayerOperations.cache_isSome_of_colors hlo'.1 hlo'.2.1 hlo'.2.2 tile

theorem indices_agree {colormap : Colormap} (hb : bmd.bitsPerSample ∈ [1,2,4,8])
    (hspp : bmd.samplesPerPixel = 1) (h : layerSpecForBitmap bmd =
      some ([.operations colormap bmd.bitsPerSample,.operationsColormapped colormap bmd.bitsPerSample],
        some colormap)) :
    LayersAgree bmd ↔ 2^bmd.bitsPerSample ≤ colormap.length := by
  constructor
  · intro ha
    obtain ⟨ls,colormapHelper,hls,-,hcache⟩ := ha
    rw [h,Option.some.injEq,Prod.mk.injEq] at hls
    by_contra hn
    obtain ⟨tile,ht⟩ := Operations.cache_ones hb (Nat.lt_of_not_le hn)
    exact ht (hcache (.operations colormap _) (by rw [← hls.1]; exact List.mem_cons_self) tile)
  · intro hc
    apply layersAgree_of_colors h rfl
    · rw [hspp,Nat.mul_one]
      rfl
    · intro lo hlo
      simp only [List.mem_cons,List.not_mem_nil,or_false] at hlo
      rcases hlo with rfl | rfl
      · exact ⟨trivial,hb,hc⟩
      · exact ⟨trivial,hb,hc⟩

theorem palette_agree {colormap : Colormap} (hb : bmd.bitsPerSample ∈ [1,2,4,8]) (ht : bmd.type = .colormapped)
    (hspp : bmd.samplesPerPixel = 1) (hc : bmd.colormapHelper = some colormap) :
    LayersAgree bmd ↔ 2^bmd.bitsPerSample ≤ colormap.length := by
  apply indices_agree hb hspp
  rw [layerSpecForBitmap_eq,ht]
  simp only [bitmapFunction,colormappedBitmap,require,ht,hspp,hc,hb,not_true,ne_eq,if_false,if_true]
  rfl

theorem greyscale_agree (hb : bmd.bitsPerSample ∈ [1,2,4,8]) (ht : bmd.type = .greyscale)
    (hspp : bmd.samplesPerPixel = 1) (hc : 2 ≤ (bmd.colormapHelper.getD (.createDefault 2)).length) :
    LayersAgree bmd ↔ (bmd.bitsPerSample = 2 ∨ bmd.bitsPerSample = 4 →
      2^bmd.bitsPerSample ≤ (bmd.colormapHelper.getD (.createDefault 2)).length) := by
  have hspec := layerSpecForBitmap_eq bmd
  rw [ht] at hspec
  simp only [bitmapFunction,greyscaleBitmap,require,ht,hspp,hb,not_true,ne_eq,if_false,if_true] at hspec
  by_cases hi : bmd.bitsPerSample = 2 ∨ bmd.bitsPerSample = 4
  · rw [if_pos hi] at hspec
    rw [indices_agree hb hspp hspec]
    exact ⟨fun h _ => h,fun h => h hi⟩
  · refine iff_of_true ?_ fun h => absurd h hi
    rw [if_neg hi] at hspec
    by_cases h1 : bmd.bitsPerSample = 1
    · rw [if_pos h1] at hspec
      apply layersAgree_of_colors hspec rfl
      · rw [h1,hspp]
        rfl
      · intro lo hlo
        simp only [List.mem_cons,List.not_mem_nil,or_false] at hlo
        rcases hlo with rfl | rfl
        · exact ⟨trivial,trivial,hc⟩
        · exact ⟨trivial,trivial,hc⟩
    · rw [if_neg h1] at hspec
      have h8 : bmd.bitsPerSample = 8 := by
        simp only [List.mem_cons,List.not_mem_nil,or_false] at hb
        omega
      apply layersAgree_of_colors hspec rfl
      · rw [h8,hspp]
        rfl
      · intro lo hlo
        rw [List.mem_singleton] at hlo
        subst hlo
        exact ⟨trivial,trivial,hc⟩

theorem layersAgree_iff_of_none (hagree : bmd.colormapHelper = none → LayersAgree bmd)
    (hrefused : bmd.colormapHelper ≠ none → layerSpecForBitmap bmd = none) :
    LayersAgree bmd ↔ bmd.colormapHelper = none := by
  refine ⟨fun ha => ?_,hagree⟩
  by_contra hc
  obtain ⟨ls,colormapHelper,hls,-⟩ := ha
  rw [hrefused hc] at hls
  cases hls

theorem rgb_agree (hb : bmd.bitsPerSample = 8) (ht : bmd.type = .rgb) (hspp : bmd.samplesPerPixel = 3) :
    LayersAgree bmd ↔ bmd.colormapHelper = none := by
  have hspec := layerSpecForBitmap_eq bmd
  rw [ht] at hspec
  simp only [bitmapFunction,rgbBitmap,require,ht,hspp,hb,not_true,ne_eq,if_false,if_true] at hspec
  refine layersAgree_iff_of_none (fun hc => ?_) fun hc => by rw [hspec,if_neg hc]; rfl
  rw [if_pos hc] at hspec
  apply layersAgree_of_colors hspec rfl
  · rw [hb,hspp]
    rfl
  · intro lo hlo
    rw [List.mem_singleton] at hlo
    subst hlo
    exact ⟨trivial,trivial,Nat.le_refl 0⟩

theorem cmyk_agree (hb : bmd.bitsPerSample ∈ [1,2,4,8]) (ht : bmd.type = .cmyk)
    (hspp : bmd.samplesPerPixel = 4) : LayersAgree bmd ↔ bmd.colormapHelper = none := by
  have hspec := layerSpecForBitmap_eq bmd
  rw [ht] at hspec
  simp only [bitmapFunction,cmykBitmap,require,ht,hspp,not_true,ne_eq,if_false,if_true] at hspec
  refine layersAgree_iff_of_none (fun hc => ?_) fun hc => by rw [hspec,if_neg hc]; rfl
  rw [if_pos hc] at hspec
  have hcolors : ∀ lo ∈ [LayerOperations.operationsCMYK32,.operationsCMYK16,.operationsCMYK8,.operationsCMYK4],
      lo.Draws ∧ lo.IndexBits ∧ lo.colorsNeeded ≤ lo.colormap.length := by
    intro lo hlo
    simp only [List.mem_cons,List.not_mem_nil,or_false] at hlo
    rcases hlo with rfl | rfl | rfl | rfl <;> exact ⟨trivial,trivial,Nat.le_refl 0⟩
  simp only [List.mem_cons,List.not_mem_nil,or_false,forall_eq_or_imp,forall_eq] at hb hcolors
  rcases hb with hb | hb | hb | hb
  all_goals
    simp only [hb] at hspec
    apply layersAgree_of_colors hspec rfl
    · rw [hb,hspp]
      rfl
    · simp only [List.mem_cons,List.not_mem_nil,or_false,forall_eq_or_imp,forall_eq]
      tauto

namespace Tiff

variable {tags : Tags}

theorem length_getColorMap {colormap : Colormap} (h : getColorMap tags = some colormap) :
    colormap.length = 2^tags.bps := by
  obtain ⟨colors,-,rfl⟩ := Option.map_eq_some_iff.mp h
  rw [List.length_map,List.length_range,Nat.one_shiftLeft]

theorem two_le_numberOfGreyscaleColors (bps : ℕ) : 2 ≤ numberOfGreyscaleColors bps := by
  unfold numberOfGreyscaleColors
  split
  · rename_i h
    rcases h with rfl | rfl <;> decide
  · exact Nat.le_refl 2

theorem colormapHelperFor_cases {photometric : UInt16} {colormapHelper : Option Colormap}
    (h : colormapHelperFor tags photometric = some colormapHelper) :
    (photometric = photometricPalette ∧ ∃ colormap, colormapHelper = some colormap ∧
      colormap.length = 2^tags.bps) ∨
    (photometric ∈ [photometricMinIsWhite,photometricMinIsBlack] ∧ ∃ colormap, colormapHelper = some colormap ∧
      colormap.length = numberOfGreyscaleColors tags.bps) ∨
    (photometric ∈ [photometricRgb,photometricSeparated] ∧ colormapHelper = none) := by
  unfold colormapHelperFor at h
  by_cases hp : photometric = photometricPalette
  · rw [hp,if_neg (by decide),if_neg (by decide),if_pos rfl,if_neg (not_not.mpr rfl),Option.some.injEq] at h
    refine Or.inl ⟨hp,_,h.symm,?_⟩
    cases hc : getColorMap tags with
    | none => rw [Option.getD_none,Colormap.length_createDefault,Nat.one_shiftLeft]
    | some colormap => exact length_getColorMap hc
  · simp only [if_pos hp,if_neg hp] at h
    split_ifs at h with hb hw hs <;> cases h
    · exact Or.inr (Or.inl ⟨by simp [hb],_,rfl,Colormap.length_createDefault _⟩)
    · exact Or.inr (Or.inl ⟨by simp [hw],_,rfl,Colormap.length_createDefaultInverted _⟩)
    · exact Or.inr (Or.inr ⟨by simpa using hs,rfl⟩)

/-- The combinations of samples and `photometric` for which the three case trees agree. -/
def Suits (tags : Tags) : Prop :=
  (tags.spp = 1 ∧ (tags.photometric ∈
      [some photometricMinIsWhite,some photometricMinIsBlack,some photometricPalette] ∨ tags.bps ∈ [1,8])) ∨
    (tags.spp ≠ 1 ∧ tags.photometric ∈ [some photometricRgb,some photometricSeparated])

instance (tags : Tags) : Decidable (Suits tags) := inferInstanceAs (Decidable (_ ∨ _))

theorem spp_one_agree {photometric : UInt16} {colormapHelper : Option Colormap} {rect : Rectangle ℤ}
    (hb : tags.bps ∈ [1,2,4,8]) (hspp : tags.spp = 1)
    (hc : colormapHelperFor tags photometric = some colormapHelper) :
    LayersAgree ⟨bitmapType tags photometric,tags.bps,tags.spp,rect,colormapHelper⟩ ↔
      photometric ∈ [photometricMinIsWhite,photometricMinIsBlack,photometricPalette] ∨ tags.bps ∈ [1,8] := by
  have htype : bitmapType tags photometric =
      if photometric = photometricPalette then .colormapped else .greyscale := by
    simp [bitmapType,hspp]
  rcases colormapHelperFor_cases hc with ⟨hp,colormap,rfl,hlen⟩ | ⟨hp,colormap,rfl,hlen⟩ | ⟨hp,rfl⟩
  · refine (palette_agree hb (by rw [htype,if_pos hp]) hspp rfl).trans ?_
    exact iff_of_true hlen.ge (Or.inl (by simp [hp]))
  · have hne : photometric ≠ photometricPalette := fun h => by
      rw [h] at hp
      exact absurd hp (by decide)
    have htwo : 2 ≤ ((some colormap).getD (.createDefault 2)).length :=
      (two_le_numberOfGreyscaleColors tags.bps).trans hlen.ge
    refine (greyscale_agree hb (by rw [htype,if_neg hne]) hspp htwo).trans ?_
    refine iff_of_true (fun hi => ?_) (Or.inl ?_)
    · rw [Option.getD_some,hlen,numberOfGreyscaleColors,if_pos hi,Nat.one_shiftLeft]
    · simp only [List.mem_cons,List.not_mem_nil,or_false] at hp ⊢
      tauto
  · have hne : photometric ∉ [photometricMinIsWhite,photometricMinIsBlack,photometricPalette] := fun h => by
      simp only [List.mem_cons,List.not_mem_nil,or_false] at hp h
      rcases hp with rfl | rfl <;> exact absurd h (by decide)
    have hpal : photometric ≠ photometricPalette := fun h => hne (by simp [h])
    have htwo : 2 ≤ ((none : Option Colormap).getD (.createDefault 2)).length := Nat.le_refl 2
    refine (greyscale_agree hb (by rw [htype,if_neg hpal]) hspp htwo).trans ?_
    simp only [hne,false_or,List.mem_cons,List.not_mem_nil,or_false] at hb ⊢
    rw [Option.getD_none,Colormap.length_createDefault]
    rcases hb with hb | hb | hb | hb <;> simp [hb]

/-- The metadata of an accepted header suits the layer operations exactly for the combinations
above. The others are greyscale indices without a colormap of their own, and several samples
together with a colormap helper. -/
theorem layersAgree_iff {bmd : BitmapMetaData} (h : openTiff tags = some (some bmd)) :
    LayersAgree bmd ↔ Suits tags := by
  obtain ⟨hs,width,height,photometric,colormapHelper,rect,hd,hc,-,rfl⟩ := openTiff_accepted h
  have hsuits : Suits tags ↔ (tags.spp = 1 ∧ (photometric ∈
      [photometricMinIsWhite,photometricMinIsBlack,photometricPalette] ∨ tags.bps ∈ [1,8])) ∨
      (tags.spp ≠ 1 ∧ photometric ∈ [photometricRgb,photometricSeparated]) := by
    simp only [Suits,hd.photometric_eq,List.mem_cons,List.not_mem_nil,or_false,Option.some.injEq]
  have hnone : colormapHelper = none ↔ photometric ∈ [photometricRgb,photometricSeparated] := by
    rcases colormapHelperFor_cases hc with ⟨hp,colormap,rfl,-⟩ | ⟨hp,colormap,rfl,-⟩ | ⟨hp,rfl⟩
    · exact iff_of_false (by simp) (by rw [hp]; decide)
    · refine iff_of_false (by simp) ?_
      simp only [List.mem_cons,List.not_mem_nil,or_false] at hp
      rcases hp with rfl | rfl <;> decide
    · exact iff_of_true rfl hp
  rw [hsuits]
  rcases hs.2 with hspp | hspp | ⟨hspp,hbps⟩
  · rw [spp_one_agree hs.1 hspp hc]
    simp [hspp]
  · rw [cmyk_agree hs.1 (by simp [bitmapType,hspp]) hspp]
    simp [hspp,hnone]
  · rw [rgb_agree hbps (by simp [bitmapType,hspp]) hspp]
    simp [hspp,hnone]

/-- A palette of 16 colours. -/
theorem layersAgree_iff_palette :
    LayersAgree ⟨.colormapped,4,1,⟨⟨0,100⟩,⟨0,50⟩⟩,some (.createDefault 16)⟩ ↔
      Suits ⟨some 1,some 4,some 100,some 50,some photometricPalette,none⟩ :=
  layersAgree_iff (by decide +kernel)

/-- One sample of 4 bits, called RGB by the header: the indices go up to 15 and there are two
colours. -/
theorem rgbSample_outOfColors : ¬ ∀ tags bmd, openTiff tags = some (some bmd) → LayersAgree bmd := by
  intro h
  have hagree := h ⟨some 1,some 4,some 100,some 50,some photometricRgb,none⟩
    ⟨.greyscale,4,1,⟨⟨0,100⟩,⟨0,50⟩⟩,none⟩ (by decide +kernel)
  have htwo : 2 ≤ ((none : Option Colormap).getD (.createDefault 2)).length := Nat.le_refl 2
  refine absurd ((greyscale_agree ?_ rfl rfl htwo).mp hagree (Or.inr rfl)) ?_
  · decide
  · decide

end Tiff

end Scroom
