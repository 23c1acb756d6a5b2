import Scroom.Pixels
import Scroom.Rectangle

/-! The choice of the layer operations for a bitmap, from its metadata. -/
namespace Scroom

inductive BitmapType
  | rgb | cmyk | greyscale | colormapped
  deriving DecidableEq

/-- A colormap helper is taken as the colormap it was created with. -/
structure BitmapMetaData where
  type : BitmapType
  bitsPerSample : ℕ
  samplesPerPixel : ℕ
  rect : Rectangle ℤ
  colormapHelper : Option Colormap
  deriving DecidableEq

abbrev LayerSpec := List LayerOperations

abbrev LayerSpecResult := LayerSpec × Option Colormap

/-- A violated precondition ends the program. -/
def require (p : Prop) [Decidable p] : Option Unit := if p then some () else none

variable {bmd : BitmapMetaData}

def rgbBitmap (bmd : BitmapMetaData) : Option LayerSpecResult := do
  if bmd.type ≠ .rgb then return ([],none)
  require (bmd.samplesPerPixel = 3)
  require (bmd.colormapHelper = none)
  if bmd.bitsPerSample ≠ 8 then return ([],none)
  return ([.operations24bpp],none)

def cmykBitmap (bmd : BitmapMetaData) : Option LayerSpecResult := do
  if bmd.type ≠ .cmyk then return ([],none)
  require (bmd.samplesPerPixel = 4)
  require (bmd.colormapHelper = none)
  if bmd.bitsPerSample = 8 then return ([.operationsCMYK32],none)
  else if bmd.bitsPerSample = 4 then return ([.operationsCMYK16,.operationsCMYK32],none)
  else if bmd.bitsPerSample = 2 then return ([.operationsCMYK8,.operationsCMYK32],none)
  else if bmd.bitsPerSample = 1 then return ([.operationsCMYK4,.operationsCMYK32],none)
  else return ([],none)

def greyscaleBitmap (bmd : BitmapMetaData) : Option LayerSpecResult := do
  if bmd.type ≠ .greyscale then return ([],none)
  require (bmd.samplesPerPixel = 1)
  if bmd.bitsPerSample ∉ [1,2,4,8] then return ([],none)
  let colormapHelper := bmd.colormapHelper.getD (.createDefault 2)
  if bmd.bitsPerSample = 2 ∨ bmd.bitsPerSample = 4 then
    return ([.operations colormapHelper bmd.bitsPerSample,
      .operationsColormapped colormapHelper bmd.bitsPerSample],some colormapHelper)
  else if bmd.bitsPerSample = 1 then
    return ([.operations1bpp colormapHelper,.operations8bpp colormapHelper],some colormapHelper)
  else return ([.operations8bpp colormapHelper],some colormapHelper)

def colormappedBitmap (bmd : BitmapMetaData) : Option LayerSpecResult := do
  if bmd.type ≠ .colormapped then return ([],none)
  require (bmd.samplesPerPixel = 1)
  let colormapHelper ← bmd.colormapHelper
  if bmd.bitsPerSample ∉ [1,2,4,8] then return ([],none)
  return ([.operations colormapHelper bmd.bitsPerSample,
    .operationsColormapped colormapHelper bmd.bitsPerSample],some colormapHelper)

/-- Later registered functions are tried first, until one gives operations. -/
def layerSpecForBitmap (bmd : BitmapMetaData) : Option LayerSpecResult :=
  [rgbBitmap,cmykBitmap,greyscaleBitmap,colormappedBitmap].reverse.foldlM
    (fun ls f => if ls.1 ≠ [] then some ls else f bmd) ([],none)

/-- The function for each type of bitmap. -/
def bitmapFunction : BitmapType → BitmapMetaData → Option LayerSpecResult
  | .rgb => rgbBitmap
  | .cmyk => cmykBitmap
  | .greyscale => greyscaleBitmap
  | .colormapped => colormappedBitmap

/-- The pairs of operations of a layer and of the next one. -/
inductive Follows : LayerOperations → LayerOperations → Prop
  | oneBit (colormap : Colormap) : Follows (.operations1bpp colormap) (.operations8bpp colormap)
  | eightBits (colormap : Colormap) : Follows (.operations8bpp colormap) (.operations8bpp colormap)
  | rgb : Follows .operations24bpp .operations24bpp
  | indices (colormap : Colormap) {bpp : ℕ} (h : bpp ∈ [1,2,4,8]) :
      Follows (.operations colormap bpp) (.operationsColormapped colormap bpp)
  | pairs (colormap : Colormap) {bpp : ℕ} (h : bpp ∈ [1,2,4,8]) :
      Follows (.operationsColormapped colormap bpp) (.operationsColormapped colormap bpp)
  | cmyk32 : Follows .operationsCMYK32 .operationsCMYK32
  | cmyk16 : Follows .operationsCMYK16 .operationsCMYK32
  | cmyk8 : Follows .operationsCMYK8 .operationsCMYK32
  | cmyk4 : Follows .operationsCMYK4 .operationsCMYK32

theorem Follows.getBpp {lo next : LayerOperations} (h : Follows lo next) : next.getBpp = lo.targetBpp := by
  cases h <;> rfl

theorem Follows.indexBits {lo next : LayerOperations} (h : Follows lo next) :
    lo.IndexBits ∧ next.IndexBits := by
  cases h with
  | indices colormap h => exact ⟨h,h⟩
  | pairs colormap h => exact ⟨h,h⟩
  | _ => exact ⟨trivial,trivial⟩

theorem Follows.draws {lo next : LayerOperations} (h : Follows lo next) : lo.Draws ∧ next.Draws := by
  cases h <;> exact ⟨trivial,trivial⟩

theorem Follows.setColormap {lo next : LayerOperations} (h : Follows lo next) (colormap : Colormap) :
    Follows (lo.setColormap colormap) (next.setColormap colormap) := by
  cases h with
  | oneBit _ => exact .oneBit colormap
  | eightBits _ => exact .eightBits colormap
  | rgb => exact .rgb
  | indices _ hb => exact .indices colormap hb
  | pairs _ hb => exact .pairs colormap hb
  | cmyk32 => exact .cmyk32
  | cmyk16 => exact .cmyk16
  | cmyk8 => exact .cmyk8
  | cmyk4 => exact .cmyk4

/-- Every layer spec has one or two operations. -/
def Chain (ls : LayerSpec) : Prop :=
  (∃ lo, ls = [lo] ∧ Follows lo lo) ∨ ∃ lo next, ls = [lo,next] ∧ Follows lo next ∧ Follows next next

theorem Chain.follows {ls : LayerSpec} (h : Chain ls) {k : ℕ} {lo next : LayerOperations}
    (hlo : ls[min k (ls.length-1)]? = some lo) (hnext : ls[min (k+1) (ls.length-1)]? = some next) :
    Follows lo next := by
  rcases h with ⟨a,rfl,ha⟩ | ⟨a,b,rfl,ha,hb⟩
  · have hl : a = lo := by simpa using hlo
    have hn : a = next := by simpa using hnext
    rwa [← hl,← hn]
  · have hn : b = next := by simpa using hnext
    cases k with
    | zero =>
      have hl : a = lo := by simpa using hlo
      rwa [← hl,← hn]
    | succ k =>
      have hl : b = lo := by simpa using hlo
      rwa [← hl,← hn]

/-- What a function returns for a bitmap of its type, unless a precondition is violated. -/
theorem chain_of_bitmapFunction {type : BitmapType} {r : LayerSpecResult}
    (h : bitmapFunction type bmd = some r) : r = ([],none) ∨ Chain r.1 := by
  cases type with
  | rgb =>
    simp only [bitmapFunction,rgbBitmap,require] at h
    split_ifs at h <;> cases h
    · exact Or.inl rfl
    · exact Or.inl rfl
    · exact Or.inr (Or.inl ⟨_,rfl,.rgb⟩)
  | cmyk =>
    simp only [bitmapFunction,cmykBitmap,require] at h
    split_ifs at h <;> cases h
    · exact Or.inl rfl
    · exact Or.inr (Or.inl ⟨_,rfl,.cmyk32⟩)
    · exact Or.inr (Or.inr ⟨_,_,rfl,.cmyk16,.cmyk32⟩)
    · exact Or.inr (Or.inr ⟨_,_,rfl,.cmyk8,.cmyk32⟩)
    · exact Or.inr (Or.inr ⟨_,_,rfl,.cmyk4,.cmyk32⟩)
    · exact Or.inl rfl
  | greyscale =>
    simp only [bitmapFunction,greyscaleBitmap,require] at h
    split_ifs at h with _ _ hbits <;> cases h
    · exact Or.inl rfl
    · exact Or.inr (Or.inr ⟨_,_,rfl,.indices _ hbits,.pairs _ hbits⟩)
    · exact Or.inr (Or.inr ⟨_,_,rfl,.oneBit _,.eightBits _⟩)
    · exact Or.inr (Or.inl ⟨_,rfl,.eightBits _⟩)
    · exact Or.inl rfl
  | colormapped =>
    simp only [bitmapFunction,colormappedBitmap,require] at h
    cases hc : bmd.colormapHelper with
    | none => split_ifs at h <;> simp_all
    | some colormapHelper =>
      rw [hc] at h
      split_ifs at h with _ _ hbits <;> cases h
      · exact Or.inl rfl
      · exact Or.inr (Or.inr ⟨_,_,rfl,.indices _ hbits,.pairs _ hbits⟩)
      · exact Or.inl rfl

theorem bitmapFunction_of_ne {type : BitmapType} (h : bmd.type ≠ type) :
    bitmapFunction type bmd = some ([],none) := by
  cases type with
  | rgb => simp [bitmapFunction,rgbBitmap,h]
  | cmyk => simp [bitmapFunction,cmykBitmap,h]
  | greyscale => simp [bitmapFunction,greyscaleBitmap,h]
  | colormapped => simp [bitmapFunction,colormappedBitmap,h]

/-- Only the function for the type of the bitmap contributes. -/
theorem layerSpecForBitmap_eq (bmd : BitmapMetaData) :
    layerSpecForBitmap bmd = bitmapFunction bmd.type bmd := by
  have hkeep : ∀ type (r : Option LayerSpecResult), bitmapFunction bmd.type bmd = r → bmd.type ≠ type →
      (r.bind fun ls => if ls.1 ≠ [] then some ls else bitmapFunction type bmd) = r := by
    intro type r hr hne
    cases r with
    | none => rfl
    | some r =>
      by_cases h : r.1 ≠ []
      · exact if_pos h
      · have hnil := (chain_of_bitmapFunction hr).resolve_right fun hc => by
          rcases hc with ⟨a,ha,-⟩ | ⟨a,b,ha,-⟩ <;> simp [ha] at h
        simp [hnil,bitmapFunction_of_ne hne]
  have hfold : layerSpecForBitmap bmd = (((bitmapFunction .colormapped bmd).bind
      fun ls => if ls.1 ≠ [] then some ls else bitmapFunction .greyscale bmd).bind
      fun ls => if ls.1 ≠ [] then some ls else bitmapFunction .cmyk bmd).bind
      fun ls => if ls.1 ≠ [] then some ls else bitmapFunction .rgb bmd := by
    simp only [layerSpecForBitmap,List.reverse_cons,List.reverse_nil,List.nil_append,List.cons_append,
      List.foldlM_cons,List.foldlM_nil,Option.bind_eq_bind,Option.bind_assoc,Option.pure_def,
      Option.bind_fun_some]
    rfl
  rw [hfold]
  cases ht : bmd.type with
  | colormapped =>
    rw [ht] at hkeep
    rw [hkeep .greyscale _ rfl (by decide),hkeep .cmyk _ rfl (by decide),hkeep .rgb _ rfl (by decide)]
  | greyscale =>
    rw [ht] at hkeep
    rw [bitmapFunction_of_ne (by rw [ht]; decide),Option.bind_some,if_neg (not_not.mpr rfl),
      hkeep .cmyk _ rfl (by decide),hkeep .rgb _ rfl (by decide)]
  | cmyk =>
    rw [ht] at hkeep
    rw [bitmapFunction_of_ne (by rw [ht]; decide),Option.bind_some,if_neg (not_not.mpr rfl),
      bitmapFunction_of_ne (by rw [ht]; decide),Option.bind_some,if_neg (not_not.mpr rfl),
      hkeep .rgb _ rfl (by decide)]
  | rgb =>
    rw [bitmapFunction_of_ne (by rw [ht]; decide),Option.bind_some,if_neg (not_not.mpr rfl),
      bitmapFunction_of_ne (by rw [ht]; decide),Option.bind_some,if_neg (not_not.mpr rfl),
      bitmapFunction_of_ne (by rw [ht]; decide),Option.bind_some,if_neg (not_not.mpr rfl)]

theorem follows_of_layerSpecForBitmap {ls : LayerSpec} {colormapHelper : Option Colormap}
    (h : layerSpecForBitmap bmd = some (ls,colormapHelper)) {k : ℕ} {lo next : LayerOperations}
    (hlo : ls[min k (ls.length-1)]? = some lo) (hnext : ls[min (k+1) (ls.length-1)]? = some next) :
    Follows lo next := by
  rw [layerSpecForBitmap_eq] at h
  rcases chain_of_bitmapFunction h with hnil | hchain
  · cases hnil
    simp at hlo
  · exact hchain.follows hlo hnext

end Scroom
