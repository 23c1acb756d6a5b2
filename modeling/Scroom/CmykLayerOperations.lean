import Scroom.LayerOperations

/-! The operations on tiles in CMYK, with 8, 4, 2 and 1 bits per sample; all of them reduce
to 8 bits per sample. -/
namespace Scroom

variable {n m : ℕ}

/-- The pixel drawn for inverted channel values. -/
def inverseCmykPixel (C_i M_i Y_i K_i : ℕ) : ℕ :=
  (255 <<< 24) ||| ((C_i*K_i/255%256) <<< 16) ||| ((M_i*K_i/255%256) <<< 8) ||| (Y_i*K_i/255%256)

/-- The start of the target block, and the bytes of its rows, in all four reductions. -/
def cmykTargetStride : ℕ := 8*width/2
def cmykTargetBase (top_left_x top_left_y : ℕ) : ℕ := (height*top_left_y+top_left_x)*cmykTargetStride/8

namespace OperationsCMYK32

def cachePixel (tile : Buffer n) (j i : ℕ) : Option ℕ := do
  let p := 4*(j*width+i)
  let c ← byteAt tile p
  let m ← byteAt tile (p+1)
  let y ← byteAt tile (p+2)
  let k ← byteAt tile (p+3)
  return inverseCmykPixel (255-c) (255-m) (255-y) (255-k)

def sums (source : Buffer m) (y x : ℕ) : Option (List ℕ) :=
  let sourceStride := 8*width/2
  sumBlock 8 (fun k l => do
    let current := y*(sourceStride*8)+8*4*x+k*sourceStride+l*4
    return [← byteAt source current,← byteAt source (current+1),← byteAt source (current+2),
      ← byteAt source (current+3)]) [0,0,0,0]

def reduce (target : Buffer n) (source : Buffer m) (top_left_x top_left_y : ℕ) : Option (Buffer n) :=
  reduceBlocks (sums source)
    (fun target y x sum => putBytes target
      (cmykTargetBase top_left_x top_left_y+y*cmykTargetStride+4*x) (sum.map (·/64))) target

end OperationsCMYK32

namespace OperationsCMYK16

def cachePixel (tile : Buffer n) (j i : ℕ) : Option ℕ := do
  let p := 2*(j*width+i)
  let a ← byteAt tile p
  let b ← byteAt tile (p+1)
  return inverseCmykPixel (255-(a >>> 4)*17) (255-(a &&& 0x0F)*17) (255-(b >>> 4)*17) (255-(b &&& 0x0F)*17)

def sums (source : Buffer m) (y x : ℕ) : Option (List ℕ) :=
  let sourceStride := 4*width/2
  sumBlock 8 (fun k l => do
    let current := y*(sourceStride*8)+4*4*x+k*sourceStride+l*2
    let a ← byteAt source current
    let b ← byteAt source (current+1)
    return [a >>> 4,a &&& 15,b >>> 4,b &&& 15]) [0,0,0,0]

def reduce (target : Buffer n) (source : Buffer m) (top_left_x top_left_y : ℕ) : Option (Buffer n) :=
  reduceBlocks (sums source)
    (fun target y x sum => putBytes target
      (cmykTargetBase top_left_x top_left_y+y*cmykTargetStride+4*x) (sum.map (·*255/(15*64)))) target

end OperationsCMYK16

namespace OperationsCMYK8

def cachePixel (tile : Buffer n) (j i : ℕ) : Option ℕ := do
  let cur ← byteAt tile (j*width+i)
  return inverseCmykPixel (255-(cur >>> 6)*85) (255-((cur &&& 0x30) >>> 4)*85)
    (255-((cur &&& 0x0C) >>> 2)*85) (255-(cur &&& 0x03)*85)

def sums (source : Buffer m) (y x : ℕ) : Option (List ℕ) :=
  let sourceStride := width
  sumBlock 8 (fun k l => do
    let cur ← byteAt source (y*(sourceStride*8)+2*4*x+k*sourceStride+l)
    return [cur >>> 6,(cur &&& 0x30) >>> 4,(cur &&& 0x0C) >>> 2,cur &&& 0x03]) [0,0,0,0]

def reduce (target : Buffer n) (source : Buffer m) (top_left_x top_left_y : ℕ) : Option (Buffer n) :=
  reduceBlocks (sums source)
    (fun target y x sum => putBytes target
      (cmykTargetBase top_left_x top_left_y+y*cmykTargetStride+4*x) (sum.map (·*255/192))) target

end OperationsCMYK8

namespace OperationsCMYK4

/-- `static_cast<uint8_t>(bit - 1)` -/
def minusOne (b : ℕ) : ℕ := (b+255)%256

/-- Even pixels are in the top half of a byte, odd ones in the lower half. -/
def cachePixel (tile : Buffer n) (j i : ℕ) : Option ℕ := do
  let p := j*width+i
  let cur ← byteAt tile (p/2)
  if p &&& 1 = 0 then
    return inverseCmykPixel (minusOne (cur >>> 7)) (minusOne ((cur &&& 0x40) >>> 6))
      (minusOne ((cur &&& 0x20) >>> 5)) (minusOne ((cur &&& 0x10) >>> 4))
  else
    return inverseCmykPixel (minusOne ((cur &&& 0x08) >>> 3)) (minusOne ((cur &&& 0x04) >>> 2))
      (minusOne ((cur &&& 0x02) >>> 1)) (minusOne (cur &&& 0x01))

def sums (source : Buffer m) (y x : ℕ) : Option (List ℕ) :=
  let sourceStride := width/2
  sumBlock 4 (fun k l => do
    let cur ← byteAt source (y*(sourceStride*8)+4*x+k*sourceStride+l)
    return [((cur >>> 7) &&& 1)+((cur >>> 3) &&& 1),((cur >>> 6) &&& 1)+((cur >>> 2) &&& 1),
      ((cur >>> 5) &&& 1)+((cur >>> 1) &&& 1),((cur >>> 4) &&& 1)+((cur >>> 0) &&& 1)]) [0,0,0,0]

def reduce (target : Buffer n) (source : Buffer m) (top_left_x top_left_y : ℕ) : Option (Buffer n) :=
  reduceBlocks (sums source)
    (fun target y x sum => putBytes target
      (cmykTargetBase top_left_x top_left_y+y*cmykTargetStride+4*x) (sum.map (·*255/64))) target

end OperationsCMYK4

/-- The classes of operations. A colormap provider is taken as the colormap it provides. -/
inductive LayerOperations
  | operations1bpp (colormap : Colormap)
  | operations1bppClipped (colormap : Colormap)
  | operations8bpp (colormap : Colormap)
  | operations24bpp
  | operations (colormap : Colormap) (bpp : ℕ)
  | operationsColormapped (colormap : Colormap) (bpp : ℕ)
  | operationsCMYK32
  | operationsCMYK16
  | operationsCMYK8
  | operationsCMYK4
  deriving DecidableEq

namespace LayerOperations

def getBpp : LayerOperations → ℕ
  | operations1bpp _ => 1
  | operations1bppClipped _ => 1
  | operations8bpp _ => 8
  | operations24bpp => 24
  | operations _ bpp => bpp
  | operationsColormapped _ bpp => 2*bpp
  | operationsCMYK32 => 32
  | operationsCMYK16 => 16
  | operationsCMYK8 => 8
  | operationsCMYK4 => 4

/-- The pixel of a tile that `cache` draws; the clipped operations have no `cache`. -/
def cachePixel (tile : Buffer n) (j i : ℕ) : LayerOperations → Option ℕ
  | operations1bpp colormap => Operations1bpp.cachePixel colormap tile j i
  | operations1bppClipped _ => none
  | operations8bpp colormap => Operations8bpp.cachePixel colormap tile j i
  | operations24bpp => Operations24bpp.cachePixel tile j i
  | operations colormap bpp => Operations.cachePixel colormap bpp tile j i
  | operationsColormapped colormap bpp => OperationsColormapped.cachePixel colormap bpp tile j i
  | operationsCMYK32 => OperationsCMYK32.cachePixel tile j i
  | operationsCMYK16 => OperationsCMYK16.cachePixel tile j i
  | operationsCMYK8 => OperationsCMYK8.cachePixel tile j i
  | operationsCMYK4 => OperationsCMYK4.cachePixel tile j i

def cache (lo : LayerOperations) (tile : Tile lo.getBpp) : Option (List (List ℕ)) :=
  match lo with
  | operations1bppClipped _ => some []
  | lo => cachePixels fun j i => lo.cachePixel tile j i

def reduce (target : Buffer n) (source : Buffer m) (x y : ℕ) : LayerOperations → Option (Buffer n)
  | operations1bpp _ => Operations1bpp.reduce target source x y
  | operations1bppClipped _ => Operations1bppClipped.reduce target source x y
  | operations8bpp _ => Operations8bpp.reduce target source x y
  | operations24bpp => Operations24bpp.reduce target source x y
  | operations _ bpp => Operations.reduce bpp target source x y
  | operationsColormapped _ bpp => OperationsColormapped.reduce bpp target source x y
  | operationsCMYK32 => OperationsCMYK32.reduce target source x y
  | operationsCMYK16 => OperationsCMYK16.reduce target source x y
  | operationsCMYK8 => OperationsCMYK8.reduce target source x y
  | operationsCMYK4 => OperationsCMYK4.reduce target source x y

/-- The bits per pixel of a target tile, that is, of the operations of the next layer. -/
def targetBpp : LayerOperations → ℕ
  | operations1bpp _ => 8
  | operations1bppClipped _ => 1
  | operations8bpp _ => 8
  | operations24bpp => 24
  | operations _ bpp => 2*bpp
  | operationsColormapped _ bpp => 2*bpp
  | _ => 32

end LayerOperations
end Scroom
