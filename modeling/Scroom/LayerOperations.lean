import Scroom.Color
import Scroom.SampleIterator

/-! The operations of a layer on its tiles: `cache` computes the image that is drawn, and
`reduce` shrinks a tile by 8 into a block of a tile of the next layer. -/
namespace Scroom

/-- Every tile has `TILESIZE` by `TILESIZE` pixels. -/
def width : ℕ := 4096
def height : ℕ := 4096

abbrev Tile (bpp : ℕ) := Buffer (width*height*bpp/8)

variable {n m : ℕ}

/-- The pixels that `cache` draws, row by row. -/
def cachePixels (pixel : ℕ → ℕ → Option ℕ) : Option (List (List ℕ)) :=
  (List.range height).mapM fun j => (List.range width).mapM fun i => pixel j i

/-- The loops of `reduce` over the rows and the pixels of the target block. A pointer that
a turn of a loop advances by a constant is written as a function of the turn. -/
def reduceBlocks {V : Type} (kernel : ℕ → ℕ → Option V)
    (put : Buffer n → ℕ → ℕ → V → Option (Buffer n)) (target : Buffer n) : Option (Buffer n) :=
  (List.range (height/8)).foldlM (fun target j =>
    (List.range (width/8)).foldlM (fun target i => (kernel j i).bind (put target j i)) target) target

/-- The sums over a block of 8 rows, for as many channels as a sample has. -/
def sumBlock (cols : ℕ) (sample : ℕ → ℕ → Option (List ℕ)) (zero : List ℕ) : Option (List ℕ) :=
  (List.range 8).foldlM (fun sum k =>
    (List.range cols).foldlM (fun sum l => (sample k l).map (List.zipWith (·+·) sum)) sum) zero

/-- Assignments to `targetPtr[0]`, `targetPtr[1]` and so on. -/
def putBytes (target : Buffer n) (targetPtr : ℕ) (values : List ℕ) : Option (Buffer n) :=
  (List.range values.length).foldlM (fun target c =>
    Buffer.write target (targetPtr+c) (.ofNat (values.getD c 0))) target

def byteAt (b : Buffer n) (i : ℕ) : Option ℕ := b[i]?.map UInt8.toNat

/-- `BitCountLut`: the ones in a byte. -/
def bitCount (v : ℕ) : ℕ := (List.range 8).foldl (fun sum k => sum+((v >>> k) &&& 1)) 0

namespace Operations1bpp

def cachePixel (colormap : Colormap) (tile : Buffer n) (j i : ℕ) : Option ℕ := do
  let bit := SampleIterator.next^[i] (.create .uint8 (j*width/8) 0 1)
  let color ← colormap[← bit.get tile]?
  return color.getARGB32

/-- The ones in a block of the source. -/
def sums (source : Buffer m) (j i : ℕ) : Option (List ℕ) :=
  let sourceStride := width/8
  sumBlock 1 (fun k _ => do
    return [bitCount (← byteAt source (j*(sourceStride*8)+i+k*sourceStride))]) [0]

def reduce (target : Buffer n) (source : Buffer m) (x y : ℕ) : Option (Buffer n) :=
  let targetStride := width
  let targetBase := height*y*targetStride/8+width*x/8
  reduceBlocks (sums source)
    (fun target j i sum => putBytes target (targetBase+j*targetStride+i) (sum.map (·*255/64))) target

end Operations1bpp

namespace Operations8bpp

def cachePixel (colormap : Colormap) (tile : Buffer n) (j i : ℕ) : Option ℕ := do
  let c1 ← colormap[0]?
  let c2 ← colormap[1]?
  let cur ← byteAt tile (j*width+i)
  return (Color.mix c2 c1 (1*cur/255)).getARGB32

def sums (source : Buffer m) (j i : ℕ) : Option (List ℕ) :=
  let sourceStride := width
  sumBlock 8 (fun k l => do
    return [← byteAt source (j*(sourceStride*8)+i*8+k*sourceStride+l)]) [0]

def reduce (target : Buffer n) (source : Buffer m) (x y : ℕ) : Option (Buffer n) :=
  let targetStride := width
  let targetBase := height*y*targetStride/8+width*x/8
  reduceBlocks (sums source)
    (fun target j i sum => putBytes target (targetBase+j*targetStride+i) (sum.map (·/64))) target

end Operations8bpp

namespace Operations24bpp

def cachePixel (tile : Buffer n) (j i : ℕ) : Option ℕ := do
  let cur := 3*j*width+3*i
  let r ← byteAt tile cur
  let g ← byteAt tile (cur+1)
  let b ← byteAt tile (cur+2)
  return 0xFF000000 ||| (r <<< 16) ||| (g <<< 8) ||| b

def sums (source : Buffer m) (j i : ℕ) : Option (List ℕ) :=
  let sourceStride := 3*width
  sumBlock 8 (fun k l => do
    let current := j*(sourceStride*8)+i*(8*3)+k*sourceStride+l*3
    return [← byteAt source current,← byteAt source (current+1),← byteAt source (current+2)]) [0,0,0]

def reduce (target : Buffer n) (source : Buffer m) (x y : ℕ) : Option (Buffer n) :=
  let targetStride := 3*width
  let targetBase := height*y*targetStride/8+targetStride*x/8
  reduceBlocks (sums source)
    (fun target j i sum => putBytes target (targetBase+j*targetStride+i*3) (sum.map (·/64))) target

end Operations24bpp

/-- One more occurrence of a value, in a table of bytes. -/
def increment (lookup : List ℕ) (value : ℕ) : Option (List ℕ) :=
  if value < lookup.length then some (lookup.modify value fun c => (c+1)%256) else none

/-- The two values that occur most often. -/
def topTwo (lookup : List ℕ) : ℕ × ℕ :=
  let best := (List.range' 2 (lookup.length-2)).foldl (fun best c =>
      if lookup.getD c 0 > lookup.getD best.1 0 then (c,best.1)
      else if lookup.getD c 0 > lookup.getD best.2 0 then (best.1,c)
      else best)
    (if lookup.getD 1 0 > lookup.getD 0 0 then (1,0) else (0,1))
  if lookup.getD best.2 0 = 0 then (best.1,best.1) else best

namespace Operations

def pixelsPerByte (bpp : ℕ) : ℕ := 8/bpp
def pixelMask (bpp : ℕ) : ℕ := (1 <<< bpp)-1

def cachePixel (colormap : Colormap) (bpp : ℕ) (tile : Buffer n) (j i : ℕ) : Option ℕ := do
  let pixelIn := SampleIterator.next^[i] (.create .uint8 (j*width/pixelsPerByte bpp) 0 bpp)
  let color ← colormap[← pixelIn.get tile]?
  return color.getARGB32

def counts (bpp : ℕ) (source : Buffer m) (j i : ℕ) : Option (List ℕ) :=
  let sourceStride := width/pixelsPerByte bpp
  (List.range 8).foldlM (fun lookup k =>
      (List.range 8).foldlM (fun lookup l => do
        let base := j*(sourceStride*8)+i*(8/pixelsPerByte bpp)+k*sourceStride
        let current := SampleIterator.next^[l] (.create .uint8 base 0 bpp)
        increment lookup (← current.get source)) lookup)
    (List.replicate (pixelMask bpp+1) 0)

def reduce (bpp : ℕ) (target : Buffer n) (source : Buffer m) (x y : ℕ) : Option (Buffer n) :=
  let targetMultiplier := 2
  let targetStride := targetMultiplier*width/pixelsPerByte bpp
  let targetBase := height*targetStride*y/8+targetMultiplier*width*x/8/pixelsPerByte bpp
  reduceBlocks (counts bpp source)
    (fun target j i lookup =>
      let targetPtr := SampleIterator.next^[i]
        (.create .uint16 (targetBase+j*targetStride) 0 (targetMultiplier*bpp))
      targetPtr.set target (((topTwo lookup).1 <<< bpp) ||| (topTwo lookup).2)) target

end Operations

namespace OperationsColormapped
open Operations

def cachePixel (colormap : Colormap) (bpp : ℕ) (tile : Buffer n) (j i : ℕ) : Option ℕ := do
  let multiplier := 2
  let pixelIn := SampleIterator.next^[i]
    (.create .uint16 (j*multiplier*width/pixelsPerByte bpp) 0 (multiplier*bpp))
  let value ← pixelIn.get tile
  let a ← colormap[value &&& pixelMask bpp]?
  let b ← colormap[value >>> bpp]?
  return (Color.mix a b (1/2)).getARGB32

def counts (bpp : ℕ) (source : Buffer m) (j i : ℕ) : Option (List ℕ) :=
  let multiplier := 2
  let sourceStride := multiplier*width/pixelsPerByte bpp
  (List.range 8).foldlM (fun lookup k =>
      (List.range 8).foldlM (fun lookup l => do
        let base := j*(sourceStride*8)+i*(8*multiplier/pixelsPerByte bpp)+k*sourceStride
        let current := SampleIterator.next^[l] (.create .uint16 base 0 (multiplier*bpp))
        let value ← current.get source
        increment (← increment lookup (value &&& pixelMask bpp)) (value >>> bpp)) lookup)
    (List.replicate (pixelMask bpp+1) 0)

def reduce (bpp : ℕ) (target : Buffer n) (source : Buffer m) (x y : ℕ) : Option (Buffer n) :=
  let multiplier := 2
  let targetStride := multiplier*width/pixelsPerByte bpp
  let targetBase := height*y*targetStride/8+multiplier*width*x/8/pixelsPerByte bpp
  reduceBlocks (counts bpp source)
    (fun target j i lookup =>
      let targetPtr := SampleIterator.next^[i]
        (.create .uint16 (targetBase+j*targetStride) 0 (multiplier*bpp))
      targetPtr.set target (((topTwo lookup).1 <<< bpp) ||| (topTwo lookup).2)) target

end OperationsColormapped

namespace Operations1bppClipped

def reduce (target : Buffer n) (source : Buffer m) (x y : ℕ) : Option (Buffer n) :=
  let targetStride := width/8
  let targetBase := height*y*targetStride/8+width*x/8/8
  reduceBlocks (Operations1bpp.sums source)
    (fun target j i sum =>
      let targetPtr := SampleIterator.next^[i] (.create .uint8 (targetBase+j*targetStride) 0 1)
      targetPtr.set target (if sum.getD 0 0 > 0 then 1 else 0)) target

end Operations1bppClipped

end Scroom
