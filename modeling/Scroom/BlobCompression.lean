import Scroom.Blob
import Scroom.Zlib

/-! Compressing a blob into pages, and back. A page is written from its beginning, and keeps behind
that what it had before. -/
namespace Scroom
namespace BlobCompression
open Zlib

/-- The part of a `z_stream` that the two functions use. Both sizes are of type `uInt`. -/
structure ZStream (S : Type*) where
  nextIn : List UInt8 := []
  availIn : ℕ := 0
  availOut : ℕ := 0
  state : S

/-- A check that fails, `verify` or `zlib_verify`. -/
inductive Failure
  | verify (expr : String)
  | zlibVerify (functionName : String) (r : ℤ)
  deriving DecidableEq

/-- Bytes are written to the beginning of a piece of memory. -/
def write (produced memory : List UInt8) : List UInt8 := produced ++ memory.drop produced.length

def uInt (n : ℕ) : ℕ := n%2^32

section Functions
variable (z : Library) (pageSize : ℕ)

/-- The loop of `compressBlob`. `getFreePage n` is what is in the page that the provider hands out
after `n` others. It returns the pages and what `deflate` said last. -/
def compressPages (getFreePage : ℕ → List UInt8) : ℕ → ℕ → ZStream z.DeflateState → List (List UInt8) →
    Option (Except Failure (List (List UInt8) × ℤ × z.DeflateState))
  | 0, _, _, _ => none
  | fuel+1, n, stream, result =>
    if stream.availOut ≠ 0 then some (.error (.verify "stream.avail_out == 0"))
    else
      let availOut := uInt pageSize
      let d := z.deflate stream.state (stream.nextIn.take stream.availIn) availOut
      let result := result ++ [write d.produced (getFreePage n)]
      if d.r = ok then
        compressPages getFreePage fuel (n+1)
          { nextIn := stream.nextIn.drop d.consumed
            availIn := stream.availIn-d.consumed
            availOut := availOut-d.produced.length
            state := d.state } result
      else some (.ok (result,d.r,d.state))

/-- The checks after the loop. -/
def compressEnd (result : List (List UInt8)) (r : ℤ) (state : z.DeflateState) :
    Except Failure (List (List UInt8)) :=
  if r ≠ streamEnd then .error (.zlibVerify "deflate" r)
  else if z.deflateEnd state ≠ ok then .error (.zlibVerify "deflateEnd" (z.deflateEnd state))
  else .ok result

def compressBlob (getFreePage : ℕ → List UInt8) (fuel : ℕ) (input : List UInt8) :
    Option (Except Failure (List (List UInt8))) :=
  if z.deflateInit.1 ≠ ok then some (.error (.zlibVerify "deflateInit" z.deflateInit.1))
  else
    (compressPages z pageSize getFreePage fuel 0
      { nextIn := input, availIn := uInt input.length, state := z.deflateInit.2 } []).map fun pages =>
        pages.bind fun (result,r,state) => compressEnd z result r state

/-- The loop of `decompressBlob`. `produced` has been written to the output. -/
def decompressPages : List (List UInt8) → ZStream z.InflateState → List UInt8 → ℤ →
    Except Failure (List UInt8 × ℤ × z.InflateState)
  | [], stream, produced, r => .ok (produced,r,stream.state)
  | page::list, stream, produced, r =>
    if r ≠ ok then .ok (produced,r,stream.state)
    else if stream.availIn ≠ 0 then .error (.verify "stream.avail_in == 0")
    else
      let availIn := uInt pageSize
      let flush := if list.isEmpty then Flush.finish else Flush.noFlush
      let d := z.inflate stream.state (page.take availIn) stream.availOut flush
      decompressPages list
        { nextIn := page.drop d.consumed
          availIn := availIn-d.consumed
          availOut := stream.availOut-d.produced.length
          state := d.state } (produced ++ d.produced) d.r

/-- The output as it is afterwards. -/
def decompressBlob (out : List UInt8) (list : List (List UInt8)) : Except Failure (List UInt8) :=
  if z.inflateInit.1 ≠ ok then .error (.zlibVerify "inflateInit" z.inflateInit.1)
  else do
    let (produced,r,state) ← decompressPages z pageSize list
      { availOut := uInt out.length, state := z.inflateInit.2 } [] z.inflateInit.1
    if r ≠ ok ∧ r ≠ streamEnd then .error (.zlibVerify "inflate" r)
    else if z.inflateEnd state ≠ ok then .error (.zlibVerify "inflateEnd" (z.inflateEnd state))
    else .ok (write produced out)

/-- Whatever was in the pages and in the output, the pages that an input is compressed to are
decompressed to that input, and no check fails. -/
def RoundTrips (input : List UInt8) : Prop :=
  ∀ getFreePage : ℕ → List UInt8, (∀ n, (getFreePage n).length = pageSize) →
    ∃ pages, (∃ n, ∀ fuel ≥ n, compressBlob z pageSize getFreePage fuel input = some (.ok pages)) ∧
      ∀ out : List UInt8, out.length = input.length → decompressBlob z pageSize out pages = .ok input

end Functions
variable {z : Library} {pageSize : ℕ} {x y stream : List UInt8} {pages : List (List UInt8)}

/-- The pages go on with a compressed stream after `y`, and the stream ends in the last of them, if
not before it. -/
structure Covers (pageSize : ℕ) (y stream : List UInt8) (pages : List (List UInt8)) : Prop where
  enough : stream <+: y ++ pages.flatMap (·.take (uInt pageSize))
  needed : y ++ pages.dropLast.flatMap (·.take (uInt pageSize)) <+: stream

theorem covers_last {produced page : List UInt8} (hle : produced.length ≤ uInt pageSize) :
    Covers pageSize y (y ++ produced) [write produced page] where
  enough := by
    refine (List.prefix_append_right_inj _).mpr ?_
    rw [List.flatMap_singleton,write,List.take_append,List.take_of_length_le hle]
    exact List.prefix_append _ _
  needed := by simp

theorem Covers.cons {produced page : List UInt8} (hc : Covers pageSize (y ++ produced) stream pages)
    (hne : pages ≠ []) (heq : produced.length = uInt pageSize) :
    Covers pageSize y stream (write produced page::pages) := by
  have htake : (write produced page).take (uInt pageSize) = produced := List.take_left' heq
  constructor
  · rw [List.flatMap_cons,htake,← List.append_assoc]
    exact hc.enough
  · rw [List.dropLast_cons_of_ne_nil hne,List.flatMap_cons,htake,← List.append_assoc]
    exact hc.needed

theorem Covers.tail {page : List UInt8} (hc : Covers pageSize y stream (page::pages)) (hne : pages ≠ []) :
    Covers pageSize (y ++ page.take (uInt pageSize)) stream pages where
  enough := by
    have h := hc.enough
    rwa [List.flatMap_cons,← List.append_assoc] at h
  needed := by
    have h := hc.needed
    rwa [List.dropLast_cons_of_ne_nil hne,List.flatMap_cons,← List.append_assoc] at h

theorem uInt_lt (n : ℕ) : uInt n < 2^32 := Nat.mod_lt _ (by decide)

theorem uInt_le (n : ℕ) : uInt n ≤ n := Nat.mod_le _ _

theorem length_write {produced page : List UInt8} (hle : produced.length ≤ page.length) :
    (write produced page).length = page.length := by
  rw [write,List.length_append,List.length_drop]
  omega

theorem compressPages_turn (pageSize : ℕ) (getFreePage : ℕ → List UInt8) (fuel n : ℕ) (s : ZStream z.DeflateState)
    (result : List (List UInt8)) (hin : s.availIn = s.nextIn.length) (hout : s.availOut = 0) :
    compressPages z pageSize getFreePage (fuel+1) n s result =
      let d := z.deflate s.state s.nextIn (uInt pageSize)
      if d.r = ok then
        compressPages z pageSize getFreePage fuel (n+1)
          { nextIn := s.nextIn.drop d.consumed
            availIn := s.nextIn.length-d.consumed
            availOut := uInt pageSize-d.produced.length
            state := d.state } (result ++ [write d.produced (getFreePage n)])
      else some (.ok (result ++ [write d.produced (getFreePage n)],d.r,d.state)) := by
  rw [compressPages,if_neg (not_not.mpr hout),hin,List.take_length]

/-- The pages are made until the stream is complete. The induction is on the room that the stream can
still take. -/
theorem compressPages_covers (hc : Contract z) (hpage : uInt pageSize ≠ 0) {getFreePage : ℕ → List UInt8}
    (hlen : ∀ n, (getFreePage n).length = pageSize) (m n : ℕ) (s : ZStream z.DeflateState)
    (hs : hc.Deflating x s.state s.nextIn y) (hin : s.availIn = s.nextIn.length) (hout : s.availOut = 0)
    (hle : y.length ≤ hc.bound x.length) (hm : hc.bound x.length < y.length+m) :
    ∃ pages state stream, (∀ fuel ≥ m, ∀ result, compressPages z pageSize getFreePage fuel n s result =
        some (.ok (result ++ pages,streamEnd,state))) ∧ pages ≠ [] ∧ (∀ page ∈ pages, page.length = pageSize) ∧
      hc.Stream x stream ∧ z.deflateEnd state = ok ∧ Covers pageSize y stream pages := by
  induction m generalizing n s y with
  | zero => omega
  | succ m ih =>
    obtain ⟨-,hroom,hbound,h⟩ := hc.deflate x _ _ y _ hs (Nat.pos_of_ne_zero hpage) (uInt_lt _)
    have hturn := fun fuel result => compressPages_turn pageSize getFreePage fuel n s result hin hout
    generalize hd : z.deflate s.state s.nextIn (uInt pageSize) = d at *
    have hwrite : (write d.produced (getFreePage n)).length = pageSize := by
      rw [length_write (by rw [hlen]; exact hroom.trans (uInt_le _)),hlen]
    rcases h with ⟨hok,hfull,hs'⟩ | ⟨hend,hstream,hdone⟩
    · -- The page is full, so the next turn starts without room.
      have hgrow : (y ++ d.produced).length = y.length+uInt pageSize := by rw [List.length_append,hfull]
      obtain ⟨pages,state,stream,hrun,hne,hall,hstream,hdone,hcovers⟩ :=
        ih (n+1) { nextIn := s.nextIn.drop d.consumed
                   availIn := s.nextIn.length-d.consumed
                   availOut := uInt pageSize-d.produced.length
                   state := d.state } hs' List.length_drop.symm (by simp [hfull]) hbound (by omega)
      refine ⟨write d.produced (getFreePage n)::pages,state,stream,fun fuel hfuel result => ?_,List.cons_ne_nil _ _,
        List.forall_mem_cons.mpr ⟨hwrite,hall⟩,hstream,hdone,hcovers.cons hne hfull⟩
      obtain ⟨fuel,rfl⟩ : ∃ f, fuel = f+1 := ⟨fuel-1,by omega⟩
      rw [hturn,if_pos hok,hrun fuel (by omega),List.append_assoc,List.singleton_append]
    · refine ⟨[write d.produced (getFreePage n)],d.state,_,fun fuel hfuel result => ?_,List.cons_ne_nil _ _,
        List.forall_mem_singleton.mpr hwrite,hstream,hdone,covers_last hroom⟩
      obtain ⟨fuel,rfl⟩ : ∃ f, fuel = f+1 := ⟨fuel-1,by omega⟩
      rw [hturn,if_neg (by rw [hend]; decide),hend]

theorem compressBlob_covers (hc : Contract z) (hpage : uInt pageSize ≠ 0) {getFreePage : ℕ → List UInt8}
    (hlen : ∀ n, (getFreePage n).length = pageSize) (hx : x.length < 2^32) :
    ∃ pages stream, (∀ fuel > hc.bound x.length, compressBlob z pageSize getFreePage fuel x = some (.ok pages)) ∧
      pages ≠ [] ∧ (∀ page ∈ pages, page.length = pageSize) ∧ hc.Stream x stream ∧
      Covers pageSize [] stream pages := by
  obtain ⟨pages,state,stream,hrun,hne,hall,hstream,hdone,hcovers⟩ :=
    compressPages_covers hc hpage hlen (hc.bound x.length+1) 0
      { nextIn := x, availIn := uInt x.length, state := z.deflateInit.2 } (hc.deflateInit.2 x hx)
      (Nat.mod_eq_of_lt hx) rfl (Nat.zero_le _) (by simp)
  refine ⟨pages,stream,fun fuel hfuel => ?_,hne,hall,hstream,hcovers⟩
  rw [compressBlob,if_neg (not_not.mpr hc.deflateInit.1),hrun fuel hfuel]
  simp [compressEnd,hdone,Except.bind]

theorem decompressPages_stop {r : ℤ} (hr : r ≠ ok) (pages : List (List UInt8)) (s : ZStream z.InflateState)
    (p : List UInt8) : decompressPages z pageSize pages s p r = .ok (p,r,s.state) := by
  cases pages with
  | nil => rfl
  | cons page pages => rw [decompressPages,if_pos hr]

/-- What is left of the pages is decompressed to what is left of the blob. The induction is on these
pages, and the pages before have been consumed as a whole. -/
theorem decompressPages_restores (hc : Contract z) (hpage : uInt pageSize ≠ 0) {p : List UInt8} (hne : pages ≠ [])
    (hall : ∀ page ∈ pages, page.length = pageSize) (hcovers : Covers pageSize y stream pages)
    (s : ZStream z.InflateState) (hs : hc.Inflating x stream s.state y p) (hin : s.availIn = 0)
    (hout : p.length+s.availOut = x.length) (hx : x.length < 2^32) :
    ∃ state, decompressPages z pageSize pages s p ok = .ok (x,streamEnd,state) ∧ z.inflateEnd state = ok := by
  induction pages generalizing y p s with
  | nil => exact absurd rfl hne
  | cons page pages ih =>
    rw [decompressPages,if_neg (not_not.mpr rfl),if_neg (not_not.mpr hin)]
    dsimp only
    have hinput : (page.take (uInt pageSize)).length = uInt pageSize :=
      List.length_take_of_le ((uInt_le _).trans_eq (hall page List.mem_cons_self).symm)
    have hlt : (page.take (uInt pageSize)).length < 2^32 := hinput.trans_lt (uInt_lt _)
    by_cases hend : stream <+: y ++ page.take (uInt pageSize)
    · obtain ⟨hr,hproduced,hdone⟩ := hc.inflate_end x stream s.state y p _ s.availOut
        (if pages.isEmpty then .finish else .noFlush) hs hlt (by omega) hout.ge hend
      refine ⟨_,?_,hdone⟩
      rw [hr,decompressPages_stop (by decide),hproduced]
    · -- The stream goes on, so there are more pages, and this one is not the last.
      have hmore : pages ≠ [] := by
        rintro rfl
        exact hend (by simpa using hcovers.enough)
      have hcovers := hcovers.tail hmore
      have hle : y ++ page.take (uInt pageSize) <+: stream := (List.prefix_append _ _).trans hcovers.needed
      obtain ⟨hr,hconsumed,hroom,hs⟩ := hc.inflate_more x stream s.state y p _ s.availOut hs hlt (by omega)
        hout.ge hle (fun he => hend (he ▸ List.prefix_rfl)) (fun he => hpage (by rw [← hinput,he,List.length_nil]))
      rw [List.length_append] at hroom
      rw [List.isEmpty_eq_false_iff.mpr hmore,if_neg Bool.false_ne_true,hr]
      refine ih hmore (fun q hq => hall q (List.mem_cons_of_mem _ hq)) hcovers _ hs ?_ ?_
      · simp only [hconsumed,hinput,Nat.sub_self]
      · simp only [List.length_append]
        omega

theorem decompressBlob_restores (hc : Contract z) (hpage : uInt pageSize ≠ 0) (hne : pages ≠ [])
    (hall : ∀ page ∈ pages, page.length = pageSize) (hcovers : Covers pageSize [] stream pages)
    (hs : hc.Stream x stream) (hx : x.length < 2^32) {out : List UInt8} (hout : out.length = x.length) :
    decompressBlob z pageSize out pages = .ok x := by
  have hsize : uInt out.length = x.length := by rw [hout,uInt,Nat.mod_eq_of_lt hx]
  obtain ⟨state,hrun,hdone⟩ := decompressPages_restores hc hpage hne hall hcovers
    { availOut := uInt out.length, state := z.inflateInit.2 } (hc.inflateInit.2 x stream hs) rfl
    (by simp [hsize]) hx
  rw [decompressBlob,if_neg (not_not.mpr hc.inflateInit.1),hc.inflateInit.1,hrun]
  have hwrite : write x out = x := by rw [write,← hout,List.drop_length,List.append_nil]
  simp [hdone,hwrite,bind,Except.bind]

theorem compressBlob_noRoom (hc : Contract z) (hpage : uInt pageSize = 0) (getFreePage : ℕ → List UInt8)
    (fuel : ℕ) (hx : x.length < 2^32) :
    compressBlob z pageSize getFreePage (fuel+1) x = some (.error (.zlibVerify "deflate" bufError)) := by
  have hturn := compressPages_turn pageSize getFreePage fuel 0
    { nextIn := x, availIn := uInt x.length, state := z.deflateInit.2 } [] (Nat.mod_eq_of_lt hx) rfl
  have hbuf := hc.deflate_noRoom x _ _ _ (hc.deflateInit.2 x hx)
  simp only [hpage] at hturn
  rw [hbuf,if_neg (by decide)] at hturn
  rw [compressBlob,if_neg (not_not.mpr hc.deflateInit.1),hturn]
  rfl

theorem not_roundTrips (hc : Contract z) (hpage : uInt pageSize = 0) (hx : x.length < 2^32) :
    ¬RoundTrips z pageSize x := by
  intro h
  obtain ⟨pages,⟨n,hrun⟩,-⟩ := h (fun _ => List.replicate pageSize 0) fun _ => List.length_replicate
  have he := (compressBlob_noRoom hc hpage _ n hx).symm.trans (hrun (n+1) n.le_succ)
  simp at he

/-- Pages of every size that an `uInt` does not reduce to zero will do, and no others. -/
theorem roundTrips_iff (hc : Contract z) (hx : x.length < 2^32) :
    RoundTrips z pageSize x ↔ pageSize%2^32 ≠ 0 := by
  constructor
  · exact fun h hzero => not_roundTrips hc hzero hx h
  · intro hpage getFreePage hlen
    obtain ⟨pages,stream,hrun,hne,hall,hs,hcovers⟩ := compressBlob_covers hc hpage hlen hx
    exact ⟨pages,⟨_,hrun⟩,fun out hout => decompressBlob_restores hc hpage hne hall hcovers hs hx hout⟩

/-- The stream of nine bytes ends with the third page, and `deflate` only says so with a fourth. -/
theorem roundTrips_iff_threeBytes :
    RoundTrips sample 3 [97] ∧ (compressBlob sample 3 (fun _ => [9,9,9]) 4 [97]) =
      some (.ok [[0x78,0x01,0x4b],[0x04,0x00,0x00],[0x62,0x00,0x62],[9,9,9]]) :=
  ⟨(roundTrips_iff sampleContract (by decide)).mpr (by decide),by decide⟩

theorem hugePage_noRoom : ¬∀ (z : Library) (_ : Contract z) (pageSize : ℕ) (x : List UInt8), 1 ≤ pageSize →
    1 ≤ x.length → x.length < 2^32 → RoundTrips z pageSize x := fun h =>
  not_roundTrips sampleContract (by decide) (by decide)
    (h sample sampleContract (2^32) [97] (by decide) (by decide) (by decide))

/-! ### The blob

What a blob compresses is of one size. With fuel for the longest stream, the two functions are as a
blob expects them. -/

variable {n : ℕ} {getFreePage : ℕ → List UInt8} {fuel : ℕ}

def compressContent (z : Library) (pageSize : ℕ) (getFreePage : ℕ → List UInt8) (fuel : ℕ) (x : Buffer n) :
    List (List UInt8) :=
  match compressBlob z pageSize getFreePage fuel x.toList with
  | some (.ok pages) => pages
  | _ => []

def decompressContent (z : Library) (pageSize n : ℕ) (pages : List (List UInt8)) : Buffer n :=
  match decompressBlob z pageSize (List.replicate n 0) pages with
  | .ok out => Vector.ofFn fun i => out.getD i 0
  | .error _ => Vector.replicate n 0

theorem decompress_compressContent (hc : Contract z) (hpage : pageSize%2^32 ≠ 0) (hn : n < 2^32)
    (hlen : ∀ k, (getFreePage k).length = pageSize) (hfuel : hc.bound n < fuel) (x : Buffer n) :
    decompressContent z pageSize n (compressContent z pageSize getFreePage fuel x) = x := by
  have hx : x.toList.length = n := Vector.length_toList
  obtain ⟨pages,stream,hrun,hne,hall,hs,hcovers⟩ := compressBlob_covers hc hpage hlen (hx.trans_lt hn)
  have hpages : compressContent z pageSize getFreePage fuel x = pages := by
    rw [compressContent,hrun fuel (by rw [hx]; exact hfuel)]
  have hout : (List.replicate n (0 : UInt8)).length = x.toList.length := by rw [List.length_replicate,hx]
  have hlt : x.toList.length < 2^32 := hx.trans_lt hn
  rw [hpages,decompressContent,decompressBlob_restores hc hpage hne hall hcovers hs hlt hout]
  ext i hi
  simp

theorem blob_read (hc : Contract z) (hpage : pageSize%2^32 ≠ 0) (hn : n < 2^32)
    (hlen : ∀ k, (getFreePage k).length = pageSize) (hfuel : hc.bound n < fuel) {as : List (Blob.Action n)}
    {c : Blob.Config n (List (List UInt8))}
    (h : Transitions.run (Blob.step (compressContent z pageSize getFreePage fuel) (decompressContent z pageSize n)) as
      { blob := { pages := [] } } = some c)
    {content : Buffer n} (hw : Blob.lastWritten as = some content) :
    ∀ handle ∈ c.handles, c.heap handle.block.data = some content := by
  intro handle hh
  have hi := Blob.inv_run (decompress_compressContent hc hpage hn hlen hfuel) h
  obtain ⟨y,hy,hx⟩ := hi.read hh
  exact hx content hw ▸ hy

end BlobCompression
end Scroom
