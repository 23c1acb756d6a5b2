import Mathlib.Algebra.Order.Ring.Nat
import Mathlib.Data.List.Infix

/-! Streaming compression, as documented for `deflate` and `inflate`. What the library does is a
parameter, and what callers may rely on is a contract with it. -/
namespace Scroom
namespace Zlib

def ok : ℤ := 0
def streamEnd : ℤ := 1
def bufError : ℤ := -5

/-- Whether more input will follow. -/
inductive Flush
  | noFlush | finish
  deriving DecidableEq

/-- A call consumes some of the input and produces some output. -/
structure Result (S : Type*) where
  r : ℤ
  consumed : ℕ
  produced : List UInt8
  state : S

/-- `deflate` is only called with `Z_FINISH`. -/
structure Library where
  DeflateState : Type
  InflateState : Type
  deflateInit : ℤ × DeflateState
  deflate : DeflateState → List UInt8 → ℕ → Result DeflateState
  deflateEnd : DeflateState → ℤ
  inflateInit : ℤ × InflateState
  inflate : InflateState → List UInt8 → ℕ → Flush → Result InflateState
  inflateEnd : InflateState → ℤ

/-- What is documented. `Deflating x s rest y` says that `s` is a state while `x` is compressed, that
has still to consume `rest`, and has produced `y`. `Inflating x y s c p` says that `s` is a state while
`y` is decompressed to `x`, that has consumed `c`, and has produced `p`. -/
structure Contract (z : Library) where
  /-- The stream `y` decompresses to `x`. -/
  Stream : List UInt8 → List UInt8 → Prop
  Deflating : List UInt8 → z.DeflateState → List UInt8 → List UInt8 → Prop
  Inflating : List UInt8 → List UInt8 → z.InflateState → List UInt8 → List UInt8 → Prop
  /-- A compressed stream is not longer than this. -/
  bound : ℕ → ℕ
  deflateInit : z.deflateInit.1 = ok ∧ ∀ x, x.length < 2^32 → Deflating x z.deflateInit.2 x []
  /-- Without room there is no progress. -/
  deflate_noRoom : ∀ x s rest y, Deflating x s rest y → (z.deflate s rest 0).r = bufError
  /-- With room, the room is used up, or the stream with its trailer is complete. -/
  deflate : ∀ x s rest y room, Deflating x s rest y → 0 < room → room < 2^32 →
    let d := z.deflate s rest room
    d.consumed ≤ rest.length ∧ d.produced.length ≤ room ∧ (y ++ d.produced).length ≤ bound x.length ∧
      (d.r = ok ∧ d.produced.length = room ∧ Deflating x d.state (rest.drop d.consumed) (y ++ d.produced) ∨
        d.r = streamEnd ∧ Stream x (y ++ d.produced) ∧ z.deflateEnd d.state = ok)
  inflateInit : z.inflateInit.1 = ok ∧ ∀ x y, Stream x y → Inflating x y z.inflateInit.2 [] []
  /-- At the end of the stream there is no need for what comes behind it. -/
  inflate_end : ∀ x y s c p input room flush, Inflating x y s c p → input.length < 2^32 → room < 2^32 →
    x.length ≤ p.length+room → y <+: c ++ input →
      let d := z.inflate s input room flush
      d.r = streamEnd ∧ p ++ d.produced = x ∧ z.inflateEnd d.state = ok
  /-- Before the end, all input is consumed if there is enough room for what it decompresses to. -/
  inflate_more : ∀ x y s c p input room, Inflating x y s c p → input.length < 2^32 → room < 2^32 →
    x.length ≤ p.length+room → c ++ input <+: y → c ++ input ≠ y → input ≠ [] →
      let d := z.inflate s input room .noFlush
      d.r = ok ∧ d.consumed = input.length ∧ (p ++ d.produced).length ≤ x.length ∧
        Inflating x y d.state (c ++ input) (p ++ d.produced)

/-! ### A library

It meets the contract. The compressed form of a single `a` and the way there are those of the actual
library, other streams are made up. -/

def escape : List UInt8 → List UInt8
  | [] => [0]
  | b::x => 1::b::escape x

def unescape : List UInt8 → Option (List UInt8)
  | 0::_ => some []
  | 1::b::y => (unescape y).map (b::·)
  | _ => none

/-- The stream for an `a`: a header, one block, and a trailer. -/
def streamOfA : List UInt8 := [0x78,0x01,0x4b,0x04,0x00,0x00,0x62,0x00,0x62]

def encode (x : List UInt8) : List UInt8 := if x = [97] then streamOfA else escape x

/-- What is available of the input, and whether the stream is complete. -/
def decode (c : List UInt8) : List UInt8 × Bool :=
  if c.head? = some 0x78 then (if 4 ≤ c.length then [97] else [],decide (9 ≤ c.length))
  else ((unescape c).getD [],(unescape c).isSome)

theorem unescape_complete {x c : List UInt8} (h : escape x <+: c) : unescape c = some x := by
  obtain ⟨t,rfl⟩ := h
  induction x with
  | nil => rfl
  | cons b x ih => simp [escape,unescape,ih]

theorem unescape_early {x c : List UInt8} (h : c <+: escape x) (hne : c ≠ escape x) : unescape c = none := by
  induction x generalizing c with
  | nil =>
    rcases List.prefix_cons_iff.mp h with rfl | ⟨t,rfl,ht⟩
    · rfl
    · exact absurd (by rw [List.prefix_nil.mp ht,escape]) hne
  | cons b x ih =>
    rcases List.prefix_cons_iff.mp h with rfl | ⟨t,rfl,ht⟩
    · rfl
    rcases List.prefix_cons_iff.mp ht with rfl | ⟨u,rfl,hu⟩
    · rfl
    · rw [unescape,ih hu fun he => hne (by rw [he,escape])]
      rfl

theorem head?_escape (x t : List UInt8) : (escape x ++ t).head? ≠ some 0x78 := by
  cases x <;> simp [escape]

theorem head?_early {x c : List UInt8} (h : c <+: escape x) : c.head? ≠ some 0x78 := by
  obtain ⟨t,ht⟩ := h
  intro hc
  have hx := head?_escape x []
  rw [List.append_nil,← ht,List.head?_append,hc] at hx
  exact hx rfl

/-- A complete stream is decoded, whatever is behind it. -/
theorem decode_complete {x c : List UInt8} (h : encode x <+: c) : decode c = (x,true) := by
  unfold encode at h
  split_ifs at h with ha
  · obtain ⟨t,rfl⟩ := h
    simp [decode,streamOfA,ha]
  · have hdone := unescape_complete h
    obtain ⟨t,rfl⟩ := h
    rw [decode,if_neg (head?_escape x t),hdone]
    rfl

theorem decode_early {x c : List UInt8} (h : c <+: encode x) (hne : c ≠ encode x) :
    decode c = (if x = [97] ∧ 4 ≤ c.length then [97] else [],false) := by
  unfold encode at h hne
  split_ifs at h hne with ha
  · have hlt : c.length < 9 := lt_of_le_of_ne h.length_le fun he => hne (h.eq_of_length he)
    rcases List.prefix_cons_iff.mp h with rfl | ⟨t,rfl,-⟩
    · simp [decode,unescape]
    · rw [decode,if_pos (List.head?_cons),decide_eq_false (by omega)]
      simp only [ha,true_and]
  · rw [decode,if_neg (head?_early h),unescape_early h hne,if_neg fun hx => ha hx.1]
    rfl

/-- A compressor keeps what it has still to write, a decompressor what it has been given. -/
def sample : Library where
  DeflateState := Option (List UInt8)
  InflateState := List UInt8
  deflateInit := (ok,none)
  deflate s rest room :=
    let pending := s.getD (encode rest)
    { r := if room = 0 then bufError
        else if pending.length < room ∨ s = none ∧ pending.length = room then streamEnd
        else ok
      consumed := rest.length
      produced := pending.take room
      state := some (pending.drop room) }
  deflateEnd _ := ok
  inflateInit := (ok,[])
  inflate s input room flush :=
    let d := decode (s ++ input)
    { r := if d.2 then streamEnd else if flush = .finish then bufError else ok
      consumed := if d.2 then (encode d.1).length-s.length else input.length
      produced := (d.1.drop (decode s).1.length).take room
      state := s ++ input }
  inflateEnd _ := ok

theorem length_encode (x : List UInt8) : (encode x).length ≤ 2*x.length+9 := by
  have hescape : ∀ x, (escape x).length = 2*x.length+1 := by
    intro x
    induction x with
    | nil => rfl
    | cons b x ih =>
      simp only [escape,List.length_cons,ih]
      omega
  unfold encode
  split_ifs
  · simp [streamOfA]
  · rw [hescape]
    omega

theorem encode_ne_nil (x : List UInt8) : encode x ≠ [] := by
  unfold encode
  split_ifs
  · simp [streamOfA]
  · cases x <;> simp [escape]

/-- What is written is the next part of the stream. -/
def sampleDeflating (x : List UInt8) (s : Option (List UInt8)) (rest y : List UInt8) : Prop :=
  y ++ s.getD (encode rest) = encode x

def sampleInflating (x y s c p : List UInt8) : Prop :=
  y = encode x ∧ s = c ∧ c <+: y ∧ c ≠ y ∧ p = (decode c).1

theorem sample_deflate {x rest y : List UInt8} {s : Option (List UInt8)} {room : ℕ}
    (h : sampleDeflating x s rest y) (hroom : 0 < room) :
    let d := sample.deflate s rest room
    d.consumed ≤ rest.length ∧ d.produced.length ≤ room ∧ (y ++ d.produced).length ≤ 2*x.length+9 ∧
      (d.r = ok ∧ d.produced.length = room ∧ sampleDeflating x d.state (rest.drop d.consumed) (y ++ d.produced) ∨
        d.r = streamEnd ∧ y ++ d.produced = encode x ∧ sample.deflateEnd d.state = ok) := by
  unfold sampleDeflating at h
  simp only [sample]
  generalize s.getD (encode rest) = pending at h ⊢
  have hle : (y ++ pending.take room).length ≤ 2*x.length+9 :=
    (((List.prefix_append_right_inj _).mpr (List.take_prefix _ _)).length_le.trans_eq (by rw [h])).trans
      (length_encode x)
  refine ⟨le_rfl,List.length_take_le _ _,hle,?_⟩
  rw [if_neg hroom.ne']
  split_ifs with hend
  · refine .inr ⟨rfl,?_,trivial⟩
    rw [List.take_of_length_le (by omega),h]
  · refine .inl ⟨rfl,List.length_take_of_le (by omega),?_⟩
    rw [sampleDeflating,Option.getD_some,List.append_assoc,List.take_append_drop,h]

theorem decode_isPrefix {x c : List UInt8} (h : c <+: encode x) (hne : c ≠ encode x) : (decode c).1 <+: x := by
  rw [decode_early h hne]
  dsimp only
  split_ifs with ha
  · rw [ha.1]
  · exact List.nil_prefix

theorem append_take_drop {p out : List UInt8} {room : ℕ} (h : p <+: out) (hroom : out.length ≤ p.length+room) :
    p ++ (out.drop p.length).take room = out := by
  rw [List.take_of_length_le (by rw [List.length_drop]; omega)]
  obtain ⟨t,rfl⟩ := h
  rw [List.drop_left]

theorem sample_inflate_end {x y s c p input : List UInt8} {room : ℕ} (h : sampleInflating x y s c p)
    (hroom : x.length ≤ p.length+room) (hend : y <+: c ++ input) (flush : Flush) :
    let d := sample.inflate s input room flush
    d.r = streamEnd ∧ p ++ d.produced = x ∧ sample.inflateEnd d.state = ok := by
  obtain ⟨rfl,rfl,hc,hne,rfl⟩ := h
  simp only [sample,decode_complete hend]
  exact ⟨rfl,append_take_drop (decode_isPrefix hc hne) hroom,trivial⟩

theorem sample_inflate_more {x y s c p input : List UInt8} {room : ℕ} (h : sampleInflating x y s c p)
    (hroom : x.length ≤ p.length+room) (hmore : c ++ input <+: y) (hend : c ++ input ≠ y) :
    let d := sample.inflate s input room .noFlush
    d.r = ok ∧ d.consumed = input.length ∧ (p ++ d.produced).length ≤ x.length ∧
      sampleInflating x y d.state (c ++ input) (p ++ d.produced) := by
  obtain ⟨rfl,rfl,hc,hne,rfl⟩ := h
  have hlater := decode_early hmore hend
  have hle := (decode_isPrefix hmore hend).length_le
  have hgrow : (decode s).1 <+: (decode (s ++ input)).1 := by
    rw [hlater,decode_early hc hne]
    dsimp only
    split_ifs with h₁ h₂
    · exact List.prefix_rfl
    · exact absurd ⟨h₁.1,h₁.2.trans (by simp)⟩ h₂
    · exact List.nil_prefix
    · exact List.prefix_rfl
  have hproduced := append_take_drop hgrow (hle.trans hroom)
  have hopen : (decode (s ++ input)).2 = false := by rw [hlater]
  simp only [sample,hopen,hproduced]
  exact ⟨rfl,rfl,hle,rfl,rfl,hmore,hend,rfl⟩

def sampleContract : Contract sample where
  Stream x y := y = encode x
  Deflating := sampleDeflating
  Inflating := sampleInflating
  bound n := 2*n+9
  deflateInit := ⟨rfl,fun _ _ => rfl⟩
  deflate_noRoom _ _ _ _ _ := rfl
  deflate _ _ _ _ _ h hroom _ := sample_deflate h hroom
  inflateInit := ⟨rfl,fun x _ h => ⟨h,rfl,List.nil_prefix,h ▸ (encode_ne_nil x).symm,rfl⟩⟩
  inflate_end _ _ _ _ _ _ _ flush h _ _ hroom hend := sample_inflate_end h hroom hend flush
  inflate_more _ _ _ _ _ _ _ h _ _ hroom hmore hend _ := sample_inflate_more h hroom hmore hend

end Zlib
end Scroom
