import Mathlib.Tactic
import Scroom.Color
import Scroom.Loops
import Scroom.TextInput

/-! Palettes that are loaded from files: what the loader accepts, what it makes of it, and when that is what the
lines of the file say. -/
namespace Scroom
namespace Colormaps
open TextInput

/-- `JASC-PAL` -/
def PAL_HEADER : List UInt8 := [74,65,83,67,45,80,65,76]

/-- `0100` -/
def PAL_VERSION : List UInt8 := [48,49,48,48]

def BUFFERSIZE : ℕ := 256

structure Palette where
  name : String
  colors : Colormap

/-- The conversion of what `atoi` gives to an `unsigned int`. -/
def colorCount (line : List UInt8) : ℕ := (atoi line%2^32).toNat

def sscanf (buffer : List UInt8) : Option (ℤ × ℤ × ℤ) :=
  (numbers buffer).map fun (red,green,blue) => (toInt red,toInt green,toInt blue)

def toColor : ℤ × ℤ × ℤ → Color := fun (red,green,blue) => { red := red/255, green := green/255, blue := blue/255 }

/-- The loop in `load`, with the number of colours that are still to come. -/
def readColors : ℕ → List UInt8 → Colormap → Colormap
  | 0, _, colors => colors
  | k+1, f, colors =>
    match fgets BUFFERSIZE f with
    | none => colors
    | some (buffer,f) =>
      match sscanf buffer with
      | none => colors
      | some c => readColors k f (colors ++ [toColor c])

/-- `none` as a file is one that cannot be opened. -/
def load (name : String) (file : Option (List UInt8)) : Option Palette := do
  let f ← file
  let (buffer,f) ← fgets BUFFERSIZE f
  guard (PAL_HEADER.isPrefixOf buffer)
  let (buffer,f) ← fgets BUFFERSIZE f
  guard (PAL_VERSION.isPrefixOf buffer)
  let (buffer,f) ← fgets BUFFERSIZE f
  let count := colorCount buffer
  guard (count ≠ 0)
  let colors := readColors count f []
  guard (colors.length = count)
  return { name, colors }

def pieces (content : List UInt8) : List (List UInt8) := buffers BUFFERSIZE content.length content

/-- What the loader asks of what it reads, and the colours it finds there. -/
def palette : List (List UInt8) → Option (List (ℤ × ℤ × ℤ))
  | header::version::count::colors =>
    if PAL_HEADER <+: header ∧ PAL_VERSION <+: version ∧ colorCount count ≠ 0 then
      if colorCount count ≤ colors.length then (colors.take (colorCount count)).mapM sscanf else none
    else none
  | _ => none

variable {k : ℕ} {f content line : List UInt8} {colors : Colormap} {name : String}

theorem pieces_cons {r : List UInt8 × List UInt8} (h : fgets BUFFERSIZE content = some r) :
    pieces content = r.1::pieces r.2 := by
  have hlt := length_fgets_lt (by decide) h
  obtain ⟨n,hn⟩ : ∃ n, content.length = n+1 := ⟨content.length-1,by omega⟩
  simp only [pieces,hn,buffers,h]
  rw [buffers_congr (by decide) (by omega) le_rfl]

theorem pieces_eq_nil (h : fgets BUFFERSIZE content = none) : pieces content = [] := by
  cases content with
  | nil => rfl
  | cons c f => cases h

theorem pieces_eq_cut (content : List UInt8) : pieces content = cut BUFFERSIZE (lines content) :=
  buffers_eq_cut le_rfl (by decide)

theorem readColors_cases (k : ℕ) (f : List UInt8) (colors : Colormap) :
    (∃ cs, (buffers BUFFERSIZE k f).mapM sscanf = some cs ∧ readColors k f colors = colors ++ cs.map toColor) ∨
      (buffers BUFFERSIZE k f).mapM sscanf = none ∧ (readColors k f colors).length < colors.length+k := by
  induction k generalizing f colors with
  | zero => exact .inl ⟨[],rfl,by simp [readColors]⟩
  | succ k ih =>
    cases hf : fgets BUFFERSIZE f with
    | none => exact .inl ⟨[],by simp [buffers,hf],by simp [readColors,hf]⟩
    | some r =>
      cases hc : sscanf r.1 with
      | none => exact .inr ⟨by simp [buffers,hf,hc],by simp [readColors,hf,hc]⟩
      | some c =>
        obtain ⟨cs,hcs,hread⟩ | ⟨hnone,hlt⟩ := ih r.2 (colors ++ [toColor c])
        · exact .inl ⟨c::cs,by simp [buffers,hf,hc,hcs],by simp [readColors,hf,hc,hread]⟩
        · refine .inr ⟨by simp [buffers,hf,hc,hnone],?_⟩
          simp only [List.length_append,List.length_singleton] at hlt
          simp only [readColors,hf,hc]
          omega

theorem readColors_eq (k : ℕ) (f : List UInt8) :
    (if (readColors k f []).length = k then some (readColors k f []) else none) =
      (if k ≤ (pieces f).length then ((pieces f).take k).mapM sscanf else none).map (List.map toColor) := by
  have htake : (pieces f).take k = buffers BUFFERSIZE k f := take_buffers (by decide) le_rfl k
  have hlen : min k (pieces f).length = (buffers BUFFERSIZE k f).length := by rw [← htake,List.length_take]
  rw [htake]
  obtain ⟨cs,hcs,hread⟩ | ⟨hnone,hlt⟩ := readColors_cases k f []
  · have hcount : cs.length = (buffers BUFFERSIZE k f).length := (Loops.mapM_eq_some_iff.mp hcs).length_eq.symm
    rw [List.nil_append] at hread
    rw [hread,hcs,List.length_map]
    by_cases hk : k ≤ (pieces f).length
    · rw [if_pos (by omega),if_pos hk,Option.map_some]
    · rw [if_neg (by omega),if_neg hk,Option.map_none]
  · rw [List.length_nil,zero_add] at hlt
    rw [hnone,ite_self,if_neg hlt.ne,Option.map_none]

theorem load_eq (name : String) (content : List UInt8) :
    load name (some content) = (palette (pieces content)).map fun cs => ⟨name,cs.map toColor⟩ := by
  cases h₁ : fgets BUFFERSIZE content with
  | none => simp [load,h₁,pieces_eq_nil h₁,palette]
  | some r₁ =>
    cases h₂ : fgets BUFFERSIZE r₁.2 with
    | none => simp [load,h₁,h₂,pieces_cons h₁,pieces_eq_nil h₂,palette]
    | some r₂ =>
      cases h₃ : fgets BUFFERSIZE r₂.2 with
      | none => simp [load,h₁,h₂,h₃,pieces_cons h₁,pieces_cons h₂,pieces_eq_nil h₃,palette]
      | some r₃ =>
        rw [pieces_cons h₁,pieces_cons h₂,pieces_cons h₃]
        have hloop := congrArg (Option.map (Palette.mk name)) (readColors_eq (colorCount r₃.1) r₃.2)
        rw [Option.map_map] at hloop
        simp only [load,Option.bind_eq_bind,Option.bind_some,h₁,h₂,h₃,palette,List.isPrefixOf_iff_prefix,
          Loops.guard_bind]
        by_cases htests : PAL_HEADER <+: r₁.1 ∧ PAL_VERSION <+: r₂.1 ∧ colorCount r₃.1 ≠ 0
        · rw [if_pos htests,if_pos htests.1,if_pos htests.2.1,if_pos htests.2.2]
          refine Eq.trans ?_ hloop
          split <;> rfl
        · rw [if_neg htests]
          split_ifs with hh hv hc
          · exact absurd ⟨hh,hv,hc⟩ htests
          all_goals rfl

def IsByte (n : ℤ) : Prop := 0 ≤ n ∧ n ≤ 255

/-- A component between 0 and 1 that is the byte `n`. -/
structure Shows (component : ℚ) (n : ℤ) : Prop where
  isByte : IsByte n
  nonneg : 0 ≤ component
  le_one : component ≤ 1
  byte : (byteFromDouble component : ℤ) = n

/-- The three numbers of a line are the bytes of an opaque colour. -/
def OfLine (line : List UInt8) (c : Color) : Prop :=
  ∃ red green blue, numbers line = some (red,green,blue) ∧ Shows c.red red ∧ Shows c.green green ∧
    Shows c.blue blue ∧ c.alpha = 1

/-- The first two lines begin with the header and the version, the third announces the colours, at least one, and
a line follows for each of them and no others. -/
def Whole (content : List UInt8) (colors : Colormap) : Prop :=
  ∃ header version count colorLines, lines content = header::version::count::colorLines ∧
    PAL_HEADER <+: header ∧ PAL_VERSION <+: version ∧ (number count).map Prod.fst = some (colors.length : ℤ) ∧
    1 ≤ colors.length ∧ List.Forall₂ OfLine colorLines colors

/-- Two texts say the same in the place of a line. -/
def Agree : ℕ → List UInt8 → List UInt8 → Prop
  | 0, text, line => PAL_HEADER <+: text ↔ PAL_HEADER <+: line
  | 1, text, line => PAL_VERSION <+: text ↔ PAL_VERSION <+: line
  | 2, text, line => colorCount text = colorCount line
  | _+3, text, line => sscanf text = sscanf line

/-- What the loader does not check: that cutting the lines to the buffer puts nothing else in the place of one of them,
that the number of colours fits an `unsigned int`, that there are no more lines than that, and that all numbers are
bytes. -/
structure Harmless (content : List UInt8) : Prop where
  uncut : ∃ count, (lines content)[2]? = some count ∧ ∀ i < 3+colorCount count, ∃ text line,
    (cut BUFFERSIZE (lines content))[i]? = some text ∧ (lines content)[i]? = some line ∧ Agree i text line
  announced : ∀ line, (lines content)[2]? = some line → ∀ r, number line = some r → 0 ≤ r.1 ∧ r.1 < 2^32
  noMore : ∀ line, (lines content)[2]? = some line → (lines content).length ≤ 3+colorCount line
  bytes : ∀ line ∈ (lines content).drop 3, ∀ c, numbers line = some c → IsByte c.1 ∧ IsByte c.2.1 ∧ IsByte c.2.2

theorem toInt_of_isByte {n : ℤ} (h : IsByte n) : toInt n = n := by
  obtain ⟨hl,hr⟩ := h
  refine toInt_of_mem ?_ ?_ <;> simp only [MachineInt.intMin,MachineInt.intMax] <;> omega

theorem shows_div_iff {n m : ℤ} : Shows ((n : ℚ)/255) m ↔ m = n ∧ IsByte n := by
  have byte : IsByte n → (byteFromDouble ((n : ℚ)/255) : ℤ) = n := by
    rintro ⟨hl,hr⟩
    rw [byteFromDouble,mul_div_cancel₀ _ (by norm_num),MachineInt.trunc_intCast]
    omega
  constructor
  · intro h
    have hl := h.nonneg
    have hr := h.le_one
    rw [le_div_iff₀ (by norm_num),zero_mul] at hl
    rw [div_le_one (by norm_num)] at hr
    have hn : IsByte n := ⟨by exact_mod_cast hl,by exact_mod_cast hr⟩
    exact ⟨h.byte.symm.trans (byte hn),hn⟩
  · rintro ⟨rfl,hn⟩
    have hl : (0 : ℚ) ≤ m := by exact_mod_cast hn.1
    have hr : (m : ℚ) ≤ 255 := by exact_mod_cast hn.2
    exact ⟨hn,by positivity,(div_le_one (by norm_num)).mpr hr,byte hn⟩

theorem ofLine_toColor_iff {c : ℤ × ℤ × ℤ} :
    OfLine line (toColor c) ↔ numbers line = some c ∧ IsByte c.1 ∧ IsByte c.2.1 ∧ IsByte c.2.2 := by
  obtain ⟨red,green,blue⟩ := c
  simp only [OfLine,toColor,shows_div_iff]
  constructor
  · rintro ⟨r,g,b,hn,⟨rfl,hr⟩,⟨rfl,hg⟩,⟨rfl,hb⟩,-⟩
    exact ⟨hn,hr,hg,hb⟩
  · rintro ⟨hn,hr,hg,hb⟩
    exact ⟨red,green,blue,hn,⟨rfl,hr⟩,⟨rfl,hg⟩,⟨rfl,hb⟩,trivial⟩

theorem sscanf_of_numbers {c : ℤ × ℤ × ℤ} (h : numbers line = some c) (hr : IsByte c.1) (hg : IsByte c.2.1)
    (hb : IsByte c.2.2) : sscanf line = some c := by
  simp [sscanf,h,toInt_of_isByte hr,toInt_of_isByte hg,toInt_of_isByte hb]

theorem colorCount_lt (line : List UInt8) : colorCount line < 2^32 := by
  have hl := Int.emod_nonneg (atoi line) (by norm_num : (2^32 : ℤ) ≠ 0)
  have hr := Int.emod_lt_of_pos (atoi line) (by norm_num : (0 : ℤ) < 2^32)
  rw [colorCount]
  omega

theorem colorCount_of_number {r : ℤ × List UInt8} (h : number line = some r) (hl : 0 ≤ r.1) (hr : r.1 < 2^32) :
    (colorCount line : ℤ) = r.1 := by
  rw [colorCount,atoi,h,Option.elim_some,toInt_emod hl hr,Int.toNat_of_nonneg hl]

theorem exists_number_of_colorCount (h : colorCount line ≠ 0) : ∃ r, number line = some r := by
  cases hn : number line with
  | none =>
    refine absurd ?_ h
    rw [colorCount,atoi,hn]
    rfl
  | some r => exact ⟨r,rfl⟩

theorem palette_eq_some_iff {ls : List (List UInt8)} {cs : List (ℤ × ℤ × ℤ)} :
    palette ls = some cs ↔ ∃ header version count colorLines, ls = header::version::count::colorLines ∧
      PAL_HEADER <+: header ∧ PAL_VERSION <+: version ∧ cs.length = colorCount count ∧ cs ≠ [] ∧
      List.Forall₂ (fun line c => sscanf line = some c) (colorLines.take (colorCount count)) cs := by
  constructor
  · intro h
    match ls, h with
    | header::version::count::colorLines, h =>
      rw [palette] at h
      split_ifs at h with htests hlen
      have hall := Loops.mapM_eq_some_iff.mp h
      have hcs : cs.length = colorCount count := by
        rw [← hall.length_eq,List.length_take,min_eq_left hlen]
      refine ⟨header,version,count,colorLines,rfl,htests.1,htests.2.1,hcs,?_,hall⟩
      rw [← List.length_pos_iff,hcs]
      exact Nat.pos_of_ne_zero htests.2.2
  · rintro ⟨header,version,count,colorLines,rfl,hh,hv,hcs,hne,hall⟩
    have hc : colorCount count ≠ 0 := hcs ▸ (List.length_pos_iff.mpr hne).ne'
    have hlen := hall.length_eq
    rw [List.length_take,hcs,min_eq_left_iff] at hlen
    rw [palette,if_pos ⟨hh,hv,hc⟩,if_pos hlen]
    exact Loops.mapM_eq_some_iff.mpr hall

theorem palette_lines_of_whole {cs : List (ℤ × ℤ × ℤ)} (h : Whole content (cs.map toColor)) (hlt : cs.length < 2^32) :
    palette (lines content) = some cs := by
  obtain ⟨header,version,count,colorLines,hl,hh,hv,hn,hone,hall⟩ := h
  rw [List.length_map] at hn hone
  simp only [List.forall₂_map_right_iff,ofLine_toColor_iff] at hall
  obtain ⟨r,hr,hlen⟩ := Option.map_eq_some_iff.mp hn
  have hcount : colorCount count = cs.length := by
    have he := colorCount_of_number hr (by omega) (by omega)
    omega
  refine palette_eq_some_iff.mpr ⟨header,version,count,colorLines,hl,hh,hv,hcount.symm,?_,?_⟩
  · exact List.ne_nil_of_length_pos hone
  · rw [hcount,List.take_of_length_le hall.length_eq.le]
    exact hall.imp fun line c ⟨hnum,hr,hg,hb⟩ => sscanf_of_numbers hnum hr hg hb

theorem reads_iff {l : List (List UInt8)} {cs : List (ℤ × ℤ × ℤ)} :
    List.Forall₂ (fun line c => sscanf line = some c) (l.take cs.length) cs ↔
      ∀ j < cs.length, ∃ line, l[j]? = some line ∧ sscanf line = cs[j]? := by
  induction cs generalizing l with
  | nil => simp
  | cons c cs ih =>
    rw [List.length_cons,Nat.forall_lt_succ_left]
    cases l with
    | nil => simp
    | cons line l =>
      rw [List.take_succ_cons,List.forall₂_cons,ih]
      simp

theorem palette_eq_iff {ts ls : List (List UInt8)} {cs : List (ℤ × ℤ × ℤ)} (hp : palette ts = some cs) :
    palette ls = some cs ↔ ∃ count, ls[2]? = some count ∧ ∀ i < 3+colorCount count, ∃ text line,
      ts[i]? = some text ∧ ls[i]? = some line ∧ Agree i text line := by
  obtain ⟨header,version,piece,colorTexts,rfl,hh,hv,hcs,hne,hall⟩ := palette_eq_some_iff.mp hp
  rw [← hcs,reads_iff] at hall
  constructor
  · intro hl
    obtain ⟨header',version',count,colorLines,rfl,hh',hv',hcs',-,hall'⟩ := palette_eq_some_iff.mp hl
    rw [← hcs',reads_iff] at hall'
    refine ⟨count,rfl,fun i hi => ?_⟩
    match i, hi with
    | 0, _ => exact ⟨header,header',rfl,rfl,iff_of_true hh hh'⟩
    | 1, _ => exact ⟨version,version',rfl,rfl,iff_of_true hv hv'⟩
    | 2, _ => exact ⟨piece,count,rfl,rfl,hcs.symm.trans hcs'⟩
    | j+3, hi =>
      obtain ⟨text,ht,hread⟩ := hall j (by omega)
      obtain ⟨line,hl,hread'⟩ := hall' j (by omega)
      exact ⟨text,line,ht,hl,hread.trans hread'.symm⟩
  · rintro ⟨count,hcount,hagree⟩
    match ls, hcount with
    | header'::version'::line::colorLines, hcount =>
      obtain rfl : line = count := Option.some.inj hcount
      obtain ⟨_,_,⟨⟩,⟨⟩,hh'⟩ := hagree 0 (by omega)
      obtain ⟨_,_,⟨⟩,⟨⟩,hv'⟩ := hagree 1 (by omega)
      obtain ⟨_,_,⟨⟩,⟨⟩,hc⟩ := hagree 2 (by omega)
      have hc : colorCount piece = colorCount line := hc
      refine palette_eq_some_iff.mpr ⟨header',version',line,colorLines,rfl,hh'.mp hh,hv'.mp hv,hcs.trans hc,hne,?_⟩
      rw [← hc,← hcs,reads_iff]
      intro j hj
      obtain ⟨text,line,ht,hl,hsame⟩ := hagree (j+3) (by omega)
      obtain ⟨text',ht',hread⟩ := hall j hj
      obtain rfl := Option.some.inj (ht.symm.trans ht')
      exact ⟨line,hl,hsame.symm.trans hread⟩

theorem harmless_of_whole {cs : List (ℤ × ℤ × ℤ)} (hp : palette (pieces content) = some cs)
    (h : Whole content (cs.map toColor)) : Harmless content := by
  obtain ⟨-,-,piece,-,-,-,-,hpiece,-⟩ := palette_eq_some_iff.mp hp
  have hlt : cs.length < 2^32 := hpiece ▸ colorCount_lt piece
  have hread := palette_lines_of_whole h hlt
  obtain ⟨header,version,count,colorLines,hl,-,-,hn,-,hall⟩ := h
  rw [List.length_map] at hn
  simp only [List.forall₂_map_right_iff,ofLine_toColor_iff] at hall
  obtain ⟨r,hr,hlen⟩ := Option.map_eq_some_iff.mp hn
  have hbytes : ∀ line ∈ colorLines, ∀ c, numbers line = some c → IsByte c.1 ∧ IsByte c.2.1 ∧ IsByte c.2.2 := by
    refine ((List.forall₂_and_left (R := fun _ _ => True) colorLines cs).mp (hall.imp ?_)).1
    rintro line c ⟨hc,hb⟩
    refine ⟨fun c' hc' => ?_,trivial⟩
    obtain rfl := Option.some.inj (hc.symm.trans hc')
    exact hb
  refine ⟨?_,?_,?_,?_⟩
  · rw [← pieces_eq_cut]
    exact (palette_eq_iff hp).mp hread
  · intro line hline r' hr'
    rw [hl] at hline
    obtain rfl := Option.some.inj hline
    obtain rfl := Option.some.inj (hr.symm.trans hr')
    omega
  · intro line hline
    rw [hl] at hline
    obtain rfl := Option.some.inj hline
    have hcount := colorCount_of_number hr (by omega) (by omega)
    have hsame := hall.length_eq
    simp only [hl,List.length_cons]
    omega
  · intro line hline
    exact hbytes line (by simpa [hl] using hline)

theorem whole_of_harmless {cs : List (ℤ × ℤ × ℤ)} (hp : palette (pieces content) = some cs)
    (h : Harmless content) : Whole content (cs.map toColor) := by
  have huncut := h.uncut
  rw [← pieces_eq_cut] at huncut
  obtain ⟨header,version,count,colorLines,hl,hh,hv,hcs,hne,hall⟩ :=
    palette_eq_some_iff.mp ((palette_eq_iff hp).mpr huncut)
  have hcount : (lines content)[2]? = some count := by rw [hl]; rfl
  have hpos := List.length_pos_iff.mpr hne
  have hcc : colorCount count ≠ 0 := by omega
  obtain ⟨r,hr⟩ := exists_number_of_colorCount hcc
  obtain ⟨hlow,hhigh⟩ := h.announced count hcount r hr
  have hmost := h.noMore count hcount
  simp only [hl,List.length_cons] at hmost
  rw [List.take_of_length_le (by omega)] at hall
  have hbytes : ∀ line ∈ colorLines, ∀ c, numbers line = some c → IsByte c.1 ∧ IsByte c.2.1 ∧ IsByte c.2.2 := by
    intro line hline
    exact h.bytes line (by simpa [hl] using hline)
  refine ⟨header,version,count,colorLines,hl,hh,hv,?_,?_,?_⟩
  · have he := colorCount_of_number hr hlow hhigh
    rw [hr,Option.map_some,List.length_map,hcs,he]
  · rw [List.length_map]
    exact hpos
  · simp only [List.forall₂_map_right_iff,ofLine_toColor_iff]
    refine ((List.forall₂_and_left _ _).mpr ⟨hbytes,hall⟩).imp ?_
    rintro line c ⟨hb,hc⟩
    obtain ⟨t,ht,rfl⟩ := Option.map_eq_some_iff.mp hc
    obtain ⟨hr,hg,hb⟩ := hb t ht
    have hstored := sscanf_of_numbers ht hr hg hb
    rw [sscanf,ht,Option.map_some,Option.some.injEq] at hstored
    rw [hstored]
    exact ⟨ht,hr,hg,hb⟩

/-- For every content of a file: what the loader makes of it is whole if and only if the file does not pass the
loader's tests, or what they leave out makes no difference. -/
theorem load_whole_iff (name : String) (content : List UInt8) :
    (∀ p, load name (some content) = some p → p.name = name ∧ Whole content p.colors) ↔
      (palette (pieces content) ≠ none → Harmless content) := by
  rw [load_eq]
  constructor
  · intro h hp
    obtain ⟨cs,hcs⟩ := Option.ne_none_iff_exists'.mp hp
    exact harmless_of_whole hcs (h ⟨name,cs.map toColor⟩ (by rw [hcs,Option.map_some])).2
  · intro h p hp
    obtain ⟨cs,hcs,rfl⟩ := Option.map_eq_some_iff.mp hp
    exact ⟨rfl,whole_of_harmless hcs (h (by simp [hcs]))⟩

/-- A palette of one colour whose red is 300 is accepted. -/
theorem tooRed_accepted : ¬ ∀ (name : String) (content : List UInt8) (p : Palette),
    load name (some content) = some p → p.name = name ∧ Whole content p.colors := by
  intro h
  -- the lines of the file: JASC-PAL, 0100, 1 and 300 0 0
  have hlines : lines [74,65,83,67,45,80,65,76,10,48,49,48,48,10,49,10,51,48,48,32,48,32,48,10] =
    [[74,65,83,67,45,80,65,76,10],[48,49,48,48,10],[49,10],[51,48,48,32,48,32,48,10]] := rfl
  obtain ⟨-,header,version,count,colorLines,hl,-,-,-,-,hall⟩ := h "red.pal"
    [74,65,83,67,45,80,65,76,10,48,49,48,48,10,49,10,51,48,48,32,48,32,48,10] ⟨"red.pal",[toColor (300,0,0)]⟩ rfl
  rw [hlines] at hl
  simp only [List.cons.injEq] at hl
  obtain ⟨-,-,-,rfl⟩ := hl
  obtain ⟨-,hred,-⟩ := ofLine_toColor_iff.mp (List.forall₂_cons.mp hall).1
  exact absurd hred.2 (by decide)

end Colormaps
end Scroom
