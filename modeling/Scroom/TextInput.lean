import Scroom.MachineInt

/-! Text as the C library reads it: lines that go into a buffer of a fixed size, and decimal numbers. -/
namespace Scroom
namespace TextInput

def newline : UInt8 := 10

/-- At most `n` characters, up to the end of the line, and what comes after them. -/
def takeLine : ℕ → List UInt8 → List UInt8 × List UInt8
  | 0, f => ([],f)
  | _+1, [] => ([],[])
  | n+1, c::f => if c = newline then ([c],f) else (c::(takeLine n f).1,(takeLine n f).2)

/-- What `fgets` puts into a buffer, and what is left of the file; nothing at its end. -/
def fgets (size : ℕ) (f : List UInt8) : Option (List UInt8 × List UInt8) :=
  if f = [] then none else some (takeLine (size-1) f)

/-- What a number of calls of `fgets` give, as long as they give something. -/
def buffers (size : ℕ) : ℕ → List UInt8 → List (List UInt8)
  | 0, _ => []
  | k+1, f =>
    match fgets size f with
    | none => []
    | some (buffer,f) => buffer::buffers size k f

/-- The lines of a text, each with the character that ends it. -/
def lines : List UInt8 → List (List UInt8)
  | [] => []
  | c::f =>
    if c = newline then [c]::lines f
    else
      match lines f with
      | [] => [[c]]
      | line::rest => (c::line)::rest

/-- The texts that lines are cut to by a buffer that they do not fit into. -/
def cut (size : ℕ) (ls : List (List UInt8)) : List (List UInt8) := ls.flatMap fun line => buffers size line.length line

def isspace (c : UInt8) : Bool := c == 32 || (9 ≤ c && c ≤ 13)

def isdigit (c : UInt8) : Bool := 48 ≤ c && c ≤ 57

def digits (s : List UInt8) : ℕ := (s.takeWhile isdigit).foldl (fun n c => 10*n+(c.toNat-48)) 0

/-- A sign, if there is one: whether it is a minus, and what comes after it. -/
def sign : List UInt8 → Bool × List UInt8
  | [] => (false,[])
  | c::s => if c = 45 then (true,s) else if c = 43 then (false,s) else (false,c::s)

/-- White space, a sign and digits at the beginning of a text are a number. -/
def number (s : List UInt8) : Option (ℤ × List UInt8) :=
  let (negative,s) := sign (s.dropWhile isspace)
  if s.head?.any isdigit then some (if negative then -digits s else digits s,s.dropWhile isdigit) else none

/-- `strtol` gives the closest `long`, of which an `int` keeps the low 32 bits. -/
def toInt (n : ℤ) : ℤ := MachineInt.wrap (max (-2^63) (min n (2^63-1)))

def atoi (s : List UInt8) : ℤ := toInt ((number s).elim 0 Prod.fst)

/-- The three numbers that `"%d %d %d"` finds, if it finds them all. -/
def numbers (s : List UInt8) : Option (ℤ × ℤ × ℤ) := do
  let (a,s) ← number s
  let (b,s) ← number s
  let (c,_) ← number s
  return (a,b,c)

variable {size k n : ℕ} {f line : List UInt8} {rest : List (List UInt8)}

theorem toInt_of_mem {n : ℤ} (hl : MachineInt.intMin ≤ n) (hr : n ≤ MachineInt.intMax) : toInt n = n := by
  have hclamp : max (-2^63) (min n (2^63-1)) = n := by
    simp only [MachineInt.intMin,MachineInt.intMax] at hl hr
    omega
  rw [toInt,hclamp,MachineInt.wrap_of_mem hl hr]

theorem toInt_emod {n : ℤ} (hl : 0 ≤ n) (hr : n < 2^32) : toInt n%2^32 = n := by
  have hclamp : max (-2^63) (min n (2^63-1)) = n := by omega
  rw [toInt,hclamp,MachineInt.wrap]
  simp only [Int.bmod_def]
  split <;> omega

@[simp] theorem fgets_nil : fgets size [] = none := rfl

theorem fgets_of_ne_nil (h : f ≠ []) : fgets size f = some (takeLine (size-1) f) := if_neg h

theorem length_takeLine_le (n : ℕ) (f : List UInt8) : (takeLine n f).2.length ≤ f.length := by
  induction n generalizing f with
  | zero => exact le_refl _
  | succ n ih =>
    cases f with
    | nil => exact le_refl _
    | cons c f =>
      have hf := ih f
      simp only [takeLine]
      split <;> simp only [List.length_cons] <;> omega

theorem length_fgets_lt {buffer g : List UInt8} (hs : 2 ≤ size) (h : fgets size f = some (buffer,g)) :
    g.length < f.length := by
  obtain ⟨n,rfl⟩ : ∃ n, size = n+2 := ⟨size-2,by omega⟩
  cases f with
  | nil => cases h
  | cons c f =>
    have hle := length_takeLine_le n f
    rw [fgets_of_ne_nil (List.cons_ne_nil _ _),Option.some.injEq] at h
    have hg : (takeLine (n+1) (c::f)).2 = g := congrArg Prod.snd h
    rw [← hg,takeLine]
    split <;> simp only [List.length_cons] <;> omega

theorem take_buffers (hs : 2 ≤ size) (hk : f.length ≤ k) (n : ℕ) :
    (buffers size k f).take n = buffers size n f := by
  induction k generalizing f n with
  | zero =>
    obtain rfl : f = [] := List.eq_nil_of_length_eq_zero (by omega)
    cases n <;> simp [buffers]
  | succ k ih =>
    cases n with
    | zero => simp [buffers]
    | succ n =>
      cases hf : fgets size f with
      | none => simp [buffers,hf]
      | some r =>
        have hlt := length_fgets_lt hs (f := f) hf
        simp only [buffers,hf,List.take_succ_cons]
        rw [ih (by omega)]

theorem buffers_congr (hs : 2 ≤ size) (hk : f.length ≤ k) (hn : f.length ≤ n) :
    buffers size k f = buffers size n f := by
  have hle : buffers size k f <+: buffers size n f := take_buffers hs hn k ▸ List.take_prefix _ _
  have hge : buffers size n f <+: buffers size k f := take_buffers hs hk n ▸ List.take_prefix _ _
  exact hle.eq_of_length (le_antisymm hle.length_le hge.length_le)

theorem lines_eq_nil : lines f = [] ↔ f = [] := by
  cases f with
  | nil => simp [lines]
  | cons c f =>
    simp only [lines]
    split
    · simp
    · split <;> simp

theorem ne_nil_of_lines (h : lines f = line::rest) : line ≠ [] := by
  cases f with
  | nil => cases h
  | cons c f =>
    rw [lines] at h
    split at h
    · exact (List.cons.inj h).1 ▸ List.cons_ne_nil _ _
    · split at h <;> exact (List.cons.inj h).1 ▸ List.cons_ne_nil _ _

/-- What is taken is of the first line, all of it if it fits. -/
theorem takeLine_lines (h : lines f = line::rest) (hn : 1 ≤ n) : (takeLine n f).1 = line.take n ∧
    lines (takeLine n f).2 = if line.length ≤ n then rest else line.drop n::rest := by
  induction f generalizing n line rest with
  | nil => cases h
  | cons c f ih =>
    obtain ⟨n,rfl⟩ : ∃ m, n = m+1 := ⟨n-1,by omega⟩
    rw [lines] at h
    split at h
    case isTrue hc =>
      obtain ⟨rfl,rfl⟩ := List.cons.inj h
      simp [takeLine,hc]
    case isFalse hc =>
      split at h
      case h_1 hf =>
        obtain ⟨rfl,rfl⟩ := List.cons.inj h
        obtain rfl := lines_eq_nil.mp hf
        cases n <;> simp [takeLine,hc,lines]
      case h_2 l ls hf =>
        obtain ⟨rfl,rfl⟩ := List.cons.inj h
        cases n with
        | zero =>
          have hl := List.length_pos_iff.mpr (ne_nil_of_lines hf)
          simp [takeLine,hc,hf,List.length_pos_iff.mp hl]
        | succ n =>
          obtain ⟨hfst,hsnd⟩ := ih hf (Nat.succ_pos n)
          simp [takeLine,hc,hfst,hsnd]

theorem takeLine_append (n : ℕ) (f : List UInt8) : (takeLine n f).1 ++ (takeLine n f).2 = f := by
  induction n generalizing f with
  | zero => rfl
  | succ n ih =>
    cases f with
    | nil => rfl
    | cons c f =>
      rw [takeLine]
      split
      · rfl
      · exact congrArg (c::·) (ih f)

theorem lines_line (h : lines f = line::rest) : lines line = [line] := by
  induction f generalizing line rest with
  | nil => cases h
  | cons c f ih =>
    rw [lines] at h
    split at h
    case isTrue hc =>
      obtain ⟨rfl,rfl⟩ := List.cons.inj h
      simp [lines,hc]
    case isFalse hc =>
      split at h
      case h_1 =>
        obtain ⟨rfl,rfl⟩ := List.cons.inj h
        simp [lines,hc]
      case h_2 l ls hf =>
        obtain ⟨rfl,rfl⟩ := List.cons.inj h
        simp [lines,hc,ih hf]

theorem buffers_line (hs : 2 ≤ size) (h : lines line = [line]) : buffers size line.length line =
    line.take (size-1)::buffers size (line.drop (size-1)).length (line.drop (size-1)) := by
  have hne := ne_nil_of_lines h
  have hpos := List.length_pos_iff.mpr hne
  obtain ⟨m,hm⟩ : ∃ m, line.length = m+1 := ⟨line.length-1,by omega⟩
  obtain ⟨hfst,-⟩ := takeLine_lines h (n := size-1) (by omega)
  have hsnd : (takeLine (size-1) line).2 = line.drop (size-1) := by
    have happend := takeLine_append (size-1) line
    rw [hfst] at happend
    exact List.append_cancel_left (happend.trans (List.take_append_drop _ _).symm)
  simp only [hm,buffers,fgets_of_ne_nil hne,hfst,hsnd]
  rw [buffers_congr hs (by rw [List.length_drop]; omega) le_rfl]

theorem buffers_eq_cut (hk : f.length ≤ k) (hs : 2 ≤ size) : buffers size k f = cut size (lines f) := by
  induction k generalizing f with
  | zero =>
    obtain rfl : f = [] := List.eq_nil_of_length_eq_zero (by omega)
    rfl
  | succ k ih =>
    cases hl : lines f with
    | nil =>
      obtain rfl := lines_eq_nil.mp hl
      rfl
    | cons line rest =>
      have hread : fgets size f = _ := fgets_of_ne_nil fun hf => by simp [hf,lines] at hl
      have hlt := length_fgets_lt hs hread
      obtain ⟨hfst,hsnd⟩ := takeLine_lines hl (n := size-1) (by omega)
      have hrest : cut size (lines (takeLine (size-1) f).2) =
          buffers size (line.drop (size-1)).length (line.drop (size-1)) ++ cut size rest := by
        rw [hsnd]
        split
        case isTrue hfits => rw [List.drop_eq_nil_of_le hfits]; rfl
        case isFalse => rfl
      have hcut : cut size (line::rest) = buffers size line.length line ++ cut size rest := List.flatMap_cons
      simp only [buffers,hread]
      rw [ih (by omega),hrest,hfst,hcut,buffers_line hs (lines_line hl),List.cons_append]

end TextInput
end Scroom
