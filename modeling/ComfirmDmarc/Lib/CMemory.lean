import Mathlib.Data.List.Basic
import Mathlib.Data.List.TakeWhile
import Mathlib.Data.List.Infix

/-!
# C strings and arrays

The part of C's view of memory that string code rests on. Memory that is only
read is a list of bytes that goes on past the object of interest, so that a
comparison which looks ahead looks at the bytes that are really there. An
array of `n` elements is a `Vector`; a write outside of it is left to the
caller to report and changes nothing here.
-/

namespace CMemory

/-- A C string, without its terminator. -/
abbrev Bytes := List UInt8

/-- The bytes of a string literal (of characters below 256). -/
def bytes (s : String) : Bytes := s.toList.map fun c => UInt8.ofNat c.toNat

/-- The bytes of a literal, without decoding its text. -/
theorem bytes_ofList (cs : List Char) :
    bytes (String.ofList cs) = cs.map fun c => UInt8.ofNat c.toNat := by
  rw [bytes, String.toList_ofList]

/-- The C string that starts at the beginning of `mem`. -/
def str (mem : Bytes) : Bytes := mem.takeWhile (· ≠ 0)

/-- `strncmp(mem, lit, strlen(lit)) == 0` for a string `lit` without NUL. -/
def startsWith (mem lit : Bytes) : Bool := lit.isPrefixOf mem

theorem str_eq_self {s : Bytes} (h : (0 : UInt8) ∉ s) : str s = s :=
  List.takeWhile_eq_self_iff.mpr fun c hc => by
    have : c ≠ 0 := fun h0 => h (h0 ▸ hc)
    simpa using this

/-- The C string of a NUL-free text, a terminator and anything after it. -/
theorem str_append_nul {s : Bytes} (h : (0 : UInt8) ∉ s) (mem : Bytes) :
    str (s ++ 0 :: mem) = s := by
  rw [str, List.takeWhile_append_of_pos, List.takeWhile_cons_of_neg (by simp), List.append_nil]
  intro c hc
  have : c ≠ 0 := fun h0 => h (h0 ▸ hc)
  simpa using this

theorem not_mem_str (mem : Bytes) : (0 : UInt8) ∉ str mem := by
  intro h
  have := List.mem_takeWhile_imp h
  simp at this

theorem startsWith_iff {mem lit : Bytes} : startsWith mem lit = true ↔ lit <+: mem := by
  rw [startsWith, List.isPrefixOf_iff_prefix]

/-- What stands behind a text without NUL goes on with its string. -/
theorem str_append {s : Bytes} (h : (0 : UInt8) ∉ s) (mem : Bytes) : str (s ++ mem) = s ++ str mem := by
  induction s with
  | nil => rfl
  | cons c s ih =>
    have hc : c ≠ 0 := fun hc => h (hc ▸ List.mem_cons_self)
    have hs := ih fun hmem => h (List.mem_cons_of_mem _ hmem)
    rw [str] at hs ⊢
    rw [List.cons_append, List.takeWhile_cons_of_pos (by simpa using hc), hs]
    rfl

/-- A string with a NUL in it is shorter than its memory. -/
theorem str_length_lt {mem : Bytes} (h : (0 : UInt8) ∈ mem) : (str mem).length < mem.length := by
  by_contra hge
  have hall : str mem = mem :=
    (List.takeWhile_prefix _).eq_of_length_le (Nat.not_lt.mp hge)
  rw [← hall] at h
  exact not_mem_str _ h

/-- A string that ends in its own memory is not longer for what follows. -/
theorem str_append_of_lt {s mem : Bytes} (h : (str s).length < s.length) :
    str (s ++ mem) = str s := by
  rw [str, List.takeWhile_append, if_neg (by rw [str] at h; omega)]
  rfl

/-- `memcpy(dst, src, len(src))` into an array of `n` elements. -/
def memcpy {α : Type*} {n : Nat} (dst : Vector α n) (src : List α) : Vector α n :=
  ⟨((src ++ dst.toList.drop src.length).take n).toArray, by simp; omega⟩

theorem memcpy_toList {α : Type*} {n : Nat} (dst : Vector α n) {src : List α}
    (h : src.length ≤ n) : (memcpy dst src).toList = src ++ dst.toList.drop src.length := by
  simp only [memcpy, Vector.toList_mk]
  exact List.take_of_length_le (by simp; omega)

theorem toList_setIfInBounds {α : Type*} {n : Nat} (a : Vector α n) (i : Nat) (x : α) :
    (a.setIfInBounds i x).toList = a.toList.set i x := by
  cases a with
  | mk a h => simp [Vector.setIfInBounds]

/-- Writing the next byte of a string that is being built at the front. -/
theorem set_length_append {α : Type*} (done : List α) (old x : α) (rest : List α) :
    (done ++ old :: rest).set done.length x = done ++ x :: rest := by
  simp

/-- A byte moved down inside its array: `out` is what was kept so far, `gap`
what lies between the write and the read position. -/
theorem set_compact {α : Type*} (out gap : List α) (c : α) (rest : List α) :
    ∃ gap', gap'.length = gap.length ∧
      (out ++ gap ++ c :: rest).set out.length c = out ++ [c] ++ gap' ++ rest ∧
      (out ++ [c] ++ gap').getLast? = some c := by
  cases gap with
  | nil => exact ⟨[], rfl, by simp, by simp⟩
  | cons g gap =>
    exact ⟨gap ++ [c], by simp, by simp, by rw [← List.append_assoc, List.getLast?_concat]⟩

theorem str_append_zero (s mem : Bytes) : str (s ++ 0 :: mem) = str s := by
  induction s with
  | nil => rfl
  | cons c s ih =>
    by_cases hc : c = 0
    · simp [str, hc]
    · simpa [str, hc] using ih

/-- A string that ends inside of the memory ends at a terminator. -/
theorem exists_terminator {mem : Bytes} (h : (str mem).length < mem.length) :
    ∃ rest, mem = str mem ++ 0 :: rest := by
  induction mem with
  | nil => simp at h
  | cons c mem ih =>
    by_cases hc : c = 0
    · exact ⟨mem, by simp [str, hc]⟩
    · have hstr : str (c :: mem) = c :: str mem := by simp [str, hc]
      rw [hstr, List.length_cons, List.length_cons] at h
      obtain ⟨rest, hrest⟩ := ih (by omega)
      exact ⟨rest, by rw [hstr, List.cons_append, ← hrest]⟩

/-- The string left by a terminator that is stored behind `s`. -/
theorem str_set_length {s junk : Bytes} (h : (0 : UInt8) ∉ s) (hne : junk ≠ []) :
    str ((s ++ junk).set s.length 0) = s := by
  cases junk with
  | nil => exact absurd rfl hne
  | cons j junk => rw [set_length_append, str_append_nul h]

/-! ## Text between separators -/

/-- The pieces of a text between its separators, the first of them behind
`front`. -/
def pieces (sep : UInt8) (front text : Bytes) : List Bytes :=
  (text.splitOn sep).modifyHead (front ++ ·)

theorem pieces_eq_splitOn (sep : UInt8) (text : Bytes) : pieces sep [] text = text.splitOn sep := by
  have hid : (fun l : Bytes => [] ++ l) = id := funext fun _ => List.nil_append _
  rw [pieces, hid, List.modifyHead_id]
  rfl

theorem pieces_nil (sep : UInt8) (front : Bytes) : pieces sep front [] = [front] := by
  simp [pieces]

theorem pieces_sep (sep : UInt8) (front text : Bytes) :
    pieces sep front (sep :: text) = front :: pieces sep [] text := by
  rw [pieces_eq_splitOn, pieces, List.splitOn_cons_eq_if_modifyHead]
  simp

theorem pieces_cons {sep c : UInt8} (hc : c ≠ sep) (front text : Bytes) :
    pieces sep front (c :: text) = pieces sep (front ++ [c]) text := by
  rw [pieces, pieces, List.splitOn_cons_eq_if_modifyHead, if_neg (by simpa using hc),
    List.modifyHead_modifyHead]
  congr 1
  funext l
  simp

/-! ## Writes into a block -/

/-- `memcpy(block + i, src, len(src))`; `none` when it goes past the end of the
block. -/
def writeAt (block : Bytes) (i : Nat) (src : Bytes) : Option Bytes :=
  if i + src.length ≤ block.length then
    some (block.take i ++ src ++ block.drop (i + src.length))
  else none

/-- Writing behind what the block holds already. -/
theorem writeAt_append {done src free : Bytes} (h : src.length ≤ free.length) :
    writeAt (done ++ free) done.length src = some (done ++ src ++ free.drop src.length) := by
  rw [writeAt, if_pos (by simpa using h)]
  simp [List.drop_append]

end CMemory
