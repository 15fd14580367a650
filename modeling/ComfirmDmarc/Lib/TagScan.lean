import ComfirmDmarc.Lib.CMemory
import Mathlib.Logic.Function.Basic

/-!
# Scanning `tag=value;` texts into fixed buffers

A C scanner with one array for each tag. Outside of a value it looks for the
start of a tag at every byte; inside, it drops blanks and stores the other
bytes, as far as there is room, until a `;` or the end of the text. The arrays
are memory that was never cleared. `values` is what such a scanner reads, in
order; `parse_text` says that each array holds the last value read for its tag,
or what was there before.

The tags, the array length and the bytes that start a tag are parameters.
-/

namespace TagScan

open CMemory

variable {T : Type} {n : Nat} (tagAt : Bytes → Option (T × Nat))

/-! ## The scanner -/

section Scanner

variable [DecidableEq T]

/-- SP or TAB. -/
def isBlank (c : UInt8) : Bool := c == 32 || c == 9

/-- The arrays, and the variables of the loop. -/
structure State (T : Type) (n : Nat) where
  buffers : T → Vector UInt8 n
  inVal : Bool
  valLen : Nat
  paramPtr : Option T

/-- `param_ptr[val_len] = x`. -/
def store (buffers : T → Vector UInt8 n) (t : T) (i : Nat) (x : UInt8) : T → Vector UInt8 n :=
  Function.update buffers t ((buffers t).setIfInBounds i x)

/-- The terminator of the value under way. -/
def close (st : State T n) : T → Vector UInt8 n :=
  match st.paramPtr with
  | some t => store st.buffers t st.valLen 0
  | none => st.buffers

/-- A byte inside a value. -/
def valueStep (st : State T n) (cur : UInt8) : State T n :=
  if cur = 59 then  -- ';'
    { buffers := close st, inVal := false, valLen := 0, paramPtr := none }
  else if isBlank cur then st
  else
    match st.paramPtr with
    | some t =>
      if st.valLen < n - 1 then
        { st with buffers := store st.buffers t st.valLen cur, valLen := st.valLen + 1 }
      else st
    | none => st

def loop (st : State T n) : Bytes → State T n
  | [] => st
  | cur :: rest =>
    if st.inVal then loop (valueStep st cur) rest
    else
      match tagAt (cur :: rest) with
      | some (t, skip) => loop { st with paramPtr := some t, inVal := true } (rest.drop skip)
      | none => loop st rest
termination_by text => text.length
decreasing_by
  all_goals
    simp only [List.length_drop, List.length_cons]
    omega

/-- The arrays after a text was scanned over the memory `mem`. -/
def parse (mem : T → Vector UInt8 n) (text : Bytes) : T → Vector UInt8 n :=
  close (loop tagAt ⟨mem, false, 0, none⟩ text)

end Scanner

/-! ## What is read -/

/-- The values of a text in order, from inside the value `cur` or from outside;
the end of the text ends a value. -/
def values (cur : Option (T × Bytes)) : Bytes → List (T × Bytes)
  | [] => cur.toList
  | c :: rest =>
    match cur with
    | some (t, x) =>
      if c = 59 then (t, x) :: values none rest
      else if isBlank c then values (some (t, x)) rest
      else values (some (t, x ++ [c])) rest
    | none =>
      match tagAt (c :: rest) with
      | some (t, skip) => values (some (t, [])) (rest.drop skip)
      | none => values none rest
termination_by text => text.length
decreasing_by
  all_goals
    simp only [List.length_drop, List.length_cons]
    omega

/-- Inside a value up to its `;`. -/
theorem values_field (t : T) (x : Bytes) {v : Bytes} (hv : (59 : UInt8) ∉ v) (rest : Bytes) :
    values tagAt (some (t, x)) (v ++ 59 :: rest) =
      (t, x ++ v.filter fun c => !isBlank c) :: values tagAt none rest := by
  induction v generalizing x with
  | nil => rw [List.nil_append, values, if_pos rfl]; simp
  | cons c v ih =>
    simp only [List.mem_cons, not_or] at hv
    rw [List.cons_append, values, if_neg (Ne.symm hv.1)]
    by_cases hb : isBlank c = true
    · rw [if_pos hb, ih x hv.2]
      simp [hb]
    · rw [if_neg hb, ih (x ++ [c]) hv.2]
      simp [hb]

/-- Inside the last value. -/
theorem values_lastField (t : T) (x : Bytes) {v : Bytes} (hv : (59 : UInt8) ∉ v) :
    values tagAt (some (t, x)) v = [(t, x ++ v.filter fun c => !isBlank c)] := by
  induction v generalizing x with
  | nil => simp [values]
  | cons c v ih =>
    simp only [List.mem_cons, not_or] at hv
    rw [values, if_neg (Ne.symm hv.1)]
    by_cases hb : isBlank c = true
    · rw [if_pos hb, ih x hv.2]
      simp [hb]
    · rw [if_neg hb, ih (x ++ [c]) hv.2]
      simp [hb]

/-- Text in which no tag starts is passed over. -/
theorem values_skip {u : Bytes} (rest : Bytes)
    (h : ∀ c v, c :: v <:+ u → tagAt (c :: v ++ rest) = none) :
    values tagAt none (u ++ rest) = values tagAt none rest := by
  induction u with
  | nil => rfl
  | cons c u ih =>
    rw [List.cons_append, values, ← List.cons_append, h c u (List.suffix_refl _)]
    exact ih fun d v hv => h d v (hv.trans (List.suffix_cons c u))

/-! ## The arrays hold the last values -/

section Arrays

variable [DecidableEq T]

/-- The last value of a tag. -/
def lastValue (t : T) : List (T × Bytes) → Option Bytes
  | [] => none
  | p :: ps => (lastValue t ps).or (if p.1 = t then some p.2 else none)

/-- A value under way is read in the end. -/
theorem lastValue_inside (t : T) (x text : Bytes) :
    ∃ y, lastValue t (values tagAt (some (t, x)) text) = some y := by
  induction text generalizing x with
  | nil => exact ⟨x, by simp [values, lastValue]⟩
  | cons c text ih =>
    rw [values]
    split_ifs
    · simp only [lastValue, if_true]
      cases lastValue t (values tagAt none text) <;> simp
    · exact ih x
    · exact ih (x ++ [c])

/-- What an array holds in the end: the last value, as far as there is room for
it, or the text from before. -/
def held (buffer : Vector UInt8 n) (x : Option Bytes) : Bytes :=
  match x with
  | some x => x.take (n - 1)
  | none => str buffer.toList

theorem lastValue_append (t : T) (front back : List (T × Bytes)) :
    lastValue t (front ++ back) = (lastValue t back).or (lastValue t front) := by
  induction front with
  | nil => simp [lastValue]
  | cons p ps ih => rw [List.cons_append, lastValue, lastValue, ih, Option.or_assoc]

theorem store_self (buffers : T → Vector UInt8 n) (t : T) (i : Nat) (x : UInt8) :
    (store buffers t i x t).toList = (buffers t).toList.set i x := by
  rw [store, Function.update_self, toList_setIfInBounds]

theorem store_of_ne (buffers : T → Vector UInt8 n) {t u : T} (h : u ≠ t) (i : Nat) (x : UInt8) :
    store buffers t i x u = buffers u := by
  rw [store, Function.update_of_ne h]

/-- The value `x` is in the array so far, behind it some room for its
terminator. -/
structure Holding (buffer : Vector UInt8 n) (valLen : Nat) (x : Bytes) : Prop where
  nul : (0 : UInt8) ∉ x
  len : valLen = (x.take (n - 1)).length
  front : ∃ old back, buffer.toList = x.take (n - 1) ++ old :: back

theorem Holding.start (hn : 0 < n) (buffer : Vector UInt8 n) : Holding buffer 0 [] := by
  refine ⟨by simp, by simp, ?_⟩
  obtain ⟨old, back, h⟩ := List.exists_cons_of_length_pos (l := buffer.toList)
    (by rw [Vector.length_toList]; exact hn)
  exact ⟨old, back, by rw [h]; simp⟩

/-- The terminator ends the value. -/
theorem Holding.close {buffers : T → Vector UInt8 n} {t : T} {valLen : Nat} {x : Bytes}
    (h : Holding (buffers t) valLen x) :
    str (store buffers t valLen 0 t).toList = x.take (n - 1) := by
  obtain ⟨old, back, hback⟩ := h.front
  rw [store_self, hback, h.len]
  exact str_set_length (fun h0 => h.nul (List.mem_of_mem_take h0)) (List.cons_ne_nil _ _)

/-- What every array holds then. -/
theorem Holding.close_held {buffers : T → Vector UInt8 n} {u : T} {valLen : Nat} {x : Bytes}
    (h : Holding (buffers u) valLen x) (t : T) :
    str (store buffers u valLen 0 t).toList =
      held (buffers t) (if u = t then some x else none) := by
  by_cases hu : u = t
  · subst hu
    rw [h.close, if_pos rfl, held]
  · rw [store_of_ne _ (Ne.symm hu), if_neg hu, held]

/-- A byte that finds room. -/
theorem Holding.push {buffers : T → Vector UInt8 n} {t : T} {valLen : Nat} {x : Bytes}
    (h : Holding (buffers t) valLen x) {c : UInt8} (hc : c ≠ 0) (hroom : valLen < n - 1) :
    Holding (store buffers t valLen c t) (valLen + 1) (x ++ [c]) := by
  have hlen := h.len
  rw [List.length_take] at hlen
  have hx : x.take (n - 1) = x := List.take_of_length_le (by omega)
  have hx' : (x ++ [c]).take (n - 1) = x ++ [c] := List.take_of_length_le (by simp; omega)
  obtain ⟨old, back, hback⟩ := h.front
  rw [hx] at hback
  have hroom' : 0 < back.length := by
    have hsize := congrArg List.length hback
    rw [Vector.length_toList, List.length_append, List.length_cons] at hsize
    omega
  obtain ⟨old', back', rfl⟩ := List.exists_cons_of_length_pos hroom'
  refine ⟨?_, by rw [hx', List.length_append, List.length_singleton]; omega, old', back', ?_⟩
  · simp only [List.mem_append, List.mem_singleton, not_or]
    exact ⟨h.nul, hc.symm⟩
  · rw [store_self, hback, show valLen = x.length by omega, set_length_append, hx']
    simp

/-- A byte that finds none. -/
theorem Holding.full {buffer : Vector UInt8 n} {valLen : Nat} {x : Bytes}
    (h : Holding buffer valLen x) {c : UInt8} (hc : c ≠ 0) (hroom : ¬valLen < n - 1) :
    Holding buffer valLen (x ++ [c]) := by
  have hlen := h.len
  rw [List.length_take] at hlen
  have htake : (x ++ [c]).take (n - 1) = x.take (n - 1) := List.take_append_of_le_length (by omega)
  refine ⟨?_, by rw [htake]; exact h.len, by rw [htake]; exact h.front⟩
  simp only [List.mem_append, List.mem_singleton, not_or]
  exact ⟨h.nul, hc.symm⟩

/-- The loop's variables inside the value `cur`, or outside. -/
def Reads (st : State T n) : Option (T × Bytes) → Prop
  | none => st.inVal = false ∧ st.paramPtr = none ∧ st.valLen = 0
  | some (t, x) => st.inVal = true ∧ st.paramPtr = some t ∧ Holding (st.buffers t) st.valLen x

/-- **The loop keeps the last values**: from any point of a text, what the
arrays hold in the end is what is read from there on. -/
theorem loop_text (hn : 0 < n) {cur : Option (T × Bytes)} {text : Bytes}
    (htext : (0 : UInt8) ∉ text) {st : State T n} (hst : Reads st cur) (t : T) :
    str (close (loop tagAt st text) t).toList =
      held (st.buffers t) (lastValue t (values tagAt cur text)) := by
  fun_induction values tagAt cur text generalizing st with
  | case1 cur =>
    rw [loop]
    match cur, hst with
    | none, ⟨_, hptr, _⟩ => simp [close, hptr, lastValue, held]
    | some (u, x), ⟨_, hptr, hhold⟩ =>
      simp only [close, hptr, Option.toList_some, lastValue, Option.none_or]
      exact hhold.close_held t
  | case2 rest u x ih =>
    -- a `;` closes the value
    obtain ⟨hin, hptr, hhold⟩ := hst
    rw [loop, if_pos hin, valueStep, if_pos rfl]
    simp only [List.mem_cons, not_or] at htext
    rw [ih htext.2 ⟨rfl, rfl, rfl⟩, lastValue, close, hptr]
    cases lastValue t (values tagAt none rest) with
    | some y => rfl
    | none =>
      rw [Option.none_or]
      exact hhold.close_held t
  | case3 c rest u x hend hblank ih =>
    obtain ⟨hin, hptr, hhold⟩ := hst
    rw [loop, if_pos hin, valueStep, if_neg hend, if_pos hblank]
    simp only [List.mem_cons, not_or] at htext
    exact ih htext.2 ⟨hin, hptr, hhold⟩
  | case4 c rest u x hend hblank ih =>
    obtain ⟨hin, hptr, hhold⟩ := hst
    simp only [List.mem_cons, not_or] at htext
    rw [loop, if_pos hin, valueStep, if_neg hend, if_neg hblank, hptr]
    have hc : c ≠ 0 := Ne.symm htext.1
    by_cases hroom : st.valLen < n - 1
    · simp only [if_pos hroom]
      have hst' : Reads (⟨store st.buffers u st.valLen c, st.inVal, st.valLen + 1, some u⟩ : State T n)
          (some (u, x ++ [c])) := ⟨hin, rfl, hhold.push hc hroom⟩
      rw [ih htext.2 hst']
      by_cases hu : u = t
      · -- its array changed, but the value under way will be read
        subst hu
        obtain ⟨y, hy⟩ := lastValue_inside tagAt u (x ++ [c]) rest
        rw [hy]
        rfl
      · show held (store st.buffers u st.valLen c t) _ = _
        rw [store_of_ne _ (Ne.symm hu)]
    · simp only [if_neg hroom]
      exact ih htext.2 ⟨hin, hptr, hhold.full hc hroom⟩
  | case5 c rest u skip htag ih =>
    obtain ⟨hin, hptr, hlen⟩ := hst
    simp only [List.mem_cons, not_or] at htext
    rw [loop, if_neg (by simp [hin]), htag]
    exact ih (fun h0 => htext.2 (List.mem_of_mem_drop h0))
      ⟨rfl, rfl, by simp only [hlen]; exact .start hn _⟩
  | case6 c rest htag ih =>
    obtain ⟨hin, hptr, hlen⟩ := hst
    simp only [List.mem_cons, not_or] at htext
    rw [loop, if_neg (by simp [hin]), htag]
    exact ih htext.2 ⟨hin, hptr, hlen⟩

/-- **Every array holds the last value read for its tag.** -/
theorem parse_text (hn : 0 < n) (mem : T → Vector UInt8 n) {text : Bytes}
    (htext : (0 : UInt8) ∉ text) (t : T) :
    str (parse tagAt mem text t).toList = held (mem t) (lastValue t (values tagAt none text)) := by
  have hstart : Reads (⟨mem, false, 0, none⟩ : State T n) none := ⟨rfl, rfl, rfl⟩
  exact loop_text tagAt hn htext hstart t

end Arrays

end TagScan
