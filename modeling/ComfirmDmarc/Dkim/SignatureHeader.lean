import ComfirmDmarc.Dkim.HeaderCanon
import Mathlib.Logic.Function.Basic
import Mathlib.Data.List.GetD

/-!
# Dkim -- `dkim_parse_header`

The tag parser of `firm-dkim.c`. It writes every value it reads over the buffer
of its tag, in a block that `malloc` did not clear. What the buffers hold at
the end is the last value read for each tag: `readTags` collects these values
in order, and does not care how blanks are spread.
-/

namespace ComfirmDmarc.Dkim

open CMemory

/-! ## The code -/

/-- `DKIM_VALUE_MAX_LEN`. -/
def dkimValueMaxLen : Nat := 1024

/-- The buffers of `dkim_header`. -/
inductive Tag
  | v
  | a
  | c
  | d
  | s
  | h
  | bh
  | b
  deriving DecidableEq, Repr

/-- `dkim_header`. -/
abbrev DkimHeader := Tag → Vector UInt8 dkimValueMaxLen

/-- The C string in a buffer. -/
def DkimHeader.text (dh : DkimHeader) (t : Tag) : Bytes := str (dh t).toList

/-- A byte stored in a buffer. -/
def DkimHeader.store (dh : DkimHeader) (t : Tag) (i : Nat) (x : UInt8) : DkimHeader :=
  Function.update dh t ((dh t).setIfInBounds i x)

/-- The variables of `dkim_parse_header`. -/
structure ParseState where
  dh : DkimHeader
  inVal : Bool
  valLen : Nat
  paramPtr : Option Tag

/-- The tag that starts here, and the bytes skipped besides the `++i`. -/
def tagAt (here : Bytes) : Option (Tag × Nat) :=
  if startsWith here (bytes "v=") then some (.v, 1)
  else if startsWith here (bytes "a=") then some (.a, 1)
  else if startsWith here (bytes "c=") then some (.c, 1)
  else if startsWith here (bytes "d=") then some (.d, 1)
  else if startsWith here (bytes "s=") then some (.s, 1)
  else if startsWith here (bytes "bh=") then some (.bh, 2)
  else if startsWith here (bytes "b=") then some (.b, 1)
  else if startsWith here (bytes "h=") then some (.h, 1)
  else none

/-- A byte in a value. -/
def valueStep (st : ParseState) (cur : UInt8) : ParseState :=
  if cur = 59 then  -- ';'
    { st with
      dh := match st.paramPtr with
        | some t => st.dh.store t st.valLen 0
        | none => st.dh
      paramPtr := none
      inVal := false
      valLen := 0 }
  else if isWsp cur then st
  else
    match st.paramPtr with
    | some t =>
      if st.valLen < dkimValueMaxLen - 1 then
        { st with dh := st.dh.store t st.valLen cur, valLen := st.valLen + 1 }
      else st
    | none => st

/-- The loop of `dkim_parse_header`. -/
def parseLoop (st : ParseState) : Bytes → ParseState
  | [] => st
  | cur :: rest =>
    if st.inVal then parseLoop (valueStep st cur) rest
    else
      match tagAt (cur :: rest) with
      | some (t, skip) =>
        parseLoop { st with paramPtr := some t, inVal := true } (rest.drop skip)
      | none => parseLoop st rest
termination_by sig => sig.length
decreasing_by
  all_goals
    simp only [List.length_drop, List.length_cons]
    omega

/-- `dkim_parse_header`, over the block `mem`. -/
def dkimParseHeader (mem : DkimHeader) (sig : Bytes) : DkimHeader :=
  let st := parseLoop ⟨mem, false, 0, none⟩ sig
  match st.paramPtr with
  | some t => st.dh.store t st.valLen 0
  | none => st.dh

/-- The first header field under the name `DKIM-Signature`. -/
def findSignature (headers : List StringPair) : Option StringPair :=
  headers.find? fun h => h.key = bytes "DKIM-Signature"

/-- `dkim_get_header`. -/
def dkimGetHeader (mem : DkimHeader) (headers : List StringPair) : Option DkimHeader :=
  (findSignature headers).map fun h => dkimParseHeader mem h.value

/-! ## Reading the tags -/

/-- The values read so far, in order, and the value that is being read. -/
structure Reading where
  done : List (Tag × Bytes)
  cur : Option (Tag × Bytes)

/-- A byte while `t` is being read. -/
def Reading.next (r : Reading) (t : Tag) (x : Bytes) (c : UInt8) : Reading :=
  if c = 59 then ⟨r.done ++ [(t, x)], none⟩
  else if isWsp c then r
  else ⟨r.done, some (t, x ++ [c])⟩

def readTags (r : Reading) : Bytes → Reading
  | [] => r
  | c :: rest =>
    match r.cur with
    | some (t, x) => readTags (r.next t x c) rest
    | none =>
      match tagAt (c :: rest) with
      | some (t, skip) => readTags { r with cur := some (t, []) } (rest.drop skip)
      | none => readTags r rest
termination_by sig => sig.length
decreasing_by
  all_goals
    simp only [List.length_drop, List.length_cons]
    omega

/-- All values, the last one closed by the end of the text. -/
def Reading.all (r : Reading) : List (Tag × Bytes) := r.done ++ r.cur.toList

/-- The last value of a tag. -/
def lastValue (t : Tag) (values : List (Tag × Bytes)) : Option Bytes :=
  (values.reverse.find? fun p => p.1 = t).map Prod.snd

/-- What a buffer holds: the last value, as far as there is room for it, or
what was there before. -/
def bufferText (mem : DkimHeader) (values : List (Tag × Bytes)) (t : Tag) : Bytes :=
  match lastValue t values with
  | some x => x.take (dkimValueMaxLen - 1)
  | none => mem.text t

@[simp] theorem lastValue_nil (t : Tag) : lastValue t [] = none := rfl

theorem lastValue_append (t : Tag) (front back : List (Tag × Bytes)) :
    lastValue t (front ++ back) = (lastValue t back).or (lastValue t front) := by
  simp only [lastValue, List.reverse_append, List.find?_append]
  cases back.reverse.find? fun p => p.1 = t <;> simp

theorem lastValue_singleton (t : Tag) (p : Tag × Bytes) :
    lastValue t [p] = if p.1 = t then some p.2 else none := by
  by_cases h : p.1 = t <;> simp [lastValue, h]

/-! ## The parser keeps the last values -/

theorem DkimHeader.store_text_of_ne (dh : DkimHeader) {t u : Tag} (h : u ≠ t) (i : Nat)
    (x : UInt8) : (dh.store t i x).text u = dh.text u := by
  rw [DkimHeader.text, DkimHeader.store, Function.update_of_ne h, DkimHeader.text]

theorem DkimHeader.store_toList (dh : DkimHeader) (t : Tag) (i : Nat) (x : UInt8) :
    (dh.store t i x t).toList = (dh t).toList.set i x := by
  rw [DkimHeader.store, Function.update_self, toList_setIfInBounds]

/-- The value `x` of `t` is in its buffer so far. -/
structure Holding (dh : DkimHeader) (valLen : Nat) (t : Tag) (x : Bytes) : Prop where
  nul : (0 : UInt8) ∉ x
  len : valLen = (x.take (dkimValueMaxLen - 1)).length
  front : ∃ back, (dh t).toList = x.take (dkimValueMaxLen - 1) ++ back

theorem Holding.start (dh : DkimHeader) (t : Tag) : Holding dh 0 t [] :=
  ⟨by simp, rfl, _, rfl⟩

/-- A value never fills its buffer. -/
theorem buffer_back_ne_nil {dh : DkimHeader} {t : Tag} {x back : Bytes}
    (h : (dh t).toList = x.take (dkimValueMaxLen - 1) ++ back) : back ≠ [] := by
  rintro rfl
  have hlen : (dh t).toList.length = dkimValueMaxLen := (dh t).length_toList
  rw [h, List.append_nil, List.length_take, dkimValueMaxLen] at hlen
  omega

/-- The terminator ends the value. -/
theorem Holding.close {dh : DkimHeader} {valLen : Nat} {t : Tag} {x : Bytes}
    (h : Holding dh valLen t x) :
    (dh.store t valLen 0).text t = x.take (dkimValueMaxLen - 1) := by
  obtain ⟨back, hback⟩ := h.front
  rw [DkimHeader.text, DkimHeader.store_toList, hback, h.len]
  exact str_set_length (fun h0 => h.nul (List.mem_of_mem_take h0)) (buffer_back_ne_nil hback)

/-- A further byte of the value. -/
theorem Holding.push {dh : DkimHeader} {valLen : Nat} {t : Tag} {x : Bytes}
    (h : Holding dh valLen t x) {c : UInt8} (hc : c ≠ 0) :
    if valLen < dkimValueMaxLen - 1 then
      Holding (dh.store t valLen c) (valLen + 1) t (x ++ [c])
    else Holding dh valLen t (x ++ [c]) := by
  have hnul : (0 : UInt8) ∉ x ++ [c] := by
    simp only [List.mem_append, List.mem_singleton, not_or]
    exact ⟨h.nul, hc.symm⟩
  obtain ⟨back, hback⟩ := h.front
  have hlen := h.len
  rw [List.length_take] at hlen
  split
  · have hx : x.length < dkimValueMaxLen - 1 := by omega
    have htake : x.take (dkimValueMaxLen - 1) = x := List.take_of_length_le (by omega)
    have htake' : (x ++ [c]).take (dkimValueMaxLen - 1) = x ++ [c] :=
      List.take_of_length_le (by simp; omega)
    obtain ⟨b, back, rfl⟩ := List.exists_cons_of_ne_nil (buffer_back_ne_nil hback)
    rw [htake] at hback
    refine ⟨hnul, by rw [htake']; simp; omega, back, ?_⟩
    rw [htake', DkimHeader.store_toList, hback, show valLen = x.length by omega,
      set_length_append]
    simp
  · have htake : (x ++ [c]).take (dkimValueMaxLen - 1) = x.take (dkimValueMaxLen - 1) :=
      List.take_append_of_le_length (by omega)
    exact ⟨hnul, by rw [htake]; exact h.len, back, by rw [htake]; exact hback⟩

/-- **What relates the parser to a reading**: closed values are in their
buffers, and the value that is being read is under way. -/
structure Represents (mem : DkimHeader) (st : ParseState) (r : Reading) : Prop where
  inVal : st.inVal = r.cur.isSome
  paramPtr : st.paramPtr = r.cur.map Prod.fst
  closed : ∀ t, st.paramPtr ≠ some t → st.dh.text t = bufferText mem r.done t
  holding : ∀ t x, r.cur = some (t, x) → Holding st.dh st.valLen t x
  idle : r.cur = none → st.valLen = 0

theorem bufferText_append_singleton (mem : DkimHeader) (values : List (Tag × Bytes)) (t u : Tag)
    (x : Bytes) :
    bufferText mem (values ++ [(t, x)]) u =
      if t = u then x.take (dkimValueMaxLen - 1) else bufferText mem values u := by
  simp only [bufferText, lastValue_append, lastValue_singleton]
  by_cases h : t = u <;> simp [h]

theorem Represents.close {mem : DkimHeader} {st : ParseState} {r : Reading} {t : Tag} {x : Bytes}
    (h : Represents mem st r) (hcur : r.cur = some (t, x)) (u : Tag) :
    (st.dh.store t st.valLen 0).text u = bufferText mem (r.done ++ [(t, x)]) u := by
  rw [bufferText_append_singleton]
  by_cases hu : t = u
  · subst hu
    rw [if_pos rfl, (h.holding t x hcur).close]
  · rw [if_neg hu, ← h.closed u (by rw [h.paramPtr, hcur]; simpa using hu),
      DkimHeader.store_text_of_ne _ (Ne.symm hu)]

/-- One byte in a value. -/
theorem Represents.next {mem : DkimHeader} {st : ParseState} {r : Reading} {t : Tag} {x : Bytes}
    (h : Represents mem st r) (hcur : r.cur = some (t, x)) {c : UInt8} (hc : c ≠ 0) :
    Represents mem (valueStep st c) (r.next t x c) := by
  have hptr : st.paramPtr = some t := by rw [h.paramPtr, hcur]; rfl
  rw [valueStep, Reading.next]
  by_cases hend : c = 59
  · rw [if_pos hend, if_pos hend, hptr]
    exact ⟨rfl, rfl, fun u _ => h.close hcur u, nofun, fun _ => rfl⟩
  · rw [if_neg hend, if_neg hend]
    by_cases hwsp : isWsp c = true
    · rw [if_pos hwsp, if_pos hwsp]
      exact h
    · rw [if_neg hwsp, if_neg hwsp, hptr]
      have hpush := (h.holding t x hcur).push hc
      have hin : st.inVal = true := by rw [h.inVal, hcur]; rfl
      by_cases hlen : st.valLen < dkimValueMaxLen - 1
      · rw [if_pos hlen] at hpush
        simp only [if_pos hlen]
        refine ⟨hin, rfl, ?_, ?_, nofun⟩
        · intro u hu
          have hne : u ≠ t := fun he => hu (by rw [he])
          rw [← h.closed u (by rw [hptr]; exact hu)]
          exact st.dh.store_text_of_ne hne _ _
        · rintro u y hy
          obtain ⟨rfl, rfl⟩ : t = u ∧ x ++ [c] = y := by simpa using hy
          exact hpush
      · rw [if_neg hlen] at hpush
        simp only [if_neg hlen]
        refine ⟨hin, hptr, h.closed, ?_, nofun⟩
        rintro u y hy
        obtain ⟨rfl, rfl⟩ : t = u ∧ x ++ [c] = y := by simpa using hy
        exact hpush

/-- The start of a value. -/
theorem Represents.start {mem : DkimHeader} {st : ParseState} {r : Reading}
    (h : Represents mem st r) (hcur : r.cur = none) (t : Tag) :
    Represents mem { st with paramPtr := some t, inVal := true } { r with cur := some (t, []) } := by
  refine ⟨rfl, rfl, ?_, ?_, nofun⟩
  · exact fun u _ => h.closed u (by rw [h.paramPtr, hcur]; exact nofun)
  · rintro u y hy
    obtain ⟨rfl, rfl⟩ : t = u ∧ [] = y := by simpa using hy
    simp only [h.idle hcur]
    exact .start _ _

theorem Represents.loop {mem : DkimHeader} {st : ParseState} {r : Reading} {sig : Bytes}
    (h : Represents mem st r) (hsig : (0 : UInt8) ∉ sig) :
    Represents mem (parseLoop st sig) (readTags r sig) := by
  fun_induction readTags r sig generalizing st with
  | case1 r => rw [parseLoop]; exact h
  | case2 r c rest t x hcur ih =>
    simp only [List.mem_cons, not_or] at hsig
    have hin : st.inVal = true := by rw [h.inVal, hcur]; rfl
    rw [parseLoop, if_pos hin]
    exact ih (h.next hcur (Ne.symm hsig.1)) hsig.2
  | case3 r c rest hcur t skip htag ih =>
    simp only [List.mem_cons, not_or] at hsig
    have hin : ¬st.inVal = true := by rw [h.inVal, hcur]; exact nofun
    rw [parseLoop, if_neg hin, htag]
    exact ih (h.start hcur t) fun h0 => hsig.2 (List.mem_of_mem_drop h0)
  | case4 r c rest hcur htag ih =>
    simp only [List.mem_cons, not_or] at hsig
    have hin : ¬st.inVal = true := by rw [h.inVal, hcur]; exact nofun
    rw [parseLoop, if_neg hin, htag]
    exact ih h hsig.2

/-- **Every buffer holds the last value read for its tag.** -/
theorem dkimParseHeader_text (mem : DkimHeader) {sig : Bytes} (hsig : (0 : UInt8) ∉ sig) (t : Tag) :
    (dkimParseHeader mem sig).text t = bufferText mem (readTags ⟨[], none⟩ sig).all t := by
  have hstart : Represents mem ⟨mem, false, 0, none⟩ ⟨[], none⟩ :=
    ⟨rfl, rfl, fun _ _ => rfl, nofun, fun _ => rfl⟩
  have hend := hstart.loop hsig
  rw [dkimParseHeader, Reading.all]
  simp only [hend.paramPtr]
  cases hcur : (readTags ⟨[], none⟩ sig).cur with
  | none =>
    simpa using hend.closed t (by rw [hend.paramPtr, hcur]; exact nofun)
  | some p => exact hend.close hcur t

end ComfirmDmarc.Dkim
