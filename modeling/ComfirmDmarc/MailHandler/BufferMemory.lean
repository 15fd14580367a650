import ComfirmDmarc.Base
import ComfirmDmarc.MailHandler.StringBuffer

/-!
# MailHandler -- the block of a `string_buffer`

`string_buffer.c` with its `int`s and the bytes of its block, whatever `malloc`
finds there. A run of appends is simulated by the plain buffer as long as every
string fits into the room that is left and one more chunk, and the sizes fit an
`int`; the first string that does not goes wrong.
-/

namespace ComfirmDmarc.MailHandler

open CMemory

/-! ## The code, on memory -/

/-- `string_buffer`, with the allocated block. -/
structure SbMemory where
  str : Option Bytes
  allocSize : Int
  size : Int

inductive SbFault
  /-- a write behind the block -/
  | heapOverflow
  /-- a size that no `int` holds -/
  | intOverflow
  | nullPointer
  deriving DecidableEq

/-- The block of `malloc(n)`: `n` bytes of what is there. -/
def malloc (mem : Nat → UInt8) (n : Nat) : Bytes := (List.range n).map mem

@[simp] theorem length_malloc (mem : Nat → UInt8) (n : Nat) : (malloc mem n).length = n := by
  simp [malloc]

/-- `memcpy(block + i, src, len(src))`. -/
def copyTo (block : Bytes) (i : Int) (src : Bytes) : Except SbFault Bytes :=
  match writeAt block i.toNat src with
  | none => .error .heapOverflow
  | some block => .ok block

/-- The reallocation: a chunk more, and the stored bytes moved over. -/
def growBlock (sb : SbMemory) (mem : Nat → UInt8) : Except SbFault SbMemory :=
  if 2 ^ 31 ≤ sb.allocSize + stringBufferChunkSize + 1 then .error .intOverflow
  else do
    let new := malloc mem (sb.allocSize + stringBufferChunkSize + 1).toNat
    let new ← match sb.str with
      | none => .ok new
      | some old => copyTo new 0 (old.take sb.size.toNat)
    .ok ⟨some new, sb.allocSize + stringBufferChunkSize, sb.size⟩

/-- The block for `valLen` bytes more: a new one, if there is not the room. -/
def reserveBlock (sb : SbMemory) (mem : Nat → UInt8) (valLen : Int) : Except SbFault SbMemory :=
  if sb.allocSize - sb.size ≤ valLen then growBlock sb mem else .ok sb

/-- The copy of the value and its terminator. -/
def storeValue (sb : SbMemory) (valLen : Int) (value : Bytes) : Except SbFault SbMemory :=
  match sb.str with
  | none => .error .nullPointer
  | some block => do
    let block ← copyTo block sb.size (value.take valLen.toNat)
    let block ← copyTo block (sb.size + valLen) [0]
    .ok ⟨some block, sb.allocSize, sb.size + valLen⟩

/-- `string_buffer_append` of a C string. -/
def appendBytes (sb : SbMemory) (mem : Nat → UInt8) (value : Bytes) : Except SbFault SbMemory :=
  let valLen := toInt value.length
  if 0 < valLen then do
    let sb ← reserveBlock sb mem valLen
    storeValue sb valLen value
  else .ok sb

/-- Appends in turn, each with the memory its `malloc` would find. -/
def appendCalls (sb : SbMemory) (calls : List ((Nat → UInt8) × Bytes)) : Except SbFault SbMemory :=
  calls.foldlM (fun sb call => appendBytes sb call.1 call.2) sb

theorem appendCalls_cons (sb : SbMemory) (call : (Nat → UInt8) × Bytes)
    (calls : List ((Nat → UInt8) × Bytes)) :
    appendCalls sb (call :: calls) =
      appendBytes sb call.1 call.2 >>= fun sb => appendCalls sb calls :=
  List.foldlM_cons

/-! ## What a buffer owes -/

/-- The buffer holds `s`: as a C string, as a length, and inside of a block of
`alloc_size` bytes and one for the terminator. -/
structure Holds (sb : SbMemory) (s : Bytes) : Prop where
  content : (sb.str.map CMemory.str).getD [] = s
  size : sb.size = s.length
  inside : sb.size ≤ sb.allocSize
  block : ∀ block ∈ sb.str, (block.length : Int) = sb.allocSize + 1

/-- **A correct growable string**: after each of the calls nothing was written
outside of the block, and the buffer holds all that was appended. -/
def GrowsCorrectly (calls : List ((Nat → UInt8) × Bytes)) : Prop :=
  ∀ n, ∃ sb, appendCalls ⟨none, 0, 0⟩ (calls.take n) = .ok sb ∧
    Holds sb ((calls.take n).map Prod.snd).flatten

/-- The allocation behind an append. -/
def allocAfter (alloc room : Nat) (value : Bytes) : Nat :=
  if value = [] then alloc
  else if room ≤ value.length then alloc + stringBufferChunkSize else alloc

/-- Every size that is computed on the way fits an `int`. -/
def SizesFit (alloc room : Nat) : List Bytes → Prop
  | [] => True
  | value :: values =>
    (value ≠ [] → room ≤ value.length → alloc + stringBufferChunkSize + 1 < 2 ^ 31) ∧
      SizesFit (allocAfter alloc room value) (roomAfter room value) values

instance decSizesFit (alloc room : Nat) : (values : List Bytes) → Decidable (SizesFit alloc room values)
  | [] => .isTrue trivial
  | value :: values =>
    have := decSizesFit (allocAfter alloc room value) (roomAfter room value) values
    inferInstanceAs (Decidable ((value ≠ [] → room ≤ value.length →
      alloc + stringBufferChunkSize + 1 < 2 ^ 31) ∧
      SizesFit (allocAfter alloc room value) (roomAfter room value) values))

/-! ## The plain buffer simulates the memory -/

/-- The memory represents the plain buffer: its string, a terminator, and the
rest of the block. -/
structure Represents (m : SbMemory) (sb : StringBuffer) : Prop where
  allocSize : m.allocSize = sb.allocSize
  size : m.size = sb.size
  nulFree : (0 : UInt8) ∉ sb.content
  room : sb.room ≤ stringBufferChunkSize
  null : sb.str = none → m.str = none ∧ sb.allocSize = 0
  block : ∀ s, sb.str = some s →
    ∃ junk, m.str = some (s ++ 0 :: junk) ∧ junk.length = sb.room

theorem Represents.init : Represents ⟨none, 0, 0⟩ stringBufferInit where
  allocSize := rfl
  size := rfl
  nulFree := by simp [StringBuffer.content, stringBufferInit]
  room := Nat.zero_le _
  null := fun _ => ⟨rfl, rfl⟩
  block := nofun

theorem StringBuffer.size_add_room (sb : StringBuffer) : sb.size + sb.room = sb.allocSize := by
  have hfits : sb.size ≤ sb.allocSize := sb.fits
  rw [StringBuffer.room]
  omega

theorem Represents.holds {m : SbMemory} {sb : StringBuffer} (h : Represents m sb) :
    Holds m sb.content := by
  have hroom := sb.size_add_room
  have halloc := h.allocSize
  have hsize := h.size
  cases hstr : sb.str with
  | none =>
    obtain ⟨hnone, hzero⟩ := h.null hstr
    have hnil : sb.content = [] := by rw [StringBuffer.content, hstr, Option.getD_none]
    refine ⟨?_, hsize, by omega, ?_⟩
    · rw [hnone, hnil]
      rfl
    · rw [hnone]
      nofun
  | some s =>
    obtain ⟨junk, hjunk, hlen⟩ := h.block s hstr
    have hs : sb.content = s := by rw [StringBuffer.content, hstr, Option.getD_some]
    refine ⟨?_, hsize, by omega, ?_⟩
    · rw [hjunk, hs, Option.map_some, Option.getD_some, str_append_nul (hs ▸ h.nulFree)]
    · intro block hblock
      obtain rfl : s ++ 0 :: junk = block := Option.some.inj (hjunk.symm.trans hblock)
      have hsz : sb.size = s.length := by rw [StringBuffer.size, hs]
      rw [List.length_append, List.length_cons, halloc, hlen]
      omega

/-- The value is stored behind what the block holds, if it has the room. -/
theorem storeValue_ok {s free value : Bytes} (alloc : Int)
    (hroom : value.length + 1 ≤ free.length) :
    storeValue ⟨some (s ++ free), alloc, s.length⟩ value.length value =
      .ok ⟨some (s ++ value ++ 0 :: free.drop (value.length + 1)), alloc,
        s.length + value.length⟩ := by
  have hfirst : copyTo (s ++ free) s.length value =
      .ok (s ++ value ++ free.drop value.length) := by
    rw [copyTo, Int.toNat_natCast, writeAt_append (by omega)]
  have hnul : copyTo (s ++ value ++ free.drop value.length) (s.length + value.length : Int) [0] =
      .ok (s ++ value ++ [0] ++ (free.drop value.length).drop 1) := by
    have hidx : ((s.length : Int) + value.length).toNat = (s ++ value).length := by
      rw [List.length_append]
      omega
    rw [copyTo, hidx, writeAt_append (by rw [List.length_drop, List.length_singleton]; omega)]
    rfl
  have htake : value.take (value.length : Int).toNat = value := by
    rw [Int.toNat_natCast, List.take_length]
  simp only [storeValue, htake, hfirst, bind, Except.bind]
  rw [hnul]
  simp

/-- What does not fit in front of the terminator is written behind the block. -/
theorem storeValue_overflow {s free value : Bytes} (alloc : Int)
    (hroom : ¬value.length + 1 ≤ free.length) :
    storeValue ⟨some (s ++ free), alloc, s.length⟩ value.length value = .error .heapOverflow := by
  have htake : value.take (value.length : Int).toNat = value := by
    rw [Int.toNat_natCast, List.take_length]
  by_cases hfit : value.length ≤ free.length
  · have hfirst : copyTo (s ++ free) s.length value =
        .ok (s ++ value ++ free.drop value.length) := by
      rw [copyTo, Int.toNat_natCast, writeAt_append hfit]
    have hnul : copyTo (s ++ value ++ free.drop value.length) (s.length + value.length : Int) [0] =
        .error .heapOverflow := by
      rw [copyTo, writeAt, if_neg (by
        rw [List.length_append, List.length_append, List.length_drop, List.length_singleton]
        omega)]
    simp only [storeValue, htake, hfirst, hnul, bind, Except.bind]
  · have hfirst : copyTo (s ++ free) s.length value = .error .heapOverflow := by
      rw [copyTo, writeAt, if_neg (by rw [Int.toNat_natCast, List.length_append]; omega)]
    simp only [storeValue, htake, hfirst, bind, Except.bind]

/-- **The reallocation** keeps the string and makes room for a chunk more. -/
theorem growBlock_ok {m : SbMemory} {sb : StringBuffer} (h : Represents m sb)
    (mem : Nat → UInt8) (hint : sb.allocSize + stringBufferChunkSize + 1 < 2 ^ 31) :
    ∃ free : Bytes, free.length = sb.room + stringBufferChunkSize + 1 ∧
      growBlock m mem =
        .ok ⟨some (sb.content ++ free), sb.allocSize + stringBufferChunkSize, sb.content.length⟩ := by
  have hroom := sb.size_add_room
  have hbound : ¬(2 : Int) ^ 31 ≤ m.allocSize + stringBufferChunkSize + 1 := by
    rw [h.allocSize]
    omega
  have hlen : (m.allocSize + stringBufferChunkSize + 1).toNat =
      sb.allocSize + stringBufferChunkSize + 1 := by
    rw [h.allocSize]
    omega
  have hsize : m.size = sb.content.length := h.size
  cases hstr : sb.str with
  | none =>
    obtain ⟨hnone, hzero⟩ := h.null hstr
    have hnil : sb.content = [] := by rw [StringBuffer.content, hstr, Option.getD_none]
    refine ⟨malloc mem (sb.allocSize + stringBufferChunkSize + 1), ?_, ?_⟩
    · rw [length_malloc]
      omega
    · rw [growBlock, if_neg hbound, hnone, hlen, hsize, h.allocSize, hnil]
      simp only [bind, Except.bind, List.nil_append]
  | some s =>
    obtain ⟨junk, hjunk, hjlen⟩ := h.block s hstr
    have hs : sb.content = s := by rw [StringBuffer.content, hstr, Option.getD_some]
    have hsz : sb.size = s.length := by rw [StringBuffer.size, hs]
    refine ⟨(malloc mem (sb.allocSize + stringBufferChunkSize + 1)).drop s.length, ?_, ?_⟩
    · rw [List.length_drop, length_malloc]
      omega
    · have hcopy : copyTo (malloc mem (sb.allocSize + stringBufferChunkSize + 1)) 0 s =
          .ok (s ++ (malloc mem (sb.allocSize + stringBufferChunkSize + 1)).drop s.length) := by
        have hlong : s.length ≤ (malloc mem (sb.allocSize + stringBufferChunkSize + 1)).length := by
          rw [length_malloc]
          omega
        have hwrite := @writeAt_append [] s _ hlong
        rw [List.nil_append, List.length_nil, List.nil_append] at hwrite
        rw [copyTo, Int.toNat_zero, hwrite]
      have hold : (s ++ 0 :: junk).take m.size.toNat = s := by
        rw [hsize, hs, Int.toNat_natCast, List.take_left' rfl]
      rw [growBlock, if_neg hbound, hjunk, hlen]
      simp only [hold, hcopy, bind, Except.bind]
      rw [h.allocSize, hsize, hs]

theorem stringBufferAppend_allocSize {sb sb' : StringBuffer} {value : Bytes}
    (h : stringBufferAppend sb value = .ok sb') :
    sb'.allocSize = allocAfter sb.allocSize sb.room value := by
  rw [stringBufferAppend] at h
  rw [allocAfter, StringBuffer.room]
  by_cases hvalue : value = []
  · rw [if_pos hvalue] at h ⊢
    rw [Except.ok.inj h]
  · rw [if_neg hvalue] at h ⊢
    by_cases hroom : (sb.content ++ value).length ≤
        if sb.allocSize - sb.size ≤ value.length then sb.allocSize + stringBufferChunkSize
        else sb.allocSize
    · simp only [dif_pos hroom] at h
      rw [← Except.ok.inj h]
    · simp only [dif_neg hroom] at h
      cases h

/-- The string of an append that fits. -/
theorem Appended.str_eq {sb sb' : StringBuffer} {value : Bytes} (h : Appended sb sb' value)
    (hvalue : value ≠ []) : sb'.str = some (sb.content ++ value) := by
  have hsome : sb'.str.isSome = true := by
    rw [h.str]
    simp [hvalue]
  obtain ⟨s, hs⟩ := Option.isSome_iff_exists.mp hsome
  have hcontent := h.content
  rw [StringBuffer.content, hs, Option.getD_some] at hcontent
  rw [hs, hcontent]

/-- Whether it grows or not, the block ends up with room for the value and its
terminator. -/
theorem reserveBlock_ok {m : SbMemory} {sb sb' : StringBuffer} (h : Represents m sb)
    (mem : Nat → UInt8) {value : Bytes} (hvalue : value ≠ [])
    (hfit : value.length ≤ sb.room + stringBufferChunkSize)
    (hint : sb.room ≤ value.length → sb.allocSize + stringBufferChunkSize + 1 < 2 ^ 31)
    (halloc : sb'.allocSize = allocAfter sb.allocSize sb.room value)
    (hroom : sb'.room = roomAfter sb.room value) :
    ∃ free : Bytes, value.length + 1 ≤ free.length ∧
      free.length = sb'.room + value.length + 1 ∧
      reserveBlock m mem value.length =
        .ok ⟨some (sb.content ++ free), sb'.allocSize, sb.content.length⟩ := by
  have hsize : m.size = sb.content.length := h.size
  have hsum := sb.size_add_room
  have hsz : sb.size = sb.content.length := rfl
  rw [allocAfter, if_neg hvalue] at halloc
  rw [roomAfter, if_neg hvalue] at hroom
  by_cases hgrow : sb.room ≤ value.length
  · obtain ⟨free, hfree, hok⟩ := growBlock_ok h mem (hint hgrow)
    rw [if_pos hgrow] at halloc hroom
    refine ⟨free, by omega, by omega, ?_⟩
    rw [reserveBlock, if_pos (by rw [h.allocSize, hsize]; omega), hok, halloc]
    rfl
  · rw [if_neg hgrow] at halloc hroom
    cases hstr : sb.str with
    | none =>
      obtain ⟨-, hzero⟩ := h.null hstr
      omega
    | some s =>
      obtain ⟨junk, hjunk, hjlen⟩ := h.block s hstr
      have hs : sb.content = s := by rw [StringBuffer.content, hstr, Option.getD_some]
      refine ⟨0 :: junk, ?_, ?_, ?_⟩
      · rw [List.length_cons]
        omega
      · rw [List.length_cons]
        omega
      · rw [reserveBlock, if_neg (by rw [h.allocSize, hsize]; omega), halloc, hs, ← hjunk,
          ← h.allocSize, ← hs, ← hsize]

/-- **An append that fits** goes as on the plain buffer. -/
theorem Represents.append {m : SbMemory} {sb : StringBuffer} (h : Represents m sb)
    (mem : Nat → UInt8) {value : Bytes} (hnul : (0 : UInt8) ∉ value)
    (hfit : value.length ≤ sb.room + stringBufferChunkSize)
    (hint : value ≠ [] → sb.room ≤ value.length →
      sb.allocSize + stringBufferChunkSize + 1 < 2 ^ 31) :
    ∃ m' sb', appendBytes m mem value = .ok m' ∧ stringBufferAppend sb value = .ok sb' ∧
      Represents m' sb' ∧ Appended sb sb' value := by
  obtain ⟨sb', happend, happended⟩ := stringBufferAppend_ok hfit
  have hchunk : stringBufferChunkSize = 512 := rfl
  have hroom := h.room
  have hlen : toInt value.length = value.length := toInt_of_range (by omega) (by omega)
  by_cases hvalue : value = []
  · -- nothing to append
    subst hvalue
    have hsame : sb' = sb := by
      rw [stringBufferAppend, if_pos rfl] at happend
      exact (Except.ok.inj happend).symm
    refine ⟨m, sb', ?_, happend, hsame ▸ h, happended⟩
    rw [appendBytes, hlen]
    rfl
  have hpos : 0 < value.length := List.length_pos_iff.mpr hvalue
  obtain ⟨free, hfree, hlong, hgrow⟩ := reserveBlock_ok h mem hvalue hfit (hint hvalue)
    (stringBufferAppend_allocSize happend) happended.room
  have hroom' := happended.room
  rw [roomAfter, if_neg hvalue] at hroom'
  refine ⟨⟨some (sb.content ++ value ++ 0 :: free.drop (value.length + 1)), sb'.allocSize,
    sb.content.length + value.length⟩, sb', ?_, happend, ?_, happended⟩
  · rw [appendBytes, hlen, if_pos (by omega), hgrow]
    exact storeValue_ok _ hfree
  · have hstr := happended.str_eq hvalue
    constructor
    · rfl
    · rw [StringBuffer.size, happended.content, List.length_append]
      rfl
    · rw [happended.content, List.mem_append]
      exact fun hmem => hmem.elim h.nulFree hnul
    · rw [hroom']
      split <;> omega
    · intro hnone
      rw [hstr] at hnone
      cases hnone
    · intro s hs
      obtain rfl : sb.content ++ value = s := Option.some.inj (hstr.symm.trans hs)
      refine ⟨free.drop (value.length + 1), rfl, ?_⟩
      rw [List.length_drop]
      omega

/-! ## An append that does not fit -/

theorem reserveBlock_size {m m' : SbMemory} {mem : Nat → UInt8} {valLen : Int}
    (h : reserveBlock m mem valLen = .ok m') : m'.size = m.size := by
  rw [reserveBlock] at h
  split at h
  · rw [growBlock] at h
    split at h
    · cases h
    · simp only [bind, Except.bind] at h
      split at h
      · rw [← Except.ok.inj h]
      · split at h
        · cases h
        · rw [← Except.ok.inj h]
  · rw [Except.ok.inj h]

theorem storeValue_size {m m' : SbMemory} {valLen : Int} {value : Bytes}
    (h : storeValue m valLen value = .ok m') : m'.size = m.size + valLen := by
  rw [storeValue] at h
  split at h
  · cases h
  · simp only [bind, Except.bind] at h
    split at h
    · cases h
    · split at h
      · cases h
      · rw [← Except.ok.inj h]

/-- The size grows by what an `int` holds of the length. -/
theorem appendBytes_size {m m' : SbMemory} {mem : Nat → UInt8} {value : Bytes}
    (h : appendBytes m mem value = .ok m') :
    m'.size = m.size ∨ m'.size = m.size + toInt value.length := by
  rw [appendBytes] at h
  split at h
  · cases hreserve : reserveBlock m mem (toInt value.length) with
    | error e =>
      rw [hreserve] at h
      cases h
    | ok m1 =>
      rw [hreserve] at h
      rw [storeValue_size (m := m1) h, reserveBlock_size hreserve]
      exact .inr rfl
  · rw [Except.ok.inj h]
    exact .inl rfl

/-- **An append that does not fit** is no append. -/
theorem Represents.append_short {m m' : SbMemory} {sb : StringBuffer} (h : Represents m sb)
    {mem : Nat → UInt8} {value : Bytes}
    (hbad : ¬(value.length ≤ sb.room + stringBufferChunkSize ∧
      (value ≠ [] → sb.room ≤ value.length → sb.allocSize + stringBufferChunkSize + 1 < 2 ^ 31)))
    (happend : appendBytes m mem value = .ok m') : m'.size ≠ m.size + value.length := by
  have hvalue : value ≠ [] := by
    rintro rfl
    exact hbad ⟨Nat.zero_le _, fun hne => absurd rfl hne⟩
  have hpos : 0 < value.length := List.length_pos_iff.mpr hvalue
  have hsize : m.size = sb.content.length := h.size
  have hsum := sb.size_add_room
  have hsz : sb.size = sb.content.length := rfl
  by_cases hlong : value.length < 2 ^ 31
  · exfalso
    have hlen : toInt value.length = value.length := toInt_of_range (by omega) (by omega)
    have hgrow : sb.room ≤ value.length := by
      by_contra hroom
      exact hbad ⟨by omega, fun _ hle => absurd hle hroom⟩
    rw [appendBytes, hlen, if_pos (by omega), reserveBlock,
      if_pos (by rw [h.allocSize, hsize]; omega)] at happend
    by_cases hint : sb.allocSize + stringBufferChunkSize + 1 < 2 ^ 31
    · -- a chunk is not enough
      obtain ⟨free, hfree, hok⟩ := growBlock_ok h mem hint
      have hroom : ¬value.length + 1 ≤ free.length := by
        intro hle
        exact hbad ⟨by omega, fun _ _ => hint⟩
      rw [hok] at happend
      have hover := storeValue_overflow (s := sb.content)
        (sb.allocSize + stringBufferChunkSize : Int) hroom
      simp only [bind, Except.bind, hover] at happend
      cases happend
    · rw [growBlock, if_pos (by rw [h.allocSize]; omega)] at happend
      cases happend
  · -- no `int` holds the length
    have hlt := (toInt_spec value.length).2.1
    rcases appendBytes_size happend with heq | heq <;> omega

/-! ## Runs of appends -/

/-- **From any buffer on**, all goes well exactly if each string fits. -/
theorem appendCalls_holds_iff (calls : List ((Nat → UInt8) × Bytes))
    (hnul : ∀ call ∈ calls, (0 : UInt8) ∉ call.2) {m : SbMemory} {sb : StringBuffer}
    (h : Represents m sb) :
    (∀ n, ∃ m', appendCalls m (calls.take n) = .ok m' ∧
        Holds m' (sb.content ++ ((calls.take n).map Prod.snd).flatten)) ↔
      Fit sb.room (calls.map Prod.snd) ∧ SizesFit sb.allocSize sb.room (calls.map Prod.snd) := by
  induction calls generalizing m sb with
  | nil =>
    refine iff_of_true (fun n => ⟨m, ?_, ?_⟩) ⟨trivial, trivial⟩
    · rw [List.take_nil]
      rfl
    · rw [List.take_nil]
      simpa using h.holds
  | cons call calls ih =>
    obtain ⟨mem, value⟩ := call
    rw [List.map_cons, Fit, SizesFit]
    by_cases hfit : value.length ≤ sb.room + stringBufferChunkSize ∧
        (value ≠ [] → sb.room ≤ value.length → sb.allocSize + stringBufferChunkSize + 1 < 2 ^ 31)
    · obtain ⟨m1, sb1, hm1, hsb1, hrep, happended⟩ := h.append mem
        (hnul _ List.mem_cons_self) hfit.1 hfit.2
      have hnext := ih (fun c hc => hnul c (List.mem_cons_of_mem _ hc)) hrep
      rw [happended.room, stringBufferAppend_allocSize hsb1] at hnext
      have hrun : ∀ n, appendCalls m (((mem, value) :: calls).take (n + 1)) =
          appendCalls m1 (calls.take n) := by
        intro n
        rw [List.take_succ_cons, appendCalls_cons, hm1]
        rfl
      have hcontent : ∀ n, sb.content ++ ((((mem, value) :: calls).take (n + 1)).map Prod.snd).flatten
          = sb1.content ++ ((calls.take n).map Prod.snd).flatten := by
        intro n
        rw [happended.content]
        simp
      have hall : (∀ n, ∃ m', appendCalls m (((mem, value) :: calls).take n) = .ok m' ∧
          Holds m' (sb.content ++ ((((mem, value) :: calls).take n).map Prod.snd).flatten)) ↔
          ∀ n, ∃ m', appendCalls m1 (calls.take n) = .ok m' ∧
            Holds m' (sb1.content ++ ((calls.take n).map Prod.snd).flatten) := by
        constructor
        · intro hruns n
          have := hruns (n + 1)
          rwa [hrun, hcontent] at this
        · intro hruns n
          cases n with
          | zero => exact ⟨m, rfl, by simpa using h.holds⟩
          | succ n =>
            rw [hrun, hcontent]
            exact hruns n
      rw [hall, hnext]
      exact ⟨fun ⟨hf, hs⟩ => ⟨⟨hfit.1, hf⟩, hfit.2, hs⟩, fun ⟨hf, hs⟩ => ⟨hf.2, hs.2⟩⟩
    · refine iff_of_false (fun hruns => ?_) fun ⟨hf, hs⟩ => hfit ⟨hf.1, hs.1⟩
      -- the first call already goes wrong
      obtain ⟨m1, hm1, hholds⟩ := hruns 1
      rw [List.take_succ_cons, List.take_zero, appendCalls_cons] at hm1
      cases happend : appendBytes m mem value with
      | error e =>
        rw [happend] at hm1
        cases hm1
      | ok m2 =>
        rw [happend] at hm1
        obtain rfl : m2 = m1 := Except.ok.inj hm1
        refine h.append_short hfit happend ?_
        rw [hholds.size, h.size]
        simp [StringBuffer.size]

/-- **The buffer is a correct growable string exactly if each appended string
fits into the room that is left and one more chunk**, and the sizes an `int`. -/
theorem growsCorrectly_iff (calls : List ((Nat → UInt8) × Bytes))
    (hnul : ∀ call ∈ calls, (0 : UInt8) ∉ call.2) :
    GrowsCorrectly calls ↔
      Fit 0 (calls.map Prod.snd) ∧ SizesFit 0 0 (calls.map Prod.snd) :=
  appendCalls_holds_iff calls hnul .init

section Examples

theorem growsCorrectly_iff_short :
    GrowsCorrectly [(fun _ => 7, [97, 98]), (fun _ => 0, [99])] ↔
      Fit 0 [[97, 98], [99]] ∧ SizesFit 0 0 [[97, 98], [99]] :=
  growsCorrectly_iff [(fun _ => 7, [97, 98]), (fun _ => 0, [99])] (by decide)

/-- A first string of 513 bytes has its terminator written behind the block. -/
theorem longString_overflows :
    let value : Bytes := List.replicate 513 97
    appendBytes ⟨none, 0, 0⟩ (fun _ => 0) value = .error .heapOverflow ∧
      ¬GrowsCorrectly [(fun _ => 0, value)] := by
  intro value
  have hvlen : value.length = 513 := List.length_replicate
  clear_value value
  have hover : appendBytes ⟨none, 0, 0⟩ (fun _ => 0) value = .error .heapOverflow := by
    have hlen : toInt value.length = value.length := by
      rw [hvlen]
      rfl
    obtain ⟨free, hfree, hok⟩ := growBlock_ok .init (fun _ => 0) (by decide)
    have hroom : ¬value.length + 1 ≤ free.length := by
      rw [hvlen, hfree]
      show ¬513 + 1 ≤ 0 + 512 + 1
      omega
    rw [appendBytes, hlen, if_pos (by rw [hvlen]; decide), reserveBlock,
      if_pos (by rw [hvlen]; decide), hok]
    exact storeValue_overflow _ hroom
  refine ⟨hover, fun h => ?_⟩
  obtain ⟨sb, hsb, -⟩ := h 1
  rw [List.take_succ_cons, appendCalls_cons, hover] at hsb
  cases hsb

end Examples

end ComfirmDmarc.MailHandler
