import ComfirmDmarc.Lib.CMemory

/-!
# MailHandler -- `string_buffer.c`

A growing string whose block is made one chunk larger at a time. A string that
needs more than one chunk is copied behind the block all the same.
-/

namespace ComfirmDmarc.MailHandler

open CMemory

/-! ## The code -/

/-- `STRING_BUFFER_CHUNK_SIZE`. -/
def stringBufferChunkSize : Nat := 512

/-- `string_buffer`: the `size` bytes stored so far, `none` for `NULL`. The block
has one byte more than `alloc_size`, for the terminator. -/
structure StringBuffer where
  str : Option Bytes
  allocSize : Nat
  fits : (str.getD []).length ≤ allocSize

/-- The bytes stored so far. -/
def StringBuffer.content (sb : StringBuffer) : Bytes := sb.str.getD []

def StringBuffer.size (sb : StringBuffer) : Nat := sb.content.length

/-- `string_buffer_init`. -/
def stringBufferInit : StringBuffer := ⟨none, 0, Nat.le_refl 0⟩

inductive BufferFault
  /-- a `memcpy` behind the block -/
  | heapOverflow
  /-- a `strlen` of `NULL` -/
  | nullString
  deriving DecidableEq, Repr

/-- `string_buffer_append` of a C string. -/
def stringBufferAppend (sb : StringBuffer) (value : Bytes) : Except BufferFault StringBuffer :=
  if value = [] then .ok sb
  else
    let allocSize :=
      if sb.allocSize - sb.size ≤ value.length then sb.allocSize + stringBufferChunkSize
      else sb.allocSize
    if h : (sb.content ++ value).length ≤ allocSize then
      .ok ⟨some (sb.content ++ value), allocSize, h⟩
    else .error .heapOverflow

/-- One append after the other. -/
def appendAll (sb : StringBuffer) (values : List Bytes) : Except BufferFault StringBuffer :=
  values.foldlM stringBufferAppend sb

/-! ## What fits -/

/-- The free bytes of the block. -/
def StringBuffer.room (sb : StringBuffer) : Nat := sb.allocSize - sb.size

/-- The room behind an append. -/
def roomAfter (room : Nat) (value : Bytes) : Nat :=
  if value = [] then room
  else (if room ≤ value.length then room + stringBufferChunkSize else room) - value.length

/-- **Each string fits into the room and one more chunk.** -/
def Fit (room : Nat) : List Bytes → Prop
  | [] => True
  | value :: values =>
    value.length ≤ room + stringBufferChunkSize ∧ Fit (roomAfter room value) values

instance decFit (room : Nat) : (values : List Bytes) → Decidable (Fit room values)
  | [] => .isTrue trivial
  | value :: values =>
    have := decFit (roomAfter room value) values
    inferInstanceAs (Decidable (value.length ≤ room + stringBufferChunkSize ∧
      Fit (roomAfter room value) values))

/-- What an append does when the string fits. -/
structure Appended (sb sb' : StringBuffer) (value : Bytes) : Prop where
  content : sb'.content = sb.content ++ value
  str : sb'.str.isSome = (sb.str.isSome || decide (value ≠ []))
  room : sb'.room = roomAfter sb.room value

theorem stringBufferAppend_ok {sb : StringBuffer} {value : Bytes}
    (h : value.length ≤ sb.room + stringBufferChunkSize) :
    ∃ sb', stringBufferAppend sb value = .ok sb' ∧ Appended sb sb' value := by
  have hfits : sb.size ≤ sb.allocSize := sb.fits
  rw [stringBufferAppend]
  by_cases hvalue : value = []
  · rw [if_pos hvalue]
    refine ⟨sb, rfl, ?_, ?_, ?_⟩
    · simp [hvalue]
    · simp [hvalue]
    · rw [roomAfter, if_pos hvalue]
  · rw [if_neg hvalue]
    have hlen : (sb.content ++ value).length = sb.size + value.length := List.length_append
    rw [StringBuffer.room] at h
    -- the new block has the room of the old one and a chunk
    have hroom : (sb.content ++ value).length ≤
        if sb.allocSize - sb.size ≤ value.length then sb.allocSize + stringBufferChunkSize
        else sb.allocSize := by
      rw [hlen]
      split <;> omega
    simp only [dif_pos hroom]
    refine ⟨_, rfl, rfl, ?_, ?_⟩
    · simp [hvalue]
    · rw [roomAfter, if_neg hvalue, StringBuffer.room, StringBuffer.room]
      show (if sb.allocSize - sb.size ≤ value.length then sb.allocSize + stringBufferChunkSize
        else sb.allocSize) - (sb.content ++ value).length = _
      rw [hlen]
      split <;> omega

theorem stringBufferAppend_overflow {sb : StringBuffer} {value : Bytes}
    (h : ¬value.length ≤ sb.room + stringBufferChunkSize) :
    stringBufferAppend sb value = .error .heapOverflow := by
  have hfits : sb.size ≤ sb.allocSize := sb.fits
  have hvalue : value ≠ [] := by
    rintro rfl
    simp at h
  rw [stringBufferAppend, if_neg hvalue]
  have hlen : (sb.content ++ value).length = sb.size + value.length := List.length_append
  rw [StringBuffer.room] at h
  refine dif_neg ?_
  rw [hlen]
  split <;> omega

/-! ## Appending strings in turn -/

@[simp] theorem appendAll_nil (sb : StringBuffer) : appendAll sb [] = .ok sb := rfl

theorem appendAll_cons (sb : StringBuffer) (value : Bytes) (values : List Bytes) :
    appendAll sb (value :: values) =
      stringBufferAppend sb value >>= fun sb => appendAll sb values :=
  List.foldlM_cons

theorem appendAll_append (sb : StringBuffer) (values values' : List Bytes) :
    appendAll sb (values ++ values') = appendAll sb values >>= fun sb => appendAll sb values' :=
  List.foldlM_append

theorem appendAll_singleton (sb : StringBuffer) (value : Bytes) :
    appendAll sb [value] = stringBufferAppend sb value := by
  rw [appendAll_cons]
  cases stringBufferAppend sb value <;> rfl

/-- **Strings that fit are appended in order.** -/
theorem appendAll_ok {sb : StringBuffer} {values : List Bytes} (h : Fit sb.room values) :
    ∃ sb', appendAll sb values = .ok sb' ∧ sb'.content = sb.content ++ values.flatten ∧
      sb'.str.isSome = (sb.str.isSome || values.any fun value => value ≠ []) := by
  induction values generalizing sb with
  | nil => exact ⟨sb, rfl, by simp, by simp⟩
  | cons value values ih =>
    obtain ⟨hvalue, hvalues⟩ := h
    obtain ⟨sb1, happend, hsb1⟩ := stringBufferAppend_ok hvalue
    rw [← hsb1.room] at hvalues
    obtain ⟨sb2, hall, hcontent, hstr⟩ := ih hvalues
    refine ⟨sb2, ?_, ?_, ?_⟩
    · rw [appendAll_cons, happend]
      exact hall
    · rw [hcontent, hsb1.content, List.flatten_cons, List.append_assoc]
    · rw [hstr, hsb1.str, List.any_cons, Bool.or_assoc]

/-- A string that does not fit is written behind the block. -/
theorem appendAll_overflow {sb : StringBuffer} {values : List Bytes} (h : ¬Fit sb.room values) :
    appendAll sb values = .error .heapOverflow := by
  induction values generalizing sb with
  | nil => exact absurd trivial h
  | cons value values ih =>
    rw [appendAll_cons]
    by_cases hvalue : value.length ≤ sb.room + stringBufferChunkSize
    · obtain ⟨sb1, happend, hsb1⟩ := stringBufferAppend_ok hvalue
      rw [happend]
      refine ih fun hfit => h ⟨hvalue, ?_⟩
      rw [← hsb1.room]
      exact hfit
    · rw [stringBufferAppend_overflow hvalue]
      rfl

/-- What follows the strings in the code, when it goes on as an append of more. -/
theorem appendAll_bind {sb : StringBuffer} {values values' : List Bytes}
    {f : StringBuffer → Except BufferFault StringBuffer}
    (h : ∀ sb', sb'.str.isSome = (sb.str.isSome || values.any fun value => value ≠ []) →
      f sb' = appendAll sb' values') :
    appendAll sb values >>= f = appendAll sb (values ++ values') := by
  rw [appendAll_append]
  by_cases hfit : Fit sb.room values
  · obtain ⟨sb', hall, -, hstr⟩ := appendAll_ok hfit
    rw [hall]
    exact h sb' hstr
  · rw [appendAll_overflow hfit]
    rfl

/-- Short strings always fit. -/
theorem fit_of_short {room : Nat} {values : List Bytes}
    (h : ∀ value ∈ values, value.length ≤ stringBufferChunkSize) : Fit room values := by
  induction values generalizing room with
  | nil => trivial
  | cons value values ih =>
    refine ⟨?_, ih fun v hv => h v (List.mem_cons_of_mem _ hv)⟩
    exact (h value List.mem_cons_self).trans (Nat.le_add_left _ _)

end ComfirmDmarc.MailHandler
