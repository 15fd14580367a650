import ComfirmDmarc.Lib.TagScan
import Mathlib.Data.List.Infix

/-!
# Dkim -- `dkim_parse_dns`

The parser of key records in `firm-dkim.c`: the tag scanner for the two tags
that the verifier needs.
-/

namespace ComfirmDmarc.Dkim

open CMemory

/-- `DKIM_RECORD_MAX_LEN`. -/
def dkimRecordMaxLen : Nat := 2046

/-- The buffers of `dkim_record`. -/
inductive DnsTag
  | k
  | p
  deriving DecidableEq, Repr

/-- `dkim_record`. -/
abbrev DkimRecord := DnsTag → Vector UInt8 dkimRecordMaxLen

/-- The C string in a buffer. -/
def DkimRecord.text (dr : DkimRecord) (t : DnsTag) : Bytes := str (dr t).toList

/-- The tag that starts here, and the bytes skipped besides the `++i`. -/
def dnsTagAt (here : Bytes) : Option (DnsTag × Nat) :=
  if startsWith here (bytes "k=") then some (.k, 1)
  else if startsWith here (bytes "p=") then some (.p, 1)
  else none

/-- `dkim_parse_dns`, over the block `mem`. -/
def dkimParseDns (mem : DkimRecord) (txt : Bytes) : DkimRecord := TagScan.parse dnsTagAt mem txt

/-- What is read from a key record. -/
def recordValues (txt : Bytes) : List (DnsTag × Bytes) := TagScan.values dnsTagAt none txt

theorem dkimParseDns_text (mem : DkimRecord) {txt : Bytes} (htxt : (0 : UInt8) ∉ txt) (t : DnsTag) :
    (dkimParseDns mem txt).text t =
      TagScan.held (mem t) (TagScan.lastValue t (recordValues txt)) :=
  TagScan.parse_text dnsTagAt (by decide) mem htxt t

/-! ## Where tags start -/

/-- The name of a tag. -/
def DnsTag.char : DnsTag → UInt8
  | .k => 107
  | .p => 112

theorem DnsTag.char_ne_eq (t : DnsTag) : t.char ≠ 61 := by
  cases t <;> decide

theorem dnsTag_texts : bytes "k=" = [107, 61] ∧ bytes "p=" = [112, 61] :=
  ⟨bytes_ofList _, bytes_ofList _⟩

theorem dnsTagAt_char (t : DnsTag) (rest : Bytes) :
    dnsTagAt (t.char :: 61 :: rest) = some (t, 1) := by
  cases t
  · simp [dnsTagAt, startsWith, DnsTag.char, dnsTag_texts.1]
  · simp [dnsTagAt, startsWith, DnsTag.char, dnsTag_texts.1, dnsTag_texts.2]

/-- A tag is told by two bytes. -/
theorem dnsTagAt_cons_cons (c d : UInt8) (rest : Bytes) :
    dnsTagAt (c :: d :: rest) = dnsTagAt [c, d] := by
  simp [dnsTagAt, startsWith, dnsTag_texts.1, dnsTag_texts.2]

theorem dnsTagAt_ne_eq (c : UInt8) {rest : Bytes} (h : rest.head? ≠ some 61) :
    dnsTagAt (c :: rest) = none := by
  cases rest with
  | nil =>
    simp [dnsTagAt, startsWith, dnsTag_texts.1, dnsTag_texts.2]
  | cons d rest =>
    have hd : (61 : UInt8) ≠ d := by simpa [eq_comm] using h
    simp [dnsTagAt, startsWith, dnsTag_texts.1, dnsTag_texts.2, hd]

/-- No tag starts anywhere in the text. -/
def NoTag (s : Bytes) : Prop := ∀ v, v <:+ s → dnsTagAt v = none

instance (s : Bytes) : Decidable (NoTag s) :=
  decidable_of_iff (∀ v ∈ s.tails, dnsTagAt v = none) (by simp [NoTag])

/-- Text without tags is passed over, where nothing behind it completes one. -/
theorem recordValues_skip {u rest : Bytes} (hu : NoTag u) (hrest : rest.head? ≠ some 61) :
    recordValues (u ++ rest) = recordValues rest := by
  refine TagScan.values_skip dnsTagAt rest fun c v hv => ?_
  cases v with
  | nil => exact dnsTagAt_ne_eq c hrest
  | cons d v =>
    rw [List.cons_append, List.cons_append, dnsTagAt_cons_cons, ← dnsTagAt_cons_cons c d v]
    exact hu _ hv

theorem recordValues_semicolon (rest : Bytes) : recordValues (59 :: rest) = recordValues rest := by
  rw [recordValues, TagScan.values]
  simp [dnsTagAt, startsWith, dnsTag_texts.1, dnsTag_texts.2, recordValues]

/-- The start of a value. -/
theorem recordValues_char (t : DnsTag) (rest : Bytes) :
    recordValues (t.char :: 61 :: rest) = TagScan.values dnsTagAt (some (t, [])) rest := by
  rw [recordValues, TagScan.values, dnsTagAt_char]
  rfl

end ComfirmDmarc.Dkim
