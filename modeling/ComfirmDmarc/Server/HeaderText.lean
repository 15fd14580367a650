import ComfirmDmarc.Server.Message

/-!
# Server -- the text of header lines

What `request_parse_data` leaves in the header arrays, as a function of the
tokens alone. The colon of a line stores the terminator of its key, and the end
of the line the one of its value; a line that ends before a colon leaves its
key as it was in memory behind the bytes that were stored, and its value too.
-/

namespace ComfirmDmarc.Server

open CMemory Queue

/-! ## Reading tokens -/

/-- Key and value of a header line, as far as the arrays have room. -/
structure HeaderText where
  key : Bytes
  value : Bytes
  deriving DecidableEq, Repr

/-- The lines that were ended, and the line under way. -/
structure LineReading where
  done : List HeaderText
  line : HeaderText
  deriving DecidableEq, Repr

/-- A string with one more byte, if its array has room for it. -/
def pushByte (f : HdrField) (s : Bytes) (c : UInt8) : Bytes :=
  if s.length < f.maxLen - 1 then s ++ [c] else s

def LineReading.read (r : LineReading) : Token → LineReading
  | .keyChar c => { r with line := { r.line with key := pushByte .key r.line.key c } }
  | .valueChar c => { r with line := { r.line with value := pushByte .value r.line.value c } }
  | .lineEnd => ⟨r.done ++ [r.line], ⟨[], []⟩⟩
  | .colon | .fold | .skip => r

/-- The header lines of some tokens. -/
def readLines (ts : List Token) : List HeaderText :=
  (ts.foldl LineReading.read ⟨[], ⟨[], []⟩⟩).done

/-- **Every line that is ended has a colon.** -/
def Colons (isKey : Bool) : List Token → Prop
  | [] => True
  | t :: ts => (t = .lineEnd → isKey = false) ∧ Colons (t.nextIsKey isKey) ts

instance (isKey : Bool) (ts : List Token) : Decidable (Colons isKey ts) := by
  induction ts generalizing isKey with
  | nil => exact .isTrue trivial
  | cons t ts ih => exact @instDecidableAnd _ _ inferInstance (ih _)

/-- The bytes a token stores are no terminators. -/
def Token.NoNul : Token → Prop
  | .keyChar c => c ≠ 0
  | .valueChar c => c ≠ 0
  | _ => True

theorem lexeme_noNul (isKey : Bool) (cur : UInt8) (rest tail : Bytes) :
    (lexeme isKey cur rest tail).1.NoNul := by
  simp only [lexeme]
  split_ifs <;> trivial

theorem scan_noNul (tail : Bytes) (isKey : Bool) (data : Bytes) :
    ∀ t ∈ (scan tail isKey data).tokens, t.NoNul := by
  fun_induction scan tail isKey data with
  | case1 isKey => simp
  | case2 isKey cur rest t hblank =>
    intro u hu
    rw [List.mem_singleton.mp hu]
    exact lexeme_noNul _ _ _ _
  | case3 isKey cur rest t hblank sc ih =>
    intro u hu
    rcases List.mem_cons.mp hu with rfl | hu
    · exact lexeme_noNul _ _ _ _
    · exact ih u hu

/-! ## What the arrays hold -/

/-- A string and its terminator in a header array. -/
structure HoldsString (f : HdrField) (h : Hdr) (s : Bytes) : Prop where
  nul : (0 : UInt8) ∉ s
  bytes : ∃ back, f.bytesOf h = s ++ 0 :: back

theorem HoldsString.str_eq {f : HdrField} {h : Hdr} {s : Bytes} (hs : HoldsString f h s) :
    str (f.bytesOf h) = s := by
  obtain ⟨back, hback⟩ := hs.bytes
  rw [hback, str_append_nul hs.nul]

/-- A header line in its arrays. -/
structure HoldsLine (h : Hdr) (t : HeaderText) : Prop where
  key : HoldsString .key h t.key
  value : HoldsString .value h t.value

theorem HoldsLine.keyStr_eq {h : Hdr} {t : HeaderText} (hl : HoldsLine h t) : h.keyStr = t.key :=
  hl.key.str_eq

theorem HoldsLine.valueStr_eq {h : Hdr} {t : HeaderText} (hl : HoldsLine h t) :
    h.valueStr = t.value :=
  hl.value.str_eq

/-- A string under way in a header array. -/
structure Building (f : HdrField) (s : HeaderState) (x : Bytes) : Prop where
  nul : (0 : UInt8) ∉ x
  curLen : s.curLen = x.length
  room : x.length < f.maxLen
  bytes : ∀ h : s.headerCount < headerMaxLen, ∃ back, f.bytesOf s.headers[s.headerCount] = x ++ back

/-- What the line under way has stored, before its colon and behind it. -/
def LineState (s : HeaderState) (t : HeaderText) : Prop :=
  if s.isKey then Building .key s t.key ∧ t.value = []
  else ∃ h : s.headerCount < headerMaxLen,
    HoldsString .key s.headers[s.headerCount] t.key ∧ Building .value s t.value

/-- **The arrays hold the lines that were read.** -/
structure Holding (s : HeaderState) (r : LineReading) : Prop where
  count : s.headerCount = r.done.length
  lines : ∀ i (hi : i < headerMaxLen) (hd : i < r.done.length), HoldsLine s.headers[i] r.done[i]
  line : LineState s r.line

theorem Holding.init (headers : Vector Hdr headerMaxLen) :
    Holding (.init headers) ⟨[], ⟨[], []⟩⟩ where
  count := rfl
  lines _ _ hd := absurd hd (Nat.not_lt_zero _)
  line := ⟨⟨by simp, rfl, show 0 < keyMaxLen by decide, fun h => ⟨_, rfl⟩⟩, rfl⟩

/-- A store leaves the other lines as they are. -/
theorem store_headers_ne {s : HeaderState} (f : HdrField) (c : UInt8) {i : Nat}
    (hi : i < headerMaxLen) (hne : i ≠ s.headerCount) :
    (s.store f c).headers[i] = s.headers[i] := by
  simp only [HeaderState.store]
  split
  · exact Vector.getElem_set_ne _ _ (Ne.symm hne)
  · rfl

/-- What a store does to the line under way. -/
theorem store_headers_self {s : HeaderState} (f : HdrField) (c : UInt8)
    (h : s.headerCount < headerMaxLen) :
    (s.store f c).headers[s.headerCount] = storeByte s.headers[s.headerCount] s.curLen c f := by
  simp only [HeaderState.store, dif_pos h, Vector.getElem_set_self]

/-- The array of a string under way has a byte behind what is built of it. -/
theorem Building.next_byte {f : HdrField} {s : HeaderState} {x : Bytes} (hb : Building f s x)
    (h : s.headerCount < headerMaxLen) :
    ∃ b back, f.bytesOf s.headers[s.headerCount] = x ++ b :: back := by
  obtain ⟨back, hback⟩ := hb.bytes h
  have hlen : (f.bytesOf s.headers[s.headerCount]).length = f.maxLen := f.length_bytesOf _
  rw [hback, List.length_append] at hlen
  have hne : back ≠ [] := by
    rintro rfl
    have := hb.room
    rw [List.length_nil] at hlen
    omega
  obtain ⟨b, back, rfl⟩ := List.exists_cons_of_ne_nil hne
  exact ⟨b, back, hback⟩

/-- The next byte of a string. -/
theorem Building.push {f : HdrField} {s : HeaderState} {x : Bytes} (hb : Building f s x) {c : UInt8}
    (hc : c ≠ 0) :
    Building f (if s.curLen < f.maxLen - 1 then { s.store f c with curLen := s.curLen + 1 } else s)
      (pushByte f x c) := by
  rw [pushByte, ← hb.curLen]
  by_cases hroom : s.curLen < f.maxLen - 1
  · rw [if_pos hroom, if_pos hroom]
    refine ⟨?_, ?_, ?_, ?_⟩
    · rw [List.mem_append, List.mem_singleton, not_or]
      exact ⟨hb.nul, hc.symm⟩
    · simp [hb.curLen]
    · have := hb.curLen
      rw [List.length_append, List.length_singleton]
      omega
    · intro (h : s.headerCount < headerMaxLen)
      obtain ⟨b, back, hback⟩ := hb.next_byte h
      refine ⟨back, ?_⟩
      show f.bytesOf (s.store f c).headers[s.headerCount] = _
      rw [store_headers_self f c h, storeByte_bytesOf, hback, hb.curLen, set_length_append]
      simp
  · rw [if_neg hroom, if_neg hroom]
    exact hb

/-- The terminator of a string. -/
theorem Building.close {f : HdrField} {s : HeaderState} {x : Bytes} (hb : Building f s x)
    (h : s.headerCount < headerMaxLen) :
    HoldsString f (s.store f 0).headers[s.headerCount] x := by
  refine ⟨hb.nul, ?_⟩
  obtain ⟨b, back, hback⟩ := hb.next_byte h
  exact ⟨back, by rw [store_headers_self f 0 h, storeByte_bytesOf, hback, hb.curLen, set_length_append]⟩

/-- A string in the other array of the line. -/
theorem HoldsString.store {f g : HdrField} (hne : g ≠ f) {s : HeaderState} {x : Bytes}
    (h : s.headerCount < headerMaxLen) (hs : HoldsString f s.headers[s.headerCount] x) (c : UInt8) :
    HoldsString f (s.store g c).headers[s.headerCount] x := by
  rw [store_headers_self g c h]
  exact ⟨hs.nul, by rw [storeByte_bytesOf_ne _ _ _ hne]; exact hs.bytes⟩

/-- The lines that were ended are not stored to. -/
theorem Holding.lines_store {s : HeaderState} {r : LineReading} (h : Holding s r) (f : HdrField)
    (c : UInt8) : ∀ i (hi : i < headerMaxLen) (hd : i < r.done.length),
      HoldsLine (s.store f c).headers[i] r.done[i] := by
  intro i hi hd
  have hcount := h.count
  rw [store_headers_ne f c hi (by omega)]
  exact h.lines i hi hd

/-- The end of the line under way: its arrays hold it, and the others as before. -/
theorem Holding.lines_end {s : HeaderState} {r : LineReading} (h : Holding s r)
    (hroom : s.headerCount < headerMaxLen)
    (hkey : HoldsString .key s.headers[s.headerCount] r.line.key)
    (hvalue : Building .value s r.line.value) :
    ∀ i (hi : i < headerMaxLen) (hd : i < (r.read .lineEnd).done.length),
      HoldsLine (s.store .value 0).headers[i] (r.read .lineEnd).done[i] := by
  intro i hi hd
  rcases Nat.lt_or_ge i r.done.length with hlt | hge
  · have hold := h.lines_store .value 0 i hi hlt
    rw [show (r.read .lineEnd).done[i] = r.done[i] from List.getElem_append_left hlt]
    exact hold
  · have hi' : i = r.done.length := by
      simp only [LineReading.read, List.length_append, List.length_singleton] at hd
      omega
    subst hi'
    have hlast : (r.read .lineEnd).done[r.done.length] = r.line := by
      simp [LineReading.read]
    rw [hlast]
    have hkeyString := hkey.store (g := .value) (by decide) hroom 0
    have hvalueString := hvalue.close hroom
    simp only [h.count] at hkeyString hvalueString
    exact ⟨hkeyString, hvalueString⟩

/-- A byte of the line under way leaves the others, whether its array has room or not. -/
theorem Holding.lines_push {s : HeaderState} {r : LineReading} (h : Holding s r) (f : HdrField)
    (c : UInt8) : ∀ i (hi : i < headerMaxLen) (hd : i < r.done.length),
      HoldsLine (if s.curLen < f.maxLen - 1 then { s.store f c with curLen := s.curLen + 1 }
        else s).headers[i] r.done[i] := by
  intro i hi hd
  split
  · exact h.lines_store f c i hi hd
  · exact h.lines i hi hd

/-- It leaves the string in the other array of its line, too. -/
theorem HoldsString.push {f g : HdrField} (hne : g ≠ f) {s s' : HeaderState} {x : Bytes} {c : UInt8}
    (hs' : s' = if s.curLen < g.maxLen - 1 then { s.store g c with curLen := s.curLen + 1 } else s)
    (h : s.headerCount < headerMaxLen) (hs : HoldsString f s.headers[s.headerCount] x) :
    ∃ h' : s'.headerCount < headerMaxLen, HoldsString f s'.headers[s'.headerCount] x := by
  subst hs'
  split
  · exact ⟨h, hs.store hne h c⟩
  · exact ⟨h, hs⟩

/-- **One token**, as long as it fits and does not end a line without a colon. -/
theorem Holding.apply {s : HeaderState} {r : LineReading} (h : Holding s r) {t : Token}
    (hmode : t.AllowedIn s.isKey) (hnul : t.NoNul)
    (hfit : t.stores = true → s.headerCount < headerMaxLen)
    (hcolon : t = .lineEnd → s.isKey = false) : Holding (s.apply t) (r.read t) := by
  have hline := h.line
  rw [LineState] at hline
  cases t with
  | fold => exact h
  | skip => exact h
  | colon =>
    have hkey : s.isKey = true := hmode
    rw [if_pos hkey] at hline
    have hroom := hfit rfl
    refine ⟨h.count, h.lines_store .key 0, ?_⟩
    have hkey' : (s.apply .colon).isKey = false := rfl
    rw [LineState, hkey', if_neg (by decide)]
    refine ⟨hroom, hline.1.close hroom, ?_⟩
    show Building .value (s.apply .colon) r.line.value
    rw [hline.2]
    exact ⟨by simp, rfl, show 0 < valueMaxLen by decide, fun _ => ⟨_, rfl⟩⟩
  | lineEnd =>
    have hkey := hcolon rfl
    rw [hkey, if_neg (by decide)] at hline
    obtain ⟨hroom, hstring, hbuild⟩ := hline
    have hcount := h.count
    simp only [HeaderState.apply, if_pos hroom]
    refine ⟨?_, ?_, ?_⟩
    · simp [LineReading.read, hcount]
    · exact h.lines_end hroom hstring hbuild
    · exact ⟨⟨by simp [LineReading.read], rfl, show 0 < keyMaxLen by decide, fun _ => ⟨_, rfl⟩⟩, rfl⟩
  | keyChar c =>
    have hkey : s.isKey = true := hmode
    rw [if_pos hkey] at hline
    have hpush := hline.1.push hnul
    have hstate : s.apply (.keyChar c) =
        if s.curLen < HdrField.key.maxLen - 1 then { s.store .key c with curLen := s.curLen + 1 }
        else s := rfl
    rw [← hstate] at hpush
    have hkey' : (s.apply (.keyChar c)).isKey = true := by rw [HeaderState.apply_isKey]; exact hkey
    refine ⟨?_, ?_, ?_⟩
    · rw [HeaderState.apply_headerCount]
      exact h.count
    · rw [hstate]
      exact h.lines_push .key c
    · rw [LineState, if_pos hkey']
      exact ⟨hpush, hline.2⟩
  | valueChar c =>
    have hkey : s.isKey = false := hmode
    rw [hkey, if_neg (by decide)] at hline
    obtain ⟨hroom, hstring, hbuild⟩ := hline
    have hpush := hbuild.push hnul
    have hstate : s.apply (.valueChar c) =
        if s.curLen < HdrField.value.maxLen - 1 then
          { s.store .value c with curLen := s.curLen + 1 }
        else s := rfl
    rw [← hstate] at hpush
    have hkey' : (s.apply (.valueChar c)).isKey = false := by
      rw [HeaderState.apply_isKey]
      exact hkey
    obtain ⟨hroom', hstring'⟩ := hstring.push (by decide) hstate hroom
    refine ⟨?_, ?_, ?_⟩
    · rw [HeaderState.apply_headerCount]
      exact h.count
    · rw [hstate]
      exact h.lines_push .value c
    · rw [LineState, hkey', if_neg (by decide)]
      exact ⟨hroom', hstring', hpush⟩

/-- **The header arrays are a function of the tokens**, when they fit and every
line has a colon. -/
theorem Holding.foldl {ts : List Token} {s : HeaderState} {r : LineReading} (h : Holding s r)
    (hmode : Moded s.isKey ts) (hnul : ∀ t ∈ ts, t.NoNul) (hfit : HeadersFit s.headerCount ts)
    (hcolon : Colons s.isKey ts) :
    Holding (ts.foldl HeaderState.apply s) (ts.foldl LineReading.read r) := by
  induction ts generalizing s r with
  | nil => exact h
  | cons t ts ih =>
    rw [List.foldl_cons, List.foldl_cons]
    obtain ⟨hmode, hmodes⟩ := hmode
    obtain ⟨hfit, hfits⟩ := hfit
    obtain ⟨hcolon, hcolons⟩ := hcolon
    rw [← HeaderState.apply_isKey] at hmodes hcolons
    rw [← HeaderState.apply_headerCount] at hfits
    exact ih (h.apply hmode (hnul t List.mem_cons_self) hfit hcolon) hmodes
      (fun u hu => hnul u (List.mem_cons_of_mem _ hu)) hfits hcolons

/-! ## Lines without a colon -/

/-- The keys that no colon closed hold no terminator. -/
def KeysOpen (s : HeaderState) : Prop :=
  ∀ i (hi : i < headerMaxLen), s.headerCount ≤ i → (i = s.headerCount → s.isKey = true) →
    (0 : UInt8) ∉ HdrField.key.bytesOf s.headers[i]

theorem HeadersFit.le {lines : Nat} {ts : List Token} (h : HeadersFit lines ts) :
    lines ≤ headerMaxLen := by
  induction ts generalizing lines with
  | nil => exact h
  | cons t ts ih =>
    have := ih h.2
    rw [Token.countLine] at this
    split at this <;> omega

/-- A store keeps the open keys open, as long as it is no terminator of a key. -/
theorem KeysOpen.store {s : HeaderState} (h : KeysOpen s) {f : HdrField} {c : UInt8}
    (hc : f = .key → c ≠ 0) {i : Nat} (hi : i < headerMaxLen) (hle : s.headerCount ≤ i)
    (hkey : i = s.headerCount → s.isKey = true) :
    (0 : UInt8) ∉ HdrField.key.bytesOf (s.store f c).headers[i] := by
  by_cases heq : i = s.headerCount
  · subst heq
    rw [store_headers_self f c hi]
    cases f with
    | key =>
      rw [storeByte_bytesOf]
      intro hmem
      rcases List.mem_or_eq_of_mem_set hmem with hmem | heq
      · exact h _ hi hle hkey hmem
      · exact hc rfl heq.symm
    | value =>
      rw [storeByte_bytesOf_ne _ _ _ (by decide)]
      exact h _ hi hle hkey
  · rw [store_headers_ne f c hi heq]
    exact h i hi hle hkey

/-- The same for a byte of the line under way. -/
theorem KeysOpen.push {s : HeaderState} (h : KeysOpen s) {f : HdrField} {c : UInt8}
    (hc : f = .key → c ≠ 0) {i : Nat} (hi : i < headerMaxLen) (hle : s.headerCount ≤ i)
    (hkey : i = s.headerCount → s.isKey = true) :
    (0 : UInt8) ∉ HdrField.key.bytesOf (if s.curLen < f.maxLen - 1 then
      { s.store f c with curLen := s.curLen + 1 } else s).headers[i] := by
  split
  · exact h.store hc hi hle hkey
  · exact h i hi hle hkey

theorem KeysOpen.apply {s : HeaderState} (h : KeysOpen s) {t : Token}
    (hmode : t.AllowedIn s.isKey) (hnul : t.NoNul) (hcolon : t = .lineEnd → s.isKey = false) :
    KeysOpen (s.apply t) := by
  cases t with
  | fold => exact h
  | skip => exact h
  | colon =>
    intro i hi hle hkey
    -- the key of this line is terminated, it is no open one any more
    have hne : i ≠ s.headerCount := fun heq => Bool.noConfusion (hkey heq)
    show (0 : UInt8) ∉ HdrField.key.bytesOf (s.store .key 0).headers[i]
    rw [store_headers_ne .key 0 hi hne]
    exact h i hi hle fun heq => absurd heq hne
  | lineEnd =>
    intro i hi hle hkey
    -- the next line counts, and its key has not been stored to
    have hlt : s.headerCount < i := by
      have hcount := s.apply_headerCount .lineEnd
      rw [Token.countLine, if_pos rfl] at hcount
      omega
    simp only [HeaderState.apply]
    split
    · exact h.store (fun hf => by cases hf) hi (by omega) fun heq => absurd heq (by omega)
    · exact h i hi (by omega) fun heq => absurd heq (by omega)
  | keyChar c =>
    intro i hi hle hkey
    rw [HeaderState.apply_isKey, HeaderState.apply_headerCount] at hkey
    rw [HeaderState.apply_headerCount] at hle
    exact h.push (f := .key) (fun _ => hnul) hi hle hkey
  | valueChar c =>
    intro i hi hle hkey
    rw [HeaderState.apply_isKey, HeaderState.apply_headerCount] at hkey
    rw [HeaderState.apply_headerCount] at hle
    exact h.push (f := .value) (fun hf => by cases hf) hi hle hkey

/-- **A line without a colon leaves its key open**, whatever comes after it. -/
theorem foldl_open {ts : List Token} {s : HeaderState} (h : KeysOpen s) (hmode : Moded s.isKey ts)
    (hnul : ∀ t ∈ ts, t.NoNul) (hfit : HeadersFit s.headerCount ts) (hno : ¬Colons s.isKey ts) :
    ∃ i, ∃ hi : i < headerMaxLen, i < (ts.foldl HeaderState.apply s).headerCount ∧
      (0 : UInt8) ∉ HdrField.key.bytesOf (ts.foldl HeaderState.apply s).headers[i] := by
  induction ts generalizing s with
  | nil => exact absurd trivial hno
  | cons t ts ih =>
    obtain ⟨hmode, hmodes⟩ := hmode
    obtain ⟨hfit, hfits⟩ := hfit
    rw [List.foldl_cons]
    have hcount := HeaderState.apply_headerCount s t
    have htail := foldl_headerCount ts (s.apply t)
    by_cases hcolon : t = .lineEnd → s.isKey = false
    · rw [Colons, not_and_or] at hno
      have hrest := hno.resolve_left (not_not.mpr hcolon)
      rw [← HeaderState.apply_isKey] at hmodes hrest
      rw [← hcount] at hfits
      exact ih (h.apply hmode (hnul t List.mem_cons_self) hcolon) hmodes
        (fun u hu => hnul u (List.mem_cons_of_mem _ hu)) hfits hrest
    · -- this line ends while its key is read
      rw [Classical.not_imp] at hcolon
      obtain ⟨rfl, hkey⟩ := hcolon
      have hle := HeadersFit.le hfits
      rw [Token.countLine, if_pos rfl] at hcount hle
      have hroom : s.headerCount < headerMaxLen := hle
      refine ⟨s.headerCount, hroom, by omega, ?_⟩
      rw [foldl_headers_lt ts (s.apply .lineEnd) hroom (by omega)]
      simp only [HeaderState.apply, if_pos hroom]
      exact h.store (fun hf => by cases hf) hroom (le_refl _) fun _ => by simpa using hkey

end ComfirmDmarc.Server
