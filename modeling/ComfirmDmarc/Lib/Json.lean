import ComfirmDmarc.Lib.CMemory
import Mathlib.Data.List.Forall2

/-!
# JSON texts

The grammar of JSON over bytes, as a relation between a text, the value read at
its beginning and what is left of it. An object keeps its members in the order
of the text, with repeated names; `lookup` is what a decoder makes of it for
which the last member of a name counts.

The rules for composing texts (`IsValue`, `IsMember`) are for values that end
by themselves, as strings, arrays and objects do.
-/

namespace JsonText

open CMemory

inductive Json
  | null
  | bool (b : Bool)
  | number (text : Bytes)
  | string (s : Bytes)
  | array (items : List Json)
  | object (members : List (Bytes × Json))

/-! ## Scalars -/

/-- SP, TAB, LF and CR. -/
def isWs (c : UInt8) : Bool := c == 32 || c == 9 || c == 10 || c == 13

def skipWs (s : Bytes) : Bytes := s.dropWhile isWs

/-- The byte that an escape other than `\u` stands for. -/
def unescape (e : UInt8) : Option UInt8 :=
  if e = 34 ∨ e = 92 ∨ e = 47 then some e
  else if e = 98 then some 8
  else if e = 102 then some 12
  else if e = 110 then some 10
  else if e = 114 then some 13
  else if e = 116 then some 9
  else none

theorem unescape_quote {e : UInt8} (h : unescape e = some 34) : e = 34 := by
  rw [unescape] at h
  split at h
  · exact Option.some.inj h
  · split_ifs at h <;> exact absurd h (by decide)

def hexDigit (c : UInt8) : Option Nat :=
  if 48 ≤ c ∧ c ≤ 57 then some (c.toNat - 48)
  else if 65 ≤ c ∧ c ≤ 70 then some (c.toNat - 55)
  else if 97 ≤ c ∧ c ≤ 102 then some (c.toNat - 87)
  else none

def hex4 (a b c d : UInt8) : Option Nat := do
  return (((← hexDigit a) * 16 + (← hexDigit b)) * 16 + (← hexDigit c)) * 16 + (← hexDigit d)

/-- The bytes of a code unit; the halves of a surrogate pair stay apart. -/
def utf8 (n : Nat) : Bytes :=
  if n < 128 then [UInt8.ofNat n]
  else if n < 2048 then [UInt8.ofNat (192 + n / 64), UInt8.ofNat (128 + n % 64)]
  else
    [UInt8.ofNat (224 + n / 4096), UInt8.ofNat (128 + n / 64 % 64), UInt8.ofNat (128 + n % 64)]

/-- The rest of a string behind its opening quote: what it stands for, and what
follows the closing one. -/
def scanString : Bytes → Option (Bytes × Bytes)
  | [] => none
  | c :: s =>
    if c = 34 then some ([], s)
    else if c = 92 then
      match s with
      | [] => none
      | e :: s =>
        if e = 117 then
          match s with
          | a :: b :: c :: d :: s =>
            (hex4 a b c d).bind fun n => (scanString s).map fun p => (utf8 n ++ p.1, p.2)
          | _ => none
        else (unescape e).bind fun x => (scanString s).map fun p => (x :: p.1, p.2)
    else if c < 32 then none
    else (scanString s).map fun p => (c :: p.1, p.2)

theorem scanString_quote (s : Bytes) : scanString (34 :: s) = some ([], s) := by
  rw [scanString.eq_def]
  rfl

/-- A byte that stands for itself. -/
theorem scanString_plain {c : UInt8} (hquote : c ≠ 34) (hslash : c ≠ 92) (hc : ¬c < 32) (s : Bytes) :
    scanString (c :: s) = (scanString s).map fun p => (c :: p.1, p.2) := by
  rw [scanString.eq_def]
  simp only [if_neg hquote, if_neg hslash, if_neg hc]

theorem scanString_escape {e x : UInt8} (he : e ≠ 117) (hx : unescape e = some x) (s : Bytes) :
    scanString (92 :: e :: s) = (scanString s).map fun p => (x :: p.1, p.2) := by
  rw [scanString.eq_def]
  have hslash : (92 : UInt8) ≠ 34 := by decide
  simp only [if_neg hslash, if_true, if_neg he, hx, Option.bind_some]

def isDigit (c : UInt8) : Bool := 48 ≤ c && c ≤ 57

def scanDigits (s : Bytes) : Option (Bytes × Bytes) :=
  if s.takeWhile isDigit = [] then none else some (s.takeWhile isDigit, s.dropWhile isDigit)

/-- A leading zero stands alone. -/
def scanInt (s : Bytes) : Option (Bytes × Bytes) :=
  if s.head? = some 48 then some ([48], s.tail) else scanDigits s

def scanSign (signs : Bytes) (s : Bytes) : Bytes × Bytes :=
  match s with
  | c :: s => if c ∈ signs then ([c], s) else ([], c :: s)
  | [] => ([], [])

def scanFraction (s : Bytes) : Option (Bytes × Bytes) :=
  if s.head? = some 46 then (scanDigits s.tail).map fun p => (46 :: p.1, p.2) else some ([], s)

def scanExponent (s : Bytes) : Option (Bytes × Bytes) :=
  match s with
  | c :: s =>
    if c = 101 ∨ c = 69 then
      let sign := scanSign [43, 45] s
      (scanDigits sign.2).map fun p => (c :: sign.1 ++ p.1, p.2)
    else some ([], c :: s)
  | [] => some ([], [])

def scanNumber (s : Bytes) : Option (Bytes × Bytes) := do
  let sign := scanSign [45] s
  let int ← scanInt sign.2
  let fraction ← scanFraction int.2
  let exponent ← scanExponent fraction.2
  return (sign.1 ++ int.1 ++ fraction.1 ++ exponent.1, exponent.2)

def scanScalar (s : Bytes) : Option (Json × Bytes) :=
  if s.head? = some 34 then (scanString s.tail).map fun p => (.string p.1, p.2)
  else if startsWith s (bytes "null") then some (.null, s.drop 4)
  else if startsWith s (bytes "true") then some (.bool true, s.drop 4)
  else if startsWith s (bytes "false") then some (.bool false, s.drop 5)
  else (scanNumber s).map fun p => (.number p.1, p.2)

/-! ## The grammar -/

/-- What is being read: a value, or the rest of an array or of an object. -/
inductive Mode
  | value
  | items
  | members

inductive Parse : Mode → Bytes → Json → Bytes → Prop
  | scalar {s r : Bytes} {v : Json} : scanScalar (skipWs s) = some (v, r) → Parse .value s v r
  | emptyArray {s t r : Bytes} : skipWs s = 91 :: t → skipWs t = 93 :: r →
      Parse .value s (.array []) r
  | array {s t r : Bytes} {v : Json} : skipWs s = 91 :: t → Parse .items t v r → Parse .value s v r
  | emptyObject {s t r : Bytes} : skipWs s = 123 :: t → skipWs t = 125 :: r →
      Parse .value s (.object []) r
  | object {s t r : Bytes} {v : Json} : skipWs s = 123 :: t → Parse .members t v r →
      Parse .value s v r
  | lastItem {s t r : Bytes} {v : Json} : Parse .value s v t → skipWs t = 93 :: r →
      Parse .items s (.array [v]) r
  | item {s t u r : Bytes} {v : Json} {vs : List Json} : Parse .value s v t → skipWs t = 44 :: u →
      Parse .items u (.array vs) r → Parse .items s (.array (v :: vs)) r
  | lastMember {s t u v w r : Bytes} {k : Bytes} {x : Json} : skipWs s = 34 :: t →
      scanString t = some (k, u) → skipWs u = 58 :: v → Parse .value v x w → skipWs w = 125 :: r →
      Parse .members s (.object [(k, x)]) r
  | member {s t u v w z r : Bytes} {k : Bytes} {x : Json} {ms : List (Bytes × Json)} :
      skipWs s = 34 :: t → scanString t = some (k, u) → skipWs u = 58 :: v → Parse .value v x w →
      skipWs w = 44 :: z → Parse .members z (.object ms) r →
      Parse .members s (.object ((k, x) :: ms)) r

/-- The text is one JSON value, with white space around it. -/
def IsJson (s : Bytes) (v : Json) : Prop := ∃ r, Parse .value s v r ∧ skipWs r = []

/-! ## A text has one reading -/

theorem scanScalar_open {c : UInt8} (h : c = 91 ∨ c = 123 ∨ c = 93 ∨ c = 125) (s : Bytes) :
    scanScalar (c :: s) = none := by
  rcases h with rfl | rfl | rfl | rfl <;>
    simp [scanScalar, startsWith, show bytes "null" = [110, 117, 108, 108] from bytes_ofList _,
      show bytes "true" = [116, 114, 117, 101] from bytes_ofList _,
      show bytes "false" = [102, 97, 108, 115, 101] from bytes_ofList _, scanNumber, scanSign, scanInt,
      scanDigits, isDigit]

theorem skipWs_of_not {c : UInt8} (h : isWs c = false) (s : Bytes) : skipWs (c :: s) = c :: s := by
  rw [skipWs, List.dropWhile_cons_of_neg (by simp [h])]

theorem skipWs_ws {c : UInt8} (h : isWs c = true) (s : Bytes) : skipWs (c :: s) = skipWs s := by
  rw [skipWs, List.dropWhile_cons_of_pos h, skipWs]

/-- White space in front of a value. -/
theorem Parse.ws {c : UInt8} (h : isWs c = true) {s r : Bytes} {v : Json}
    (hp : Parse .value s v r) : Parse .value (c :: s) v r := by
  have hskip := skipWs_ws h s
  cases hp with
  | scalar hs => exact .scalar (by rw [hskip]; exact hs)
  | emptyArray hs ht => exact .emptyArray (by rw [hskip]; exact hs) ht
  | array hs hi => exact .array (by rw [hskip]; exact hs) hi
  | emptyObject hs ht => exact .emptyObject (by rw [hskip]; exact hs) ht
  | object hs hm => exact .object (by rw [hskip]; exact hs) hm

/-- A closing bracket starts no value. -/
theorem Parse.value_ne_close {s r t : Bytes} {v : Json} (h : Parse .value s v r) :
    skipWs s ≠ 93 :: t := by
  intro heq
  cases h with
  | scalar hs =>
    rw [heq, scanScalar_open (by decide)] at hs
    cases hs
  | emptyArray hs _ =>
    rw [heq] at hs
    cases hs
  | array hs _ =>
    rw [heq] at hs
    cases hs
  | emptyObject hs _ =>
    rw [heq] at hs
    cases hs
  | object hs _ =>
    rw [heq] at hs
    cases hs

theorem Parse.items_ne_close {s r t : Bytes} {v : Json} (h : Parse .items s v r) :
    skipWs s ≠ 93 :: t := by
  cases h with
  | lastItem hv _ => exact hv.value_ne_close
  | item hv _ _ => exact hv.value_ne_close

theorem Parse.members_quote {s r : Bytes} {v : Json} (h : Parse .members s v r) :
    ∃ t, skipWs s = 34 :: t := by
  cases h with
  | lastMember hs _ _ _ _ => exact ⟨_, hs⟩
  | member hs _ _ _ _ _ => exact ⟨_, hs⟩

theorem skipWs_open_ne_scalar {s t r : Bytes} {v : Json} {c : UInt8} (hc : c = 91 ∨ c = 123)
    (hs : skipWs s = c :: t) (h : scanScalar (skipWs s) = some (v, r)) : False := by
  rw [hs, scanScalar_open (by rcases hc with rfl | rfl <;> decide)] at h
  cases h

/-- What begins as a scalar is that scalar. -/
theorem Parse.value_scalar {s r r' : Bytes} {v v' : Json} (hs : scanScalar (skipWs s) = some (v, r))
    (h : Parse .value s v' r') : v = v' ∧ r = r' := by
  cases h with
  | scalar hs' =>
    rw [hs] at hs'
    cases hs'
    exact ⟨rfl, rfl⟩
  | emptyArray hs' _ => exact (skipWs_open_ne_scalar (.inl rfl) hs' hs).elim
  | array hs' _ => exact (skipWs_open_ne_scalar (.inl rfl) hs' hs).elim
  | emptyObject hs' _ => exact (skipWs_open_ne_scalar (.inr rfl) hs' hs).elim
  | object hs' _ => exact (skipWs_open_ne_scalar (.inr rfl) hs' hs).elim

/-- What an opening bracket is followed by. -/
theorem Parse.value_bracket {s t r : Bytes} {v : Json} (hs : skipWs s = 91 :: t)
    (h : Parse .value s v r) :
    (v = .array [] ∧ skipWs t = 93 :: r) ∨ Parse .items t v r := by
  cases h with
  | scalar hs' => exact (skipWs_open_ne_scalar (.inl rfl) hs hs').elim
  | emptyArray hs' ht =>
    rw [hs] at hs'
    cases hs'
    exact .inl ⟨rfl, ht⟩
  | array hs' hi =>
    rw [hs] at hs'
    cases hs'
    exact .inr hi
  | emptyObject hs' _ =>
    rw [hs] at hs'
    cases hs'
  | object hs' _ =>
    rw [hs] at hs'
    cases hs'

/-- What an opening brace is followed by. -/
theorem Parse.value_brace {s t r : Bytes} {v : Json} (hs : skipWs s = 123 :: t)
    (h : Parse .value s v r) :
    (v = .object [] ∧ skipWs t = 125 :: r) ∨ Parse .members t v r := by
  cases h with
  | scalar hs' => exact (skipWs_open_ne_scalar (.inr rfl) hs hs').elim
  | emptyArray hs' _ =>
    rw [hs] at hs'
    cases hs'
  | array hs' _ =>
    rw [hs] at hs'
    cases hs'
  | emptyObject hs' ht =>
    rw [hs] at hs'
    cases hs'
    exact .inl ⟨rfl, ht⟩
  | object hs' hm =>
    rw [hs] at hs'
    cases hs'
    exact .inr hm

/-- The first item, and what the byte behind it decides. -/
theorem Parse.items_first {s r : Bytes} {v : Json} (h : Parse .items s v r) :
    ∃ x z, Parse .value s x z ∧
      ((skipWs z = 93 :: r ∧ v = .array [x]) ∨
        ∃ y vs, skipWs z = 44 :: y ∧ Parse .items y (.array vs) r ∧ v = .array (x :: vs)) := by
  cases h with
  | lastItem hv ht => exact ⟨_, _, hv, .inl ⟨ht, rfl⟩⟩
  | item hv ht hi => exact ⟨_, _, hv, .inr ⟨_, _, ht, hi, rfl⟩⟩

/-- The first member under its name, and what the byte behind it decides. -/
theorem Parse.members_first {s t u w r k : Bytes} {v : Json} (hs : skipWs s = 34 :: t)
    (hk : scanString t = some (k, u)) (hu : skipWs u = 58 :: w) (h : Parse .members s v r) :
    ∃ x z, Parse .value w x z ∧
      ((skipWs z = 125 :: r ∧ v = .object [(k, x)]) ∨
        ∃ y ms, skipWs z = 44 :: y ∧ Parse .members y (.object ms) r ∧ v = .object ((k, x) :: ms)) := by
  cases h with
  | lastMember hs' hk' hu' hv hw =>
    rw [hs] at hs'
    cases hs'
    rw [hk] at hk'
    cases hk'
    rw [hu] at hu'
    cases hu'
    exact ⟨_, _, hv, .inl ⟨hw, rfl⟩⟩
  | member hs' hk' hu' hv hw hm =>
    rw [hs] at hs'
    cases hs'
    rw [hk] at hk'
    cases hk'
    rw [hu] at hu'
    cases hu'
    exact ⟨_, _, hv, .inr ⟨_, _, hw, hm, rfl⟩⟩

/-- **A text has one reading.** -/
theorem Parse.unique {mode : Mode} {s r r' : Bytes} {v v' : Json} (h : Parse mode s v r)
    (h' : Parse mode s v' r') : v = v' ∧ r = r' := by
  induction h generalizing v' r' with
  | scalar hs => exact h'.value_scalar hs
  | emptyArray hs ht =>
    rcases h'.value_bracket hs with ⟨rfl, ht'⟩ | hi
    · rw [ht] at ht'
      cases ht'
      exact ⟨rfl, rfl⟩
    · exact absurd ht hi.items_ne_close
  | array hs hi ih =>
    rcases h'.value_bracket hs with ⟨-, ht'⟩ | hi'
    · exact absurd ht' hi.items_ne_close
    · exact ih hi'
  | emptyObject hs ht =>
    rcases h'.value_brace hs with ⟨rfl, ht'⟩ | hm
    · rw [ht] at ht'
      cases ht'
      exact ⟨rfl, rfl⟩
    · obtain ⟨u, hu⟩ := hm.members_quote
      rw [ht] at hu
      cases hu
  | object hs hm ih =>
    rcases h'.value_brace hs with ⟨-, ht'⟩ | hm'
    · obtain ⟨u, hu⟩ := hm.members_quote
      rw [ht'] at hu
      cases hu
    · exact ih hm'
  | lastItem hv ht ih =>
    obtain ⟨x, z, hv', hnext⟩ := h'.items_first
    obtain ⟨rfl, rfl⟩ := ih hv'
    -- a bracket or a comma behind the value
    rcases hnext with ⟨ht', rfl⟩ | ⟨y, vs, ht', -, -⟩
    · rw [ht] at ht'
      cases ht'
      exact ⟨rfl, rfl⟩
    · rw [ht] at ht'
      cases ht'
  | item hv ht hi ihv ihi =>
    obtain ⟨x, z, hv', hnext⟩ := h'.items_first
    obtain ⟨rfl, rfl⟩ := ihv hv'
    rcases hnext with ⟨ht', -⟩ | ⟨y, vs, ht', hi', rfl⟩
    · rw [ht] at ht'
      cases ht'
    · rw [ht] at ht'
      cases ht'
      obtain ⟨hvs, rfl⟩ := ihi hi'
      cases hvs
      exact ⟨rfl, rfl⟩
  | lastMember hs hk hu hv hw ih =>
    obtain ⟨x, z, hv', hnext⟩ := h'.members_first hs hk hu
    obtain ⟨rfl, rfl⟩ := ih hv'
    -- a brace or a comma behind the member
    rcases hnext with ⟨hw', rfl⟩ | ⟨y, ms, hw', -, -⟩
    · rw [hw] at hw'
      cases hw'
      exact ⟨rfl, rfl⟩
    · rw [hw] at hw'
      cases hw'
  | member hs hk hu hv hw hm ihv ihm =>
    obtain ⟨x, z, hv', hnext⟩ := h'.members_first hs hk hu
    obtain ⟨rfl, rfl⟩ := ihv hv'
    rcases hnext with ⟨hw', -⟩ | ⟨y, ms, hw', hm', rfl⟩
    · rw [hw] at hw'
      cases hw'
    · rw [hw] at hw'
      cases hw'
      obtain ⟨hms, rfl⟩ := ihm hm'
      cases hms
      exact ⟨rfl, rfl⟩

theorem IsJson.unique {s : Bytes} {v v' : Json} (h : IsJson s v) (h' : IsJson s v') : v = v' := by
  obtain ⟨r, hp, -⟩ := h
  obtain ⟨r', hp', -⟩ := h'
  exact (hp.unique hp').1

/-! ## Composing texts -/

/-- A value that ends by itself, whatever follows it. -/
def IsValue (t : Bytes) (v : Json) : Prop := ∀ rest, Parse .value (t ++ rest) v rest

/-- The text of a string without its quotes. -/
def IsStringText (e s : Bytes) : Prop := ∀ rest, scanString (e ++ 34 :: rest) = some (s, rest)

/-- A member of an object, whatever follows it. -/
def IsMember (t : Bytes) (m : Bytes × Json) : Prop :=
  ∀ rest, ∃ u v w, skipWs (t ++ rest) = 34 :: u ∧ scanString u = some (m.1, v) ∧
    skipWs v = 58 :: w ∧ Parse .value w m.2 rest

theorem IsValue.isJson {t : Bytes} {v : Json} (h : IsValue t v) : IsJson t v := by
  refine ⟨[], ?_, rfl⟩
  have := h []
  rwa [List.append_nil] at this

theorem IsStringText.isValue {e s : Bytes} (h : IsStringText e s) :
    IsValue (34 :: e ++ [34]) (.string s) := by
  intro rest
  refine .scalar ?_
  have hskip : skipWs (34 :: e ++ [34] ++ rest) = 34 :: (e ++ 34 :: rest) := by
    rw [List.cons_append, List.cons_append, List.append_assoc, List.singleton_append,
      skipWs_of_not (by decide)]
  have hhead : (34 :: (e ++ 34 :: rest)).head? = some 34 := rfl
  rw [hskip, scanScalar, if_pos hhead, List.tail_cons, h rest]
  rfl

theorem IsStringText.isMember {e k t : Bytes} {v : Json} (hk : IsStringText e k)
    (hv : IsValue t v) : IsMember (34 :: e ++ [34, 58, 32] ++ t) (k, v) := by
  intro rest
  have hsplit : 34 :: e ++ [34, 58, 32] ++ t ++ rest = 34 :: (e ++ 34 :: (58 :: 32 :: (t ++ rest))) := by
    simp
  have hspace : Parse .value (32 :: (t ++ rest)) v rest := (hv rest).ws (by decide)
  refine ⟨_, _, _, ?_, hk _, skipWs_of_not (by decide) _, hspace⟩
  rw [hsplit, skipWs_of_not (by decide)]

/-- The members of an object with commas between them. -/
theorem parse_members {ts : List Bytes} {ms : List (Bytes × Json)}
    (h : List.Forall₂ IsMember ts ms) (hne : ts ≠ []) (rest : Bytes) :
    Parse .members ([44].intercalate ts ++ 125 :: rest) (.object ms) rest := by
  induction h with
  | nil => exact absurd rfl hne
  | @cons t m ts ms ht hts ih =>
    cases hts with
    | nil =>
      rw [List.intercalate_singleton]
      obtain ⟨u, v, w, hu, hk, hw, hv⟩ := ht (125 :: rest)
      exact .lastMember hu hk hw hv (skipWs_of_not (by decide) _)
    | @cons t' m' ts ms ht' hts =>
      rw [List.intercalate_cons_cons, List.append_assoc, List.append_assoc, List.singleton_append]
      obtain ⟨u, v, w, hu, hk, hw, hv⟩ := ht (44 :: ([44].intercalate (t' :: ts) ++ 125 :: rest))
      exact .member hu hk hw hv (skipWs_of_not (by decide) _) (ih (List.cons_ne_nil _ _))

theorem isValue_object {ts : List Bytes} {ms : List (Bytes × Json)}
    (h : List.Forall₂ IsMember ts ms) : IsValue (123 :: [44].intercalate ts ++ [125]) (.object ms) := by
  intro rest
  have hsplit : 123 :: [44].intercalate ts ++ [125] ++ rest =
      123 :: ([44].intercalate ts ++ 125 :: rest) := by simp
  have hskip : skipWs (123 :: [44].intercalate ts ++ [125] ++ rest) =
      123 :: ([44].intercalate ts ++ 125 :: rest) := by
    rw [hsplit, skipWs_of_not (by decide)]
  cases h with
  | nil => exact .emptyObject hskip (skipWs_of_not (by decide) _)
  | cons ht hts => exact .object hskip (parse_members (.cons ht hts) (List.cons_ne_nil _ _) rest)

/-- The items of an array with commas between them. -/
theorem parse_items {ts : List Bytes} {vs : List Json} (h : List.Forall₂ IsValue ts vs)
    (hne : ts ≠ []) (rest : Bytes) :
    Parse .items ([44].intercalate ts ++ 93 :: rest) (.array vs) rest := by
  induction h with
  | nil => exact absurd rfl hne
  | @cons t v ts vs ht hts ih =>
    cases hts with
    | nil =>
      rw [List.intercalate_singleton]
      exact .lastItem (ht _) (skipWs_of_not (by decide) _)
    | @cons t' v' ts vs ht' hts =>
      rw [List.intercalate_cons_cons, List.append_assoc, List.append_assoc, List.singleton_append]
      exact .item (ht _) (skipWs_of_not (by decide) _) (ih (List.cons_ne_nil _ _))

theorem isValue_array {ts : List Bytes} {vs : List Json} (h : List.Forall₂ IsValue ts vs) :
    IsValue (91 :: [44].intercalate ts ++ [93]) (.array vs) := by
  intro rest
  have hsplit : 91 :: [44].intercalate ts ++ [93] ++ rest =
      91 :: ([44].intercalate ts ++ 93 :: rest) := by simp
  have hskip : skipWs (91 :: [44].intercalate ts ++ [93] ++ rest) =
      91 :: ([44].intercalate ts ++ 93 :: rest) := by
    rw [hsplit, skipWs_of_not (by decide)]
  cases h with
  | nil => exact .emptyArray hskip (skipWs_of_not (by decide) _)
  | cons ht hts => exact .array hskip (parse_items (.cons ht hts) (List.cons_ne_nil _ _) rest)

/-- What follows the first member decides how the members go on. -/
theorem Parse.members_cons {t rest r : Bytes} {m : Bytes × Json} {v : Json} (ht : IsMember t m)
    (h : Parse .members (t ++ rest) v r) :
    (skipWs rest = 125 :: r ∧ v = .object [m]) ∨
      ∃ z ms, skipWs rest = 44 :: z ∧ Parse .members z (.object ms) r ∧ v = .object (m :: ms) := by
  obtain ⟨u, x, w, hu, hk, hx, hv⟩ := ht rest
  obtain ⟨y, z, hv', hnext⟩ := h.members_first hu hk hx
  obtain ⟨rfl, rfl⟩ := hv.unique hv'
  exact hnext

/-- Members that a comma is missing behind are no object. -/
theorem not_parse_members {ts : List Bytes} {ms : List (Bytes × Json)}
    (h : List.Forall₂ IsMember ts ms) (hne : ts ≠ []) {rest r : Bytes} {v : Json} :
    ¬Parse .members ([44].intercalate ts ++ 34 :: rest) v r := by
  induction h generalizing v with
  | nil => exact absurd rfl hne
  | @cons t m ts ms ht hts ih =>
    intro hp
    cases hts with
    | nil =>
      rw [List.intercalate_singleton] at hp
      have hquote : skipWs (34 :: rest) = 34 :: rest := skipWs_of_not (by decide) rest
      rcases hp.members_cons ht with ⟨hend, -⟩ | ⟨z, ms, hcomma, -, -⟩
      · rw [hquote] at hend
        cases hend
      · rw [hquote] at hcomma
        cases hcomma
    | @cons t' m' ts ms ht' hts =>
      rw [List.intercalate_cons_cons, List.append_assoc, List.append_assoc,
        List.singleton_append] at hp
      have hskip : ∀ s, skipWs (44 :: s) = 44 :: s := fun s => skipWs_of_not (by decide) s
      rcases hp.members_cons ht with ⟨hend, -⟩ | ⟨z, ms, hcomma, hm, -⟩
      · rw [hskip] at hend
        cases hend
      · rw [hskip] at hcomma
        cases hcomma
        exact ih (List.cons_ne_nil _ _) hm

theorem not_parse_object {ts : List Bytes} {ms : List (Bytes × Json)}
    (h : List.Forall₂ IsMember ts ms) (hne : ts ≠ []) {rest r : Bytes} {v : Json} :
    ¬Parse .value (123 :: ([44].intercalate ts ++ 34 :: rest)) v r := by
  intro hp
  rcases hp.value_brace (skipWs_of_not (by decide) _) with ⟨-, hclose⟩ | hm
  · cases h with
    | nil => exact hne rfl
    | @cons t m ts ms ht hts =>
      obtain ⟨tail, htail⟩ : ∃ tail, [44].intercalate (t :: ts) = t ++ tail := by
        cases ts with
        | nil => exact ⟨[], by simp⟩
        | cons t' ts => exact ⟨_, by rw [List.intercalate_cons_cons, List.append_assoc]⟩
      obtain ⟨u, v, w, hquote, -⟩ := ht (tail ++ 34 :: rest)
      rw [htail, List.append_assoc, hquote] at hclose
      cases hclose
  · exact not_parse_members h hne hm

/-! ## Decoding -/

/-- The last member of a name. -/
def lastMember (k : Bytes) : List (Bytes × Json) → Option Json
  | [] => none
  | m :: ms => (lastMember k ms).or (if m.1 = k then some m.2 else none)

/-- What a decoder finds at a path of names. -/
def lookup : List Bytes → Json → Option Json
  | [], v => some v
  | k :: ks, .object ms => (lastMember k ms).bind (lookup ks)
  | _ :: _, _ => none

end JsonText
