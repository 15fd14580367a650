import ComfirmDmarc.Base
import ComfirmDmarc.Dkim.Validate
import ComfirmDmarc.Dkim.Wrap
import Mathlib.Data.Nat.Digits.Lemmas

/-!
# Dkim -- `dkim_create`

The signer of `firm-dkim.c`. The hash, the private key and `RSA_sign` are
parameters; the two base64 filters are those of the verifier. A write behind
the end of a block ends the call with a fault.
-/

namespace ComfirmDmarc.Dkim

open CMemory

/-! ## The code -/

/-- What the signer calls in OpenSSL, for private keys of the type `Key`. -/
structure Signer (Key : Type) where
  /-- `PEM_read_bio_RSAPrivateKey`; `none` for `NULL` -/
  readPrivate : Bytes → Option Key
  /-- `SHA1` -/
  sha1 : Bytes → Vector UInt8 20
  /-- `RSA_sign` for `NID_sha1`; `none` when it fails -/
  rsaSign : Vector UInt8 20 → Key → Option Bytes
  /-- a signature has as many bytes as the modulus of its key -/
  rsaSign_ne_nil : ∀ hash key sig, rsaSign hash key = some sig → sig ≠ []

/-- The digits of a number, `0` for none. -/
def decimalDigits (n : Nat) : Bytes :=
  if n = 0 then [48] else (Nat.digits 10 n).reverse.map fun d => UInt8.ofNat (48 + d)

/-- `%d`. -/
def decimal (x : Int) : Bytes := if x < 0 then 45 :: decimalDigits x.natAbs else decimalDigits x.natAbs

/-- The loop that fills `header_list`; no colon where nothing stands in front. -/
def headerList (list : Bytes) : List StringPair → Bytes
  | [] => list
  | h :: hs => headerList (if list = [] then h.key else list ++ 58 :: h.key) hs

/-- The `sprintf` of `dkim_string`. -/
def dkimString (selector domain : Bytes) (bodyLen ts : Int) (headerList bh : Bytes) : Bytes :=
  bytes "v=1; a=rsa-sha1; s=" ++ selector ++ bytes "; d=" ++ domain ++ bytes "; l=" ++
    decimal bodyLen ++ bytes "; t=" ++ decimal ts ++ bytes "; c=relaxed/relaxed; h=" ++ headerList ++
    bytes "; bh=" ++ bh ++ bytes "; b="

inductive CreateFault
  | headerList
  | headerStr
  | wrap
  deriving DecidableEq, Repr

/-- `dkim_create`; `none` for `NULL`. -/
def dkimCreate {Key PrivateKey : Type} (ssl : OpenSsl Key) (signer : Signer PrivateKey)
    (headers : List StringPair) (body pkey domain selector : Bytes) (ts : Int) :
    Except CreateFault (Option Bytes) :=
  match signer.readPrivate pkey with
  | none => .ok none
  | some rsaPrivate =>
    let newHeaders := relaxedHeaderCanon headers
    let newBody := relaxedBodyCanon body
    let bh := base64Encode ssl (signer.sha1 newBody).toList
    let list := headerList [] newHeaders
    -- the terminator is stored too, and `strlen` reads it
    if 200 * headers.length ≤ list.length then .error .headerList
    else
      let dkim := dkimString selector domain (toInt newBody.length) (toInt ts) list bh
      let text := headerStr (newHeaders ++ [⟨bytes "dkim-signature", dkim⟩])
      if 1500 * (headers.length + 1) < text.length then .error .headerStr
      else
        match signer.rsaSign (signer.sha1 text) rsaPrivate with
        | none => .ok none
        | some sig =>
          let dkim := dkim ++ base64Encode ssl sig
          if 3 * dkim.length < (wrap 0 dkim).length then .error .wrap
          else .ok (some (wrap 0 dkim))

/-! ## Its words -/

/-- The words of `dkim_string` in front of `b=`. -/
def dkimWords (selector domain : Bytes) (bodyLen ts : Int) (headerList bh : Bytes) : List Bytes :=
  [bytes "v=1;", bytes "a=rsa-sha1;", bytes "s=" ++ selector ++ [59], bytes "d=" ++ domain ++ [59],
    bytes "l=" ++ decimal bodyLen ++ [59], bytes "t=" ++ decimal ts ++ [59],
    bytes "c=relaxed/relaxed;", bytes "h=" ++ headerList ++ [59], bytes "bh=" ++ bh ++ [59]]

theorem dkimString_eq (selector domain : Bytes) (bodyLen ts : Int) (headerList bh : Bytes) :
    dkimString selector domain bodyLen ts headerList bh =
      spaced (dkimWords selector domain bodyLen ts headerList bh) ++ [98, 61] := by
  have hsplit : ∀ u v : Bytes, ∀ x : UInt8, u ++ x :: v = u ++ [x] ++ v := by simp
  have hfront : bytes "v=1; a=rsa-sha1; s=" =
      bytes "v=1;" ++ [32] ++ bytes "a=rsa-sha1;" ++ [32] ++ bytes "s=" := by decide
  have hd : bytes "; d=" = [59, 32] ++ bytes "d=" := by decide
  have hl : bytes "; l=" = [59, 32] ++ bytes "l=" := by decide
  have ht : bytes "; t=" = [59, 32] ++ bytes "t=" := by decide
  have hh : bytes "; c=relaxed/relaxed; h=" =
      [59, 32] ++ bytes "c=relaxed/relaxed;" ++ [32] ++ bytes "h=" := by decide
  have hbh : bytes "; bh=" = [59, 32] ++ bytes "bh=" := by decide
  have hb : bytes "; b=" = [59, 32] ++ [98, 61] := by decide
  rw [dkimString, dkimWords, hfront, hd, hl, ht, hh, hbh, hb]
  simp only [spaced_cons, spaced_nil, List.append_assoc, List.cons_append, List.nil_append]

theorem decimalDigits_spec {n : Nat} (h : n < 10 ^ 10) :
    (decimalDigits n).length ≤ 10 ∧ ∀ c ∈ decimalDigits n, 48 ≤ c ∧ c ≤ 57 := by
  rw [decimalDigits]
  split
  · exact ⟨by simp, by simp⟩
  · refine ⟨?_, ?_⟩
    · rw [List.length_map, List.length_reverse]
      exact (Nat.digits_length_le_iff (by decide) n).mpr h
    · intro c hc
      obtain ⟨d, hd, rfl⟩ := List.mem_map.mp hc
      have hlt := Nat.digits_lt_base (by decide) (List.mem_reverse.mp hd)
      interval_cases d <;> decide

/-- An `int` takes eleven bytes at most, signs and digits. -/
theorem decimal_spec {x : Int} (h : x.natAbs < 10 ^ 10) :
    (decimal x).length ≤ 11 ∧ ∀ c ∈ decimal x, c = 45 ∨ (48 ≤ c ∧ c ≤ 57) := by
  obtain ⟨hlen, hchars⟩ := decimalDigits_spec h
  rw [decimal]
  split
  · refine ⟨by rw [List.length_cons]; omega, fun c hc => ?_⟩
    exact (List.mem_cons.mp hc).imp_right (hchars c)
  · exact ⟨by omega, fun c hc => .inr (hchars c hc)⟩

theorem toInt_natAbs (x : Int) : (toInt x).natAbs < 10 ^ 10 := by
  have hlow : -(2 ^ 32 / 2 : Int) ≤ toInt x := Int.le_bmod (by decide)
  have hhigh : toInt x < (2 ^ 32 + 1) / 2 := Int.bmod_lt (by decide)
  omega

theorem decimal_toInt_plain (x : Int) : ∀ c ∈ decimal (toInt x), c ≠ 0 ∧ isFolding c = false := by
  intro c hc
  rcases (decimal_spec (toInt_natAbs x)).2 c hc with rfl | ⟨hlow, hhigh⟩
  · decide
  · rw [UInt8.le_iff_toNat_le] at hlow hhigh
    have hne : ∀ d : UInt8, d.toNat < 48 → c ≠ d := by
      rintro d hd rfl
      exact absurd hlow (by simpa using hd)
    refine ⟨hne 0 (by decide), ?_⟩
    simp only [isFolding, Bool.or_eq_false_iff, beq_eq_false_iff_ne]
    exact ⟨⟨⟨hne 32 (by decide), hne 9 (by decide)⟩, hne 13 (by decide)⟩, hne 10 (by decide)⟩

/-- The bytes between the `=` and the `;` of a word. -/
theorem word_of_plain {name value : Bytes} (hname : ∀ c ∈ name, c ≠ 0 ∧ isFolding c = false)
    (hvalue : ∀ c ∈ value, c ≠ 0 ∧ isFolding c = false) : Word (name ++ value ++ [59]) := by
  refine ⟨by simp, fun c hc => ?_⟩
  simp only [List.mem_append, List.mem_singleton] at hc
  rcases hc with (hc | hc) | rfl
  · exact hname c hc
  · exact hvalue c hc
  · decide

theorem word_dkimWords {selector domain headerList bh : Bytes} {bodyLen ts : Int}
    (hselector : ∀ c ∈ selector, c ≠ 0 ∧ isFolding c = false)
    (hdomain : ∀ c ∈ domain, c ≠ 0 ∧ isFolding c = false)
    (hlist : ∀ c ∈ headerList, c ≠ 0 ∧ isFolding c = false)
    (hbh : ∀ c ∈ bh, c ≠ 0 ∧ isFolding c = false) :
    ∀ w ∈ dkimWords selector domain (toInt bodyLen) (toInt ts) headerList bh, Word w := by
  simp only [dkimWords, List.forall_mem_cons, List.not_mem_nil, false_implies, implies_true, and_true]
  have hplain : ∀ lit ∈ [bytes "v=1;", bytes "a=rsa-sha1;", bytes "s=", bytes "d=", bytes "l=",
      bytes "t=", bytes "c=relaxed/relaxed;", bytes "h=", bytes "bh="],
      lit ≠ [] ∧ ∀ c ∈ lit, c ≠ 0 ∧ isFolding c = false := by
    simp [bytes, isFolding]
  simp only [List.forall_mem_cons] at hplain
  obtain ⟨hv, ha, hs, hd, hl, ht, hc, hh, hb, -⟩ := hplain
  exact ⟨hv, ha, word_of_plain hs.2 hselector, word_of_plain hd.2 hdomain,
    word_of_plain hl.2 (decimal_toInt_plain bodyLen), word_of_plain ht.2 (decimal_toInt_plain ts), hc,
    word_of_plain hh.2 hlist, word_of_plain hb.2 hbh⟩

/-- **The words fit their lines** when the selector, the domain and the list of
names do. -/
theorem dkimWords_fit_iff (selector domain headerList : Bytes) {bh : Bytes} (bodyLen ts : Int)
    (hbh : bh.length = 28) :
    (∀ w ∈ dkimWords selector domain (toInt bodyLen) (toInt ts) headerList bh, w.length ≤ 76) ↔
      selector.length ≤ 73 ∧ domain.length ≤ 73 ∧ headerList.length ≤ 73 := by
  have hl := (decimal_spec (toInt_natAbs bodyLen)).1
  have ht := (decimal_spec (toInt_natAbs ts)).1
  have hnames : (bytes "v=1;").length = 4 ∧ (bytes "a=rsa-sha1;").length = 11 ∧
      (bytes "c=relaxed/relaxed;").length = 18 ∧ (bytes "s=").length = 2 ∧ (bytes "d=").length = 2 ∧
      (bytes "l=").length = 2 ∧ (bytes "t=").length = 2 ∧ (bytes "h=").length = 2 ∧
      (bytes "bh=").length = 3 := by decide
  obtain ⟨hv, ha, hc, hs, hd, hl2, ht2, hh, hbh3⟩ := hnames
  simp only [dkimWords, List.forall_mem_cons, List.not_mem_nil, false_implies, implies_true, and_true,
    List.length_append, List.length_singleton, hv, ha, hc, hs, hd, hl2, ht2, hh, hbh3, hbh]
  omega

/-! ## The list of names -/

theorem headerList_append {list : Bytes} (hlist : list ≠ []) (headers : List StringPair) :
    headerList list headers = list ++ (headers.map fun h => 58 :: h.key).flatten := by
  induction headers generalizing list with
  | nil => simp [headerList]
  | cons h headers ih =>
    rw [headerList, if_neg hlist, ih (by simp)]
    simp

theorem mem_headerList {list : Bytes} {headers : List StringPair} {c : UInt8}
    (h : c ∈ headerList list headers) : c ∈ list ∨ c = 58 ∨ ∃ g ∈ headers, c ∈ g.key := by
  induction headers generalizing list with
  | nil => exact .inl h
  | cons g headers ih =>
    rw [headerList] at h
    rcases ih h with hc | hc | ⟨g', hg', hc⟩
    · split at hc
      · exact .inr (.inr ⟨g, List.mem_cons_self, hc⟩)
      · simp only [List.mem_append, List.mem_cons] at hc
        rcases hc with hc | hc | hc
        · exact .inl hc
        · exact .inr (.inl hc)
        · exact .inr (.inr ⟨g, List.mem_cons_self, hc⟩)
    · exact .inr (.inl hc)
    · exact .inr (.inr ⟨g', List.mem_cons_of_mem _ hg', hc⟩)

/-- A name up to its colon. -/
theorem headerNames_colon {name : Bytes} (hname : (58 : UInt8) ∉ name) (front : Bytes) {rest : Bytes}
    (hrest : rest ≠ []) :
    headerNames front (name ++ 58 :: rest) = (front ++ name) :: headerNames [] rest := by
  obtain ⟨d, s, rfl⟩ := List.exists_cons_of_ne_nil hrest
  induction name generalizing front with
  | nil => rw [List.nil_append, headerNames, if_pos rfl, List.append_nil]
  | cons c name ih =>
    simp only [List.mem_cons, not_or] at hname
    cases name with
    | nil => simp [headerNames, Ne.symm hname.1]
    | cons e name =>
      have hnext := ih hname.2 (front ++ [c])
      rw [List.cons_append, List.cons_append, headerNames, if_neg (Ne.symm hname.1), ← List.cons_append,
        hnext]
      simp

/-- The last name. -/
theorem headerNames_last {name : Bytes} (hname : (58 : UInt8) ∉ name) (hne : name ≠ [])
    (front : Bytes) : headerNames front name = [front ++ name] := by
  induction name generalizing front with
  | nil => exact absurd rfl hne
  | cons c name ih =>
    simp only [List.mem_cons, not_or] at hname
    cases name with
    | nil => rw [headerNames]
    | cons d name =>
      rw [headerNames, if_neg (Ne.symm hname.1), ih hname.2 (by simp)]
      simp

/-- **The verifier cuts the same names out of the list.** -/
theorem headerNames_headerList {headers : List StringPair}
    (hnames : ∀ h ∈ headers, h.key ≠ [] ∧ (58 : UInt8) ∉ h.key) :
    headerNames [] (headerList [] headers) = headers.map StringPair.key := by
  cases headers with
  | nil => rfl
  | cons h headers =>
    have hfirst := hnames h List.mem_cons_self
    rw [headerList, if_pos rfl, headerList_append hfirst.1]
    have hothers : ∀ g ∈ headers, g.key ≠ [] ∧ (58 : UInt8) ∉ g.key :=
      fun g hg => hnames g (List.mem_cons_of_mem _ hg)
    clear hnames
    induction headers generalizing h with
    | nil => simpa using headerNames_last hfirst.2 hfirst.1 []
    | cons g headers ih =>
      have hg := hothers g List.mem_cons_self
      have hnext := ih g hg fun g' hg' => hothers g' (List.mem_cons_of_mem _ hg')
      have hrest : g.key ++ (headers.map fun h => 58 :: h.key).flatten ≠ [] := by simp [hg.1]
      have hcolon := headerNames_colon hfirst.2 [] hrest
      rw [hnext] at hcolon
      simpa using hcolon

/-! ## Base64 -/

/-- `BIO_f_base64`: the text of what is written, in lines of 64 digits. -/
def OpenSsl.EncodesBase64 {Key : Type} (ssl : OpenSsl Key) : Prop :=
  ∀ s, ssl.bioWrite s = Base64.lines (Base64.encode s)

theorem base64Encode_eq {Key : Type} {ssl : OpenSsl Key} (hssl : ssl.EncodesBase64) {s : Bytes}
    (hne : s ≠ []) : base64Encode ssl s = Base64.encode s := by
  have htext : Base64.encode s ≠ [] := by
    rw [← List.length_pos_iff, Base64.encode_length]
    have := List.length_pos_iff.mpr hne
    omega
  obtain ⟨body, hlines, hnul, hfilter⟩ := Base64.lines_spec (Base64.encode_no_break s) htext
  rw [base64Encode, hssl, hlines, List.dropLast_concat, str_eq_self hnul, hfilter]

theorem encode_plain (s : Bytes) :
    ∀ c ∈ Base64.encode s, c ≠ 0 ∧ c ≠ 59 ∧ isFolding c = false := by
  have hdigits : ∀ c ∈ Base64.alphabet, c ≠ 0 ∧ c ≠ 59 ∧ isFolding c = false := by
    have hall : Base64.alphabet.all (fun c => c != 0 && (c != 59 && !isFolding c)) = true := by
      rw [Base64.alphabet, bytes_ofList]
      rfl
    simpa using hall
  intro c hc
  rcases Base64.mem_encode hc with hdigit | rfl
  · exact hdigits c hdigit
  · decide

end ComfirmDmarc.Dkim
