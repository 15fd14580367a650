import ComfirmDmarc.Dkim.SignatureHeader
import ComfirmDmarc.Lib.Base64

/-!
# Dkim -- `dkim_validate`

The verifier of `firm-dkim.c`, with what it calls in `base64.c`. OpenSSL is a
parameter: the hash, the verification, the reading of a key and the two base64
filters. The verifier reads every buffer of the `dkim_header` as a C string, so
`dh` is the texts in them. A write behind the end of an array, or a header that is not there,
ends the call with a fault.
-/

namespace ComfirmDmarc.Dkim

open CMemory

/-! ## OpenSSL -/

/-- What the verifier calls in OpenSSL, for keys of the type `Key`. -/
structure OpenSsl (Key : Type) where
  /-- `SHA256` -/
  sha256 : Bytes → Vector UInt8 32
  /-- `RSA_verify` for `NID_sha256`: hash, signature and key -/
  rsaVerify : Vector UInt8 32 → Bytes → Key → Int
  /-- `PEM_read_bio_RSA_PUBKEY`; `none` for `NULL` -/
  readPubkey : Bytes → Option Key
  /-- what `BIO_read` delivers behind `BIO_f_base64`; nothing when it fails -/
  bioRead : Bytes → Bytes
  /-- the memory that `BIO_write` and `BIO_flush` fill behind `BIO_f_base64` -/
  bioWrite : Bytes → Bytes

/-! ## `base64.c` -/

/-- The loop of `base64_wrap`; `lcount` counts the characters of the line. -/
def base64Wrap (lcount : Nat) : Bytes → Bytes
  | [] => []
  | c :: s =>
    if c = 32 ∨ lcount = 75 then c :: 13 :: 10 :: base64Wrap 0 s
    else c :: base64Wrap (lcount + 1) s

/-- `base64_decode`: the decoded bytes, of which there are at most as many as
the buffer holds. It returns how many these are. -/
def base64Decode {Key : Type} (ssl : OpenSsl Key) (input : Bytes) : Bytes :=
  let wrapped := base64Wrap 0 input
  (ssl.bioRead wrapped).take wrapped.length

/-- `base64_encode`: the last byte of the memory is dropped, and then all line
breaks. -/
def base64Encode {Key : Type} (ssl : OpenSsl Key) (input : Bytes) : Bytes :=
  (str (ssl.bioWrite input).dropLast).filter fun c => c ≠ 13 ∧ c ≠ 10

/-! ## `relaxed_body_canon` -/

def crlf : Bytes := [13, 10]

/-- `relaxed_body_canon_line`: the loop is the one that squeezes blanks in
header values. -/
def relaxedBodyCanonLine (line : Bytes) : Bytes := pass squeezeLoop (rtrim line)

/-- The loop over the body; `line` is what follows the last LF. -/
def bodyLines (line : Bytes) : Bytes → Bytes
  | [] => if line = [] then [] else relaxedBodyCanonLine line ++ crlf
  | c :: body =>
    if c = 10 then
      relaxedBodyCanonLine (if line.getLast? = some 13 then line.dropLast else line) ++ crlf ++
        bodyLines [] body
    else bodyLines (line ++ [c]) body

/-- `rtrim_lines`. -/
def rtrimLines (s : Bytes) : Bytes := s.rdropWhile fun c => c == 13 || c == 10

/-- `relaxed_body_canon`. -/
def relaxedBodyCanon (body : Bytes) : Bytes := rtrimLines (bodyLines [] body) ++ crlf

/-- The hash of the canonical body. -/
def bodyDigest {Key : Type} (ssl : OpenSsl Key) (body : Bytes) : Vector UInt8 32 :=
  ssl.sha256 (relaxedBodyCanon body)

/-- `dkim_check_compability`: whether it returns 0. The buffers are never
`NULL`. -/
def dkimCheckCompability (dh : Tag → Bytes) : Bool :=
  startsWith (dh .a) (bytes "rsa-sha256") && startsWith (dh .c) (bytes "relaxed/relaxed")

/-- `dkim_validate_body_hash`: whether it returns 0. -/
def dkimValidateBodyHash {Key : Type} (ssl : OpenSsl Key) (dh : Tag → Bytes) (body : Bytes) : Bool :=
  startsWith (dh .bh) (base64Encode ssl (bodyDigest ssl body).toList)

/-! ## The header string -/

/-- The names in `dh->h`, of which `name` is the one under way. The last one
keeps a `:` that it ends in. -/
def headerNames (name : Bytes) : Bytes → List Bytes
  | [] => []
  | [c] => [name ++ [c]]
  | c :: d :: s =>
    if c = 58 then name :: headerNames [] (d :: s) else headerNames (name ++ [c]) (d :: s)

/-- The headers whose lower-case name starts with the one in `dh->h`. -/
def includeHeaders (headers : List StringPair) (h : Bytes) : List StringPair :=
  (headerNames [] h).flatMap fun name =>
    headers.filter fun hdr => startsWith (hdr.key.map tolower) name

/-- The slots of `inc_headers`. -/
def incHeadersMax : Nat := 50

/-- One canonical header in `header_str`. -/
def StringPair.line (h : StringPair) : Bytes := h.key ++ 58 :: h.value

/-- `header_str` of the canonical headers. -/
def headerStr : List StringPair → Bytes
  | [] => []
  | [h] => h.line
  | h :: hs => h.line ++ crlf ++ headerStr hs

/-- The loop that looks for the old signature, down from `i`. -/
def findB (text : Bytes) : Nat → Option Nat
  | 0 => none
  | i + 1 =>
    if 1 < i + 1 ∧ text.getD (i + 1) 0 = 61 ∧ text.getD i 0 = 98 then some (i + 1)
    else findB text i

/-- Where the value of the old signature starts, less one. `bLen` is
`strlen(dh->b)`, and `mem` what the block holds behind the text. -/
def signatureEnd (text mem : Bytes) (bLen : Nat) : Option Nat :=
  findB (text ++ mem) (text.length - bLen)

/-- `header_str` after the old signature is removed. -/
def removeSignature (text mem : Bytes) (bLen : Nat) : Bytes :=
  match signatureEnd text mem bLen with
  | some i => (text ++ mem).take (i + 1)
  | none => text

/-- The canonical headers the signature covers, with the signature header at
the end. -/
def signedHeaders (headers : List StringPair) (h : Bytes) (sig : StringPair) : List StringPair :=
  relaxedHeaderCanon (includeHeaders headers h ++ [⟨bytes "dkim-signature", sig.value⟩])

/-! ## The verifier -/

inductive Fault
  | incHeaders
  | headerStr
  | noSignature
  deriving DecidableEq, Repr

/-- What `dkim_validate` does with the `text` of `count` headers in `header_str`,
whose block holds `mem`. -/
def verifyHeaderStr {Key : Type} (ssl : OpenSsl Key) (mem text : Bytes) (count : Nat)
    (dh : Tag → Bytes) (publicKey : Bytes) : Except Fault Int :=
  let mem := mem.drop text.length
  let bLen := (dh .b).length
  -- the terminator behind the cut is written too
  if 1500 * count < text.length ∨ (signatureEnd text mem bLen).any (1500 * count ≤ · + 1) then
    .error .headerStr
  else
    let hashed := removeSignature text mem bLen
    let signature := base64Decode ssl (dh .b)
    if signature = [] then .ok 0
    else
      match ssl.readPubkey publicKey with
      | none => .ok 0
      | some key => .ok (ssl.rsaVerify (ssl.sha256 hashed) signature key)

/-- `dkim_validate`; `mem` is the block that `header_str` is built in. -/
def dkimValidate {Key : Type} (ssl : OpenSsl Key) (mem : Bytes) (headers : List StringPair)
    (body : Bytes) (dh : Tag → Bytes) (publicKey : Bytes) : Except Fault Int :=
  let included := includeHeaders headers (dh .h)
  if incHeadersMax < included.length then .error .incHeaders
  else if ¬dkimCheckCompability dh then .ok 0
  else if ¬dkimValidateBodyHash ssl dh body then .ok 0
  else if incHeadersMax ≤ included.length then .error .incHeaders
  else
    match findSignature headers with
    | none => .error .noSignature
    | some sig =>
      verifyHeaderStr ssl mem (headerStr (signedHeaders headers (dh .h) sig)) (included.length + 1)
        dh publicKey

end ComfirmDmarc.Dkim
