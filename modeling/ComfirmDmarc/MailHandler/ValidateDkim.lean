import ComfirmDmarc.Dkim.DnsRecord
import ComfirmDmarc.Dkim.MissingTags
import ComfirmDmarc.Dkim.QueuedMail

/-!
# MailHandler -- `validate_dkim`

What `mailhandler.c` makes of a mail and of the DNS: it finds and parses the
signature header, asks `dns.c` for the key record, and hands a PEM text to the
verifier. The DNS answers and OpenSSL are parameters, and so is what `malloc`
returns.
-/

namespace ComfirmDmarc.MailHandler

open CMemory Dkim

/-! ## `dns.c` -/

/-- What the resolver comes back with: one of its calls failed, or the first
answer record. -/
inductive DnsAnswer
  | failed
  | record (rrClass rrType : Nat) (rdata : Bytes)

/-- `ns_c_in`. -/
def nsCIn : Nat := 1

/-- `ns_t_txt`. -/
def nsTTxt : Nat := 16

/-- The loop of `dns_gettxt`: it means to leave out the length bytes. -/
def copyRdata (rdata : Bytes) : Bytes := rdata.filter fun c => c ≠ 183 ∧ c ≠ 218

/-- `dns_gettxt`: a C string, or `none` for `NULL`. -/
def dnsGettxt : DnsAnswer → Option Bytes
  | .failed => none
  | .record rrClass rrType rdata =>
    if rrClass = nsCIn ∧ rrType = nsTTxt then some (str (copyRdata rdata ++ [0])) else none

/-! ## `validate_dkim` -/

/-- What `malloc` returns on the way: the blocks of `dkim_header` and
`dkim_record` with the memory behind them, and the block of `header_str`. -/
structure Blocks where
  header : HeaderBlock
  record : DkimRecord
  behindRecord : Bytes
  strMem : Bytes

/-- Memory of zero bytes. -/
def Blocks.zero : Blocks where
  header := ⟨fun _ => Vector.replicate _ 0, []⟩
  record := fun _ => Vector.replicate _ 0
  behindRecord := []
  strMem := []

/-- The C string that starts at a buffer of a `dkim_record`. -/
def recordString (dr : DkimRecord) (behind : Bytes) : DnsTag → Bytes
  | .k => str ((dr .k).toList ++ (dr .p).toList ++ behind)
  | .p => str ((dr .p).toList ++ behind)

inductive Fault
  /-- `message->headers[i]` behind the array -/
  | mailHeaders
  | verifier (fault : Dkim.Fault)
  deriving DecidableEq, Repr

/-- The name of the key record. -/
def keyDomain (dh : Tag → Bytes) : Bytes := dh .s ++ bytes "._domainkey." ++ dh .d

/-- The key with the lines around it that make it a PEM text. -/
def publicKeyPem (p : Bytes) : Bytes :=
  bytes "-----BEGIN PUBLIC KEY-----\n" ++ base64Wrap 0 p ++ bytes "\n-----END PUBLIC KEY-----\n"

/-- `validate_dkim` from the signature header on, which is parsed to `dh`. -/
def validateSignature {Key : Type} (ssl : OpenSsl Key) (dns : Bytes → DnsAnswer) (blocks : Blocks)
    (headers : List StringPair) (body : Bytes) (dh : Tag → Bytes) : Except Fault Int :=
  match dnsGettxt (dns (keyDomain dh)) with
  | none => .ok 0
  | some resp =>
    let dr := recordString (dkimParseDns blocks.record resp) blocks.behindRecord
    if startsWith (dr .k) (bytes "rsa") then
      (dkimValidate ssl blocks.strMem headers body dh (publicKeyPem (dr .p))).mapError .verifier
    else .ok 0

/-- `validate_dkim`. -/
def validateDkim {Key : Type} (ssl : OpenSsl Key) (dns : Bytes → DnsAnswer) (blocks : Blocks)
    (message : Mail) : Except Fault Int :=
  if headerMaxLen < message.headerCount then .error .mailHeaders
  else
    let headers := mailHeaders message
    match dkimGetHeader blocks.header.buffers headers with
    | none => .ok 0
    | some dh =>
      validateSignature ssl dns blocks headers message.bodyStr
        (HeaderBlock.text ⟨dh, blocks.header.behind⟩)

/-! ## What it depends on -/

/-- The strings that the mail handler sees of a mail. -/
structure MailText where
  headerCount : Nat
  headers : List StringPair
  body : Bytes
  deriving DecidableEq

def mailText (m : Mail) : MailText := ⟨m.headerCount, mailHeaders m, m.bodyStr⟩

/-- **The decision is a function of the strings of the mail.** -/
theorem validateDkim_congr {Key : Type} (ssl : OpenSsl Key) (dns : Bytes → DnsAnswer)
    (blocks : Blocks) {m m' : Mail} (h : mailText m = mailText m') :
    validateDkim ssl dns blocks m = validateDkim ssl dns blocks m' := by
  simp only [mailText, MailText.mk.injEq] at h
  obtain ⟨hcount, hheaders, hbody⟩ := h
  rw [validateDkim, validateDkim, hcount, hheaders, hbody]

end ComfirmDmarc.MailHandler
