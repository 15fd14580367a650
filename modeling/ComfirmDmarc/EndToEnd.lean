import ComfirmDmarc.MailHandler.HeaderCase
import ComfirmDmarc.MailHandler.HonestMail
import ComfirmDmarc.MailHandler.ReportDocument
import ComfirmDmarc.MailHandler.Unzip
import ComfirmDmarc.Server.CarriedMail
import ComfirmDmarc.Server.RoundTrip

/-!
# From the client to the web service

A report on its whole way: a client sends it in an SMTP session, the server
queues it, and the mail handler validates, decodes, unpacks and converts it and
posts the result. A report that was signed and packed as the code can read it
ends as a JSON object of its elements.
-/

namespace ComfirmDmarc

open CMemory Dkim JsonText MailHandler Queue Server Transition

/-! ## The mail handler, with what it calls -/

/-- What the mail handler calls outside of the repository. -/
structure Outside (Key : Type) where
  ssl : OpenSsl Key
  dns : Bytes → DnsAnswer
  zlib : Zlib
  /-- the children of the root that `xmlReadMemory` finds, `none` for `NULL` -/
  readXml : Bytes → Option XmlNode
  xmlNodeGetContent : XmlNode → Option Bytes

/-- What the blocks hold that the mail handler allocates. -/
structure HandlerMemory where
  blocks : Blocks
  behindZip : Bytes
  /-- the last byte of the block that `unzip` returns -/
  last : UInt8
  behindXml : Bytes

/-- `base64_decode` of `mailhandler/base64.c`: its buffer is cleared first. -/
def decodeBuffer {Key : Type} (ssl : OpenSsl Key) (input : Bytes) : Bytes × Int :=
  let decoded := Dkim.base64Decode ssl input
  (decoded ++ List.replicate ((base64Wrap 0 input).length - decoded.length) 0, decoded.length)

/-- What became of a mail. -/
inductive Handled
  | crashed
  | incorrectSignature
  | unsupportedEncoding
  | unsupportedZip
  | notConverted
  | posted (json : Bytes)
  deriving DecidableEq

/-- `parse_xml` and what follows it. -/
def handleXml {Key : Type} (o : Outside Key) (xml : Bytes) : Handled :=
  match parseXml o.xmlNodeGetContent (o.readXml xml) stringBufferInit with
  | .error _ => .crashed
  | .ok (_, json) =>
    match json.str with
    | none => .notConverted
    | some text => .posted text

/-- `unzip` and what follows it. -/
def handleZip {Key : Type} (o : Outside Key) (mem : HandlerMemory) (zipdata : Bytes) : Handled :=
  match (unzip o.zlib (zipdata ++ mem.behindZip)).result with
  | .error _ => .crashed
  | .ok none => .unsupportedZip
  | .ok (some xml) => handleXml o (str (xml ++ mem.last :: mem.behindXml))

/-- The body of the loop in `main`, for a mail out of the queue. -/
def handleMail {Key : Type} (o : Outside Key) (mem : HandlerMemory) (message : Mail) : Handled :=
  match validateDkim o.ssl o.dns mem.blocks message with
  | .error _ => .crashed
  | .ok valid =>
    if valid = 0 then .incorrectSignature
    else
      match decodeContent (decodeBuffer o.ssl) message with
      | .crash => .crashed
      | .null => .unsupportedEncoding
      | .got (zipdata, _) => handleZip o mem zipdata

/-! ## The loop of the mail handler -/

/-- The callees of the loop come back as the code does on this mail. -/
structure Realises {Key : Type} (c : Callees) (o : Outside Key) (mem : HandlerMemory)
    (message : Mail) : Prop where
  validate : validateDkim o.ssl o.dns mem.blocks message = .ok (c.validateDkim message)
  decode : c.base64Decode = decodeBuffer o.ssl
  unzip : ∀ zipdata len, c.unzip zipdata len =
    match (unzip o.zlib (zipdata ++ mem.behindZip)).result with
    | .error _ => .crash
    | .ok none => .null
    | .ok (some xml) => .got (str (xml ++ mem.last :: mem.behindXml))
  parse : ∀ xml, c.parseXml xml =
    match parseXml o.xmlNodeGetContent (o.readXml xml) stringBufferInit with
    | .error _ => .crash
    | .ok (_, json) => match json.str with
      | none => .null
      | some text => .got text

/-- The callees as the code has them, on the mails that make none of them fault. -/
def Outside.callees {Key : Type} (o : Outside Key) (mem : HandlerMemory) : Callees where
  validateDkim message :=
    match validateDkim o.ssl o.dns mem.blocks message with
    | .error _ => 0
    | .ok valid => valid
  base64Decode := decodeBuffer o.ssl
  unzip zipdata _ :=
    match (unzip o.zlib (zipdata ++ mem.behindZip)).result with
    | .error _ => .crash
    | .ok none => .null
    | .ok (some xml) => .got (str (xml ++ mem.last :: mem.behindXml))
  parseXml xml :=
    match parseXml o.xmlNodeGetContent (o.readXml xml) stringBufferInit with
    | .error _ => .crash
    | .ok (_, json) => match json.str with
      | none => .null
      | some text => .got text

/-- **What is posted is a mail that converts**, for the loop. -/
theorem converts_iff_posted {Key : Type} {c : Callees} {o : Outside Key} {mem : HandlerMemory}
    {message : Mail} (h : Realises c o mem message) :
    Converts c message ↔ ∃ json, handleMail o mem message = .posted json := by
  rw [Converts, handleMail, h.validate, h.decode]
  simp only
  by_cases hvalid : c.validateDkim message = 0
  · simp [hvalid]
  · rw [if_neg hvalid]
    simp only [ne_eq, hvalid, not_false_eq_true, true_and]
    cases hdecode : decodeContent (decodeBuffer o.ssl) message with
    | crash => simp
    | null => simp
    | got content =>
      obtain ⟨zipdata, len⟩ := content
      have hunzip := h.unzip zipdata len
      simp only [handleZip]
      cases hzip : (MailHandler.unzip o.zlib (zipdata ++ mem.behindZip)).result with
      | error fault =>
        rw [hzip] at hunzip
        simp [hunzip]
      | ok out =>
        rw [hzip] at hunzip
        cases out with
        | none => simp [hunzip]
        | some xml =>
          have hparse := h.parse (str (xml ++ mem.last :: mem.behindXml))
          simp only [handleXml]
          cases hxml : parseXml o.xmlNodeGetContent
              (o.readXml (str (xml ++ mem.last :: mem.behindXml))) stringBufferInit with
          | error fault =>
            rw [hxml] at hparse
            simp [hunzip, hparse]
          | ok result =>
            obtain ⟨code, json⟩ := result
            rw [hxml] at hparse
            cases htext : json.str with
            | none => simp [hunzip, hparse, htext]
            | some text => simp [hunzip, hparse, htext]

/-! ## A report -/

/-- **A report as its sender makes it**: a ZIP file of an XML document in
base64, in a mail that is signed as the standard says. -/
structure SentReport {Key : Type} (o : Outside Key) where
  key : Key
  mail : HonestMail o.ssl key
  record : List Segment
  strings : List Bytes
  fields : List Field
  Deflated : Bytes → Bytes → Prop
  zip : ZipEntry Deflated
  nodes : XmlNode
  fields_headers : mail.headers = fields.map fun f => ⟨f.name, f.value⟩
  /-- no line of the header is folded -/
  fields_wellFormed : ∀ f ∈ fields, f.WellFormed ∧ f.raw = f.value ∧ (f.sep = 9 ∨ f.sep = 32)
  published : o.dns (mail.selector ++ bytes "._domainkey." ++ mail.domain) =
    .record nsCIn nsTTxt (rdata strings)
  decoded : Dkim.base64Decode o.ssl mail.body = zip.render
  document : o.readXml zip.content = some nodes

/-- The message as it is sent, up to the CRLF in front of the last dot. -/
def SentReport.message {Key : Type} {o : Outside Key} (r : SentReport o) : Bytes :=
  renderMessage r.fields r.mail.body

/-- **What the code needs of a report**, of its key record and of the memory. -/
structure SentReport.Handled {Key : Type} {o : Outside Key} (r : SentReport o)
    (mem : HandlerMemory) : Prop where
  /-- the server keeps the message whole -/
  fields_ne : r.fields ≠ []
  fields_length : r.fields.length ≤ headerMaxLen
  fields_short : ∀ f ∈ r.fields, f.Short
  body_head : ∃ c body, r.mail.body = c :: body ∧ c ≠ 9 ∧ c ≠ 32
  body_length : (r.mail.body ++ leftover).length < bodyMaxLen
  /-- the verifier understands the signature and finds the key -/
  understood : r.mail.Understood
  keyRecord : KeyRecord r.record
  recovered : Recovered r.record r.strings
  rsa : keyValue r.record .k = bytes "rsa"
  keyRead : o.ssl.readPubkey (publicKeyPem (keyValue r.record .p)) = some r.key
  /-- the content is found under the name as `strcmp` wants it -/
  encoding : r.mail.headers.find? (fun h => h.key = contentTransferEncoding) =
    some ⟨contentTransferEncoding, bytes "base64"⟩
  /-- the string that `unzip` returns ends with the content -/
  delimited : ContentDelimited r.zip mem.last mem.behindXml
  /-- the document becomes an object -/
  quoteFree : ReportQuoteFree r.nodes
  metadataFirst : MetadataFirst r.nodes
  contentsSet : ReportContentsSet r.nodes
  pieces : Fit 0 (reportPieces false r.nodes)

/-- What OpenSSL, zlib and libxml2 are relied on for. -/
structure Outside.Sound {Key : Type} {o : Outside Key} (r : SentReport o) : Prop where
  encodes : o.ssl.EncodesHash
  readsSignature : o.ssl.bioRead (base64Wrap 0 (Base64.encode r.mail.signature)) = r.mail.signature
  inflates : o.zlib.Correct r.Deflated
  contents : GetsContent o.xmlNodeGetContent

/-- The posted text is the object of the report: a member for each printed top
element, then the records with an object for each. -/
def ReportObject (nodes : XmlNode) (json : Bytes) : Prop :=
  ∃ ms rs, IsJson (bytes "\x7b" ++ json ++ bytes "\x7d")
      (.object (ms ++ [(bytes "records", .array rs)])) ∧
    ms.map Prod.fst = (topElements nodes).map (fun t => t.1.name) ∧
    (∀ m ∈ ms, ∃ fields, m.2 = .object fields) ∧
    rs.length = (recordElements nodes).length ∧ ∀ r ∈ rs, ∃ fields, r = .object fields

/-! ## The steps of the mail handler -/

/-- Memory behind the file is read as more of what follows the entry. -/
theorem render_append {Deflated : Bytes → Bytes → Prop} (z : ZipEntry Deflated) (more : Bytes) :
    z.render ++ more = { z with rest := z.rest ++ more }.render := by
  simp only [ZipEntry.render, List.append_assoc]
  rfl

theorem contentDelimited_rest {Deflated : Bytes → Bytes → Prop} (z : ZipEntry Deflated)
    (rest : Bytes) (last : UInt8) (more : Bytes) :
    ContentDelimited { z with rest := rest } last more ↔ ContentDelimited z last more := Iff.rfl

/-- **The content of the entry is converted.** -/
theorem handleZip_render {Key : Type} {o : Outside Key} {mem : HandlerMemory}
    {Deflated : Bytes → Bytes → Prop} (hz : o.zlib.Correct Deflated) {z : ZipEntry Deflated}
    (h : ContentDelimited z mem.last mem.behindXml) (more : Bytes) :
    handleZip o mem (z.render ++ more) = handleXml o z.content := by
  have hdocument := (unzip_document hz { z with rest := z.rest ++ (more ++ mem.behindZip) } mem.last
    mem.behindXml).mpr ((contentDelimited_rest z _ _ _).mpr h)
  rw [← render_append, ← List.append_assoc] at hdocument
  rw [handleZip]
  rw [UnzipRun.document] at hdocument
  cases hresult : (unzip o.zlib (z.render ++ more ++ mem.behindZip)).result with
  | error fault =>
    rw [hresult] at hdocument
    cases hdocument
  | ok out =>
    rw [hresult] at hdocument
    cases out with
    | none => cases hdocument
    | some xml =>
      have hstr : str (xml ++ mem.last :: mem.behindXml) = z.content := Option.some.inj hdocument
      simp only [hstr]

/-- **The document is posted as an object.** -/
theorem handleXml_report {Key : Type} {o : Outside Key} (hget : GetsContent o.xmlNodeGetContent)
    {nodes : XmlNode} {xml : Bytes} (hread : o.readXml xml = some nodes)
    (hquote : ReportQuoteFree nodes) (hfirst : MetadataFirst nodes)
    (hset : ReportContentsSet nodes) (hfit : Fit 0 (reportPieces false nodes)) :
    ∃ json, handleXml o xml = .posted json ∧ ReportObject nodes json := by
  obtain ⟨sb, ms, rs, hparse, hjson, hrest⟩ :=
    wellFormed_of_metadataFirst hget hquote hfirst hset hfit
  obtain ⟨sb', hparse', hcontent⟩ := parseXml_init_ok hget hset hfit
  rw [hparse, Except.ok.injEq, Prod.mk.injEq] at hparse'
  rw [← hparse'.2] at hcontent
  cases htext : sb.str with
  | none =>
    -- the records are always printed
    rw [StringBuffer.content, htext, Option.getD_none] at hcontent
    have hempty := List.flatten_eq_nil_iff.mp hcontent.symm
    exact absurd (hempty (bytes "\"records\": [") (by simp [reportPieces, recordsPieces])) (by decide)
  | some text =>
    have hsame : sb.content = text := by rw [StringBuffer.content, htext, Option.getD_some]
    refine ⟨text, ?_, ms, rs, hsame ▸ hjson, hrest⟩
    rw [handleXml, hread, hparse]
    simp only [htext]

/-- **The mail handler posts the report** when it finds the sender's strings. -/
theorem handleMail_report {Key : Type} {o : Outside Key} (r : SentReport o) {mem : HandlerMemory}
    (h : r.Handled mem) (ho : o.Sound r) {message : Mail} (hcount : message.headerCount ≤ headerMaxLen)
    (hheaders : mailHeaders message = r.mail.headers) (hbody : message.bodyStr = r.mail.body) :
    ∃ json, handleMail o mem message = .posted json ∧ ReportObject r.nodes json := by
  obtain ⟨json, hposted, hobject⟩ := handleXml_report ho.contents r.document h.quoteFree
    h.metadataFirst h.contentsSet h.pieces
  refine ⟨json, ?_, hobject⟩
  have hvalid : validateDkim o.ssl o.dns mem.blocks message = .ok 1 :=
    r.mail.validateDkim_eq h.understood ho.encodes ho.readsSignature r.published h.keyRecord
      h.recovered h.rsa h.keyRead hcount hheaders hbody mem.blocks
  have hcontent : decodeContent (decodeBuffer o.ssl) message =
      .got (decodeBuffer o.ssl r.mail.body) := by
    rw [decodeContent_eq, hheaders, h.encoding]
    simp only [if_true, hbody]
  rw [handleMail, hvalid]
  simp only [hcontent, Int.one_ne_zero, if_false]
  rw [decodeBuffer, r.decoded, handleZip_render ho.inflates h.delimited, hposted]

/-- A field that is not folded is kept as its sender means it. -/
theorem SentReport.fields_sent {Key : Type} {o : Outside Key} (r : SentReport o) :
    ∀ f ∈ r.fields, f.Sent ∧ (13 : UInt8) ∉ f.raw := by
  intro f hf
  obtain ⟨hwf, hraw, hsep⟩ := r.fields_wellFormed f hf
  have hcr : (13 : UInt8) ∉ f.raw := by
    rw [hraw]
    exact hwf.value.cr_not_mem
  exact ⟨hwf.sent hsep hcr, hcr⟩

/-- The server keeps the message of a report. -/
theorem SentReport.deliverable {Key : Type} {o : Outside Key} (r : SentReport o)
    {mem : HandlerMemory} (h : r.Handled mem) : Deliverable r.message := by
  have hwf : ∀ f ∈ r.fields, f.WellFormed := fun f hf => (r.fields_wellFormed f hf).1
  obtain ⟨c, body, hbody, hc⟩ := h.body_head
  refine ⟨r.fields, r.mail.body, rfl, ⟨h.fields_ne, h.fields_length, hwf, h.fields_short, ?_⟩,
    fun f hf => ⟨(r.fields_wellFormed f hf).2.2, (r.fields_sent f hf).2⟩, h.body_length⟩
  exact ⟨c, body ++ leftover, by rw [hbody, List.cons_append], hc⟩

/-- The way of a report from a connection to the web service. -/
theorem SentReport.arrives {Key : Type} {o : Outside Key} (r : SentReport o)
    {mem : HandlerMemory} (h : r.Handled mem) (ho : o.Sound r) (conf : Config) {w : World}
    (hconn : w.conn = connectionReset) {commands : List (Server.Event × List Bytes)}
    {start : Server.Event × List Bytes} {pieces : List (Server.Event × Bytes)}
    (hkeeps : KeepsDialogue conf commands start pieces r.message) :
    ∃ w' message json,
      Run (Step conf) w (commands.map Prod.fst ++ start.1 :: pieces.map Prod.fst) w' ∧
      w'.added = w.added ++ [message] ∧ handleMail o mem message = .posted json ∧
      ReportObject r.nodes json ∧ ∀ c, Realises c o mem message → Converts c message := by
  obtain ⟨w', message, hrun, -, hadded, hcarries, -⟩ := hkeeps.run hconn (r.deliverable h)
  obtain ⟨hcount, hheaders, hbody⟩ := hcarries.strings fun f hf => (r.fields_sent f hf).1
  rw [← r.fields_headers] at hheaders
  rw [str_eq_self h.understood.body_nul] at hbody
  obtain ⟨json, hposted, hobject⟩ := handleMail_report r h ho (hcount ▸ h.fields_length) hheaders hbody
  exact ⟨w', message, json, hrun, hadded, hposted, hobject,
    fun c hc => (converts_iff_posted hc).mpr ⟨json, hposted⟩⟩

/-- **A report on its whole way.** A client that keeps to the dialogue sends it,
in whatever reads; the one mail that the server queues is posted, and the text
that is posted is the object of the report. The loop of the mail handler
converts the mail, whatever other mails it meets. -/
theorem report_reaches_service {Key : Type} {o : Outside Key} (r : SentReport o)
    {mem : HandlerMemory} (h : r.Handled mem) (ho : o.Sound r) (conf : Config) {w : World}
    (hconn : w.conn = connectionReset) {commands : List (Server.Event × List Bytes)}
    {start : Server.Event × List Bytes} {pieces : List (Server.Event × Bytes)}
    (hkeeps : KeepsDialogue conf commands start pieces r.message) :
    ∃ w' message json,
      Run (Step conf) w (commands.map Prod.fst ++ start.1 :: pieces.map Prod.fst) w' ∧
      w'.added = w.added ++ [message] ∧ handleMail o mem message = .posted json ∧
      ReportObject r.nodes json ∧ ∀ c, Realises c o mem message → Converts c message :=
  r.arrives h ho conf hconn hkeeps

section Examples

/-! ## A small report -/

/-- A report of one record, as an XML document. -/
def smallXml : Bytes :=
  bytes "<f><report_metadata><org_name>a.se</org_name></report_metadata><record><row><count>1</count></row></record></f>"

/-- The hash of the relaxed body, the hash of the signed text, and its signature. -/
def smallBodyHash : Vector UInt8 32 :=
  ⟨#[45, 197, 122, 243, 88, 47, 231, 222, 164, 252, 137, 199, 50, 31, 112, 19, 114, 231, 183, 7, 54,
    118, 162, 127, 132, 101, 27, 178, 137, 214, 23, 89], rfl⟩

def smallHeaderHash : Vector UInt8 32 :=
  ⟨#[32, 237, 196, 228, 12, 12, 116, 170, 64, 124, 240, 45, 113, 166, 86, 59, 146, 1, 68, 251, 157,
    247, 134, 252, 8, 99, 193, 191, 211, 146, 114, 148], rfl⟩

def smallSignature : Bytes :=
  [2, 55, 206, 224, 89, 133, 64, 161, 103, 47, 166, 148, 11, 179, 107, 120, 101, 166, 100, 162, 181,
    167, 10, 200, 79, 151, 60, 223, 172, 178, 224, 202, 206, 199, 89, 91, 9, 226, 69, 15, 70, 64, 14,
    104, 243, 207, 205, 155, 29, 227, 78, 177, 162, 211, 248, 153, 174, 85, 83, 66, 59, 138, 53, 190]

/-- The values of `bh=` and of `b=`. -/
def smallBhText : Bytes :=
  [76, 99, 86, 54, 56, 49, 103, 118, 53, 57, 54, 107, 47, 73, 110, 72, 77, 104, 57, 119, 69, 51,
    76, 110, 116, 119, 99, 50, 100, 113, 74, 47, 104, 71, 85, 98, 115, 111, 110, 87, 70, 49, 107, 61]

def smallBText : Bytes :=
  [65, 106, 102, 79, 52, 70, 109, 70, 81, 75, 70, 110, 76, 54, 97, 85, 67, 55, 78, 114, 101, 71,
    87, 109, 90, 75, 75, 49, 112, 119, 114, 73, 84, 53, 99, 56, 51, 54, 121, 121, 52, 77, 114, 79,
    120, 49, 108, 98, 67, 101, 74, 70, 68, 48, 90, 65, 68, 109, 106, 122, 122, 56, 50, 98, 72, 101,
    78, 79, 115, 97, 76, 84, 43, 74, 109, 117, 86, 86, 78, 67, 79, 52, 111, 49, 118, 103, 61, 61]

/-- The names and the texts of the document, the tags of the signature header. -/
theorem small_chars :
    ((∀ name ∈ [bytes "report_metadata", bytes "org_name", bytes "record", bytes "row",
          bytes "count"], ∀ c ∈ name, isNameByte c = true) ∧
        (∀ text ∈ [bytes "a.se", bytes "1"], ∀ c ∈ text, isCharByte c = true) ∧
        smallXml.length = 111 ∧ (0 : UInt8) ∉ smallXml) ∧
      TagChars [] (bytes "v") (bytes "1") ∧ TagChars [32] (bytes "a") (bytes "rsa-sha256") ∧
      TagChars [32] (bytes "c") (bytes "relaxed/relaxed") ∧
      TagChars [32] (bytes "d") (bytes "a.se") ∧ TagChars [32] (bytes "s") (bytes "k") ∧
      TagChars [32] (bytes "h") (bytes "from") ∧ TagChars [32] (bytes "bh") smallBhText ∧
      TagChars [32] (bytes "b") smallBText := by
  decide +kernel

theorem smallXml_length : smallXml.length = 111 := small_chars.1.2.2.1

def smallName (name : Bytes) (h : name ∈ [bytes "report_metadata", bytes "org_name", bytes "record",
    bytes "row", bytes "count"]) : XmlName := ⟨name, small_chars.1.1 name h⟩

def smallText (text : Bytes) (h : text ∈ [bytes "a.se", bytes "1"]) : XmlText :=
  ⟨text, small_chars.1.2.1 text h⟩

/-- What libxml2 makes of the document. -/
def smallNodes : XmlNode :=
  .element (smallName (bytes "report_metadata") (by simp))
    (.element (smallName (bytes "org_name") (by simp))
      (.other .text (some (smallText (bytes "a.se") (by simp))) .null) .null)
  (.element (smallName (bytes "record") (by simp))
    (.element (smallName (bytes "row") (by simp))
      (.element (smallName (bytes "count") (by simp))
        (.other .text (some (smallText (bytes "1") (by simp))) .null) .null) .null) .null)

/-- The central directory of the file. -/
def smallDirectory : Bytes :=
  [80, 75, 1, 2, 20, 0, 20, 0, 0, 0, 8, 0, 0, 0, 33, 68, 230, 203, 131, 157, 116, 0, 0, 0, 111, 0, 0,
    0, 5, 0, 0, 0, 0, 0, 0, 0, 0, 0, 0, 0, 128, 1, 0, 0, 0, 0, 114, 46, 120, 109, 108, 80, 75, 5, 6,
    0, 0, 0, 0, 1, 0, 1, 0, 51, 0, 0, 0, 151, 0, 0, 0, 0, 0]

theorem smallBlock : StoredBlock (1 :: 111 :: 0 :: 144 :: 255 :: smallXml) smallXml := by
  rw [StoredBlock, smallXml_length]
  exact ⟨by decide, rfl⟩

theorem smallVersion_size : (#[20, 0] : Array UInt8).size = 2 := rfl

theorem smallName_lt : ([114, 46, 120, 109, 108] : Bytes).length < 256 ^ 2 := by simp

theorem smallExtra_lt : ([] : Bytes).length < 256 ^ 2 := by simp

theorem smallRaw_lt : (1 :: 111 :: 0 :: 144 :: 255 :: smallXml).length < 256 ^ 4 := by
  simp [smallXml_length]

theorem smallXml_lt : smallXml.length < 256 ^ 4 := by simp [smallXml_length]

theorem smallXml_nul : (0 : UInt8) ∉ smallXml := small_chars.1.2.2.2

/-- The file `r.xml`, stored. -/
def smallZip : ZipEntry StoredBlock where
  version := ⟨#[20, 0], smallVersion_size⟩
  flags := .replicate 2 0
  time := .replicate 2 0
  date := #v[33, 68]
  crc := #v[230, 203, 131, 157]
  name := [114, 46, 120, 109, 108]
  extra := []
  raw := 1 :: 111 :: 0 :: 144 :: 255 :: smallXml
  content := smallXml
  rest := smallDirectory
  name_lt := smallName_lt
  extra_lt := smallExtra_lt
  raw_lt := smallRaw_lt
  content_lt := smallXml_lt
  deflated := smallBlock
  nulFree := smallXml_nul

/-- The body of the mail: the file in base64, in one line. -/
def smallBody : Bytes := Base64.encode smallZip.render

theorem smallChars_v : TagChars [] (bytes "v") (bytes "1") := small_chars.2.1

theorem smallChars_a : TagChars [32] (bytes "a") (bytes "rsa-sha256") := small_chars.2.2.1

theorem smallChars_c : TagChars [32] (bytes "c") (bytes "relaxed/relaxed") := small_chars.2.2.2.1

theorem smallChars_d : TagChars [32] (bytes "d") (bytes "a.se") := small_chars.2.2.2.2.1

theorem smallChars_s : TagChars [32] (bytes "s") (bytes "k") := small_chars.2.2.2.2.2.1

theorem smallChars_h : TagChars [32] (bytes "h") (bytes "from") := small_chars.2.2.2.2.2.2.1

theorem smallChars_bh : TagChars [32] (bytes "bh") smallBhText := small_chars.2.2.2.2.2.2.2.1

theorem smallChars_b : TagChars [32] (bytes "b") smallBText := small_chars.2.2.2.2.2.2.2.2

/-- The tags of the mail. -/
def smallTags : List SigTag :=
  [sigTag [] (bytes "v") (bytes "1") smallChars_v,
    sigTag [32] (bytes "a") (bytes "rsa-sha256") smallChars_a,
    sigTag [32] (bytes "c") (bytes "relaxed/relaxed") smallChars_c,
    sigTag [32] (bytes "d") (bytes "a.se") smallChars_d,
    sigTag [32] (bytes "s") (bytes "k") smallChars_s,
    sigTag [32] (bytes "h") (bytes "from") smallChars_h,
    sigTag [32] (bytes "bh") smallBhText smallChars_bh]

def smallB : SigTag := sigTag [32] (bytes "b") smallBText smallChars_b

/-- A header field that is not folded. -/
def plainField (name value : Bytes) : Field := ⟨name, 32, value, value⟩

def smallFields : List Field :=
  [plainField (bytes "From") (bytes "a@a.se"),
    plainField contentTransferEncoding (bytes "base64"),
    plainField (bytes "DKIM-Signature") (listText (smallTags ++ [smallB]) false)]

def smallHeaders : List StringPair := smallFields.map fun f => ⟨f.name, f.value⟩

/-- The text that is signed. -/
def smallSigned : Bytes := signedText smallHeaders (bytes "from") smallTags smallB

/-- OpenSSL as far as this mail needs it. -/
def smallSsl : OpenSsl Unit where
  sha256 text :=
    if text = smallBody ++ [13, 10] then smallBodyHash
    else if text = smallSigned then smallHeaderHash
    else Vector.replicate _ 0
  rsaVerify hash signature _ := if hash = smallHeaderHash ∧ signature = smallSignature then 1 else 0
  readPubkey text := if text = publicKeyPem payKey then some () else none
  bioRead text :=
    if text.filter (fun c => c ≠ 13 ∧ c ≠ 10) = smallBText then smallSignature
    else if text.filter (fun c => c ≠ 13 ∧ c ≠ 10) = smallBody then smallZip.render
    else []
  bioWrite text := Base64.encode text ++ [10]

def smallOutside : Outside Unit where
  ssl := smallSsl
  dns := payDns
  zlib := storedZlib
  readXml text := if text = smallXml then some smallNodes else none
  xmlNodeGetContent := documentedContent

/-! ### Facts about the texts -/

/-- The file has 224 bytes, and its base64 is one line without blanks. -/
theorem smallBody_facts : smallZip.render.length = 224 ∧ smallBody.head? = some 85 ∧
    relaxedBody smallBody = smallBody ++ [13, 10] ∧ smallZip.descriptor = false ∧
    Base64.encode smallBodyHash.toList = smallBhText ∧ Base64.encode smallSignature = smallBText := by
  decide +kernel

/-- The tags are known, and each is given once; there is no line break in them. -/
theorem smallTags_facts : (∀ k ∈ smallTags ++ [smallB], ∃ t ∈ Tag.all, k.name = t.name) ∧
    ((smallTags ++ [smallB]).map SigTag.name).Nodup ∧ (∀ k ∈ smallTags, k.name ≠ bytes "b") ∧
    (∀ k ∈ smallTags ++ [smallB], ∀ c ∈ k.value, c ≠ 13 ∧ c ≠ 10) ∧
    (listText (smallTags ++ [smallB]) false).length < dkimValueMaxLen ∧
    withoutFolding smallB.value = smallBText ∧
    (smallTags.map fun k => (k.name, withoutFolding k.value)) =
      [(Tag.v.name, bytes "1"), (Tag.a.name, bytes "rsa-sha256"),
        (Tag.c.name, bytes "relaxed/relaxed"), (Tag.d.name, bytes "a.se"), (Tag.s.name, bytes "k"),
        (Tag.h.name, bytes "from"), (Tag.bh.name, smallBhText)] := by
  decide +kernel

/-- The signed text is short, the only signed header is `From`, and the fields are as the server
and the mail handler need them. -/
theorem smallHeaders_facts : smallSigned.length = 138 ∧
    chosen smallHeaders (bytes "from") = [⟨bytes "From", bytes "a@a.se"⟩] ∧
    (headerStr ([⟨bytes "From", bytes "a@a.se"⟩, ⟨bytes "dkim-signature",
      listText (smallTags ++ [smallB]) false⟩].map relaxedField)).length ≤ 3000 ∧
    (bytes "from").splitOn 58 = [bytes "from"] ∧ headerNames [] (bytes "from") = [bytes "from"] ∧
    (∀ f ∈ smallFields, (∀ c ∈ f.name, c ≠ 0 ∧ c ≠ 13 ∧ c ≠ 32 ∧ c ≠ 58) ∧ f.name.head? ≠ some 9 ∧
      f.name.length < keyMaxLen ∧ f.value.length < valueMaxLen ∧
      f.name.getLast?.any isWsp = false ∧ ∀ c ∈ f.value, c ≠ 0 ∧ c ≠ 13) ∧
    smallHeaders.find? (fun h => h.key = contentTransferEncoding) =
      some ⟨contentTransferEncoding, bytes "base64"⟩ := by
  decide +kernel

theorem smallFields_wellFormed :
    ∀ f ∈ smallFields, f.WellFormed ∧ f.raw = f.value ∧ (f.sep = 9 ∨ f.sep = 32) := by
  have hplain : ∀ f ∈ smallFields, f = plainField f.name f.value := by
    intro f hf
    simp only [smallFields, List.mem_cons, List.not_mem_nil, or_false] at hf
    rcases hf with rfl | rfl | rfl <;> rfl
  intro f hf
  obtain ⟨hbytes, hhead, -, -, -, hvalue⟩ := smallHeaders_facts.2.2.2.2.2.1 f hf
  rw [hplain f hf]
  exact ⟨⟨⟨hbytes, hhead⟩, .self hvalue⟩, rfl, .inr rfl⟩

/-- The fields as the mail handler sees them. -/
theorem smallHeaders_plain : ∀ h ∈ smallHeaders,
    (0 : UInt8) ∉ h.value ∧ FoldsOnly h.value ∧ ¬EndsInBlank h.key := by
  intro h hh
  obtain ⟨f, hf, rfl⟩ := List.mem_map.mp hh
  obtain ⟨-, -, -, -, hkey, hvalue⟩ := smallHeaders_facts.2.2.2.2.2.1 f hf
  refine ⟨fun h0 => (hvalue 0 h0).1 rfl, fun front s hs => ?_, ?_⟩
  · have hvalue13 : (13 : UInt8) ∈ f.value := by
      change f.value = _ at hs
      rw [hs]
      simp
    exact absurd rfl (hvalue 13 hvalue13).2
  · rw [EndsInBlank, hkey]
    decide

/-! ### The signature -/

theorem smallBody_length : smallBody.length = 300 := by
  rw [smallBody, Base64.encode_length, smallBody_facts.1]

theorem smallBody_chars : ∀ c ∈ smallBody, c ≠ 0 ∧ c ≠ 10 ∧ c ≠ 13 := Base64.encode_no_break _

theorem filter_wrapped (x : Bytes) :
    (base64Wrap 0 (Base64.encode x)).filter (fun c => c ≠ 13 ∧ c ≠ 10) = Base64.encode x := by
  rw [base64Wrap_filter rfl rfl]
  refine List.filter_eq_self.mpr fun c hc => ?_
  have hbreak := Base64.encode_no_break _ c hc
  simpa using ⟨hbreak.2.2, hbreak.2.1⟩

theorem smallRead_signature :
    smallSsl.bioRead (base64Wrap 0 (Base64.encode smallSignature)) = smallSignature := by
  have hfilter := filter_wrapped smallSignature
  rw [smallBody_facts.2.2.2.2.2] at hfilter ⊢
  simp only [smallSsl, hfilter, if_true]

theorem smallDecoded : Dkim.base64Decode smallSsl smallBody = smallZip.render := by
  have hne : smallBody ≠ smallBText := by
    intro h
    have hlen := congrArg List.length h
    rw [smallBody_length] at hlen
    exact absurd hlen (by decide)
  have hread : smallSsl.bioRead (base64Wrap 0 smallBody) = smallZip.render := by
    have hfilter := filter_wrapped smallZip.render
    rw [← smallBody] at hfilter
    simp only [smallSsl, hfilter, if_neg hne, if_true]
  rw [smallBody] at hread ⊢
  exact HonestMail.base64Decode_encode hread

theorem smallHash_body : smallSsl.sha256 (relaxedBody smallBody) = smallBodyHash := by
  rw [smallBody_facts.2.2.1]
  simp only [smallSsl, if_true]

theorem smallVerifies :
    smallSsl.rsaVerify (smallSsl.sha256 smallSigned) smallSignature () = 1 := by
  have hne : smallSigned ≠ smallBody ++ [13, 10] := by
    intro h
    have hlen := congrArg List.length h
    rw [smallHeaders_facts.1, List.length_append, smallBody_length] at hlen
    exact absurd hlen (by decide)
  simp only [smallSsl, if_neg hne, and_self, if_true]

theorem smallFound : findSignature smallHeaders =
    some ⟨bytes "DKIM-Signature", listText (smallTags ++ [smallB]) false⟩ := by
  simp [findSignature, smallHeaders, smallFields, plainField, contentTransferEncoding,
    show bytes "From" ≠ bytes "DKIM-Signature" by decide,
    show bytes "Content-Transfer-Encoding" ≠ bytes "DKIM-Signature" by decide]

theorem smallGives_all : Gives smallTags .a (bytes "rsa-sha256") ∧
    Gives smallTags .c (bytes "relaxed/relaxed") ∧ Gives smallTags .s (bytes "k") ∧
    Gives smallTags .d (bytes "a.se") ∧ Gives smallTags .h (bytes "from") ∧
    Gives smallTags .bh smallBhText := by
  have hvalues := smallTags_facts.2.2.2.2.2.2
  refine ⟨?_, ?_, ?_, ?_, ?_, ?_⟩ <;> exact gives_of_mem (by rw [hvalues]; simp)

theorem smallGives_hash :
    Gives smallTags .bh (Base64.encode (smallSsl.sha256 (relaxedBody smallBody)).toList) := by
  rw [smallHash_body, smallBody_facts.2.2.2.2.1]
  exact smallGives_all.2.2.2.2.2

theorem smallGives_signature : withoutFolding smallB.value = Base64.encode smallSignature := by
  rw [smallBody_facts.2.2.2.2.2]
  exact smallTags_facts.2.2.2.2.2.1

def smallMail : HonestMail smallOutside.ssl () where
  headers := smallHeaders
  body := smallBody
  tags := smallTags
  b := smallB
  selector := bytes "k"
  domain := bytes "a.se"
  names := bytes "from"
  signature := smallSignature
  found := smallFound
  b_name := rfl
  once := smallTags_facts.2.2.1
  gives_algorithm := smallGives_all.1
  gives_canonicalization := smallGives_all.2.1
  gives_selector := smallGives_all.2.2.1
  gives_domain := smallGives_all.2.2.2.1
  gives_names := smallGives_all.2.2.2.2.1
  gives_bodyHash := smallGives_hash
  gives_signature := smallGives_signature
  signature_ne := List.cons_ne_nil _ _
  verifies := smallVerifies

theorem smallMail_reads : ReadsRight smallMail.allTags := by
  refine readsRight_of_known (fun k hk => ?_) smallTags_facts.2.1 smallTags_facts.2.2.2.1
  obtain ⟨t, -, ht⟩ := smallTags_facts.1 k hk
  exact ⟨t, ht⟩

theorem smallMail_names : NamesSound smallMail.headers smallMail.names := by
  intro j name read hname hread
  have hsplit := smallHeaders_facts.2.2.2.1
  have hnames := smallHeaders_facts.2.2.2.2.1
  cases j with
  | zero =>
    obtain rfl : bytes "from" = name := by simpa [smallMail, hsplit] using hname
    obtain rfl : bytes "from" = read := by simpa [smallMail, hnames] using hread
    refine .inl ⟨⟨by decide, by simp, 0, by decide, by decide +kernel, ?_⟩, rfl⟩
    decide +kernel
  | succ j => simp [smallMail, hsplit] at hname

theorem smallMail_room : (headerText smallMail.selected smallMail.value).length ≤
    1500 * (smallMail.selected.length + 1) := by
  have hselected : smallMail.selected = [⟨bytes "From", bytes "a@a.se"⟩] := smallHeaders_facts.2.1
  have hfrom := smallHeaders_plain ⟨bytes "From", bytes "a@a.se"⟩
    (by simp [smallHeaders, smallFields, plainField])
  have hsignature := smallHeaders_plain ⟨bytes "DKIM-Signature", smallMail.value⟩
    (List.mem_of_find?_eq_some smallFound)
  have hname : ¬EndsInBlank (bytes "dkim-signature") := by
    unfold EndsInBlank
    decide
  have hplain : ∀ h ∈ [⟨bytes "From", bytes "a@a.se"⟩, ⟨bytes "dkim-signature", smallMail.value⟩],
      (0 : UInt8) ∉ StringPair.value h ∧ FoldsOnly h.value ∧ ¬EndsInBlank h.key := by
    simpa using ⟨hfrom, hsignature.1, hsignature.2.1, hname⟩
  have hcanon := (relaxedHeaderCanon_eq_iff (fun h hh => (hplain h hh).1)
    fun h hh => (hplain h hh).2.1).mpr fun h hh => (hplain h hh).2.2
  rw [headerText, hselected, List.singleton_append, hcanon]
  exact smallHeaders_facts.2.2.1

theorem smallMail_understood : smallMail.Understood where
  short := smallTags_facts.2.2.2.2.1
  reads := smallMail_reads
  names := smallMail_names
  slots := by
    show (chosen smallHeaders (bytes "from")).length < incHeadersMax
    rw [smallHeaders_facts.2.1]
    decide
  room := smallMail_room
  headers_nul h hh := (smallHeaders_plain h hh).1
  headers_folds h hh := (smallHeaders_plain h hh).2.1
  headers_names h hh := (smallHeaders_plain h hh).2.2
  body_nul h := (smallBody_chars 0 h).1 rfl
  body_lines i hi := absurd rfl (smallBody_chars 13 (List.mem_of_getElem? hi)).2.2

/-! ### The report on its way -/

def smallReport : SentReport smallOutside where
  key := ()
  mail := smallMail
  record := payRecord
  strings := [recordText payRecord]
  fields := smallFields
  Deflated := StoredBlock
  zip := smallZip
  nodes := smallNodes
  fields_headers := rfl
  fields_wellFormed := smallFields_wellFormed
  published := rfl
  decoded := smallDecoded
  document := by simp only [smallOutside, smallZip, if_true]

/-- Memory that is clear. -/
def clearMemory : HandlerMemory := ⟨.zero, [], 0, []⟩

theorem smallBody_short : (smallBody ++ leftover).length < bodyMaxLen := by
  rw [List.length_append, smallBody_length]
  decide

theorem smallZip_delimited : ContentDelimited smallZip 0 [] := by
  have hno : smallZip.descriptor = false := smallBody_facts.2.2.2.1
  have hraw : smallZip.raw.length = 116 := by simp [smallZip, smallXml_length]
  have hcontent : smallZip.content.length = 111 := smallXml_length
  unfold ContentDelimited
  rw [hno]
  simp [hraw, hcontent]

/-- The key that is published is read, and the document becomes an object. -/
theorem smallReport_facts : (keyValue payRecord .k = bytes "rsa" ∧
      smallSsl.readPubkey (publicKeyPem (keyValue payRecord .p)) = some ()) ∧
    ReportQuoteFree smallNodes ∧ MetadataFirst smallNodes ∧ ReportContentsSet smallNodes ∧
    Fit 0 (reportPieces false smallNodes) := by
  decide +kernel

theorem smallReport_handled : smallReport.Handled clearMemory where
  fields_ne := List.cons_ne_nil _ _
  fields_length := by
    show 3 ≤ headerMaxLen
    decide
  fields_short f hf := by
    obtain ⟨-, -, hname, hvalue, -⟩ := smallHeaders_facts.2.2.2.2.2.1 f hf
    exact ⟨hname, hvalue⟩
  body_head := by
    obtain ⟨body, hbody⟩ := List.head?_eq_some_iff.mp smallBody_facts.2.1
    exact ⟨85, body, hbody, by decide, by decide⟩
  body_length := smallBody_short
  understood := smallMail_understood
  keyRecord := payRecord_keyRecord
  recovered := payRecord_recovered
  rsa := smallReport_facts.1.1
  keyRead := smallReport_facts.1.2
  encoding := smallHeaders_facts.2.2.2.2.2.2
  delimited := smallZip_delimited
  quoteFree := smallReport_facts.2.1
  metadataFirst := smallReport_facts.2.2.1
  contentsSet := smallReport_facts.2.2.2.1
  pieces := smallReport_facts.2.2.2.2

theorem smallReport_sound : smallOutside.Sound smallReport where
  encodes _ := rfl
  readsSignature := smallRead_signature
  inflates := storedZlib_correct
  contents := getsContent_documented

/-- The lines of the message. -/
def smallLines : List DotStuffing.Line :=
  smallFields.map (fun f => f.name ++ 58 :: f.sep :: f.raw) ++ [[], smallBody]

theorem smallLines_transmit :
    DotStuffing.transmit smallLines = renderMessage smallFields smallBody ++ endMark ∧
      (∀ l ∈ smallLines, ∀ c ∈ l, c ≠ 13) ∧
      (renderMessage smallFields smallBody ++ endMark).length ≤ 4046 := by
  decide +kernel

/-- The event that reads the message. -/
def smallEvent : Server.Event :=
  readEvent (renderMessage smallFields smallBody ++ endMark) (smallQueue 0)

theorem keepsDialogue_small : KeepsDialogue .default
    [(readEvent (bytes "EHLO me\r\n") (smallQueue 0), [bytes "EHLO me"])]
    (readEvent (bytes "DATA\r\n") (smallQueue 0), [bytes "DATA"])
    [(smallEvent, renderMessage smallFields smallBody ++ endMark)]
    (renderMessage smallFields smallBody) where
  commands := keepsDialogue_short.commands
  started := keepsDialogue_short.started
  reads := keepsDialogue_short.reads
  data := rfl
  once := by simp
  message := messageReads_one (List.append_ne_nil_of_right_ne_nil _ (by decide))
    smallLines_transmit.2.2
  ends := by
    have hline : ∀ l ∈ smallLines, DotStuffing.IsLine l := fun l hl hin =>
      smallLines_transmit.2.1 l hl 13 (hin.subset (by simp [DotStuffing.crlf])) rfl
    have hends := markEnds_transmit (show smallLines ≠ [] by simp [smallLines]) hline
    rwa [smallLines_transmit.1] at hends

/-- The small report is posted. -/
theorem report_reaches_service_small :
    ∃ w message json,
      Run (Step .default) .closed
        [readEvent (bytes "EHLO me\r\n") (smallQueue 0), readEvent (bytes "DATA\r\n") (smallQueue 0),
          smallEvent] w ∧
      w.added = [message] ∧ handleMail smallOutside clearMemory message = .posted json ∧
      ReportObject smallNodes json := by
  have hconn : World.closed.conn = connectionReset := rfl
  obtain ⟨w, message, json, hrun, hadded, hposted, hobject, -⟩ :=
    report_reaches_service smallReport smallReport_handled smallReport_sound .default hconn
      keepsDialogue_small
  exact ⟨w, message, json, hrun, by simpa [World.closed] using hadded, hposted, hobject⟩

end Examples

end ComfirmDmarc
