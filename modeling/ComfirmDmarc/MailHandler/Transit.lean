import ComfirmDmarc.Dkim.WhitespaceEdits
import ComfirmDmarc.MailHandler.HonestMail

/-!
# MailHandler -- mails that change on the way

Between the signer and this server a mail passes relays. They fold headers anew
and write their names in another case, they put trace headers to them, and they
change the white space of the body. `validate_dkim` decides the same about a
mail before and after any number of such changes.
-/

namespace ComfirmDmarc.MailHandler

open CMemory Dkim

/-! ## The changes -/

/-- What `validate_dkim` reads of a mail. -/
structure Letter where
  headers : List StringPair
  body : Bytes

def letter (message : Mail) : Letter := ⟨mailHeaders message, message.bodyStr⟩

/-- **One change on the way**, for a signature that asks for `names`. It leaves
the signature header alone. -/
inductive Relayed (names : List Bytes) : Letter → Letter → Prop
  | value (front back : List StringPair) (key body : Bytes) {v v' : Bytes} :
      key ≠ bytes "DKIM-Signature" → ValueEdit v v' →
      Relayed names ⟨front ++ ⟨key, v⟩ :: back, body⟩ ⟨front ++ ⟨key, v'⟩ :: back, body⟩
  | name (front back : List StringPair) (v body : Bytes) {key key' : Bytes} :
      key ≠ bytes "DKIM-Signature" → key' ≠ bytes "DKIM-Signature" →
      key.map tolower = key'.map tolower →
      Relayed names ⟨front ++ ⟨key, v⟩ :: back, body⟩ ⟨front ++ ⟨key', v⟩ :: back, body⟩
  | trace (front back : List StringPair) (h : StringPair) (body : Bytes) :
      h.key ≠ bytes "DKIM-Signature" → (0 : UInt8) ∉ h.value →
      (∀ name ∈ names, startsWith (h.key.map tolower) name = false) →
      Relayed names ⟨front ++ back, body⟩ ⟨front ++ h :: back, body⟩
  | body (headers : List StringPair) {b b' : Bytes} : BodyEdit b b' →
      Relayed names ⟨headers, b⟩ ⟨headers, b'⟩

/-- No NUL in the texts. -/
structure Letter.Clean (l : Letter) : Prop where
  values : ∀ h ∈ l.headers, (0 : UInt8) ∉ h.value
  body : (0 : UInt8) ∉ l.body

theorem letter_clean (message : Mail) : (letter message).Clean where
  values h hh := by
    obtain ⟨hdr, -, rfl⟩ := List.mem_map.mp hh
    exact not_mem_str _
  body := not_mem_str _

theorem clean_append_cons {front back : List StringPair} {h : StringPair} {body : Bytes} :
    Letter.Clean ⟨front ++ h :: back, body⟩ ↔
      Letter.Clean ⟨front ++ back, body⟩ ∧ (0 : UInt8) ∉ h.value := by
  constructor
  · intro hc
    have hvalues := hc.values
    simp only [List.forall_mem_append, List.forall_mem_cons] at hvalues
    exact ⟨⟨List.forall_mem_append.mpr ⟨hvalues.1, hvalues.2.2⟩, hc.body⟩, hvalues.2.1⟩
  · intro hc
    have hvalues := List.forall_mem_append.mp hc.1.values
    exact ⟨List.forall_mem_append.mpr ⟨hvalues.1, List.forall_mem_cons.mpr ⟨hc.2, hvalues.2⟩⟩,
      hc.1.body⟩

/-! ## What the verifier makes of a mail -/

/-- The header in its canonical form. -/
def canonical (h : StringPair) : StringPair := ⟨h.key.map tolower, relaxedValue h.value⟩

/-- **Two mails that the verifier cannot tell apart.** -/
structure SameLetter (names : List Bytes) (l l' : Letter) : Prop where
  signature : findSignature l.headers = findSignature l'.headers
  included : ∀ name ∈ names,
    (l.headers.filter fun h => startsWith (h.key.map tolower) name).map canonical =
      (l'.headers.filter fun h => startsWith (h.key.map tolower) name).map canonical
  body : relaxedBodyCanon l.body = relaxedBodyCanon l'.body

theorem SameLetter.symm {names : List Bytes} {l l' : Letter} (h : SameLetter names l l') :
    SameLetter names l' l :=
  ⟨h.signature.symm, fun name hname => (h.included name hname).symm, h.body.symm⟩

theorem SameLetter.trans {names : List Bytes} {l l' l'' : Letter} (h : SameLetter names l l')
    (h' : SameLetter names l' l'') : SameLetter names l l'' :=
  ⟨h.signature.trans h'.signature,
    fun name hname => (h.included name hname).trans (h'.included name hname), h.body.trans h'.body⟩

theorem findSignature_append_cons {h : StringPair} (hkey : h.key ≠ bytes "DKIM-Signature")
    (front back : List StringPair) :
    findSignature (front ++ h :: back) = findSignature (front ++ back) := by
  rw [findSignature, findSignature, List.find?_append, List.find?_append,
    List.find?_cons_of_neg (by simpa using hkey)]

/-- Two headers that come out alike, between the same headers. -/
theorem sameLetter_header {names : List Bytes} {h h' : StringPair} (front back : List StringPair)
    (body : Bytes) (hkey : h.key ≠ bytes "DKIM-Signature") (hkey' : h'.key ≠ bytes "DKIM-Signature")
    (hname : h.key.map tolower = h'.key.map tolower)
    (hvalue : relaxedValue h.value = relaxedValue h'.value) :
    SameLetter names ⟨front ++ h :: back, body⟩ ⟨front ++ h' :: back, body⟩ where
  signature := by
    simp only [findSignature_append_cons hkey, findSignature_append_cons hkey']
  included name _ := by
    have hcanonical : canonical h = canonical h' := by rw [canonical, canonical, hname, hvalue]
    simp only [List.filter_append, List.filter_cons, hname]
    by_cases hasked : startsWith (h'.key.map tolower) name = true
    · simp only [if_pos hasked, List.map_append, List.map_cons, hcanonical]
    · simp only [if_neg hasked]
  body := rfl

/-- **One change is not noticed.** -/
theorem Relayed.keeps {names : List Bytes} {l l' : Letter} (h : Relayed names l l') :
    (l.Clean ↔ l'.Clean) ∧ (l.Clean → SameLetter names l l') := by
  cases h with
  | @value front back key body v v' hkey hedit =>
    refine ⟨by rw [clean_append_cons, clean_append_cons, hedit.nul_iff], fun hc => ?_⟩
    exact sameLetter_header front back body hkey hkey rfl
      (hedit.relaxedValue_eq (clean_append_cons.mp hc).2)
  | name front back v body hkey hkey' hname =>
    exact ⟨by rw [clean_append_cons, clean_append_cons],
      fun _ => sameLetter_header front back body hkey hkey' hname rfl⟩
  | trace front back h body hkey hvalue hasked =>
    refine ⟨by rw [clean_append_cons, and_iff_left hvalue], fun _ => ⟨?_, ?_, rfl⟩⟩
    · exact (findSignature_append_cons hkey front back).symm
    · intro name hname
      simp only [List.filter_append, List.filter_cons, hasked name hname, Bool.false_eq_true,
        if_false]
  | body headers hedit =>
    have hnul := hedit.nul_iff
    refine ⟨⟨fun hc => ⟨hc.values, fun h0 => hc.body (hnul.mpr h0)⟩,
      fun hc => ⟨hc.values, fun h0 => hc.body (hnul.mp h0)⟩⟩, fun hc => ?_⟩
    exact ⟨rfl, fun _ _ => rfl, hedit.relaxedBodyCanon_eq hc.body⟩

/-- Nor are any number of changes, made or undone. -/
theorem sameLetter_of_relayed {names : List Bytes} {l l' : Letter}
    (h : Relation.EqvGen (Relayed names) l l') :
    (l.Clean ↔ l'.Clean) ∧ (l.Clean → SameLetter names l l') := by
  induction h with
  | rel l l' h => exact h.keeps
  | refl l => exact ⟨Iff.rfl, fun _ => ⟨rfl, fun _ _ => rfl, rfl⟩⟩
  | symm l l' _ ih => exact ⟨ih.1.symm, fun hc => (ih.2 (ih.1.mpr hc)).symm⟩
  | trans l l' l'' _ _ ih ih' =>
    exact ⟨ih.1.trans ih'.1, fun hc => (ih.2 hc).trans (ih'.2 (ih.1.mp hc))⟩

/-! ## The decision -/

/-- The names that the verifier reads in `h=`. -/
def askedNames (block : HeaderBlock) (headers : List StringPair) : List Bytes :=
  match findSignature headers with
  | none => []
  | some sig => headerNames [] ((block.parse sig.value).text .h)

theorem SameLetter.relaxedHeaderCanon_eq {l l' : Letter} {h : Bytes}
    (hsame : SameLetter (headerNames [] h) l l') :
    relaxedHeaderCanon (includeHeaders l.headers h) =
      relaxedHeaderCanon (includeHeaders l'.headers h) := by
  have hmap : ∀ hs, relaxedHeaderCanon (includeHeaders hs h) =
      (headerNames [] h).flatMap fun name =>
        (hs.filter fun g => startsWith (g.key.map tolower) name).map canonical := by
    intro hs
    rw [relaxedHeaderCanon, includeHeaders, List.map_flatMap]
    rfl
  rw [hmap, hmap]
  exact List.flatMap_congr hsame.included

theorem SameLetter.dkimValidate_eq {Key : Type} (ssl : OpenSsl Key) (mem : Bytes) {l l' : Letter}
    {dh : Tag → Bytes} (hsame : SameLetter (headerNames [] (dh .h)) l l') (publicKey : Bytes) :
    dkimValidate ssl mem l.headers l.body dh publicKey =
      dkimValidate ssl mem l'.headers l'.body dh publicKey := by
  have hcanon := hsame.relaxedHeaderCanon_eq
  have hlen : (includeHeaders l.headers (dh .h)).length =
      (includeHeaders l'.headers (dh .h)).length := by
    simpa [relaxedHeaderCanon] using congrArg List.length hcanon
  have hsigned : ∀ sig, signedHeaders l.headers (dh .h) sig = signedHeaders l'.headers (dh .h) sig := by
    intro sig
    rw [relaxedHeaderCanon, relaxedHeaderCanon] at hcanon
    rw [signedHeaders, signedHeaders, relaxedHeaderCanon, relaxedHeaderCanon, List.map_append,
      List.map_append, hcanon]
  have hbody : dkimValidateBodyHash ssl dh l.body = dkimValidateBodyHash ssl dh l'.body := by
    rw [dkimValidateBodyHash, dkimValidateBodyHash, bodyDigest, bodyDigest, hsame.body]
  simp only [dkimValidate, hlen, hbody, hsame.signature, hsigned]

/-- **What relays do to a mail does not change the decision**, whatever the DNS,
the libraries and the memory hold. -/
theorem verdict_in_transit {Key : Type} (ssl : OpenSsl Key) (dns : Bytes → DnsAnswer)
    (blocks : Blocks) {message message' : Mail} (hcount : message.headerCount ≤ headerMaxLen)
    (hcount' : message'.headerCount ≤ headerMaxLen)
    (h : Relation.EqvGen (Relayed (askedNames blocks.header (mailHeaders message)))
      (letter message) (letter message')) :
    validateDkim ssl dns blocks message = validateDkim ssl dns blocks message' := by
  have hsame := (sameLetter_of_relayed h).2 (letter_clean message)
  have hsignature : findSignature (mailHeaders message) = findSignature (mailHeaders message') :=
    hsame.signature
  rw [validateDkim, validateDkim, if_neg (Nat.not_lt.mpr hcount), if_neg (Nat.not_lt.mpr hcount')]
  simp only [dkimGetHeader, ← hsignature]
  cases hfound : findSignature (mailHeaders message) with
  | none => rfl
  | some sig =>
    have hasked : askedNames blocks.header (mailHeaders message) =
        headerNames [] ((blocks.header.parse sig.value).text .h) := by
      rw [askedNames, hfound]
    rw [hasked] at hsame
    have hvalidate : ∀ publicKey,
        dkimValidate ssl blocks.strMem (mailHeaders message) message.bodyStr
            (blocks.header.parse sig.value).text publicKey =
          dkimValidate ssl blocks.strMem (mailHeaders message') message'.bodyStr
            (blocks.header.parse sig.value).text publicKey :=
      hsame.dkimValidate_eq ssl blocks.strMem
    change validateSignature ssl dns blocks (mailHeaders message) message.bodyStr
        (blocks.header.parse sig.value).text =
      validateSignature ssl dns blocks (mailHeaders message') message'.bodyStr
        (blocks.header.parse sig.value).text
    simp only [validateSignature, hvalidate]

section Examples

/-- The signature header of the mail `pay 10`. -/
def paySignatureHeader : StringPair :=
  ⟨bytes "DKIM-Signature", demoTags ++ Base64.encode demoSignature⟩

/-- The headers of the mail `pay 10` behind a relay. -/
def relayedHeaders : List StringPair :=
  [⟨bytes "Received", bytes "by b.se"⟩, ⟨bytes "FROM", bytes " a@a.se"⟩, paySignatureHeader]

theorem relayedHeaders_fit : ∀ h ∈ relayedHeaders, h.Fits := by
  intro h hh
  rcases List.mem_cons.mp hh with rfl | hh
  · exact ⟨by decide, by decide, by decide +kernel, by decide +kernel⟩
  · rcases List.mem_cons.mp hh with rfl | hh
    · exact ⟨by decide, by decide, by decide +kernel, by decide +kernel⟩
    · exact payHeaders_fit h (List.mem_cons_of_mem _ hh)

/-- The signature asks for `from`. -/
theorem payAsked : askedNames Blocks.zero.header payHeaders = [bytes "from"] := by
  have hread : (Blocks.zero.header.parse payMail.value).text .h = bytes "from" :=
    (parse_of_gives payMail_understood.short payMail_reads
      (payMail.gives_all payGives.2.2.2.2.1) Blocks.zero.header).1
  have hvalue : listText (payTags ++ [payB]) false = payMail.value := rfl
  rw [askedNames, payFound, hvalue]
  change headerNames [] ((Blocks.zero.header.parse payMail.value).text .h) = _
  rw [hread]
  decide +kernel

theorem pay_relayed : Relation.EqvGen (Relayed [bytes "from"])
    ⟨payHeaders, bytes "pay 10\r\n"⟩ ⟨relayedHeaders, bytes "pay  10 \r\n\r\n"⟩ := by
  have hblank : Blanks [32] := ⟨by simp, by simp [isWsp]⟩
  have htrace : Relayed [bytes "from"] ⟨payHeaders, bytes "pay 10\r\n"⟩
      ⟨⟨bytes "Received", bytes "by b.se"⟩ :: payHeaders, bytes "pay 10\r\n"⟩ :=
    .trace [] payHeaders _ _ (by decide +kernel) (by decide +kernel) (by decide +kernel)
  have hname : Relayed [bytes "from"]
      ⟨⟨bytes "Received", bytes "by b.se"⟩ :: payHeaders, bytes "pay 10\r\n"⟩
      ⟨[⟨bytes "Received", bytes "by b.se"⟩, ⟨bytes "FROM", bytes "a@a.se"⟩, paySignatureHeader],
        bytes "pay 10\r\n"⟩ :=
    .name [⟨bytes "Received", bytes "by b.se"⟩] [paySignatureHeader] _ _ (by decide +kernel)
      (by decide +kernel)
      (by decide +kernel)
  have hvalue : Relayed [bytes "from"]
      ⟨[⟨bytes "Received", bytes "by b.se"⟩, ⟨bytes "FROM", bytes "a@a.se"⟩, paySignatureHeader],
        bytes "pay 10\r\n"⟩ ⟨relayedHeaders, bytes "pay 10\r\n"⟩ :=
    .value [⟨bytes "Received", bytes "by b.se"⟩] [paySignatureHeader] _ _ (by decide +kernel)
      (.lead _ (.blank rfl))
  have hblanks : Relayed [bytes "from"] ⟨relayedHeaders, bytes "pay 10\r\n"⟩
      ⟨relayedHeaders, bytes "pay  10\r\n"⟩ :=
    .body _ (.blanks (bytes "pay") (bytes "10\r\n") hblank
      (⟨by simp, by simp [isWsp]⟩ : Blanks [32, 32]))
  have hend : Relayed [bytes "from"] ⟨relayedHeaders, bytes "pay  10\r\n"⟩
      ⟨relayedHeaders, bytes "pay  10 \r\n"⟩ := .body _ (.lineEnd (bytes "pay  10") [] hblank)
  have hempty : Relayed [bytes "from"] ⟨relayedHeaders, bytes "pay  10 \r\n"⟩
      ⟨relayedHeaders, bytes "pay  10 \r\n\r\n"⟩ := .body _ (.emptyLine (bytes "pay  10 \r\n"))
  exact .trans _ _ _ (.rel _ _ htrace) (.trans _ _ _ (.rel _ _ hname) (.trans _ _ _ (.rel _ _ hvalue)
    (.trans _ _ _ (.rel _ _ hblanks) (.trans _ _ _ (.rel _ _ hend) (.rel _ _ hempty)))))

theorem verdict_in_transit_pay :
    validateDkim paySsl payDns .zero (mailOf payHeaders (bytes "pay 10\r\n")) =
      validateDkim paySsl payDns .zero (mailOf relayedHeaders (bytes "pay  10 \r\n\r\n")) := by
  have hheaders := mailHeaders_mailOf (by decide) payHeaders_fit (bytes "pay 10\r\n")
  have hbody : (mailOf payHeaders (bytes "pay 10\r\n")).bodyStr = bytes "pay 10\r\n" :=
    bodyStr_mailOf payHeaders (by decide) (by decide)
  have hheaders' := mailHeaders_mailOf (by decide) relayedHeaders_fit (bytes "pay  10 \r\n\r\n")
  have hbody' : (mailOf relayedHeaders (bytes "pay  10 \r\n\r\n")).bodyStr =
      bytes "pay  10 \r\n\r\n" := bodyStr_mailOf relayedHeaders (by decide) (by decide)
  refine verdict_in_transit paySsl payDns .zero (by decide) (by decide) ?_
  rw [letter, letter, hheaders, hbody, hheaders', hbody', payAsked]
  exact pay_relayed

end Examples

end ComfirmDmarc.MailHandler
