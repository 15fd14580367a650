import ComfirmDmarc.MailHandler.Loop

/-!
# MailHandler -- one iteration of the loop

What `main` does with one mail, call by call and block by block, in the order
of the source. The checks between the stages report what they find; one of
them reports and goes on to the next stage all the same, and the comparison of
the encoding is made before anything is checked.
-/

namespace ComfirmDmarc.MailHandler

open CMemory Transition Queue

/-! ## What an iteration does -/

/-- The blocks of an iteration; `text k` is the `k`-th block of `json->str`. -/
inductive Block
  | message
  | zipdata
  | xml
  | json
  | text (k : Nat)
  deriving DecidableEq

/-- The errors that are printed. -/
inductive Report
  | incorrectSignature
  | unsupportedEncoding
  | tooSmall
  /-- printed by `unzip`, which then returns `NULL` -/
  | unsupportedZip
  | notConverted
  | performFailed
  deriving DecidableEq

inductive Event
  | malloc (b : Block)
  | access (b : Block)
  | free (b : Block)
  /-- `curl_easy_setopt` or `curl_easy_perform` -/
  | curl
  /-- `curl_easy_cleanup` -/
  | cleanup
  /-- the `strcmp` of an encoding with `base64`; `none` is `NULL` -/
  | compare (encoding : Option Bytes)
  | unzip (zipdata : Bytes) (len : Int)
  | parseXml (xml : Option Bytes)
  | postData (json : Option Bytes)
  | report (r : Report)

/-- A part of an iteration, and whether the process is still there behind it. -/
structure Part where
  events : List Event
  alive : Bool

def Part.does (events : List Event) : Part := ⟨events, true⟩

def Part.dies (events : List Event) : Part := ⟨events, false⟩

def Part.andThen (p q : Part) : Part :=
  if p.alive then ⟨p.events ++ q.events, q.alive⟩ else p

/-- How `curl_easy_perform` ends. -/
inductive Posted
  | ok
  | failed
  | crashed
  deriving DecidableEq

section Model

variable (c : Callees) (growths : Bytes → Nat)

/-- `post_data`, with `json->str` in the block `text k`. -/
def postData (posted : Posted) (json : Bytes) (k : Nat) : Part :=
  let sent := [.postData (some json), .curl, .access .json, .curl, .curl, .access (.text k)]
  match posted with
  | .ok => .does (sent ++ [.cleanup])
  | .failed => .does (sent ++ [.report .performFailed, .cleanup])
  | .crashed => .dies sent

/-- The blocks of `json->str` while `parse_xml` appends to it: each is copied
into the next one and freed. -/
def growText : Nat → List Event
  | 0 => [.access .json, .malloc (.text 0), .access (.text 0)]
  | k + 1 => growText k ++
      [.access .json, .malloc (.text (k + 1)), .access (.text k), .free (.text k),
        .access (.text (k + 1))]

/-- From `string_buffer_init` to `string_buffer_free`. -/
def convert (posted : Posted) (xml : Bytes) : Part :=
  let start : Part := .does [.malloc .json, .parseXml (some xml), .access .xml]
  match c.parseXml xml with
  | .crash => start.andThen (.dies [])
  | .null => start.andThen (.does [.access .json, .report .notConverted, .access .json, .free .json])
  | .got json =>
    ((start.andThen (.does (growText (growths xml) ++ [.access .json]))).andThen
      (postData posted json (growths xml))).andThen
        (.does [.access .json, .free (.text (growths xml)), .free .json])

/-- From the check of the length on. -/
def extract (posted : Posted) (zipdata : Bytes) (len : Int) : Part :=
  let start : Part := .does
    ((if len < 35 then [.report .tooSmall] else []) ++ [.unzip zipdata len, .access .zipdata])
  match c.unzip zipdata len with
  | .crash => start.andThen (.dies [])
  -- `free (xml)` does nothing
  | .null => start.andThen (.does [.report .unsupportedZip, .free .zipdata])
  | .got xml =>
    ((start.andThen (.does [.malloc .xml, .access .xml])).andThen
      (convert c growths posted xml)).andThen (.does [.free .xml, .free .zipdata])

/-- The value of the first `Content-Transfer-Encoding` header. -/
def contentEncoding (message : Mail) : Option Bytes :=
  ((message.headers.toList.take message.headerCount).find?
    fun h => h.keyStr = bytes "Content-Transfer-Encoding").map Hdr.valueStr

/-- From `decode_content` on. -/
def decode (posted : Posted) (message : Mail) : Part :=
  let compared : Part := .does [.access .message, .compare (contentEncoding message)]
  match contentEncoding message with
  | none => compared.andThen (.dies [])
  | some encoding =>
    if encoding = bytes "base64" then
      (compared.andThen (.does [.access .message, .malloc .zipdata, .access .zipdata])).andThen
        (extract c growths posted (c.base64Decode message.bodyStr).1
          (c.base64Decode message.bodyStr).2)
    else compared.andThen (.does [.report .unsupportedEncoding])

/-- The body of the loop; `none` when the queue is empty and it waits. -/
def iteration (posted : Posted) : Option Mail → Part
  | none => .does [.malloc .message, .free .message]
  | some message =>
    let dequeued : Part := .does [.malloc .message, .access .message, .access .message]
    (dequeued.andThen
      (if c.validateDkim message = 0 then .does [.report .incorrectSignature]
       else decode c growths posted message)).andThen (.does [.free .message])

/-- An iteration with what it found in the queue. -/
structure Turn where
  found : Option Mail
  part : Part

/-- The iterations of a run, up to one in which the process dies. -/
def turns : List (Option Mail × Posted) → List Turn
  | [] => []
  | (found, posted) :: rest =>
    let part := iteration c growths posted found
    ⟨found, part⟩ :: if part.alive then turns rest else []

end Model

@[simp] theorem Part.does_alive (es : List Event) : (Part.does es).alive = true := rfl

@[simp] theorem Part.does_events (es : List Event) : (Part.does es).events = es := rfl

@[simp] theorem Part.dies_alive (es : List Event) : (Part.dies es).alive = false := rfl

@[simp] theorem Part.dies_events (es : List Event) : (Part.dies es).events = es := rfl

@[simp] theorem Part.andThen_alive (p q : Part) : (p.andThen q).alive = (p.alive && q.alive) := by
  rw [Part.andThen]
  cases hp : p.alive with
  | true => rfl
  | false => exact hp

@[simp] theorem Part.mem_andThen {e : Event} {p q : Part} :
    e ∈ (p.andThen q).events ↔ e ∈ p.events ∨ (p.alive = true ∧ e ∈ q.events) := by
  rw [Part.andThen]
  cases p.alive with
  | true => simp
  | false => simp

/-! ## The iteration and the loop -/

theorem decodeContent_encoding (base64Decode : Bytes → Bytes × Int) (m : Mail) :
    decodeContent base64Decode m =
      match contentEncoding m with
      | none => .crash
      | some e => if e = bytes "base64" then .got (base64Decode m.bodyStr) else .null := by
  rw [decodeContent, contentEncoding]
  cases (m.headers.toList.take m.headerCount).find?
      fun h => h.keyStr = bytes "Content-Transfer-Encoding" with
  | none => rfl
  | some h => rfl

/-- **An iteration that the process survives is a run of the loop** from the
mail that was taken to the next one. -/
theorem iteration_run {c : Callees} {growths : Bytes → Nat} {posted : Posted} {m : Mail}
    (h : (iteration c growths posted (some m)).alive = true) (q : QueueFile Mail) :
    ∃ ls, Run (Step c) ⟨q, .dequeued m⟩ ls ⟨q, .top⟩ := by
  by_cases hvalid : c.validateDkim m = 0
  · exact ⟨_, .single (.invalid hvalid)⟩
  have hdecoded := decodeContent_encoding c.base64Decode m
  simp only [iteration, if_neg hvalid, Part.andThen_alive, Part.does_alive, Bool.true_and,
    Bool.and_true, decode] at h
  cases hencoding : contentEncoding m with
  | none => simp [hencoding] at h
  | some e =>
    simp only [hencoding] at h hdecoded
    by_cases hbase : e = bytes "base64"
    · simp only [if_pos hbase] at h hdecoded
      simp only [Part.andThen_alive, Part.does_alive, Bool.true_and, extract] at h
      cases hzip : c.unzip (c.base64Decode m.bodyStr).1 (c.base64Decode m.bodyStr).2 with
      | crash => simp [hzip] at h
      | null =>
        exact ⟨_, .cons (.valid hvalid) (.cons (.decode hdecoded) (.single (.unzippable hzip)))⟩
      | got xml =>
        have hrun : ∀ {ls : List Label}, Run (Step c) ⟨q, .unzipped m xml⟩ ls ⟨q, .top⟩ →
            ∃ ls, Run (Step c) ⟨q, .dequeued m⟩ ls ⟨q, .top⟩ := fun hrest =>
          ⟨_, .cons (.valid hvalid) (.cons (.decode hdecoded) (.cons (.unzip hzip) hrest))⟩
        simp only [hzip, Part.andThen_alive, Part.does_alive, Bool.true_and, Bool.and_true,
          convert] at h
        cases hxml : c.parseXml xml with
        | crash => simp [hxml] at h
        | null => exact hrun (.single (.unparsable hxml))
        | got json => exact hrun (.cons (.parse hxml) (.single (.perform (posted = .ok))))
    · simp only [if_neg hbase] at hdecoded
      exact ⟨_, .cons (.valid hvalid) (.single (.undecodable hdecoded))⟩

/-! ## Error branches -/

/-- A stage gets what it can take: an encoding, 35 bytes or more, a text. -/
def Event.Sound : Event → Prop
  | .compare encoding => encoding ≠ none
  | .unzip _ len => 35 ≤ len
  | .parseXml xml => xml ≠ none
  | .postData json => json ≠ none
  | _ => True

def Part.reports (p : Part) : Prop := ∃ r, .report r ∈ p.events

/-- **Every stage is called with what it can take**, a mail without an encoding
is reported, and an error that is reported does not end the process. -/
structure Turn.Sound (c : Callees) (t : Turn) : Prop where
  calls : ∀ e ∈ t.part.events, e.Sound
  unsupported : ∀ m ∈ t.found, c.validateDkim m ≠ 0 → contentEncoding m = none →
    .report .unsupportedEncoding ∈ t.part.events
  survives : t.part.reports → t.part.alive = true

/-- **Malformed mails end in an error branch**, and the loop goes on with the
next mail. -/
structure ErrorBranches (c : Callees) (growths : Bytes → Nat) (mails : List (Option Mail × Posted)) :
    Prop where
  sound : ∀ t ∈ turns c growths mails, t.Sound c
  goesOn : ∀ i t, (turns c growths mails)[i]? = some t → t.part.reports →
    ((turns c growths mails)[i + 1]?).map Turn.found = (mails[i + 1]?).map Prod.fst

/-- A mail that `decode_content` and the check of the length are up to. -/
def Decodable (c : Callees) (m : Mail) : Prop :=
  c.validateDkim m ≠ 0 → ∃ e, contentEncoding m = some e ∧
    (e = bytes "base64" → 35 ≤ (c.base64Decode m.bodyStr).2)

/-- A part of an iteration that keeps to the rules. -/
structure Part.Sound (p : Part) : Prop where
  calls : ∀ e ∈ p.events, e.Sound
  survives : p.reports → p.alive = true

theorem Part.Sound.does {es : List Event} (h : ∀ e ∈ es, e.Sound) : (Part.does es).Sound :=
  ⟨h, fun _ => rfl⟩

theorem Part.Sound.dies {es : List Event} (h : ∀ e ∈ es, e.Sound) (hquiet : ∀ r, .report r ∉ es) :
    (Part.dies es).Sound :=
  ⟨h, fun ⟨r, hr⟩ => absurd hr (hquiet r)⟩

/-- One part and then the next, which may only end the process when nothing
was reported. -/
theorem Part.Sound.andThen {p q : Part} (hp : p.Sound) (hq : q.Sound)
    (h : q.alive = true ∨ ∀ r, .report r ∉ p.events) : (p.andThen q).Sound where
  calls := by
    intro e he
    rcases Part.mem_andThen.mp he with he | ⟨-, he⟩
    · exact hp.calls e he
    · exact hq.calls e he
  survives := by
    rintro ⟨r, hr⟩
    rw [Part.andThen_alive, Bool.and_eq_true]
    rcases Part.mem_andThen.mp hr with hr | ⟨halive, hr⟩
    · refine ⟨hp.survives ⟨r, hr⟩, ?_⟩
      exact h.resolve_right fun hquiet => hquiet r hr
    · exact ⟨halive, hq.survives ⟨r, hr⟩⟩

/-- Copying a text touches blocks only. -/
theorem mem_growText {e : Event} {k : Nat} (h : e ∈ growText k) :
    ∃ b, e = .malloc b ∨ e = .access b ∨ e = .free b := by
  induction k with
  | zero =>
    simp only [growText, List.mem_cons, List.not_mem_nil, or_false] at h
    rcases h with rfl | rfl | rfl
    · exact ⟨.json, .inr (.inl rfl)⟩
    · exact ⟨.text 0, .inl rfl⟩
    · exact ⟨.text 0, .inr (.inl rfl)⟩
  | succ k ih =>
    rw [growText, List.mem_append] at h
    rcases h with h | h
    · exact ih h
    · simp only [List.mem_cons, List.not_mem_nil, or_false] at h
      rcases h with rfl | rfl | rfl | rfl | rfl
      · exact ⟨.json, .inr (.inl rfl)⟩
      · exact ⟨.text (k + 1), .inl rfl⟩
      · exact ⟨.text k, .inr (.inl rfl)⟩
      · exact ⟨.text k, .inr (.inr rfl)⟩
      · exact ⟨.text (k + 1), .inr (.inl rfl)⟩

theorem postData_sound (posted : Posted) (json : Bytes) (k : Nat) :
    (postData posted json k).Sound := by
  cases posted with
  | ok => exact .does (by simp [Event.Sound])
  | failed => exact .does (by simp [Event.Sound])
  | crashed => exact .dies (by simp [Event.Sound]) (by simp)

theorem convert_sound (c : Callees) (growths : Bytes → Nat) (posted : Posted) (xml : Bytes) :
    (convert c growths posted xml).Sound := by
  have hstart : (Part.does [.malloc .json, .parseXml (some xml), .access .xml]).Sound :=
    .does (by simp [Event.Sound])
  simp only [convert]
  cases c.parseXml xml with
  | crash => exact hstart.andThen (.dies (by simp) (by simp)) (.inr (by simp))
  | null => exact hstart.andThen (.does (by simp [Event.Sound])) (.inl rfl)
  | got json =>
    have hblocks : ∀ e ∈ growText (growths xml) ++ [.access .json], e.Sound := by
      intro e he
      rcases List.mem_append.mp he with he | he
      · obtain ⟨b, rfl | rfl | rfl⟩ := mem_growText he
        all_goals trivial
      · rw [List.mem_singleton.mp he]
        trivial
    have hquiet : ∀ r, .report r ∉ growText (growths xml) := by
      intro r hr
      obtain ⟨b, h | h | h⟩ := mem_growText hr
      all_goals cases h
    refine ((hstart.andThen (.does hblocks) (.inl rfl)).andThen (postData_sound _ _ _) (.inr ?_)).andThen
      (.does (by simp [Event.Sound])) (.inl rfl)
    intro r hr
    simp [hquiet r] at hr

theorem extract_sound (c : Callees) (growths : Bytes → Nat) (posted : Posted) (zipdata : Bytes)
    {len : Int} (h : 35 ≤ len) : (extract c growths posted zipdata len).Sound := by
  have hstart : (Part.does
      ((if len < 35 then [.report .tooSmall] else []) ++ [.unzip zipdata len, .access .zipdata])).Sound := by
    rw [if_neg (by omega)]
    exact .does (by simp [Event.Sound, h])
  have hquiet : ∀ r, Event.report r ∉
      (if len < 35 then [.report .tooSmall] else []) ++ [.unzip zipdata len, .access .zipdata] := by
    rw [if_neg (by omega)]
    simp
  simp only [extract]
  cases c.unzip zipdata len with
  | crash => exact hstart.andThen (.dies (by simp) (by simp)) (.inr hquiet)
  | null => exact hstart.andThen (.does (by simp [Event.Sound])) (.inl rfl)
  | got xml =>
    refine ((hstart.andThen (.does (by simp [Event.Sound])) (.inl rfl)).andThen
      (convert_sound c growths posted xml) (.inr ?_)).andThen (.does (by simp [Event.Sound])) (.inl rfl)
    intro r hr
    rcases Part.mem_andThen.mp hr with hr | ⟨-, hr⟩
    · exact hquiet r hr
    · simp at hr

/-- **An iteration keeps to the rules** on a mail that can be decoded. -/
theorem iteration_sound {c : Callees} {m : Mail} (h : Decodable c m) (growths : Bytes → Nat)
    (posted : Posted) : (iteration c growths posted (some m)).Sound := by
  have hdequeued : (Part.does [.malloc .message, .access .message, .access .message]).Sound :=
    .does (by simp [Event.Sound])
  have hfree : (Part.does [.free .message]).Sound := .does (by simp [Event.Sound])
  simp only [iteration]
  refine (hdequeued.andThen ?_ (.inr (by simp))).andThen hfree (.inl rfl)
  by_cases hvalid : c.validateDkim m = 0
  · rw [if_pos hvalid]
    exact .does (by simp [Event.Sound])
  · rw [if_neg hvalid]
    obtain ⟨e, hencoding, hlen⟩ := h hvalid
    have hcompared : (Part.does [.access .message, .compare (some e)]).Sound :=
      .does (by simp [Event.Sound])
    simp only [decode, hencoding]
    by_cases hbase : e = bytes "base64"
    · rw [if_pos hbase]
      exact (hcompared.andThen (.does (by simp [Event.Sound])) (.inl rfl)).andThen
        (extract_sound c growths posted _ (hlen hbase)) (.inr (by simp))
    · rw [if_neg hbase]
      exact hcompared.andThen (.does (by simp [Event.Sound])) (.inl rfl)

/-- What an iteration does on a mail that validates. -/
theorem mem_iteration_of_decode {c : Callees} {m : Mail} (hvalid : c.validateDkim m ≠ 0)
    {growths : Bytes → Nat} {posted : Posted} {e : Event}
    (h : e ∈ (decode c growths posted m).events) :
    e ∈ (iteration c growths posted (some m)).events := by
  simp only [iteration, if_neg hvalid, Part.mem_andThen]
  exact .inl (.inr ⟨rfl, h⟩)

theorem turn_sound_iff (c : Callees) (growths : Bytes → Nat) (posted : Posted)
    (found : Option Mail) :
    (⟨found, iteration c growths posted found⟩ : Turn).Sound c ↔ ∀ m ∈ found, Decodable c m := by
  constructor
  · rintro h m hm hvalid
    obtain rfl : found = some m := hm
    cases hencoding : contentEncoding m with
    | none =>
      -- the comparison reads through `NULL`
      exfalso
      refine h.calls (.compare none) (mem_iteration_of_decode hvalid ?_) rfl
      simp [decode, hencoding]
    | some e =>
      refine ⟨e, rfl, fun hbase => ?_⟩
      have hcall : .unzip (c.base64Decode m.bodyStr).1 (c.base64Decode m.bodyStr).2 ∈
          (iteration c growths posted (some m)).events := mem_iteration_of_decode hvalid ?_
      · exact h.calls _ hcall
      simp only [decode, hencoding, if_pos hbase, Part.mem_andThen]
      refine .inr ⟨rfl, ?_⟩
      simp only [extract]
      split
      all_goals simp
  · intro h
    cases found with
    | none =>
      refine ⟨?_, nofun, fun _ => rfl⟩
      simp [iteration, Event.Sound]
    | some m =>
      have hsound := iteration_sound (h m rfl) growths posted
      refine ⟨hsound.calls, ?_, hsound.survives⟩
      rintro m' hm hvalid hnone
      obtain rfl : m = m' := by simpa using hm
      obtain ⟨e, hencoding, -⟩ := h m rfl hvalid
      rw [hencoding] at hnone
      cases hnone

theorem mem_turns {c : Callees} {growths : Bytes → Nat} {mails : List (Option Mail × Posted)}
    {t : Turn} (h : t ∈ turns c growths mails) :
    ∃ posted, t.part = iteration c growths posted t.found := by
  induction mails with
  | nil => simp [turns] at h
  | cons head mails ih =>
    obtain ⟨found, posted⟩ := head
    rw [turns] at h
    rcases List.mem_cons.mp h with rfl | h
    · exact ⟨posted, rfl⟩
    · split at h
      · exact ih h
      · cases h

/-- The loop goes on behind an iteration that the process survives. -/
theorem turns_next {c : Callees} {growths : Bytes → Nat} {mails : List (Option Mail × Posted)}
    {i : Nat} {t : Turn} (h : (turns c growths mails)[i]? = some t) (halive : t.part.alive = true) :
    ((turns c growths mails)[i + 1]?).map Turn.found = (mails[i + 1]?).map Prod.fst := by
  induction mails generalizing i with
  | nil => simp [turns] at h
  | cons head mails ih =>
    obtain ⟨found, posted⟩ := head
    rw [turns] at h ⊢
    cases i with
    | zero =>
      obtain rfl : (⟨found, iteration c growths posted found⟩ : Turn) = t := by simpa using h
      rw [if_pos halive]
      cases mails with
      | nil => rfl
      | cons next mails => rfl
    | succ i =>
      rw [List.getElem?_cons_succ] at h ⊢
      by_cases hfirst : (iteration c growths posted found).alive = true
      · simp only [hfirst, if_true] at h ⊢
        exact ih h
      · simp only [hfirst] at h
        cases h

/-- **The error branches hold exactly** when every mail that the loop gets to
can be decoded. -/
theorem errorBranches_iff (c : Callees) (growths : Bytes → Nat) (mails : List (Option Mail × Posted)) :
    ErrorBranches c growths mails ↔
      ∀ t ∈ turns c growths mails, ∀ m ∈ t.found, Decodable c m := by
  have hturn : ∀ t ∈ turns c growths mails, t.Sound c ↔ ∀ m ∈ t.found, Decodable c m := by
    intro t ht
    obtain ⟨posted, hpart⟩ := mem_turns ht
    rw [← turn_sound_iff c growths posted t.found, ← hpart]
  constructor
  · intro h t ht
    exact (hturn t ht).mp (h.sound t ht)
  · intro h
    have hsound : ∀ t ∈ turns c growths mails, t.Sound c := fun t ht => (hturn t ht).mpr (h t ht)
    refine ⟨hsound, fun i t ht hreports => ?_⟩
    exact turns_next ht ((hsound t (List.mem_of_getElem? ht)).survives hreports)

/-- A mail with a signature and without an encoding. -/
def unencodedMail : Mail :=
  { Mail.zero with
    headers := Mail.zero.headers.setIfInBounds 0
      (Hdr.ofStrings (bytes "DKIM-Signature") (bytes "v=1; a=rsa-sha256; d=a.se; s=k; h=from; b="))
    headerCount := 1 }

/-- When its signature is valid, the mail ends the process. -/
theorem missing_encoding_is_compared :
    ¬∀ (c : Callees) (growths : Bytes → Nat) (mails : List (Option Mail × Posted)),
      ErrorBranches c growths mails := by
  intro h
  have hturn := (h acceptAll (fun _ => 0) [(some unencodedMail, .ok)]).sound
    ⟨some unencodedMail, iteration acceptAll (fun _ => 0) .ok (some unencodedMail)⟩
    List.mem_cons_self
  have hvalid : acceptAll.validateDkim unencodedMail ≠ 0 := by decide
  have hnone : contentEncoding unencodedMail = none := by decide +kernel
  refine hturn.calls (.compare none) (mem_iteration_of_decode hvalid ?_) rfl
  simp [decode, hnone]

end ComfirmDmarc.MailHandler
