import ComfirmDmarc.Server.HeaderSection
import ComfirmDmarc.Server.Session

/-!
# Server -- the copy of the body

`connection_handle` copies the body of every request that reports a header.
`request_parse_data` reports a header for every line, but sets the body only
behind a blank line.
-/

namespace ComfirmDmarc.Server

open CMemory Queue Transition

/-- A request with a header has a body to copy. -/
def BodyForHeaders (req : Request) : Prop :=
  0 < req.headerCount → ∃ body, req.body = some body ∧ req.bodyLen + 1 ≤ body.length

theorem headerCount_pos_iff (req : Request) (tail : Bytes) :
    0 < (requestParseData req tail).1.headerCount ↔
      Token.lineEnd ∈ (scanData req.data tail).tokens := by
  rw [requestParseData_headerCount, finalState, foldl_headerCount, List.count_pos_iff.symm]
  simp [HeaderState.init]

/-- **The parser sets a body exactly when one follows.** -/
theorem bodyForHeaders_iff (req : Request) (tail : Bytes) (hbody : req.body = none) :
    BodyForHeaders (requestParseData req tail).1 ↔ BodyFollows req.data tail := by
  rw [BodyForHeaders, headerCount_pos_iff, bodyFollows_iff]
  by_cases hline : Token.lineEnd ∈ (scanData req.data tail).tokens
  · by_cases hhas : HasBody req.data tail
    · obtain ⟨hb, hlen⟩ := requestParseData_body req tail hhas
      exact ⟨fun _ => .inr hhas, fun _ _ => ⟨_, hb, by rw [hlen]; simp⟩⟩
    · obtain ⟨hb, -⟩ := requestParseData_no_body req tail hhas
      constructor
      · intro h
        obtain ⟨body, hsome, -⟩ := h hline
        rw [hb, hbody] at hsome
        exact nomatch hsome
      · rintro (hno | hhas')
        · exact absurd hline hno
        · exact absurd hhas' hhas
  · exact ⟨fun _ => .inl hline, fun _ hline' => absurd hline' hline⟩

/-! ## The copy in `connection_handle` -/

theorem copyHeaders_ne_nullBody (headers : Vector Hdr headerMaxLen) (m : Mail) (is : List Nat) :
    copyHeaders headers m is ≠ .error .nullBody := by
  induction is generalizing m with
  | nil =>
    intro h
    cases h
  | cons i is ih =>
    rw [copyHeaders]
    split
    · exact ih _
    · intro h
      cases h

theorem createMail_nullBody_iff (m : Mail) (req : Request) :
    createMail m req = .error .nullBody ↔ req.bodyLen < bodyMaxLen ∧ req.body = none := by
  have hbody : copyBody m req = .error .nullBody ↔ req.bodyLen < bodyMaxLen ∧ req.body = none := by
    rw [copyBody]
    by_cases hlen : req.bodyLen < bodyMaxLen
    · rw [if_pos hlen]
      cases req.body <;> simp [hlen]
    · simp [hlen]
  rw [← hbody]
  simp only [createMail]
  cases copyBody m req with
  | error e => rfl
  | ok m' =>
    constructor
    · intro h
      exact absurd h (copyHeaders_ne_nullBody _ _ _)
    · exact nofun

/-- The copy is reached, and finds no body, exactly when none follows. -/
theorem processData_nullBody_iff {env : Env} {req : Request} {w : World} (hbody : req.body = none)
    (hlen : req.bodyLen = 0) :
    processData env req w = .error .nullBody ↔
      (∀ a ∈ (requestParseData req env.dataTail).2, a.InRange) ∧
        ¬BodyFollows req.data env.dataTail := by
  rw [← bodyForHeaders_iff req env.dataTail hbody]
  simp only [processData]
  by_cases hin : ∀ a ∈ (requestParseData req env.dataTail).2, a.InRange
  · rw [if_neg (not_not.mpr hin)]
    rw [and_iff_right hin]
    by_cases hcount : 0 < (requestParseData req env.dataTail).1.headerCount
    · rw [if_pos hcount]
      have hiff := createMail_nullBody_iff env.mailMem (requestParseData req env.dataTail).1
      -- `create_mail` copies from NULL where the parser found no body
      have hnone : BodyForHeaders (requestParseData req env.dataTail).1 ↔
          ¬((requestParseData req env.dataTail).1.bodyLen < bodyMaxLen ∧
            (requestParseData req env.dataTail).1.body = none) := by
        by_cases hhas : HasBody req.data env.dataTail
        · obtain ⟨hb, hl⟩ := requestParseData_body req env.dataTail hhas
          simp [BodyForHeaders, hb, hl]
        · obtain ⟨hb, hl⟩ := requestParseData_no_body req env.dataTail hhas
          have hpos : 0 < bodyMaxLen := by decide
          simp [BodyForHeaders, hb, hl, hbody, hlen, hcount, hpos]
      rw [hnone, not_not, ← hiff]
      cases createMail env.mailMem (requestParseData req env.dataTail).1 with
      | error e => simp [bind, Except.bind]
      | ok m => simp [bind, Except.bind]
    · rw [if_neg hcount]
      simp [BodyForHeaders, hcount]
  · rw [if_pos hin]
    constructor
    · intro h
      cases h
    · intro h
      exact absurd h.1 hin

/-- The event ends a transaction, whose request is then parsed. -/
def Finishes (conf : Config) (w : World) (ev : Event) (req : Request) : Prop :=
  ev.closed = false ∧ ∃ got, received conf ev.env = some got ∧
    let d := dialogue conf (ahead ev.env got) (startRequest ev.env w.conn) got
    d.error = false ∧ d.request.process = true ∧ req = d.request

theorem handleRead_nullBody_iff {conf : Config} {env : Env} {req : Request} {got : Bytes}
    {w : World} (hready : Ready req) :
    handleRead conf env req got w = .error .nullBody ↔
      let d := dialogue conf (ahead env got) req got
      d.error = false ∧ d.request.process = true ∧
        (∀ a ∈ (requestParseData d.request env.dataTail).2, a.InRange) ∧
        ¬BodyFollows d.request.data env.dataTail := by
  have hd := hready.inDialogue.dialogue conf (ahead env got) got
  simp only [handleRead, conclude]
  generalize dialogue conf (ahead env got) req got = d at hd ⊢
  rw [← processData_nullBody_iff (w := w) hd.body hd.bodyLen]
  cases d.error with
  | true => simp
  | false =>
    cases d.request.process with
    | false => simp
    | true =>
      cases processData env d.request w with
      | error e => simp [bind, Except.bind]
      | ok p => simp [bind, Except.bind]

theorem eventRead_nullBody_iff {conf : Config} {w : World} (h : Between w.conn) (ev : Event) :
    eventRead conf ev w = .error .nullBody ↔
      ∃ req, Finishes conf w ev req ∧ (∀ a ∈ (requestParseData req ev.env.dataTail).2, a.InRange) ∧
        ¬BodyFollows req.data ev.env.dataTail := by
  have hready := h.ready ev.env
  simp only [eventRead, Finishes]
  cases ev.closed with
  | true => simp
  | false =>
    cases received conf ev.env with
    | none => simp
    | some got =>
    cases got with
    | nil =>
      have hprocess := hready.process
      simp [dialogue, hprocess]
    | cons c got =>
      have hiff := @handleRead_nullBody_iff conf ev.env _ (c :: got) { w with queue := ev.queue }
        hready
      simp only [Bool.false_eq_true, if_false, hiff]
      constructor
      · rintro ⟨herr, hprocess, hin, hno⟩
        exact ⟨_, ⟨trivial, _, rfl, herr, hprocess, rfl⟩, hin, hno⟩
      · rintro ⟨req, ⟨-, got', hgot, herr, hprocess, rfl⟩, hin, hno⟩
        obtain rfl : c :: got = got' := by simpa using hgot
        exact ⟨herr, hprocess, hin, hno⟩

theorem receive_inDialogue {conf : Config} {req : Request} (h : InDialogue req)
    (reads : List (Bytes × Bytes)) : InDialogue (receive conf req reads) := by
  induction reads generalizing req with
  | nil => exact h
  | cons read reads ih => exact ih (h.dialogue conf read.2 read.1)

theorem Stored.body {conf : Config} {req : Request} (h : Stored conf req) : req.body = none := by
  obtain ⟨-, mem, reads, rfl⟩ := h
  exact (receive_inDialogue (Ready.init mem).inDialogue reads).body

/-- **The body is missing exactly when none follows the header section**: for
every stored content, and, at the copy itself, for every event of every run of
a connection slot. -/
theorem missingBody_iff (conf : Config) :
    (∀ (req : Request) (tail : Bytes), Stored conf req →
      (BodyForHeaders (requestParseData req tail).1 ↔ BodyFollows req.data tail)) ∧
    ∀ (w w' : World) (evs : List Event) (ev : Event), w.conn = connectionReset →
      Run (Step conf) w evs w' →
      (workerEvent conf ev w' = .error .nullBody ↔
        ∃ req, Finishes conf w' ev req ∧
          (∀ a ∈ (requestParseData req ev.env.dataTail).2, a.InRange) ∧
          ¬BodyFollows req.data ev.env.dataTail) := by
  refine ⟨fun req tail h => bodyForHeaders_iff req tail h.body, ?_⟩
  intro w w' evs ev hw hrun
  have hbetween : Between w'.conn :=
    hrun.invariant (P := fun w => Between w.conn) (fun _ _ _ h hs => between_step h hs) (.inl hw)
  rw [workerEvent_eq conf ev w' hbetween]
  exact eventRead_nullBody_iff hbetween ev

/-- No blank line is seen where a colon hides its first CR. -/
example : ¬BodyFollows (bytes "A:\r\n\r\nc") [] := by decide +kernel

/-! ## Two mails -/

/-- A queue of capacity one that holds `count` mails. -/
def smallQueue (count : Int) : QueueFile Mail :=
  ⟨24 + sizeofMail, ⟨0, 0, count, 1, sizeofMail⟩, fun _ => .zero⟩

/-- An event that reads `got`, over memory of zero bytes. -/
def readEvent (got : Bytes) (queue : QueueFile Mail) : Event where
  closed := false
  env := ⟨some got, [], sendAll, .zero, .zero, [0, 0]⟩
  queue := queue

/-- A closed connection slot. -/
def World.closed : World := ⟨connectionReset, smallQueue 0, [], []⟩

def shortMail : Bytes := bytes "DATA\r\nA: b\r\n\r\nc\r\n.\r\n"

theorem missingBody_shortMail :
    BodyForHeaders (requestParseData (receive .default (requestInit .zero) [(shortMail, [])])
        [0, 0]).1 ∧
      workerEvent .default (readEvent shortMail (smallQueue 0)) .closed ≠ .error .nullBody := by
  obtain ⟨hdata, hrun⟩ := missingBody_iff .default
  constructor
  · exact (hdata _ _ ⟨by decide +kernel, _, _, rfl⟩).mpr (by decide +kernel)
  · rw [ne_eq, hrun .closed .closed [] (readEvent shortMail (smallQueue 0)) rfl (.nil _)]
    rintro ⟨req, ⟨-, got, hgot, -, -, rfl⟩, -, hno⟩
    obtain rfl : shortMail = got := by
      have : received .default (readEvent shortMail (smallQueue 0)).env = some shortMail := by decide +kernel
      simpa [this] using hgot
    exact hno (by decide +kernel)

/-- A mail of one header line, without a blank line. -/
def headerOnlyMail : Bytes := bytes "DATA\r\nA: b\r\n.\r\n"

theorem headerOnlyMail_missing_body :
    (¬∀ (conf : Config) (req : Request) (tail : Bytes), Stored conf req →
      BodyForHeaders (requestParseData req tail).1) ∧
      workerEvent .default (readEvent headerOnlyMail (smallQueue 0)) .closed = .error .nullBody := by
  constructor
  · intro h
    have hstored : Stored .default (receive .default (requestInit .zero) [(headerOnlyMail, [])]) :=
      ⟨by decide +kernel, _, _, rfl⟩
    have hno := mt (bodyForHeaders_iff _ [0, 0] hstored.body).mp (by decide +kernel)
    exact hno (h _ _ _ hstored)
  · rw [workerEvent_eq _ _ _ (.inl rfl), eventRead_nullBody_iff (.inl rfl)]
    refine ⟨_, ⟨rfl, headerOnlyMail, by decide +kernel, by decide +kernel, by decide +kernel, rfl⟩, ?_⟩
    decide +kernel

end ComfirmDmarc.Server
