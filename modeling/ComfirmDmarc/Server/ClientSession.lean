import ComfirmDmarc.Lib.DotStuffing
import ComfirmDmarc.Server.CommandLines
import ComfirmDmarc.Server.DataPhase
import ComfirmDmarc.Server.Delivery

/-!
# Server -- a client that delivers one mail

The dialogue of `tests/sendtest`: command lines, `DATA`, a message and the line
that ends it. A client that keeps to it gets one reply for each command and one
for the message, and its message is one mail in the queue, however the message
is cut into reads. The server closes the connection behind the message.
-/

namespace ComfirmDmarc.Server

open CMemory Queue Transition

/-! ## Reads of the DATA phase -/

/-- A read without an end-of-data mark is stored. -/
theorem dialogue_stores (conf : Config) (ahead : Bytes) (req : Request) (hdata : req.inData = true)
    {read : Bytes} (hno : ∀ p, p ≠ [] → p <+: read → ¬endMark <:+ req.data ++ p)
    (hroom : ((req.data ++ read).length : Int) ≤ conf.dataBufferSize) :
    ∃ alloc, dialogue conf ahead req read =
      ⟨{ req with data := req.data ++ read, dataAlloc := alloc }, [], false⟩ := by
  induction read generalizing req with
  | nil => exact ⟨req.dataAlloc, by rw [dialogue]; simp⟩
  | cons c read ih =>
    obtain ⟨alloc, hit⟩ := iterate_data conf ahead hdata c read
    have hlt : (req.data.length : Int) < conf.dataBufferSize := by
      simp only [List.length_append, List.length_cons] at hroom
      omega
    have hmark : ¬endMark <:+ req.data ++ [c] := hno [c] (by simp) ⟨read, rfl⟩
    rw [if_pos hlt, if_neg (by rwa [List.isSuffixOf_iff_suffix])] at hit
    obtain ⟨alloc', hrest⟩ := ih { req with data := req.data ++ [c], dataAlloc := alloc } hdata
      (fun p hp hpre => by
        simpa using hno (c :: p) (by simp) (List.cons_prefix_cons.mpr ⟨rfl, hpre⟩))
      (by simpa [Int.add_assoc, Int.add_comm 1] using hroom)
    refine ⟨alloc', ?_⟩
    rw [dialogue, hit]
    simp [hrest]

/-- A read that ends with the first end-of-data mark completes the content. -/
theorem dialogue_completes (conf : Config) (ahead : Bytes) (req : Request)
    (hdata : req.inData = true) {read : Bytes} (hne : read ≠ [])
    (hmark : endMark <:+ req.data ++ read)
    (hno : ∀ p, p ≠ [] → p <+: read → p ≠ read → ¬endMark <:+ req.data ++ p)
    (hroom : ((req.data ++ read).length : Int) ≤ conf.dataBufferSize) :
    ∃ alloc, dialogue conf ahead req read =
      ⟨{ req with
          data := (req.data ++ read).take ((req.data ++ read).length - 5) ++ leftover
          dataAlloc := alloc
          inData := false
          process := true
          quit := true }, [replyQueued], false⟩ := by
  obtain ⟨before, c, rfl⟩ : ∃ before c, read = before ++ [c] :=
    ⟨_, _, (List.dropLast_append_getLast hne).symm⟩
  induction before generalizing req with
  | nil =>
    obtain ⟨alloc, hit⟩ := iterate_data conf ahead hdata c []
    have hlt : (req.data.length : Int) < conf.dataBufferSize := by
      simp only [List.nil_append, List.length_append, List.length_singleton] at hroom
      omega
    rw [if_pos hlt, if_pos (List.isSuffixOf_iff_suffix.mpr (by simpa using hmark))] at hit
    refine ⟨alloc, ?_⟩
    rw [List.nil_append, dialogue, hit]
    simp [dialogue]
  | cons a before ih =>
    obtain ⟨alloc, hit⟩ := iterate_data conf ahead hdata a (before ++ [c])
    have hlt : (req.data.length : Int) < conf.dataBufferSize := by
      simp only [List.length_append, List.length_cons] at hroom
      omega
    have ha : ¬endMark <:+ req.data ++ [a] := hno [a] (by simp) ⟨before ++ [c], rfl⟩ (by simp)
    rw [if_pos hlt, if_neg (by rwa [List.isSuffixOf_iff_suffix])] at hit
    obtain ⟨alloc', hrest⟩ := ih { req with data := req.data ++ [a], dataAlloc := alloc }
      hdata (by simp) (by simpa using hmark)
      (fun p hp hpre hpne => by
        simpa using hno (a :: p) (by simp) (List.cons_prefix_cons.mpr ⟨rfl, hpre⟩)
          (by simpa using hpne))
      (by simpa [Int.add_assoc, Int.add_comm 1] using hroom)
    refine ⟨alloc', ?_⟩
    rw [List.cons_append, dialogue, hit]
    simp only [Bool.false_eq_true, if_false, List.drop_zero, hrest]
    simp

/-! ## Phases of the session -/

/-- The event reads `got`, and everything that is sent back is taken. -/
structure Reads (conf : Config) (ev : Event) (got : Bytes) : Prop where
  notClosed : ev.closed = false
  received : received conf ev.env = some got
  sends : ∀ k n, ev.env.send k n = some n

/-- The server waits for command lines. -/
def AwaitsCommands (conn : Connection) : Prop :=
  conn = connectionReset ∨ ∃ req, Waiting conn req ∧ req.inData = false

/-- The server has stored `u` of a message. -/
def AwaitsData (conn : Connection) (u : Bytes) : Prop :=
  ∃ req, Waiting conn req ∧ req.inData = true ∧ req.data = u

theorem AwaitsCommands.between {conn : Connection} (h : AwaitsCommands conn) : Between conn :=
  h.imp_right fun ⟨req, hw, _⟩ => ⟨req, hw⟩

theorem AwaitsCommands.start {conn : Connection} (h : AwaitsCommands conn) (env : Env) :
    ∃ mem, startRequest env conn = requestInit mem := by
  rcases h with rfl | ⟨req, hw, hdata⟩
  · exact ⟨env.requestMem, rfl⟩
  · obtain ⟨mem, hmem⟩ := hw.ready.fresh hdata
    exact ⟨mem, by simp [startRequest, hw.request, hmem]⟩

/-- A read that ends in no error and in no finished message is answered. -/
theorem step_answers {conf : Config} {ev : Event} {w : World} {got : Bytes} {req : Request}
    {replies : List Bytes} (hb : Between w.conn) (hread : Reads conf ev got) (hne : got ≠ [])
    (hd : dialogue conf (ahead ev.env got) (startRequest ev.env w.conn) got = ⟨req, replies, false⟩)
    (hprocess : req.process = false) :
    Step conf w ev { w with
      conn := nextConnection ev.env req true, queue := ev.queue, sent := w.sent ++ replies.flatten } := by
  cases got with
  | nil => exact absurd rfl hne
  | cons c got =>
    rw [Step, workerEvent_eq conf ev w hb, eventRead, hread.notClosed, hread.received]
    simp only [Bool.false_eq_true, if_false, handleRead, hd, conclude, hprocess, answer,
      sendResponse_all conf hread.sends]

/-- The command lines of one read, none of which ends the session. -/
structure CommandRead (ls : List Bytes) : Prop where
  nonempty : ls ≠ []
  line : ∀ l ∈ ls, ¬bytes "\r\n" <:+: l
  one : ∀ l ∈ ls, OneCommand l
  stays : ∀ l ∈ ls, startsWith l (bytes "QUIT") = false

theorem CommandRead.sendLines_ne {ls : List Bytes} (h : CommandRead ls) : sendLines ls ≠ [] := by
  cases ls with
  | nil => exact absurd rfl h.nonempty
  | cons l ls => simp [sendLines_cons]

/-- **A read of command lines** is answered line by line. -/
theorem step_commands {conf : Config} {ev : Event} {w : World} {ls : List Bytes}
    (hc : AwaitsCommands w.conn) (hls : CommandRead ls) (hread : Reads conf ev (sendLines ls))
    (hdata : ∀ l ∈ ls.dropLast, l ≠ bytes "DATA") :
    ∃ w', Step conf w ev w' ∧ w'.added = w.added ∧
      w'.sent = w.sent ++ (ls.filterMap lineReply).flatten ∧
      (ls.getLast? ≠ some (bytes "DATA") → AwaitsCommands w'.conn) ∧
      (ls.getLast? = some (bytes "DATA") → AwaitsData w'.conn []) := by
  obtain ⟨mem, hmem⟩ := hc.start ev.env
  have hcommands : (requestInit mem).inData = false := rfl
  have hd := dialogue_lines conf (ahead ev.env (sendLines ls)) hcommands ls hls.line hdata hls.one
  rw [← hmem] at hd
  refine ⟨_, step_answers hc.between hread hls.sendLines_ne hd ?_, rfl, rfl, ?_, ?_⟩
  · rw [hmem]
    rfl
  all_goals
    intro hlast
    have hquit : (afterLines (requestInit mem) ls).quit = false := by
      simpa [afterLines, requestInit] using hls.stays
    rw [hmem, nextConnection, if_pos ⟨rfl, hquit⟩]
  · have hno : (afterLines (requestInit mem) ls).inData = false := by simpa [afterLines] using hlast
    rw [hno]
    exact .inr ⟨_, ⟨rfl, rfl, rfl, rfl, .init _⟩, rfl⟩
  · have hyes : (afterLines (requestInit mem) ls).inData = true := by simpa [afterLines] using hlast
    rw [hyes]
    refine ⟨_, ⟨rfl, rfl, rfl, rfl, ⟨rfl, rfl, rfl, hquit, ?_⟩⟩, hyes, rfl⟩
    intro h
    exact absurd (h.symm.trans hyes) (by decide)

/-- **A piece of the message** is stored. -/
theorem step_piece {conf : Config} {ev : Event} {w : World} {u piece : Bytes}
    (hw : AwaitsData w.conn u) (hread : Reads conf ev piece) (hne : piece ≠ [])
    (hno : ∀ p, p ≠ [] → p <+: piece → ¬endMark <:+ u ++ p)
    (hroom : ((u ++ piece).length : Int) ≤ conf.dataBufferSize) :
    ∃ w', Step conf w ev w' ∧ w'.added = w.added ∧ w'.sent = w.sent ∧
      AwaitsData w'.conn (u ++ piece) := by
  obtain ⟨req, hwait, hdata, rfl⟩ := hw
  have hstart : startRequest ev.env w.conn = req := by simp [startRequest, hwait.request]
  obtain ⟨alloc, hd⟩ := dialogue_stores conf (ahead ev.env piece) req hdata hno hroom
  rw [← hstart] at hd
  refine ⟨_, step_answers (.inr ⟨req, hwait⟩) hread hne hd ?_, rfl, by simp, ?_⟩
  · rw [hstart]
    exact hwait.ready.process
  · have hquit := hwait.ready.quit
    rw [hstart, nextConnection, if_pos ⟨rfl, hquit⟩]
    simp only [hdata, if_true]
    exact ⟨_, ⟨rfl, rfl, rfl, rfl, ⟨hwait.ready.body, hwait.ready.bodyLen, hwait.ready.process,
      hquit, fun h => absurd h (by simp)⟩⟩, rfl, rfl⟩

/-- **The last piece of the message** queues it and ends the session. -/
theorem step_last {conf : Config} {ev : Event} {w : World} {u piece content : Bytes}
    (hw : AwaitsData w.conn u) (hread : Reads conf ev piece) (hne : piece ≠ [])
    (hcontent : u ++ piece = content ++ endMark)
    (hno : ∀ p, p ≠ [] → p <+: piece → p ≠ piece → ¬endMark <:+ u ++ p)
    (hroom : ((u ++ piece).length : Int) ≤ conf.dataBufferSize) (hdeliver : Deliverable content)
    (hqueue : ev.queue.shared.messageCount < ev.queue.shared.messageMaxCount) :
    ∃ w' m, Step conf w ev w' ∧ w'.added = w.added ++ [m] ∧ Carries content m ∧
      w'.sent = w.sent ++ replyQueued ∧ w'.conn = connectionReset := by
  obtain ⟨req, hwait, hdata, rfl⟩ := hw
  have hstart : startRequest ev.env w.conn = req := by simp [startRequest, hwait.request]
  obtain ⟨alloc, hd⟩ := dialogue_completes conf (ahead ev.env piece) req hdata hne
    (hcontent ▸ List.suffix_append content endMark) hno hroom
  have hlen : (req.data ++ piece).length - 5 = content.length := by simp [hcontent, endMark_eq]
  rw [hlen, hcontent, List.take_left] at hd
  have hstored : ({ req with
      data := content ++ leftover, dataAlloc := alloc, inData := false, process := true,
      quit := true } : Request).data = content ++ leftover := rfl
  have hqueued : ({ w with queue := ev.queue } : World).queue.shared.messageCount
      < ev.queue.shared.messageMaxCount := hqueue
  obtain ⟨req', w1, m, hp, hadded, hsent, hcarries⟩ :=
    processData_deliverable ev.env hstored hdeliver hqueued
  have hquit := processData_quit hp
  cases piece with
  | nil => exact absurd rfl hne
  | cons c piece =>
    refine ⟨answer conf ev.env req' [replyQueued] w1, m, ?_, hadded, hcarries, ?_, ?_⟩
    · rw [Step, workerEvent_eq conf ev w (.inr ⟨req, hwait⟩), eventRead, hread.notClosed,
        hread.received]
      simp only [Bool.false_eq_true, if_false, handleRead, hstart, hd, conclude, if_true, hp,
        bind, Except.bind]
    · simp [answer, sendResponse_all conf hread.sends, hsent]
    · simp [answer, nextConnection_of_quit hquit]

/-! ## The session -/

/-- Reads of command lines, before the `DATA` command. -/
def CommandReads (conf : Config) (reads : List (Event × List Bytes)) : Prop :=
  ∀ r ∈ reads, CommandRead r.2 ∧ Reads conf r.1 (sendLines r.2) ∧ ∀ l ∈ r.2, l ≠ bytes "DATA"

theorem run_commands {conf : Config} {w : World} (hc : AwaitsCommands w.conn)
    {reads : List (Event × List Bytes)} (hreads : CommandReads conf reads) :
    ∃ w', Run (Step conf) w (reads.map Prod.fst) w' ∧ w'.added = w.added ∧
      w'.sent = w.sent ++ ((reads.flatMap Prod.snd).filterMap lineReply).flatten ∧
      AwaitsCommands w'.conn := by
  induction reads generalizing w with
  | nil => exact ⟨w, .nil w, rfl, by simp, hc⟩
  | cons r reads ih =>
    obtain ⟨⟨hls, hread, hdata⟩, hreads⟩ := List.forall_mem_cons.mp hreads
    obtain ⟨w1, hstep, hadded, hsent, hnext, -⟩ := step_commands hc hls hread
      fun l hl => hdata l (List.mem_of_mem_dropLast hl)
    obtain ⟨w2, hrun, hadded', hsent', hc'⟩ := ih
      (hnext fun hlast => hdata _ (List.mem_of_getLast? hlast) rfl) hreads
    refine ⟨w2, .cons hstep hrun, hadded'.trans hadded, ?_, hc'⟩
    rw [hsent', hsent]
    simp

/-- The message in pieces, and where it ends. -/
structure MessageReads (conf : Config) (pieces : List (Event × Bytes)) (stream : Bytes) : Prop where
  reads : ∀ r ∈ pieces, Reads conf r.1 r.2 ∧ r.2 ≠ []
  whole : (pieces.map Prod.snd).flatten = stream
  room : (stream.length : Int) ≤ conf.dataBufferSize
  /-- the queue has room when the message is complete -/
  queueRoom : ∀ r, pieces.getLast? = some r →
    r.1.queue.shared.messageCount < r.1.queue.shared.messageMaxCount

theorem run_message {conf : Config} {content u : Bytes} (hdeliver : Deliverable content)
    (hfirst : ∀ q < (content ++ endMark).length, ¬endMark <:+ (content ++ endMark).take q)
    (hroom : ((content ++ endMark).length : Int) ≤ conf.dataBufferSize)
    {pieces : List (Event × Bytes)} (hne : pieces ≠ [])
    (hreads : ∀ r ∈ pieces, Reads conf r.1 r.2 ∧ r.2 ≠ [])
    (hstream : u ++ (pieces.map Prod.snd).flatten = content ++ endMark)
    (hqueue : ∀ r, pieces.getLast? = some r →
      r.1.queue.shared.messageCount < r.1.queue.shared.messageMaxCount)
    {w : World} (hw : AwaitsData w.conn u) :
    ∃ w' m, Run (Step conf) w (pieces.map Prod.fst) w' ∧ w'.added = w.added ++ [m] ∧
      Carries content m ∧ w'.sent = w.sent ++ replyQueued ∧ w'.conn = connectionReset := by
  -- a proper prefix of the stream does not end with the mark
  have hproper : ∀ v more, v ++ more = content ++ endMark → more ≠ [] → ¬endMark <:+ v := by
    intro v more hv hmore
    have hlt : v.length < (content ++ endMark).length := by
      have := List.length_pos_iff.mpr hmore
      rw [← hv, List.length_append]
      omega
    have := hfirst v.length hlt
    rwa [← hv, List.take_left] at this
  induction pieces generalizing u w with
  | nil => exact absurd rfl hne
  | cons r pieces ih =>
    obtain ⟨⟨hread, hrne⟩, hreads⟩ := List.forall_mem_cons.mp hreads
    rw [List.map_cons, List.flatten_cons] at hstream
    cases pieces with
    | nil =>
      rw [List.map_nil, List.flatten_nil, List.append_nil] at hstream
      obtain ⟨w', m, hstep, hrest⟩ := step_last hw hread hrne hstream
        (fun p _ ⟨t, ht⟩ hpne => hproper (u ++ p) t (by rw [List.append_assoc, ht, hstream])
          (by rintro rfl; exact hpne (by simpa using ht)))
        (hstream ▸ hroom) hdeliver (hqueue r rfl)
      exact ⟨w', m, .single hstep, hrest⟩
    | cons r' pieces =>
      have hmore : ((r' :: pieces).map Prod.snd).flatten ≠ [] := by
        have := (hreads r' List.mem_cons_self).2
        simp [this]
      obtain ⟨w1, hstep, hadded, hsent, hw1⟩ := step_piece hw hread hrne
        (fun p _ ⟨t, ht⟩ => hproper (u ++ p) (t ++ ((r' :: pieces).map Prod.snd).flatten)
          (by rw [← hstream, ← ht]; simp) fun h => hmore (List.append_eq_nil_iff.mp h).2)
        (by
          have := congrArg List.length hstream
          simp only [List.length_append] at this hroom ⊢
          omega)
      obtain ⟨w2, m, hrun, hadded', hcarries, hsent', hconn⟩ := ih (by simp) hreads
        (by rw [← hstream, List.append_assoc])
        (fun r hr => hqueue r (by rw [List.getLast?_cons_cons]; exact hr)) hw1
      exact ⟨w2, m, .cons hstep hrun, by rw [hadded', hadded], hcarries, by rw [hsent', hsent],
        hconn⟩

/-- The reads of a client that keeps to the dialogue: lines of commands, a read
of lines that ends with `DATA`, the pieces of the message. -/
structure KeepsDialogue (conf : Config) (commands : List (Event × List Bytes))
    (start : Event × List Bytes) (pieces : List (Event × Bytes)) (content : Bytes) : Prop where
  commands : CommandReads conf commands
  started : CommandRead start.2
  reads : Reads conf start.1 (sendLines start.2)
  data : start.2.getLast? = some (bytes "DATA")
  once : ∀ l ∈ start.2.dropLast, l ≠ bytes "DATA"
  message : MessageReads conf pieces (content ++ endMark)
  ends : MarkEnds (content ++ endMark) (content ++ endMark).length

theorem KeepsDialogue.run {conf : Config} {commands : List (Event × List Bytes)}
    {start : Event × List Bytes} {pieces : List (Event × Bytes)} {content : Bytes}
    (h : KeepsDialogue conf commands start pieces content) {w : World}
    (hconn : w.conn = connectionReset) (hdeliver : Deliverable content) :
    ∃ w' m, Run (Step conf) w (commands.map Prod.fst ++ start.1 :: pieces.map Prod.fst) w' ∧
      w'.sent = w.sent
        ++ ((commands.flatMap Prod.snd ++ start.2).filterMap lineReply ++ [replyQueued]).flatten ∧
      w'.added = w.added ++ [m] ∧ Carries content m ∧ w'.conn = connectionReset := by
  obtain ⟨w1, hrun1, hadded1, hsent1, hc1⟩ := run_commands (w := w) (.inl hconn) h.commands
  obtain ⟨w2, hstep, hadded2, hsent2, -, hc2⟩ := step_commands hc1 h.started h.reads h.once
  have hne : pieces ≠ [] := by
    rintro rfl
    have := h.message.whole
    simp [endMark_eq] at this
  obtain ⟨w3, m, hrun3, hadded3, hcarries, hsent3, hclosed⟩ := run_message hdeliver h.ends.first
    h.message.room hne h.message.reads (u := []) h.message.whole h.message.queueRoom (hc2 h.data)
  refine ⟨w3, m, hrun1.append (.cons hstep hrun3), ?_, ?_, hcarries, hclosed⟩
  · rw [hsent3, hsent2, hsent1]
    simp
  · rw [hadded3, hadded2, hadded1]

/-- **A client that keeps to the dialogue delivers its mail.** Its command
lines are answered one by one, its message, in whatever pieces it comes, is
acknowledged once, and the only mail that is queued carries it whole. Then the
connection is closed. -/
theorem session_delivers (conf : Config) {w : World} (hconn : w.conn = connectionReset)
    {commands : List (Event × List Bytes)} {start : Event × List Bytes}
    {pieces : List (Event × Bytes)} {content : Bytes}
    (h : KeepsDialogue conf commands start pieces content) (hdeliver : Deliverable content) :
    ∃ w' m, Run (Step conf) w (commands.map Prod.fst ++ start.1 :: pieces.map Prod.fst) w' ∧
      w'.sent = w.sent
        ++ ((commands.flatMap Prod.snd ++ start.2).filterMap lineReply ++ [replyQueued]).flatten ∧
      w'.added = w.added ++ [m] ∧ Carries content m ∧ w'.conn = connectionReset :=
  h.run hconn hdeliver

theorem commandRead_one {line : Bytes} (hline : ¬bytes "\r\n" <:+: line)
    (hreply : (lineReply line).isSome = true) (hone : (offsetReplies line).length = 1)
    (hquit : startsWith line (bytes "QUIT") = false) : CommandRead [line] where
  nonempty := by simp
  line l hl := by
    obtain rfl := List.mem_singleton.mp hl
    exact hline
  one l hl := by
    obtain rfl := List.mem_singleton.mp hl
    exact oneCommand_of_length hreply hone
  stays l hl := by
    obtain rfl := List.mem_singleton.mp hl
    exact hquit

theorem reads_readEvent {got : Bytes} (queue : QueueFile Mail) (hlen : got.length ≤ 4046) :
    Reads .default (readEvent got queue) got where
  notClosed := rfl
  received := by
    have : Config.default.readBufferSize = 4046 := rfl
    simp [Server.received, this, readEvent, List.take_of_length_le hlen]
  sends _ _ := rfl

/-- A message that comes in one read. -/
theorem messageReads_one {got : Bytes} (hne : got ≠ []) (hlen : got.length ≤ 4046) :
    MessageReads .default [(readEvent got (smallQueue 0), got)] got where
  reads := by
    intro r hr
    obtain rfl := List.mem_singleton.mp hr
    exact ⟨reads_readEvent _ hlen, hne⟩
  whole := by simp
  room := by
    simp only [Config.default]
    omega
  queueRoom := by
    intro r hr
    obtain rfl : _ = r := Option.some.inj hr
    show (smallQueue 0).shared.messageCount < (smallQueue 0).shared.messageMaxCount
    decide

/-- Two commands, `DATA` and the small mail, each in one read. -/
theorem keepsDialogue_short : KeepsDialogue .default
    [(readEvent (bytes "EHLO me\r\n") (smallQueue 0), [bytes "EHLO me"])]
    (readEvent (bytes "DATA\r\n") (smallQueue 0), [bytes "DATA"])
    [(readEvent (bytes "A: b\r\n\r\nc\r\n.\r\n") (smallQueue 0), bytes "A: b\r\n\r\nc\r\n.\r\n")]
    (bytes "A: b\r\n\r\nc") where
  commands := by
    intro r hr
    obtain rfl := List.mem_singleton.mp hr
    exact ⟨commandRead_one (by decide) (by decide) (by decide) (by decide),
      reads_readEvent _ (by decide), by decide⟩
  started := commandRead_one (by decide) (by decide) (by decide) (by decide)
  reads := reads_readEvent _ (by decide)
  data := rfl
  once := by simp
  message := messageReads_one (by decide) (by decide)
  ends := ⟨by decide, by decide, by decide⟩

theorem session_delivers_short :
    ∃ w m, Run (Step .default) .closed
        [readEvent (bytes "EHLO me\r\n") (smallQueue 0), readEvent (bytes "DATA\r\n") (smallQueue 0),
          readEvent (bytes "A: b\r\n\r\nc\r\n.\r\n") (smallQueue 0)] w ∧
      w.sent = replyHello ++ replyStart ++ replyQueued ∧ w.added = [m] ∧
      Carries (bytes "A: b\r\n\r\nc") m := by
  have hconn : World.closed.conn = connectionReset := rfl
  obtain ⟨w, m, hrun, hsent, hadded, hcarries, -⟩ := session_delivers .default hconn
    keepsDialogue_short deliverable_shortMail
  refine ⟨w, m, hrun, ?_, by simpa [World.closed] using hadded, hcarries⟩
  rw [hsent]
  decide

/-! ## Dots at the start of a line

A client puts a dot in front of every line of its message that starts with one.
`request_parse_commands` does not take it away.
-/

open DotStuffing

/-- The first end-of-data mark of a stuffed message is the one behind it. -/
theorem markEnds_transmit {ls : List Line} (hne : ls ≠ []) (hls : ∀ l ∈ ls, IsLine l) :
    MarkEnds (transmit ls) (transmit ls).length where
  le := Nat.le_refl _
  mark := by
    rw [List.take_length, transmit, endMark_eq]
    exact List.suffix_append _ _
  first q hq hmark := by
    obtain ⟨a, ha⟩ := hmark
    have hcut : transmit ls = a ++ endOfText ++ (transmit ls).drop q := by
      rw [show endOfText = endMark from endMark_eq.symm, ha, List.take_append_drop]
    have hnil := transmit_end_unique hne hls hcut
    rw [List.drop_eq_nil_iff] at hnil
    omega

/-- **The stuffed dots stay in the mail.** A client may send any message of
CRLF-terminated lines, since stuffing keeps the end-of-data mark out of it; but
the mail that is queued carries the stuffed text, which is the message itself
exactly when no line starts with a dot. -/
theorem stuffed_dots_stay (conf : Config) {w : World} (hconn : w.conn = connectionReset)
    {commands : List (Event × List Bytes)} (hcommands : CommandReads conf commands)
    {start : Event × List Bytes} (hstart : CommandRead start.2)
    (hread : Reads conf start.1 (sendLines start.2))
    (hdata : start.2.getLast? = some (bytes "DATA"))
    (honce : ∀ l ∈ start.2.dropLast, l ≠ bytes "DATA") {message : List Line} (hne : message ≠ [])
    (hlines : ∀ l ∈ message, IsLine l) {pieces : List (Event × Bytes)}
    (hpieces : MessageReads conf pieces (transmit message))
    (hdeliver : Deliverable (joinLines (message.map stuffLine))) :
    ∃ w' m, Run (Step conf) w (commands.map Prod.fst ++ start.1 :: pieces.map Prod.fst) w' ∧
      w'.added = w.added ++ [m] ∧ Carries (joinLines (message.map stuffLine)) m ∧
      (joinLines (message.map stuffLine) = joinLines message ↔
        ∀ l ∈ message, l.head? ≠ some 46) := by
  have hstream : transmit message = joinLines (message.map stuffLine) ++ endMark := by
    rw [transmit, endMark_eq]
    rfl
  have hends := markEnds_transmit hne hlines
  rw [hstream] at hends hpieces
  have hkeeps : KeepsDialogue conf commands start pieces (joinLines (message.map stuffLine)) :=
    ⟨hcommands, hstart, hread, hdata, honce, hpieces, hends⟩
  obtain ⟨w', m, hrun, -, hadded, hcarries, -⟩ := hkeeps.run hconn hdeliver
  exact ⟨w', m, hrun, hadded, hcarries, joinLines_stuffed_iff message⟩

/-- A message of one field whose body starts with a dot. -/
theorem deliverable_dotted : Deliverable (bytes "A: b\r\n\r\n..c") := by
  refine ⟨[⟨[65], 32, [98], [98]⟩], [46, 46, 99], by decide, ⟨by simp, by decide, ?_, ?_, ?_⟩, ?_, ?_⟩
  · intro f hf
    obtain rfl := List.mem_singleton.mp hf
    exact ⟨⟨by simp, by simp⟩, .char (by decide) (by decide) .nil⟩
  · intro f hf
    obtain rfl := List.mem_singleton.mp hf
    simp [Field.Short, keyMaxLen, valueMaxLen]
  · exact ⟨46, _, rfl, by decide, by decide⟩
  · intro f hf
    obtain rfl := List.mem_singleton.mp hf
    exact ⟨.inr rfl, by decide⟩
  · simp [leftover, bodyMaxLen]

theorem stuffed_dots_stay_dotted :
    ∃ w m, Run (Step .default) .closed
        [readEvent (bytes "DATA\r\n") (smallQueue 0),
          readEvent (bytes "A: b\r\n\r\n..c\r\n.\r\n") (smallQueue 0)] w ∧
      w.added = [m] ∧ Carries (bytes "A: b\r\n\r\n..c") m := by
  have hsent : transmit [bytes "A: b", [], bytes ".c"] = bytes "A: b\r\n\r\n..c\r\n.\r\n" := by
    decide
  have hjoin : joinLines ([bytes "A: b", [], bytes ".c"].map stuffLine)
      = bytes "A: b\r\n\r\n..c" := by decide
  have hconn : World.closed.conn = connectionReset := rfl
  have hcommands : CommandReads .default [] := by simp [CommandReads]
  have hdeliver : Deliverable (joinLines ([bytes "A: b", [], bytes ".c"].map stuffLine)) := by
    rw [hjoin]
    exact deliverable_dotted
  have hpieces : MessageReads .default
      [(readEvent (bytes "A: b\r\n\r\n..c\r\n.\r\n") (smallQueue 0),
        bytes "A: b\r\n\r\n..c\r\n.\r\n")] (transmit [bytes "A: b", [], bytes ".c"]) := by
    rw [hsent]
    exact messageReads_one (by decide) (by decide)
  obtain ⟨w, m, hrun, hadded, hcarries, -⟩ := stuffed_dots_stay .default hconn hcommands
    (show CommandRead (readEvent (bytes "DATA\r\n") (smallQueue 0), [bytes "DATA"]).2 from
      commandRead_one (by decide) (by decide) (by decide) (by decide))
    (reads_readEvent _ (by decide)) rfl (by simp) (by simp) (by unfold IsLine; decide) hpieces
    hdeliver
  exact ⟨w, m, hrun, by simpa [World.closed] using hadded, hjoin ▸ hcarries⟩

end ComfirmDmarc.Server
