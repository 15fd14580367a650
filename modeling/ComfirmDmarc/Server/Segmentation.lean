import ComfirmDmarc.Server.Delivery

/-!
# Server -- reads and the byte stream

The parser drops its buffer after every read, so a command that a read cuts is
lost, and what stands behind the end of a session is read or not read as the
reads fall. `session` is the conversation on the byte stream itself; reads that
cut nothing follow it, whatever lies in the buffer behind them.
-/

namespace ComfirmDmarc.Server

open CMemory Queue

/-! ## Commands at the end of a read -/

/-- The words `request_parse_commands` compares with. -/
def commandWords : List Bytes :=
  [bytes "DATA\r\n", bytes "EHLO", bytes "MAIL FROM:", bytes "RCPT TO:", bytes "QUIT"]

/-- All that is left of the read is the beginning of a command word. -/
def cutCommand (u : Bytes) : Bool :=
  commandWords.any fun word => u.isPrefixOf word && decide (u.length < word.length)

/-- A command word starts here. -/
def startsCommand (u : Bytes) : Bool := commandWords.any (startsWith u)

/-- No command word starts anywhere in `u`, not even a cut one. -/
def quiet : Bytes → Bool
  | [] => true
  | c :: u => !cutCommand (c :: u) && !startsCommand (c :: u) && quiet u

theorem startsWith_append_of_not_cut {u word : Bytes} (hword : word ∈ commandWords)
    (h : cutCommand u = false) (x : Bytes) : startsWith (u ++ x) word = startsWith u word := by
  rw [Bool.eq_iff_iff, startsWith_iff, startsWith_iff]
  constructor
  · intro hpre
    rcases List.prefix_or_prefix_of_prefix hpre (List.prefix_append u x) with hle | hge
    · exact hle
    · by_cases hlen : u.length < word.length
      · have hcut : cutCommand u = true :=
          List.any_eq_true.mpr ⟨word, hword, by simp [hlen, hge]⟩
        rw [h] at hcut
        cases hcut
      · rw [hge.eq_of_length_le (by omega)]
  · exact fun hpre => hpre.trans (List.prefix_append u x)

/-- What an iteration finds outside of DATA does not depend on the bytes behind
a read that cuts no command. -/
theorem commandStep_append (req : Request) {u : Bytes} (h : cutCommand u = false) (x : Bytes) :
    commandStep req (u ++ x) = commandStep req u := by
  simp only [commandStep]
  rw [startsWith_append_of_not_cut (by simp [commandWords]) h,
    startsWith_append_of_not_cut (by simp [commandWords]) h,
    startsWith_append_of_not_cut (by simp [commandWords]) h,
    startsWith_append_of_not_cut (by simp [commandWords]) h,
    startsWith_append_of_not_cut (by simp [commandWords]) h]

theorem commandStep_of_not_starts (req : Request) {u : Bytes} (h : startsCommand u = false) :
    commandStep req u = ⟨req, none, 0, false⟩ := by
  simp only [startsCommand, commandWords, List.any_cons, List.any_nil, Bool.or_eq_false_iff] at h
  obtain ⟨h1, h2, h3, h4, h5, -⟩ := h
  simp [commandStep, h1, h2, h3, h4, h5]

/-! ## The conversation on the stream -/

/-- The conversation on a stream, up to the byte that ends it. -/
def session (conf : Config) (req : Request) : Bytes → Dialogue
  | [] => ⟨req, [], false⟩
  | cur :: rest =>
    let it := iterate conf [] req cur rest
    if it.error ∨ it.request.quit then ⟨it.request, it.reply.toList, it.error⟩
    else
      let d := session conf it.request (rest.drop it.skip)
      { d with replies := it.reply.toList ++ d.replies }
termination_by data => data.length
decreasing_by
  simp only [List.length_drop, List.length_cons]
  omega

/-- The conversation is over. -/
def Dialogue.ended (d : Dialogue) : Bool := d.error || d.request.quit

/-- One part of a conversation and then the next. -/
def Dialogue.andThen (d : Dialogue) (next : Request → Dialogue) : Dialogue :=
  if d.ended then d
  else { next d.request with replies := d.replies ++ (next d.request).replies }

theorem andThen_replies (rs : List Bytes) (d : Dialogue) (next : Request → Dialogue) :
    { d.andThen next with replies := rs ++ (d.andThen next).replies } =
      ({ d with replies := rs ++ d.replies } : Dialogue).andThen next := by
  have hended : ({ d with replies := rs ++ d.replies } : Dialogue).ended = d.ended := rfl
  simp only [Dialogue.andThen, hended]
  by_cases h : d.ended = true
  · simp only [if_pos h]
  · simp only [if_neg h, List.append_assoc]

/-- **A read that depends on its own bytes only**: it cuts no command, nothing
that looks like one follows the end of the session, and a read that overflows
the data buffer has made no reply before (`replied`) that would be dropped. -/
def cleanRead (conf : Config) (replied : Bool) (req : Request) : Bytes → Bool
  | [] => true
  | cur :: rest =>
    if req.inData = false ∧ cutCommand (cur :: rest) = true then false
    else
      let it := iterate conf [] req cur rest
      if it.error then !replied
      else if it.request.quit then quiet (rest.drop it.skip)
      else cleanRead conf (replied || it.reply.isSome) it.request (rest.drop it.skip)
termination_by data => data.length
decreasing_by
  simp only [List.length_drop, List.length_cons]
  omega

/-- Every read up to the end of the session is clean. -/
def cleanReads (conf : Config) (req : Request) : List Bytes → Bool
  | [] => true
  | read :: reads =>
    cleanRead conf false req read &&
      ((session conf req read).ended || cleanReads conf (session conf req read).request reads)

/-! ## A clean read follows the stream -/

/-- An iteration that cuts no command looks at its own read only. -/
theorem iterate_append (conf : Config) (ahead : Bytes) (req : Request) (cur : UInt8)
    (rest t : Bytes) (h : ¬(req.inData = false ∧ cutCommand (cur :: rest) = true)) :
    iterate conf ahead req cur (rest ++ t) = iterate conf [] req cur rest := by
  rw [iterate, iterate]
  by_cases hdata : req.inData = false
  · have hcut : cutCommand (cur :: rest) = false := by simpa [hdata] using h
    have := commandStep_append req hcut (t ++ ahead)
    rw [if_pos hdata, if_pos hdata, List.append_nil, ← this]
    simp
  · rw [if_neg hdata, if_neg hdata]

theorem iterate_ahead (conf : Config) (ahead : Bytes) (req : Request) (cur : UInt8)
    (rest : Bytes) (h : ¬(req.inData = false ∧ cutCommand (cur :: rest) = true)) :
    iterate conf ahead req cur rest = iterate conf [] req cur rest := by
  have := iterate_append conf ahead req cur rest [] h
  simpa using this

/-- Only a whole `DATA` command is skipped. -/
theorem iterate_skip_le (conf : Config) (req : Request) (cur : UInt8) (rest : Bytes) :
    (iterate conf [] req cur rest).skip ≤ rest.length := by
  by_cases hdata : req.inData = true
  · obtain ⟨alloc, hstep⟩ := iterate_data conf [] hdata cur rest
    rw [hstep]
    split_ifs <;> exact Nat.zero_le _
  · rw [iterate, if_pos (by simpa using hdata), commandStep]
    split
    · rename_i hstart
      have hlen := (startsWith_iff.mp hstart).length_le
      have hword : (bytes "DATA\r\n").length = 6 := by decide
      simp only [List.append_nil, List.length_cons, hword] at hlen ⊢
      omega
    · split_ifs <;> exact Nat.zero_le _

/-- A request that now asks to quit is outside of DATA, and was replied to. -/
theorem iterate_quit {conf : Config} {ahead : Bytes} {req : Request} {cur : UInt8} {rest : Bytes}
    (hquit : req.quit = false) (h : (iterate conf ahead req cur rest).request.quit = true) :
    (iterate conf ahead req cur rest).request.inData = false ∧
      (iterate conf ahead req cur rest).reply.isSome = true := by
  by_cases hdata : req.inData = true
  · obtain ⟨alloc, hstep⟩ := iterate_data conf ahead hdata cur rest
    rw [hstep] at h ⊢
    split_ifs at h ⊢
    all_goals simp_all
  · have hdata' : req.inData = false := by simpa using hdata
    rw [iterate, if_pos hdata', commandStep] at h ⊢
    split_ifs at h ⊢
    all_goals simp_all

/-- An overflow of the data buffer makes no reply. -/
theorem iterate_error {conf : Config} {ahead : Bytes} {req : Request} {cur : UInt8}
    {rest : Bytes} (h : (iterate conf ahead req cur rest).error = true) :
    (iterate conf ahead req cur rest).reply = none := by
  by_cases hdata : req.inData = true
  · obtain ⟨alloc, hstep⟩ := iterate_data conf ahead hdata cur rest
    rw [hstep] at h ⊢
    split_ifs at h ⊢
    all_goals simp_all
  · have hdata' : req.inData = false := by simpa using hdata
    rw [iterate, if_pos hdata', commandStep] at h ⊢
    split_ifs at h ⊢

/-- Nothing happens in a quiet rest of a read. -/
theorem dialogue_quiet (conf : Config) (ahead : Bytes) {req : Request} (hdata : req.inData = false)
    {u : Bytes} (h : quiet u = true) : dialogue conf ahead req u = ⟨req, [], false⟩ := by
  induction u with
  | nil => rw [dialogue]
  | cons c u ih =>
    simp only [quiet, Bool.and_eq_true, Bool.not_eq_true'] at h
    obtain ⟨⟨hcut, hstart⟩, hrest⟩ := h
    have hstep : iterate conf ahead req c u = ⟨req, none, 0, false⟩ := by
      rw [iterate_ahead conf ahead req c u (by simp [hcut]), iterate, if_pos hdata,
        List.append_nil, commandStep_of_not_starts req hstart]
    rw [dialogue, hstep]
    simp [ih hrest]

/-- **A clean read is the conversation on its bytes.** -/
theorem dialogue_clean (conf : Config) (ahead : Bytes) {replied : Bool} {req : Request}
    {read : Bytes} (hquit : req.quit = false) (h : cleanRead conf replied req read = true) :
    dialogue conf ahead req read = session conf req read := by
  fun_induction cleanRead conf replied req read with
  | case1 replied req => rw [dialogue, session]
  | case2 replied req cur rest hcut => cases h
  | case3 replied req cur rest hcut it herr =>
    rw [dialogue, session, iterate_ahead conf ahead req cur rest hcut]
    simp [show iterate conf [] req cur rest = it from rfl, herr]
  | case4 replied req cur rest hcut it herr hq =>
    obtain ⟨hdata, -⟩ := iterate_quit hquit hq
    rw [dialogue, session, iterate_ahead conf ahead req cur rest hcut]
    simp only [show iterate conf [] req cur rest = it from rfl, herr, hq] at hdata ⊢
    simp [dialogue_quiet conf ahead hdata h]
  | case5 replied req cur rest hcut it herr hq ih =>
    rw [dialogue, session, iterate_ahead conf ahead req cur rest hcut]
    simp only [show iterate conf [] req cur rest = it from rfl, herr, hq,
      ih (by simpa using hq) h]
    simp

/-- **The conversation goes on behind a clean read.** -/
theorem session_append (conf : Config) {replied : Bool} {req : Request} {read : Bytes}
    (hquit : req.quit = false) (h : cleanRead conf replied req read = true) (t : Bytes) :
    session conf req (read ++ t) = (session conf req read).andThen (session conf · t) := by
  fun_induction cleanRead conf replied req read with
  | case1 replied req =>
    rw [session, Dialogue.andThen, if_neg (by simp [Dialogue.ended, hquit])]
    rfl
  | case2 replied req cur rest hcut => cases h
  | case3 replied req cur rest hcut it herr =>
    rw [List.cons_append, session, session, iterate_append conf [] req cur rest t hcut]
    simp [show iterate conf [] req cur rest = it from rfl, herr, Dialogue.andThen, Dialogue.ended]
  | case4 replied req cur rest hcut it herr hq =>
    rw [List.cons_append, session, session, iterate_append conf [] req cur rest t hcut]
    simp [show iterate conf [] req cur rest = it from rfl, hq, Dialogue.andThen, Dialogue.ended]
  | case5 replied req cur rest hcut it herr hq ih =>
    have hskip : (rest ++ t).drop it.skip = rest.drop it.skip ++ t :=
      List.drop_append_of_le_length (iterate_skip_le conf req cur rest)
    rw [List.cons_append, session, session, iterate_append conf [] req cur rest t hcut]
    simp only [show iterate conf [] req cur rest = it from rfl, herr, hq, hskip,
      ih (by simpa using hq) h, Bool.false_eq_true, or_self, if_false]
    exact andThen_replies _ _ _

/-- A clean read that overflows the data buffer has made no reply. -/
theorem clean_error {conf : Config} {replied : Bool} {req : Request} {read : Bytes}
    (hquit : req.quit = false) (h : cleanRead conf replied req read = true)
    (herr : (session conf req read).error = true) :
    replied = false ∧ (session conf req read).replies = [] := by
  fun_induction cleanRead conf replied req read with
  | case1 replied req =>
    rw [session] at herr
    cases herr
  | case2 replied req cur rest hcut => cases h
  | case3 replied req cur rest hcut it hit =>
    have hreply : it.reply = none := iterate_error hit
    rw [session]
    simp only [show iterate conf [] req cur rest = it from rfl, hit, hreply]
    exact ⟨by simpa using h, by simp⟩
  | case4 replied req cur rest hcut it hit hq =>
    rw [session] at herr
    simp only [show iterate conf [] req cur rest = it from rfl, hit, hq] at herr
    simp at herr
  | case5 replied req cur rest hcut it hit hq ih =>
    rw [session] at herr ⊢
    simp only [show iterate conf [] req cur rest = it from rfl, hit, hq, Bool.false_eq_true,
      or_self, if_false] at herr ⊢
    obtain ⟨hreplied, hreplies⟩ := ih (by simpa using hq) h herr
    rw [Bool.or_eq_false_iff] at hreplied
    have hreply : it.reply = none := by simpa using hreplied.2
    exact ⟨hreplied.1, by simp [hreply, hreplies]⟩

/-! ## Runs over the reads -/

/-- What `malloc` returns, in every event of a run. -/
structure Heap where
  requestMem : Request
  mailMem : Mail
  dataTail : Bytes

/-- An event that reads `got` into a buffer over the memory `mem`. -/
def Heap.env (heap : Heap) (got mem : Bytes) : Env where
  recv := some got
  readMem := mem
  send := sendAll
  requestMem := heap.requestMem
  mailMem := heap.mailMem
  dataTail := heap.dataTail

/-- A freshly started connection. -/
def freshWorld (heap : Heap) (queue : QueueFile Mail) : World where
  conn := { connectionStart heap.requestMem with status := .reading }
  queue := queue
  sent := []
  added := []

/-- `connection_handle` on the successive reads, each with the memory of its
buffer, until the connection is closed. -/
def runReads (conf : Config) (heap : Heap) (w : World) : List (Bytes × Bytes) → Except Fault World
  | [] => .ok w
  | read :: reads =>
    if w.conn.status = .reading then do
      let w ← connectionHandle conf (heap.env read.1 read.2) w
      runReads conf heap w reads
    else .ok w

/-- What the client and the queue see of a run. -/
structure Outcome where
  sent : Bytes
  added : List Mail
  status : ConnStatus

def World.outcome (w : World) : Outcome := ⟨w.sent, w.added, w.conn.status⟩

/-- What a whole conversation comes to. -/
def sessionOutcome (heap : Heap) (w : World) (d : Dialogue) :
    Except Fault Outcome :=
  let sent := w.sent ++ d.replies.flatten
  if d.error then .ok ⟨sent, w.added, .inactive⟩
  else if d.request.process then do
    let (_, w) ← processData (heap.env [] []) d.request w
    .ok ⟨sent, w.added, .inactive⟩
  else .ok ⟨sent, w.added, if d.request.quit then .inactive else .reading⟩

/-- A read the server can take: not empty, and within the read buffer. -/
def Admissible (conf : Config) (reads : List (Bytes × Bytes)) : Prop :=
  ∀ read ∈ reads, read.1 ≠ [] ∧ (read.1.length : Int) ≤ conf.readBufferSize

/-- Outside of DATA a request is a fresh one. -/
def FromHeap (heap : Heap) (req : Request) : Prop :=
  req.inData = false → req = requestInit heap.requestMem

theorem FromHeap.iterate {heap : Heap} {req : Request} (h : FromHeap heap req) {conf : Config}
    (cur : UInt8) (rest : Bytes) (hquit : (iterate conf [] req cur rest).request.quit = false) :
    FromHeap heap (iterate conf [] req cur rest).request := by
  by_cases hdata : req.inData = true
  · obtain ⟨alloc, hstep⟩ := iterate_data conf [] hdata cur rest
    rw [hstep] at hquit ⊢
    split_ifs at hquit ⊢
    · exact fun hno => absurd hdata (by simp [show req.inData = false from hno])
    · exact fun hno => absurd hdata (by simp [show req.inData = false from hno])
  · have hdata' : req.inData = false := by simpa using hdata
    rw [Server.iterate, if_pos hdata', commandStep] at hquit ⊢
    split_ifs at hquit ⊢
    · exact fun hno => by cases hno
    all_goals exact h

theorem FromHeap.session {heap : Heap} {req : Request} (h : FromHeap heap req) (conf : Config)
    (read : Bytes) (hquit : (session conf req read).request.quit = false) :
    FromHeap heap (session conf req read).request := by
  fun_induction Server.session conf req read with
  | case1 req => exact h
  | case2 req cur rest it hended => exact h.iterate cur rest hquit
  | case3 req cur rest it hended d ih =>
    simp only [not_or] at hended
    exact ih (h.iterate cur rest (by simpa using hended.2)) hquit

theorem processData_sent (env : Env) (req : Request) (w : World) (c : Connection) (sent : Bytes) :
    processData env req { w with conn := c, sent := sent } =
      (processData env req w).map fun p => (p.1, { p.2 with conn := c, sent := sent }) := by
  simp only [processData]
  split
  · rfl
  · split
    · cases createMail env.mailMem (requestParseData req env.dataTail).1 <;> rfl
    · rfl

/-- The replies before a part of the conversation are sent before it. -/
theorem sessionOutcome_replies (heap : Heap) (w : World) (c : Connection)
    (rs : List Bytes) (d : Dialogue) :
    sessionOutcome heap { w with conn := c, sent := w.sent ++ rs.flatten } d =
      sessionOutcome heap w { d with replies := rs ++ d.replies } := by
  simp only [sessionOutcome, processData_sent, List.flatten_append, List.append_assoc]
  split
  · rfl
  · split
    · cases processData (heap.env [] []) d.request w <;> rfl
    · rfl

theorem runReads_closed (conf : Config) (heap : Heap) {w : World} (reads : List (Bytes × Bytes))
    (h : w.conn.status ≠ .reading) : runReads conf heap w reads = .ok w := by
  cases reads with
  | nil => rfl
  | cons read reads => rw [runReads, if_neg h]

/-- **A clean read of a connection that waits.** -/
theorem connectionHandle_clean (conf : Config) (heap : Heap) {w : World} {req : Request}
    (hw : Waiting w.conn req) {got : Bytes} (mem : Bytes) (hne : got ≠ [])
    (hlen : (got.length : Int) ≤ conf.readBufferSize)
    (hclean : cleanRead conf false req got = true) :
    connectionHandle conf (heap.env got mem) w =
      conclude conf (heap.env got mem) (session conf req got) w := by
  have hreceived : received conf (heap.env got mem) = some got := by
    have hpos : 0 < got.length := List.length_pos_iff.mpr hne
    rw [received, if_pos (by omega)]
    show some (got.take conf.readBufferSize.toNat) = some got
    rw [List.take_of_length_le (by omega)]
  rw [connectionHandle_waiting conf (heap.env got mem) w hw, hreceived]
  cases got with
  | nil => exact absurd rfl hne
  | cons c got => simp only [handleRead, dialogue_clean conf _ hw.ready.quit hclean]

theorem answer_outcome (conf : Config) (heap : Heap) (got mem : Bytes) (req : Request)
    (replies : List Bytes) (w : World) :
    (answer conf (heap.env got mem) req replies w).outcome =
      ⟨w.sent ++ replies.flatten, w.added, if req.quit then .inactive else .reading⟩ := by
  have hsend : ∀ k n, (heap.env got mem).send k n = some n := fun _ _ => rfl
  simp only [answer, sendResponse_all conf hsend, World.outcome, nextConnection]
  cases req.quit <;> rfl

/-- **A conversation that is over** comes to what its last read did. -/
theorem conclude_ended (conf : Config) (heap : Heap) (w : World) {d : Dialogue}
    (hended : d.ended = true) (herr : d.error = true → d.replies = [])
    (got mem : Bytes) :
    (conclude conf (heap.env got mem) d w).map World.outcome = sessionOutcome heap w d := by
  simp only [conclude, sessionOutcome]
  cases he : d.error with
  | true => simp [Except.map, World.outcome, herr he, connectionReset]
  | false =>
    have hquit : d.request.quit = true := by simpa [Dialogue.ended, he] using hended
    cases hprocess : d.request.process with
    | false => simp [Except.map, answer_outcome]
    | true =>
      have hp : processData (heap.env got mem) d.request w =
          processData (heap.env [] []) d.request w := rfl
      rw [hp]
      cases hp : processData (heap.env [] []) d.request w with
      | error e => rfl
      | ok p =>
        have hq := processData_quit (show processData _ _ _ = .ok (p.1, p.2) from hp)
        have hsent : p.2.sent = w.sent := by
          have hkeep := processData_sent (heap.env [] []) d.request w w.conn w.sent
          rw [show ({ w with conn := w.conn, sent := w.sent } : World) = w from rfl, hp] at hkeep
          exact congrArg (·.2.sent) (Except.ok.inj hkeep)
        simp [bind, Except.bind, Except.map, answer_outcome, hsent, hq, hquit]

theorem sessionOutcome_status {heap : Heap} {w : World} {d : Dialogue}
    (hended : d.ended = true) {o : Outcome} (h : sessionOutcome heap w d = .ok o) :
    o.status = .inactive := by
  simp only [sessionOutcome] at h
  cases he : d.error with
  | true =>
    simp only [he, if_true, Except.ok.injEq] at h
    rw [← h]
  | false =>
    have hquit : d.request.quit = true := by simpa [Dialogue.ended, he] using hended
    cases hprocess : d.request.process with
    | false =>
      simp only [he, hprocess, hquit, Bool.false_eq_true, if_false, if_true,
        Except.ok.injEq] at h
      rw [← h]
    | true =>
      cases hp : processData (heap.env [] []) d.request w with
      | error e => simp [he, hprocess, hp, bind, Except.bind] at h
      | ok p =>
        simp only [he, hprocess, hp, Bool.false_eq_true, if_false, if_true, bind, Except.bind,
          Except.ok.injEq] at h
        rw [← h]

/-- A conversation that goes on leaves a connection that waits. -/
theorem conclude_waiting (conf : Config) (heap : Heap) (w : World) {req : Request} {got : Bytes}
    (hfrom : FromHeap heap req) (mem : Bytes)
    (hd : InDialogue (session conf req got).request)
    (hended : (session conf req got).ended = false) :
    ∃ c, Waiting c (session conf req got).request ∧
      conclude conf (heap.env got mem) (session conf req got) w =
        .ok { w with conn := c, sent := w.sent ++ (session conf req got).replies.flatten } := by
  have hsend : ∀ k n, (heap.env got mem).send k n = some n := fun _ _ => rfl
  have hkeep := hfrom.session conf got
  generalize session conf req got = d at hd hended hkeep ⊢
  obtain ⟨herr, hquit⟩ : d.error = false ∧ d.request.quit = false := by
    simpa [Dialogue.ended] using hended
  have hprocess : d.request.process = false := by
    by_contra hp
    simp [hd.quit (by simpa using hp)] at hquit
  have hrequest : (if d.request.inData then d.request else requestInit heap.requestMem) =
      d.request := by
    by_cases hdata : d.request.inData = true
    · rw [if_pos hdata]
    · rw [if_neg hdata, ← hkeep hquit (by simpa using hdata)]
  have hnext : nextConnection (heap.env got mem) d.request true =
      ⟨.reading, some d.request, some responseInit, none, 0⟩ := by
    simp only [nextConnection, hquit, and_self, if_true, show (heap.env got mem).requestMem =
      heap.requestMem from rfl, hrequest]
  refine ⟨⟨.reading, some d.request, some responseInit, none, 0⟩, ⟨rfl, rfl, rfl, rfl, ?_⟩, ?_⟩
  · exact ⟨hd.body, hd.bodyLen, hprocess, hquit, fun hdata => ⟨_, hkeep hquit hdata⟩⟩
  · simp only [conclude, herr, hprocess, Bool.false_eq_true, if_false, answer,
      sendResponse_all conf hsend, hnext]

/-- **Clean reads come to the conversation on the whole stream.** -/
theorem runReads_clean (conf : Config) (heap : Heap) (w : World) {req : Request}
    (reads : List (Bytes × Bytes)) (hw : Waiting w.conn req) (hfrom : FromHeap heap req)
    (hreads : Admissible conf reads) (hclean : cleanReads conf req (reads.map Prod.fst) = true) :
    (runReads conf heap w reads).map World.outcome =
      sessionOutcome heap w (session conf req (reads.map Prod.fst).flatten) := by
  induction reads generalizing w req with
  | nil =>
    simp [runReads, session, sessionOutcome, Except.map, World.outcome, hw.status,
      hw.ready.process, hw.ready.quit]
  | cons read reads ih =>
    obtain ⟨got, mem⟩ := read
    obtain ⟨hne, hlen⟩ := hreads (got, mem) List.mem_cons_self
    simp only [List.map_cons, cleanReads, Bool.and_eq_true, Bool.or_eq_true] at hclean
    obtain ⟨hread, hrest⟩ := hclean
    have hd : InDialogue (session conf req got).request := by
      rw [← dialogue_clean conf [] hw.ready.quit hread]
      exact hw.ready.inDialogue.dialogue conf [] got
    rw [runReads, if_pos hw.status, connectionHandle_clean conf heap hw mem hne hlen hread,
      List.map_cons, List.flatten_cons, session_append conf hw.ready.quit hread]
    cases hended : (session conf req got).ended with
    | true =>
      have hlast := conclude_ended conf heap w hended
        (fun herr => (clean_error hw.ready.quit hread herr).2) got mem
      rw [Dialogue.andThen, if_pos hended, ← hlast]
      cases hstep : conclude conf (heap.env got mem) (session conf req got) w with
      | error e => rfl
      | ok w1 =>
        -- what was closed reads nothing more
        rw [hstep] at hlast
        have hstatus : w1.conn.status = .inactive := sessionOutcome_status hended hlast.symm
        simp only [bind, Except.bind]
        rw [runReads_closed conf heap reads (by simp [hstatus])]
    | false =>
      obtain ⟨c, hwait, hstep⟩ := conclude_waiting conf heap w hfrom mem hd hended
      have hnext := ih { w with
        conn := c, sent := w.sent ++ (session conf req got).replies.flatten } hwait
        (hfrom.session conf got (by simpa [Dialogue.ended] using (Bool.or_eq_false_iff.mp hended).2))
        (fun read hmem => hreads read (List.mem_cons_of_mem _ hmem))
        (by simpa [hended] using hrest)
      rw [hstep, Dialogue.andThen, hended, if_neg Bool.false_ne_true, ← sessionOutcome_replies]
      exact hnext

/-! ## Reads that are not clean -/

/-- The replies of a read that go out, behind those made before in the same
read: an error drops them all. -/
def Dialogue.out (before : List Bytes) (d : Dialogue) : List Bytes :=
  if d.error then [] else before ++ d.replies

/-- No command word starts inside a cut one. -/
theorem commandWords_inside : ∀ word ∈ commandWords, ∀ n < word.length, ∀ k < n,
    startsCommand ((word.take n).drop k) = false := by
  decide +kernel

/-- A command word starts a reply. -/
theorem commandStep_reply {req : Request} {here : Bytes} (h : startsCommand here = true) :
    (commandStep req here).reply.isSome = true := by
  simp only [startsCommand, commandWords, List.any_cons, List.any_nil, Bool.or_false,
    Bool.or_eq_true] at h
  rw [commandStep]
  split_ifs
  all_goals first | rfl | simp_all

/-- Outside of DATA, an iteration makes no error. -/
theorem iterate_command (conf : Config) (ahead : Bytes) {req : Request} (hdata : req.inData = false)
    (cur : UInt8) (rest : Bytes) :
    iterate conf ahead req cur rest = commandStep req (cur :: rest ++ ahead) := by
  rw [iterate, if_pos hdata]

/-- A reply is among those of the dialogue it starts. -/
theorem dialogue_replies_ne_nil {conf : Config} {ahead : Bytes} {req : Request} {cur : UInt8}
    {rest : Bytes} (h : (iterate conf ahead req cur rest).reply.isSome = true) :
    (dialogue conf ahead req (cur :: rest)).replies ≠ [] := by
  obtain ⟨reply, hreply⟩ := Option.isSome_iff_exists.mp h
  rw [dialogue]
  simp only [hreply]
  split <;> simp

/-- Completing a cut command leads at most to the end of the read. -/
theorem commandWords_afterData : ∀ word ∈ commandWords, ∀ n < word.length,
    afterData (word.drop n) (word.take n) = none ∨
      afterData (word.drop n) (word.take n) = some [] := by
  decide +kernel

/-- **The memory behind a cut command decides whether it is one.** -/
theorem cutCommand_ahead (conf : Config) {req : Request} (hdata : req.inData = false)
    {cur : UInt8} {rest : Bytes} (h : cutCommand (cur :: rest) = true) :
    dialogue conf [] req (cur :: rest) = ⟨req, [], false⟩ ∧
      ∃ ahead, (dialogue conf ahead req (cur :: rest)).error = false ∧
        (dialogue conf ahead req (cur :: rest)).replies ≠ [] := by
  obtain ⟨word, hword, hcut⟩ := List.any_eq_true.mp h
  simp only [Bool.and_eq_true, List.isPrefixOf_iff_prefix, decide_eq_true_eq] at hcut
  obtain ⟨⟨x, hx⟩, hlen⟩ := hcut
  have htake : word.take (cur :: rest).length = cur :: rest := by rw [← hx, List.take_left' rfl]
  have hdrop : word.drop (cur :: rest).length = x := by rw [← hx, List.drop_left' rfl]
  constructor
  · -- none of its suffixes starts a command word
    have hsuffix : ∀ k < (cur :: rest).length, startsCommand ((cur :: rest).drop k) = false := by
      intro k hk
      have hinside := commandWords_inside word hword _ hlen k hk
      rwa [htake] at hinside
    generalize cur :: rest = u at hsuffix
    induction u with
    | nil => rw [dialogue]
    | cons c u ih =>
      have hstep : iterate conf [] req c u = ⟨req, none, 0, false⟩ := by
        rw [iterate_command conf [] hdata, List.append_nil]
        exact commandStep_of_not_starts req (hsuffix 0 (by simp))
      rw [dialogue, hstep]
      simp [ih fun k hk => hsuffix (k + 1) (by simpa using hk)]
  -- the rest of the word lies behind the read
  · refine ⟨x, ?_, dialogue_replies_ne_nil ?_⟩
    · have hafter := commandWords_afterData word hword _ hlen
      rw [htake, hdrop] at hafter
      obtain ⟨quit, replies, -, hd⟩ := dialogue_command conf x req (cur :: rest) hdata
      rcases hafter with hafter | hafter
      · rw [hafter] at hd
        rw [hd]
      · rw [hafter] at hd
        rw [hd, dialogue]
    · rw [iterate_command conf x hdata]
      refine commandStep_reply (List.any_eq_true.mpr ⟨word, hword, ?_⟩)
      rw [startsWith_iff, ← hx]

/-- **What is not quiet is heard**, for some memory behind it. -/
theorem not_quiet_ahead (conf : Config) {req : Request} (hdata : req.inData = false) {u : Bytes}
    (h : quiet u = false) :
    ∃ ahead, (dialogue conf ahead req u).error = true ∨ (dialogue conf ahead req u).replies ≠ [] := by
  induction u with
  | nil => cases h
  | cons c u ih =>
    by_cases hcut : cutCommand (c :: u) = true
    · obtain ⟨-, ahead, -, hne⟩ := cutCommand_ahead conf hdata hcut
      exact ⟨ahead, .inr hne⟩
    · by_cases hstart : startsCommand (c :: u) = true
      · refine ⟨[], .inr (dialogue_replies_ne_nil ?_)⟩
        rw [iterate_command conf [] hdata, List.append_nil]
        exact commandStep_reply hstart
      · rw [Bool.not_eq_true] at hcut hstart
        have hrest : quiet u = false := by simpa [quiet, hcut, hstart] using h
        obtain ⟨ahead, hheard⟩ := ih hrest
        have hstep : iterate conf ahead req c u = ⟨req, none, 0, false⟩ := by
          rw [iterate_ahead conf ahead req c u (by simp [hcut]), iterate_command conf [] hdata,
            List.append_nil, commandStep_of_not_starts req hstart]
        refine ⟨ahead, ?_⟩
        rw [dialogue, hstep]
        simpa using hheard

/-- A read that follows the stream over every memory is clean. -/
theorem clean_of_out (conf : Config) {replied : Bool} {req : Request} {read : Bytes}
    (before : List Bytes) (hbefore : replied = !before.isEmpty) (hquit : req.quit = false)
    (h : ∀ ahead, (dialogue conf ahead req read).out before =
      before ++ (session conf req read).replies) :
    cleanRead conf replied req read = true := by
  fun_induction cleanRead conf replied req read generalizing before with
  | case1 replied req => rfl
  | case2 replied req cur rest hcut =>
    -- a cut command is answered over one memory and not over another
    obtain ⟨halone, ahead, herr, hne⟩ := cutCommand_ahead conf hcut.1 hcut.2
    have h0 := h []
    have h1 := h ahead
    rw [← h0, halone, Dialogue.out, herr, Dialogue.out] at h1
    simp [hne] at h1
  | case3 replied req cur rest hcut it herr =>
    have h0 := h []
    rw [dialogue, session] at h0
    simp only [show iterate conf [] req cur rest = it from rfl, herr, Dialogue.out, if_true,
      true_or] at h0
    -- an error drops the replies before it, so there were none
    obtain ⟨rfl, -⟩ := List.append_eq_nil_iff.mp h0.symm
    simp [hbefore]
  | case4 replied req cur rest hcut it herr hq =>
    -- after QUIT the session is over, the dialogue goes on
    obtain ⟨hdata, hreply⟩ := iterate_quit hquit hq
    by_contra hloud
    obtain ⟨ahead, hheard⟩ := not_quiet_ahead conf hdata (by simpa using hloud)
    have h0 := h ahead
    rw [dialogue, session, iterate_ahead conf ahead req cur rest hcut] at h0
    simp only [show iterate conf [] req cur rest = it from rfl, herr, hq] at h0 hheard hreply
    obtain ⟨reply, hreply⟩ := Option.isSome_iff_exists.mp hreply
    rcases hheard with hheard | hheard
    · simp [Dialogue.out, hheard, hreply] at h0
    · by_cases hd : (dialogue conf ahead it.request (rest.drop it.skip)).error = true
      · simp [Dialogue.out, hd, hreply] at h0
      · simp [Dialogue.out, hd, hreply, hheard] at h0
  | case5 replied req cur rest hcut it herr hq ih =>
    refine ih (before ++ it.reply.toList) ?_ (by simpa using hq) ?_
    · rw [hbefore]
      cases it.reply <;> simp
    · intro ahead
      have h0 := h ahead
      rw [dialogue, session, iterate_ahead conf ahead req cur rest hcut] at h0
      simp only [show iterate conf [] req cur rest = it from rfl, herr, hq] at h0
      simpa [Dialogue.out] using h0

theorem cleanRead_iff (conf : Config) {req : Request} (hquit : req.quit = false) (read : Bytes) :
    cleanRead conf false req read = true ↔
      ∀ ahead, (dialogue conf ahead req read).out [] = (session conf req read).replies := by
  constructor
  · intro h ahead
    rw [dialogue_clean conf ahead hquit h, Dialogue.out, List.nil_append]
    split
    · exact (clean_error hquit h ‹_›).2.symm
    · rfl
  · exact fun h => clean_of_out conf [] rfl hquit (by simpa using h)

/-- **Segmentation does not matter between clean reads**: two ways of splitting
a stream have the same outcome when every read of both is clean, whatever lies
in the read buffers behind them. A read is clean exactly when the replies to it
follow the stream over every memory behind it. -/
theorem segmentation_independent (conf : Config) :
    (∀ (heap : Heap) (queue : QueueFile Mail) (reads reads' : List (Bytes × Bytes)),
      Admissible conf reads → Admissible conf reads' →
      (reads.map Prod.fst).flatten = (reads'.map Prod.fst).flatten →
      cleanReads conf (requestInit heap.requestMem) (reads.map Prod.fst) = true →
      cleanReads conf (requestInit heap.requestMem) (reads'.map Prod.fst) = true →
      (runReads conf heap (freshWorld heap queue) reads).map World.outcome =
        (runReads conf heap (freshWorld heap queue) reads').map World.outcome) ∧
    ∀ (req : Request) (read : Bytes), Ready req →
      (cleanRead conf false req read = true ↔
        ∀ ahead, (dialogue conf ahead req read).out [] = (session conf req read).replies) := by
  refine ⟨?_, fun req read h => cleanRead_iff conf h.quit read⟩
  intro heap queue reads reads' hreads hreads' hstream hclean hclean'
  have hstart : Waiting (freshWorld heap queue).conn (requestInit heap.requestMem) := .start _
  have hfrom : FromHeap heap (requestInit heap.requestMem) := fun _ => rfl
  rw [runReads_clean conf heap _ reads hstart hfrom hreads hclean,
    runReads_clean conf heap _ reads' hstart hfrom hreads' hclean', hstream]

/-- Memory of zero bytes. -/
def zeroHeap : Heap := ⟨.zero, .zero, [0, 0]⟩

instance (conf : Config) (reads : List (Bytes × Bytes)) : Decidable (Admissible conf reads) :=
  inferInstanceAs (Decidable (∀ read ∈ reads, _))

/-- A mail in one read, and in three that cut its content. -/
theorem segmentation_independent_shortMail :
    let cut := [(bytes "DATA\r\nA", []), (bytes ": b\r\n\r\nc\r", bytes "QUIT"),
      (bytes "\n.\r\n", bytes "EHLO EHLO")]
    (runReads .default zeroHeap (freshWorld zeroHeap (smallQueue 0)) [(shortMail, [])]).map
        World.outcome =
      (runReads .default zeroHeap (freshWorld zeroHeap (smallQueue 0)) cut).map World.outcome ∧
    cleanRead .default false (requestInit .zero) (bytes "EH") = false := by
  intro cut
  obtain ⟨hruns, hread⟩ := segmentation_independent .default
  constructor
  · exact hruns zeroHeap (smallQueue 0) [(shortMail, [])] cut (by decide +kernel)
      (by decide +kernel) (by decide +kernel) (by decide +kernel) (by decide +kernel)
  · rw [← Bool.not_eq_true, hread _ _ (.init _)]
    exact fun h => absurd (h (bytes "LO")) (by decide +kernel)

/-- **A cut command is lost**: `EHLO` in one read is replied to, and in two
reads it is not. -/
theorem cutHello_unanswered :
    ¬∀ (conf : Config) (heap : Heap) (queue : QueueFile Mail) (reads reads' : List (Bytes × Bytes)),
      Admissible conf reads → Admissible conf reads' →
      (reads.map Prod.fst).flatten = (reads'.map Prod.fst).flatten →
      (runReads conf heap (freshWorld heap queue) reads).map World.outcome =
        (runReads conf heap (freshWorld heap queue) reads').map World.outcome := by
  intro h
  have heq := h .default zeroHeap (smallQueue 0) [(bytes "EHLO\r\n", [])]
    [(bytes "EH", []), (bytes "LO\r\n", [])] (by decide +kernel) (by decide +kernel)
    (by decide +kernel)
  have hsent := congrArg (fun o => (o.toOption.map Outcome.sent)) heq
  exact absurd hsent (by decide +kernel)

end ComfirmDmarc.Server
