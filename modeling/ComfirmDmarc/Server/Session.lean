import ComfirmDmarc.Server.Connection
import ComfirmDmarc.Lib.Transition

/-!
# Server -- what one event does

Between two events a connection is closed or waits for the client. From there
`workerEvent` is one dialogue: the received bytes are read by
`request_parse_commands`, a finished transaction is queued, the replies go
out, and the request is kept only in the middle of DATA.
-/

namespace ComfirmDmarc.Server

open CMemory Queue Transition

/-! ## Between events -/

/-- A request a read can start with. -/
structure Ready (req : Request) : Prop where
  body : req.body = none
  bodyLen : req.bodyLen = 0
  process : req.process = false
  quit : req.quit = false
  fresh : req.inData = false → ∃ mem, req = requestInit mem

theorem Ready.init (mem : Request) : Ready (requestInit mem) :=
  ⟨rfl, rfl, rfl, rfl, fun _ => ⟨mem, rfl⟩⟩

/-- A connection that waits for the client in the middle of `req`. -/
structure Waiting (c : Connection) (req : Request) : Prop where
  status : c.status = .reading
  request : c.request = some req
  response : c.response = some responseInit
  bufferLen : c.bufferLen = 0
  ready : Ready req

/-- **The state of a connection between two events.** -/
def Between (c : Connection) : Prop := c = connectionReset ∨ ∃ req, Waiting c req

/-- The request that the next read continues. -/
def startRequest (env : Env) (c : Connection) : Request :=
  c.request.getD (requestInit env.requestMem)

theorem Between.ready {c : Connection} (h : Between c) (env : Env) :
    Ready (startRequest env c) := by
  obtain rfl | ⟨req, hw⟩ := h
  · exact .init _
  · rw [startRequest, hw.request]
    exact hw.ready

/-! ## One event -/

/-- The bytes an event reads; `none` when the read fails or there is no room. -/
def received (conf : Config) (env : Env) : Option Bytes :=
  if 0 < conf.readBufferSize then env.recv.map (·.take conf.readBufferSize.toNat) else none

/-- The memory behind the received bytes. -/
def ahead (env : Env) (got : Bytes) : Bytes := env.readMem.drop got.length

/-- The connection after its replies went out. -/
def nextConnection (env : Env) (req : Request) (sentAll : Bool) : Connection :=
  if sentAll = true ∧ req.quit = false then
    { status := .reading
      request := some (if req.inData then req else requestInit env.requestMem)
      response := some responseInit
      readBuffer := none
      bufferLen := 0 }
  else connectionReset

/-- The replies go out, and the request is dropped or kept. -/
def answer (conf : Config) (env : Env) (req : Request) (replies : List Bytes) (w : World) : World :=
  let out := sendResponse conf env.send replies.flatten
  { w with sent := w.sent ++ out.1, conn := nextConnection env req out.2 }

/-- What follows a dialogue: an error closes the connection, a finished
transaction is queued, and the replies go out. -/
def conclude (conf : Config) (env : Env) (d : Dialogue) (w : World) : Except Fault World :=
  if d.error then .ok { w with conn := connectionReset }
  else if d.request.process then do
    let (req, w) ← processData env d.request w
    .ok (answer conf env req d.replies w)
  else .ok (answer conf env d.request d.replies w)

/-- A read of `got`, continuing the request `req`. -/
def handleRead (conf : Config) (env : Env) (req : Request) (got : Bytes) (w : World) :
    Except Fault World :=
  conclude conf env (dialogue conf (ahead env got) req got) w

/-- An event as a read. -/
def eventRead (conf : Config) (ev : Event) (w : World) : Except Fault World :=
  let w' := { w with queue := ev.queue }
  if ev.closed then .ok { w' with conn := connectionReset }
  else
    match received conf ev.env with
    | none => .ok { w' with conn := connectionReset }
    | some [] =>
      .ok { w' with conn :=
        { status := .reading
          request := some (startRequest ev.env w.conn)
          response := some responseInit
          readBuffer := some ev.env.readMem
          bufferLen := 0 } }
    | some got => handleRead conf ev.env (startRequest ev.env w.conn) got w'

theorem processData_conn (env : Env) (req : Request) (w : World) (c : Connection) :
    processData env req { w with conn := c } =
      (processData env req w).map fun p => (p.1, { p.2 with conn := c }) := by
  simp only [processData]
  split
  · rfl
  · split
    · cases createMail env.mailMem (requestParseData req env.dataTail).1 <;> rfl
    · rfl

@[simp] theorem answer_conn (conf : Config) (env : Env) (req : Request) (replies : List Bytes)
    (w : World) (c : Connection) :
    answer conf env req replies { w with conn := c } = answer conf env req replies w := rfl

theorem handleRead_conn (conf : Config) (env : Env) (req : Request) (got : Bytes) (w : World)
    (c : Connection) :
    handleRead conf env req got { w with conn := c } = handleRead conf env req got w := by
  simp only [handleRead, conclude, processData_conn]
  split
  · rfl
  · split
    · cases processData env (dialogue conf (ahead env got) req got).request w <;> rfl
    · rfl

/-- The write and close blocks after a read. -/
theorem writeStep_writing (conf : Config) (env : Env) (w : World) {req : Request}
    {resp : Response} (hs : w.conn.status = .writing) (hreq : w.conn.request = some req)
    (hresp : w.conn.response = some resp) {replies : List Bytes}
    (hdata : resp.data = replies.flatten) :
    (writeStep conf env w).map closeStep = .ok (answer conf env req replies w) := by
  simp only [writeStep, hs, if_true, hreq, hresp, answer, nextConnection, hdata]
  generalize sendResponse conf env.send replies.flatten = out
  cases hout : out.2 with
  | false => simp [closeStep, Except.map]
  | true =>
    cases hquit : req.quit with
    | false => simp [closeStep, Except.map]
    | true => simp [closeStep, Except.map]

/-- The parse, write and close blocks, on received bytes. -/
theorem parseStep_eq (conf : Config) (env : Env) (w : World) (req : Request) (got : Bytes)
    (hreq : w.conn.request = some req) (hresp : w.conn.response = some responseInit) :
    (do
      let w ← parseStep conf env w got (ahead env got)
      let w ← writeStep conf env w
      return closeStep w) = handleRead conf env req got w := by
  obtain ⟨r, hs, hdata⟩ := requestParseCommands_eq conf req responseInit got (ahead env got)
  rw [responseInit_data, List.nil_append] at hdata
  simp only [parseStep, hreq, hresp, hs, handleRead, conclude]
  generalize dialogue conf (ahead env got) req got = d at hdata
  cases d.error with
  | true => rfl
  | false =>
    cases hprocess : d.request.process with
    | false =>
      exact writeStep_writing conf env { w with conn := { w.conn with
        request := some d.request, response := some r, status := .writing } } rfl rfl rfl hdata
    | true =>
      cases hp : processData env d.request w with
      | error e => rfl
      | ok p =>
        exact writeStep_writing conf env { p.2 with conn := { w.conn with
          request := some p.1, response := some r, status := .writing } } rfl rfl rfl hdata

/-- The read block of a connection that waits. -/
theorem readStep_waiting (conf : Config) (env : Env) (w : World) {req : Request}
    (h : Waiting w.conn req) :
    readStep conf env w =
      match received conf env with
      | none => .ok { w with conn :=
          { w.conn with readBuffer := some env.readMem, status := .error } }
      | some got =>
        let w := { w with conn := { w.conn with
          readBuffer := some (got ++ ahead env got), bufferLen := got.length } }
        if 0 < got.length then parseStep conf env w got (ahead env got) else .ok w := by
  have hgot : (if 0 < conf.readBufferSize - (w.conn.bufferLen : Int) then
      env.recv.map (·.take (conf.readBufferSize - (w.conn.bufferLen : Int)).toNat) else none)
      = received conf env := by
    simp [received, h.bufferLen]
  simp only [readStep, h.status, if_true, h.bufferLen] at hgot ⊢
  rw [hgot]
  cases received conf env with
  | none => rfl
  | some got => simp [ahead]

/-- The blocks of `connection_handle`, on a connection that waits. -/
theorem connectionHandle_waiting (conf : Config) (env : Env) (w : World) {req : Request}
    (h : Waiting w.conn req) :
    connectionHandle conf env w =
      match received conf env with
      | none => .ok { w with conn := connectionReset }
      | some [] =>
        .ok { w with conn :=
          { status := .reading
            request := some req
            response := some responseInit
            readBuffer := some env.readMem
            bufferLen := 0 } }
      | some got => handleRead conf env req got w := by
  have hwelcome : welcome conf w = .ok w := by simp [welcome, h.status]
  have hread := readStep_waiting conf env w h
  rw [connectionHandle, hwelcome]
  simp only [bind, Except.bind, pure, Except.pure] at hread ⊢
  rw [hread]
  match received conf env with
  | none => rfl
  | some [] =>
    simp [writeStep, closeStep, h.status, h.request, h.response, ahead]
  | some (c :: got) =>
    have hparse := parseStep_eq conf env { w with conn := { w.conn with
          readBuffer := some (c :: got ++ ahead env (c :: got)), bufferLen := (c :: got).length } }
        req (c :: got) h.request h.response
    rw [handleRead_conn] at hparse
    simpa [bind, Except.bind, pure, Except.pure] using hparse

theorem Waiting.start (mem : Request) :
    Waiting { connectionStart mem with status := .reading } (requestInit mem) :=
  ⟨rfl, rfl, rfl, rfl, .init mem⟩

/-- **`connection_handle` from a state between events.** -/
theorem workerEvent_eq (conf : Config) (ev : Event) (w : World) (h : Between w.conn) :
    workerEvent conf ev w = eventRead conf ev w := by
  rw [workerEvent, eventRead]
  cases ev.closed with
  | true =>
    simp [connectionHandle, welcome, readStep, writeStep, closeStep, bind, Except.bind, pure,
      Except.pure]
  | false =>
    obtain hreset | ⟨req, hw⟩ := h
    · have hstart : startRequest ev.env w.conn = requestInit ev.env.requestMem := by
        rw [hreset]
        rfl
      have hwait := connectionHandle_waiting conf ev.env
        { w with conn := { connectionStart ev.env.requestMem with status := .reading },
                 queue := ev.queue } (.start ev.env.requestMem)
      simp only [handleRead_conn conf ev.env _ _ { w with queue := ev.queue }] at hwait
      have hstatus : w.conn.status = .inactive := by simp [hreset, connectionReset]
      rw [hstart]
      simp only [Bool.false_eq_true, if_false, if_pos hstatus]
      exact hwait
    · have hstart : startRequest ev.env w.conn = req := by
        rw [startRequest, hw.request]
        rfl
      have hstatus : w.conn.status ≠ .inactive := by simp [hw.status]
      rw [hstart]
      simp only [Bool.false_eq_true, if_false, if_neg hstatus]
      exact connectionHandle_waiting conf ev.env { w with queue := ev.queue } hw

/-! ## What a dialogue keeps -/

/-- What holds of a request all through a dialogue. -/
structure InDialogue (req : Request) : Prop where
  body : req.body = none
  bodyLen : req.bodyLen = 0
  quit : req.process = true → req.quit = true

theorem Ready.inDialogue {req : Request} (h : Ready req) : InDialogue req :=
  ⟨h.body, h.bodyLen, fun hp => by simp [h.process] at hp⟩

theorem InDialogue.iterate {req : Request} (h : InDialogue req) (conf : Config) (ahead : Bytes)
    (cur : UInt8) (rest : Bytes) : InDialogue (iterate conf ahead req cur rest).request := by
  simp only [Server.iterate]
  by_cases hdata : req.inData = false
  · rw [if_pos hdata]
    simp only [commandStep]
    split_ifs
    all_goals first | exact h | exact ⟨h.body, h.bodyLen, fun _ => rfl⟩ | exact ⟨h.body, h.bodyLen, h.quit⟩
  · rw [if_neg hdata]
    have hreserve : InDialogue (reserveData req) := ⟨h.body, h.bodyLen, h.quit⟩
    simp only [dataStep]
    generalize reserveData req = req at hreserve
    split_ifs
    · exact ⟨hreserve.body, hreserve.bodyLen, fun _ => rfl⟩
    · exact ⟨hreserve.body, hreserve.bodyLen, hreserve.quit⟩
    · exact hreserve

theorem InDialogue.dialogue {req : Request} (h : InDialogue req) (conf : Config) (ahead : Bytes)
    (data : Bytes) : InDialogue (dialogue conf ahead req data).request := by
  fun_induction Server.dialogue conf ahead req data with
  | case1 req => exact h
  | case2 req cur rest it herr => exact h.iterate conf ahead cur rest
  | case3 req cur rest it herr d ih => exact ih (h.iterate conf ahead cur rest)

theorem requestParseData_quit (req : Request) (tail : Bytes) :
    (requestParseData req tail).1.quit = req.quit := by
  rw [requestParseData_eq]
  show (if _ then _ else _ : Request).quit = _
  split <;> rfl

theorem processData_quit {env : Env} {req req' : Request} {w w' : World}
    (h : processData env req w = .ok (req', w')) : req'.quit = req.quit := by
  rw [← requestParseData_quit req env.dataTail]
  simp only [processData] at h
  split at h
  · exact nomatch h
  · split at h
    · cases hm : createMail env.mailMem (requestParseData req env.dataTail).1 with
      | error e => simp [hm, bind, Except.bind] at h
      | ok m =>
        simp only [hm, bind, Except.bind, Except.ok.injEq, Prod.mk.injEq] at h
        rw [h.1]
    · simp only [Except.ok.injEq, Prod.mk.injEq] at h
      rw [h.1]

/-- The request that is kept was not processed. -/
theorem between_nextConnection {env : Env} {req : Request} (h : InDialogue req) (sentAll : Bool) :
    Between (nextConnection env req sentAll) := by
  rw [nextConnection]
  by_cases hkeep : sentAll = true ∧ req.quit = false
  · rw [if_pos hkeep]
    refine .inr ⟨_, rfl, rfl, rfl, rfl, ?_⟩
    by_cases hdata : req.inData = true
    · rw [if_pos hdata]
      have hprocess : req.process = false := by
        by_contra hp
        simp [h.quit (by simpa using hp)] at hkeep
      exact ⟨h.body, h.bodyLen, hprocess, hkeep.2, fun hno => by simp [hdata] at hno⟩
    · rw [if_neg hdata]
      exact .init _
  · rw [if_neg hkeep]
    exact .inl rfl

theorem nextConnection_of_quit {env : Env} {req : Request} (h : req.quit = true) (sentAll : Bool) :
    nextConnection env req sentAll = connectionReset := by
  simp [nextConnection, h]

theorem handleRead_between {conf : Config} {env : Env} {req : Request} {got : Bytes}
    {w w' : World} (hready : Ready req) (h : handleRead conf env req got w = .ok w') :
    Between w'.conn := by
  have hd := hready.inDialogue.dialogue conf (ahead env got) got
  simp only [handleRead, conclude] at h
  generalize dialogue conf (ahead env got) req got = d at h hd
  split at h
  · simp only [Except.ok.injEq] at h
    rw [← h]
    exact .inl rfl
  · split at h
    · rename_i hprocess
      cases hp : processData env d.request w with
      | error e => simp [hp, bind, Except.bind] at h
      | ok p =>
        simp only [hp, bind, Except.bind, Except.ok.injEq] at h
        rw [← h]
        refine .inl (nextConnection_of_quit ?_ _)
        rw [processData_quit (show processData env d.request w = .ok (p.1, p.2) from hp)]
        exact hd.quit hprocess
    · simp only [Except.ok.injEq] at h
      rw [← h]
      exact between_nextConnection hd _

/-- **Every event leads to a state between events.** -/
theorem between_step {conf : Config} {ev : Event} {w w' : World} (h : Between w.conn)
    (hstep : Step conf w ev w') : Between w'.conn := by
  rw [Step, workerEvent_eq conf ev w h, eventRead] at hstep
  have hready := h.ready ev.env
  split at hstep
  · simp only [Except.ok.injEq] at hstep
    rw [← hstep]
    exact .inl rfl
  · match hgot : received conf ev.env, hstep with
    | none, hstep =>
      simp only [Except.ok.injEq] at hstep
      rw [← hstep]
      exact .inl rfl
    | some [], hstep =>
      simp only [Except.ok.injEq] at hstep
      rw [← hstep]
      exact .inr ⟨_, rfl, rfl, rfl, rfl, hready⟩
    | some (c :: got), hstep => exact handleRead_between hready hstep

end ComfirmDmarc.Server
