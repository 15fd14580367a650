import ComfirmDmarc.Server.Records

/-!
# Server -- `request_parse_commands`

The loop of `request.c` over the received bytes: it looks for SMTP commands at
every offset until `DATA` was seen, and then stores bytes until the end of
data. A comparison near the end of the buffer looks at the bytes behind it.
-/

namespace ComfirmDmarc.Server

open CMemory

/-! ## Replies -/

def replyStart : Bytes := bytes "354 End data with <CR><LF>.<CR><LF>\r\n"
def replyHello : Bytes := bytes "250 Hi, you have a report for me?\r\n"
def replyOk : Bytes := bytes "250 Ok\r\n"
def replyBye : Bytes := bytes "221 Bye, see you tomorrow!\r\n"
def replyQueued : Bytes := bytes "250 Ok: queued as nada\r\n"

/-- The end-of-data mark. -/
def endMark : Bytes := bytes "\r\n.\r\n"

/-! ## The loop -/

/-- What one iteration does: the request, the reply it appends, the bytes it
skips besides the `++i`, and whether it sets `CONN_ERROR`. -/
structure Iteration where
  request : Request
  reply : Option Bytes
  skip : Nat
  error : Bool

/-- An iteration outside of DATA, at the memory `here`. -/
def commandStep (req : Request) (here : Bytes) : Iteration :=
  if startsWith here (bytes "DATA\r\n") then
    ⟨{ req with inData := true }, some replyStart, 5, false⟩
  else if startsWith here (bytes "EHLO") then ⟨req, some replyHello, 0, false⟩
  else if startsWith here (bytes "MAIL FROM:") then ⟨req, some replyOk, 0, false⟩
  else if startsWith here (bytes "RCPT TO:") then ⟨req, some replyOk, 0, false⟩
  else if startsWith here (bytes "QUIT") then
    ⟨{ req with quit := true }, some replyBye, 0, false⟩
  else ⟨req, none, 0, false⟩

/-- The reallocation before a byte is stored. -/
def reserveData (req : Request) : Request :=
  { req with
    dataAlloc :=
      if req.dataAlloc ≤ req.data.length + 2 then req.data.length + 512 else req.dataAlloc }

/-- An iteration inside DATA, at the byte `cur`. -/
def dataStep (conf : Config) (req : Request) (cur : UInt8) : Iteration :=
  let req := reserveData req
  if (req.data.length : Int) < conf.dataBufferSize then
    let data := req.data ++ [cur]
    if 4 < data.length ∧ startsWith (data.drop (data.length - 5)) endMark then
      ⟨{ req with
          data := data.set (data.length - 5) 0
          inData := false
          process := true
          quit := true }, some replyQueued, 0, false⟩
    else ⟨{ req with data := data }, none, 0, false⟩
  else ⟨req, none, 0, true⟩

/-- What the loop works on; `error` is `conn->status == CONN_ERROR`. -/
structure CommandState where
  request : Request
  response : Response
  error : Bool

def appendReply (resp : Response) : Option Bytes → Response
  | none => resp
  | some reply => responseAppend resp reply

/-- `request_parse_commands` from the received bytes on, with the memory
`ahead` behind them. It returns 1 when `error` is set. -/
def commandLoop (conf : Config) (ahead : Bytes) (s : CommandState) : Bytes → CommandState
  | [] => s
  | cur :: rest =>
    let it :=
      if s.request.inData = false then commandStep s.request (cur :: rest ++ ahead)
      else dataStep conf s.request cur
    let s : CommandState := ⟨it.request, appendReply s.response it.reply, it.error⟩
    if it.error then s else commandLoop conf ahead s (rest.drop it.skip)
termination_by data => data.length
decreasing_by
  simp only [List.length_drop, List.length_cons]
  omega

/-- `request_parse_commands`. -/
def requestParseCommands (conf : Config) (req : Request) (resp : Response)
    (data ahead : Bytes) : CommandState :=
  commandLoop conf ahead ⟨req, resp, false⟩ data

/-! ## A read as a dialogue

The response only collects replies, so a read is described by the request it
leaves, the replies it makes, and whether it ended in an error.
-/

structure Dialogue where
  request : Request
  replies : List Bytes
  error : Bool

/-- The iteration at `cur :: rest`. -/
def iterate (conf : Config) (ahead : Bytes) (req : Request) (cur : UInt8) (rest : Bytes) :
    Iteration :=
  if req.inData = false then commandStep req (cur :: rest ++ ahead) else dataStep conf req cur

def dialogue (conf : Config) (ahead : Bytes) (req : Request) : Bytes → Dialogue
  | [] => ⟨req, [], false⟩
  | cur :: rest =>
    let it := iterate conf ahead req cur rest
    if it.error then ⟨it.request, it.reply.toList, true⟩
    else
      let d := dialogue conf ahead it.request (rest.drop it.skip)
      { d with replies := it.reply.toList ++ d.replies }
termination_by data => data.length
decreasing_by
  simp only [List.length_drop, List.length_cons]
  omega

theorem appendReply_data (resp : Response) (reply : Option Bytes) :
    (appendReply resp reply).data = resp.data ++ reply.toList.flatten := by
  cases reply with
  | none => simp [appendReply]
  | some r => simp [appendReply]

/-- **The loop appends the replies of the dialogue.** -/
theorem commandLoop_eq (conf : Config) (ahead : Bytes) (s : CommandState) (data : Bytes)
    (hs : s.error = false) :
    (commandLoop conf ahead s data).request = (dialogue conf ahead s.request data).request ∧
      (commandLoop conf ahead s data).error = (dialogue conf ahead s.request data).error ∧
      (commandLoop conf ahead s data).response.data =
        s.response.data ++ (dialogue conf ahead s.request data).replies.flatten := by
  fun_induction commandLoop conf ahead s data with
  | case1 s =>
    rw [dialogue]
    simp [hs]
  | case2 s cur rest it s' herr =>
    rw [dialogue]
    simp only [show iterate conf ahead s.request cur rest = it from rfl, if_pos herr]
    exact ⟨rfl, herr, appendReply_data _ _⟩
  | case3 s cur rest it s' herr ih =>
    obtain ⟨hreq, herror, hresp⟩ := ih (by simpa using herr)
    rw [dialogue]
    simp only [show iterate conf ahead s.request cur rest = it from rfl, if_neg herr]
    refine ⟨hreq, herror, ?_⟩
    rw [hresp, List.flatten_append, ← List.append_assoc, ← appendReply_data]

theorem requestParseCommands_eq (conf : Config) (req : Request) (resp : Response)
    (data ahead : Bytes) :
    ∃ r : Response, requestParseCommands conf req resp data ahead =
        ⟨(dialogue conf ahead req data).request, r, (dialogue conf ahead req data).error⟩ ∧
      r.data = resp.data ++ (dialogue conf ahead req data).replies.flatten := by
  obtain ⟨hreq, herror, hresp⟩ := commandLoop_eq conf ahead ⟨req, resp, false⟩ data rfl
  refine ⟨(commandLoop conf ahead ⟨req, resp, false⟩ data).response, ?_, hresp⟩
  simp only at hreq herror
  rw [requestParseCommands, ← hreq, ← herror]

/-- A request after a number of reads, each with the memory behind it. -/
def receive (conf : Config) (req : Request) (reads : List (Bytes × Bytes)) : Request :=
  reads.foldl (fun req read => (dialogue conf read.2 req read.1).request) req

/-- A request whose content the DATA phase stored. -/
def Stored (conf : Config) (req : Request) : Prop :=
  req.process = true ∧ ∃ mem reads, req = receive conf (requestInit mem) reads

end ComfirmDmarc.Server
