import ComfirmDmarc.Server.Message
import ComfirmDmarc.Server.MissingBody
import ComfirmDmarc.Server.Transactions

/-!
# Server -- acknowledged mails

The acknowledgement of a transaction is written into the response while its
end is read. Whether the mail is queued is decided later, and nothing takes the
acknowledgement back. The two agree in runs whose transactions the server can
keep whole and has room for.
-/

namespace ComfirmDmarc.Server

open CMemory Queue Transition

/-! ## Replies as lines -/

/-- The lines of a text, without their LF. -/
def lines : Bytes → List Bytes
  | [] => []
  | c :: s =>
    if c = 10 then [] :: lines s
    else
      match lines s with
      | [] => [[c]]
      | l :: ls => (c :: l) :: ls

/-- The number of `250 Ok: queued` replies in what was sent. -/
def queuedReplies (sent : Bytes) : Nat := (lines sent).count replyQueued.dropLast

theorem lines_append {l : Bytes} (h : (10 : UInt8) ∉ l) (s : Bytes) :
    lines (l ++ 10 :: s) = l :: lines s := by
  induction l with
  | nil => simp [lines]
  | cons c l ih =>
    simp only [List.mem_cons, not_or] at h
    rw [List.cons_append, lines, if_neg (Ne.symm h.1), ih h.2]

/-- Every reply the server makes. -/
def allReplies : List Bytes := replyQueued :: otherReplies

theorem allReplies_line : ∀ r ∈ allReplies, r = r.dropLast ++ [10] ∧ (10 : UInt8) ∉ r.dropLast := by
  decide

theorem lines_flatten {rs : List Bytes} (h : ∀ r ∈ rs, r ∈ allReplies) :
    lines rs.flatten = rs.map List.dropLast := by
  induction rs with
  | nil => rfl
  | cons r rs ih =>
    obtain ⟨heq, hlf⟩ := allReplies_line r (h r List.mem_cons_self)
    rw [List.flatten_cons]
    nth_rewrite 1 [heq]
    rw [List.append_assoc, List.singleton_append, lines_append hlf,
      ih fun s hs => h s (List.mem_cons_of_mem _ hs)]
    rfl

theorem dropLast_eq_iff {r : Bytes} (h : r ∈ allReplies) :
    r.dropLast = replyQueued.dropLast ↔ r = replyQueued := by
  revert r
  decide

/-- **Counting replies in the bytes** counts them in the list. -/
theorem queuedReplies_flatten {rs : List Bytes} (h : ∀ r ∈ rs, r ∈ allReplies) :
    queuedReplies rs.flatten = rs.count replyQueued := by
  rw [queuedReplies, lines_flatten h]
  induction rs with
  | nil => rfl
  | cons r rs ih =>
    have hr := dropLast_eq_iff (h r List.mem_cons_self)
    rw [List.map_cons, List.count_cons, List.count_cons,
      ih fun s hs => h s (List.mem_cons_of_mem _ hs)]
    simp only [beq_iff_eq, hr]

/-! ## Mails as messages -/

/-- `JoinsFolds raw v`: `raw` is the text of a header value, free of NUL, in
which CR occurs only in folds, and `v` is that text without the CRLFs of the
folds. The blanks behind them stay. -/
inductive JoinsFolds : Bytes → Bytes → Prop
  | nil : JoinsFolds [] []
  | char {c : UInt8} {raw v : Bytes} :
      c ≠ 0 → c ≠ 13 → JoinsFolds raw v → JoinsFolds (c :: raw) (c :: v)
  | fold {blank : UInt8} {raw v : Bytes} :
      blank = 9 ∨ blank = 32 → JoinsFolds raw v → JoinsFolds (13 :: 10 :: blank :: raw) (blank :: v)

/-- A field as its sender means it: a blank behind the colon, and the value
with its lines joined. -/
structure Field.Sent (f : Field) : Prop where
  name : IsName f.name
  sep : f.sep = 9 ∨ f.sep = 32
  value : JoinsFolds f.raw f.value

/-- `m` carries the message `content`: every field, with the blanks of its
folds, and the whole body. -/
def Carries (content : Bytes) (m : Mail) : Prop :=
  ∃ fields body, content = renderMessage fields body ∧ (∀ f ∈ fields, f.Sent) ∧
    m.headerCount = fields.length ∧
    (∀ j (hj : j < fields.length), Holds m.headers j fields[j]) ∧
    m.bodyStr = str body

/-- **A content the server keeps whole**: one to `HEADER_MAX_LEN` short fields
in one line each, a blank behind every colon, a blank line, and a body that
fits with what the end-of-data mark leaves behind it. The server takes the
blank of a fold away, so it keeps no folded field whole. -/
def Deliverable (content : Bytes) : Prop :=
  ∃ fields body, content = renderMessage fields body ∧ Keepable fields (body ++ leftover) ∧
    (∀ f ∈ fields, (f.sep = 9 ∨ f.sep = 32) ∧ (13 : UInt8) ∉ f.raw) ∧
    (body ++ leftover).length < bodyMaxLen

/-- A value in one line is what it says. -/
theorem Unfolds.joinsFolds {raw v : Bytes} (h : Unfolds raw v) (hcr : (13 : UInt8) ∉ raw) :
    JoinsFolds raw v := by
  induction h with
  | nil => exact .nil
  | char h0 h13 _ ih => exact .char h0 h13 (ih fun hmem => hcr (List.mem_cons_of_mem _ hmem))
  | fold _ _ _ => exact absurd List.mem_cons_self hcr

theorem Field.WellFormed.sent {f : Field} (h : f.WellFormed) (hsep : f.sep = 9 ∨ f.sep = 32)
    (hcr : (13 : UInt8) ∉ f.raw) : f.Sent :=
  ⟨h.name, hsep, h.value.joinsFolds hcr⟩

theorem createMail_message (mem : Mail) {req : Request} {rest : Bytes}
    (hcount : req.headerCount ≤ headerMaxLen) (hbody : req.body = some (rest ++ [0]))
    (hlen : req.bodyLen = rest.length) (hfits : rest.length < bodyMaxLen) :
    ∃ m, createMail mem req = .ok m ∧ m.headerCount = req.headerCount ∧
      (∀ i (hi : i < headerMaxLen), i < req.headerCount → m.headers[i] = req.headers[i]) ∧
      m.bodyStr = str rest := by
  have htake : (rest ++ [0]).take (req.bodyLen + 1) = rest ++ [0] :=
    List.take_of_length_le (by simp [hlen])
  have hcopy : copyBody mem req = .ok { mem with body := memcpy mem.body (rest ++ [0]) } := by
    rw [copyBody, if_pos (by rw [hlen]; exact hfits), hbody]
    simp only [htake]
  obtain ⟨m, hm, hmcount, hmbody, hget⟩ := copyHeaders_ok req.headers
    { mem with body := memcpy mem.body (rest ++ [0]), headerCount := req.headerCount }
    (List.range req.headerCount) fun i hi => lt_of_lt_of_le (List.mem_range.mp hi) hcount
  refine ⟨m, ?_, hmcount, ?_, ?_⟩
  · rw [createMail, hcopy]
    exact hm
  · intro i hi hlt
    rw [hget i hi, if_pos (List.mem_range.mpr hlt)]
  · have hsize : (rest ++ [0]).length ≤ bodyMaxLen := by
      rw [List.length_append]
      exact hfits
    rw [Mail.bodyStr, hmbody, memcpy_toList _ hsize, List.append_assoc, List.singleton_append,
      str_append_zero]

/-- Processing a deliverable content with room in the queue queues its mail. -/
theorem processData_deliverable (env : Env) {req : Request} {w : World} {content : Bytes}
    (hdata : req.data = content ++ leftover) (h : Deliverable content)
    (hroom : w.queue.shared.messageCount < w.queue.shared.messageMaxCount) :
    ∃ req' w' m, processData env req w = .ok (req', w') ∧ w'.added = w.added ++ [m] ∧
      w'.sent = w.sent ∧ Carries content m := by
  obtain ⟨fields, body, rfl, hkeep, hline, hfits⟩ := h
  have hrender : req.data = renderMessage fields (body ++ leftover) := by
    simp [hdata, renderMessage]
  obtain ⟨hcount, hholds, hb, hl, hin⟩ := requestParseData_message hkeep req env.dataTail hrender
  generalize hparse : requestParseData req env.dataTail = r at hcount hholds hb hl hin
  obtain ⟨m, hm, hmcount, hmget, hmbody⟩ := createMail_message env.mailMem
    (by rw [hcount]; exact hkeep.length_le) hb hl hfits
  have henqueue : pqEnqueue w.queue m = (0, applyStores w.queue (enqueueStores w.queue m)) := by
    rw [pqEnqueue, if_neg (by omega)]
  have hpos : 0 < r.1.headerCount := by
    rw [hcount]
    exact List.length_pos_iff.mpr hkeep.ne_nil
  refine ⟨r.1, { w with
    queue := applyStores w.queue (enqueueStores w.queue m), added := w.added ++ [m] }, m, ?_, rfl,
    rfl, fields, body, rfl,
    fun f hf => (hkeep.wellFormed f hf).sent (hline f hf).1 (hline f hf).2, ?_, ?_, ?_⟩
  · simp only [processData, hparse]
    rw [if_neg (not_not.mpr hin), if_pos hpos, hm]
    simp [bind, Except.bind, henqueue]
  · rw [hmcount, hcount]
  · intro j hj
    obtain ⟨hlt, hname, hvalue⟩ := hholds j hj
    refine ⟨hlt, ?_⟩
    rw [hmget j hlt (by rw [hcount]; exact hj)]
    exact ⟨hname, hvalue⟩
  · rw [hmbody]
    exact str_append_zero body [10, 46, 13, 10]

/-! ## Sending -/

theorem sendChunks_all (conf : Config) {send : Nat → Nat → Option Nat}
    (h : ∀ k n, send k n = some n) (k : Nat) (data : Bytes) :
    sendChunks conf send k data = (data, true) := by
  fun_induction sendChunks conf send k data with
  | case1 k => rfl
  | case2 k data hne size hsend => simp [h] at hsend
  | case3 k data hne size sent hsend next ih =>
    obtain rfl : size = sent := by simpa [h] using hsend
    simp only [next, ih, List.take_take, min_self, List.take_append_drop]

theorem sendResponse_all (conf : Config) {send : Nat → Nat → Option Nat}
    (h : ∀ k n, send k n = some n) (data : Bytes) : sendResponse conf send data = (data, true) := by
  rw [sendResponse]
  split
  · simp [h]
  · exact sendChunks_all conf h 0 data

/-! ## Runs -/

/-- The content of the transaction that an event ends. -/
def endedTransaction (conf : Config) (w : World) (ev : Event) : Option Bytes :=
  if ev.closed then none
  else (received conf ev.env).bind fun got =>
    (transaction conf (ahead ev.env got) (startRequest ev.env w.conn) got).map Prod.fst

/-- **The condition on an event**: what is sent goes out, and a transaction
that the event ends is deliverable, finds room in the queue, and has no further
`DATA` command behind it in the same read. -/
structure Delivers (conf : Config) (w : World) (ev : Event) : Prop where
  sends : ∀ k n, ev.env.send k n = some n
  keeps : ∀ got content rest, ev.closed = false → received conf ev.env = some got →
    transaction conf (ahead ev.env got) (startRequest ev.env w.conn) got = some (content, rest) →
    Deliverable content ∧ afterData (ahead ev.env got) rest = none ∧
      ev.queue.shared.messageCount < ev.queue.shared.messageMaxCount

/-- A step, labelled with the event and the transaction it ends. -/
def ObservedStep (conf : Config) (w : World) (l : Event × Option Bytes) (w' : World) : Prop :=
  Step conf w l.1 w' ∧ l.2 = endedTransaction conf w l.1

theorem Step.observed {conf : Config} {w w' : World} {ev : Event} (h : Step conf w ev w') :
    ObservedStep conf w (ev, endedTransaction conf w ev) w' := ⟨h, rfl⟩

/-- What was sent acknowledges the mails that were added, and these carry the
`contents` of the ended transactions. -/
structure Accounted (contents : List Bytes) (w : World) : Prop where
  between : Between w.conn
  replies : ∃ rs : List Bytes, w.sent = rs.flatten ∧ (∀ r ∈ rs, r ∈ allReplies) ∧
    rs.count replyQueued = w.added.length
  carries : List.Forall₂ Carries contents w.added

theorem replyQueued_not_mem : replyQueued ∉ otherReplies := by decide

theorem count_otherReplies {rs : List Bytes} (h : ∀ r ∈ rs, r ∈ otherReplies) :
    rs.count replyQueued = 0 :=
  List.count_eq_zero.mpr fun hmem => replyQueued_not_mem (h _ hmem)

/-- A read that ends no transaction adds no mail and acknowledges none. -/
theorem Accounted.handleRead_none {conf : Config} {env : Env} {req : Request} {got : Bytes}
    {contents : List Bytes} {w w' : World} (h : Accounted contents w) (hready : Ready req)
    (hsends : ∀ k n, env.send k n = some n)
    (hno : transaction conf (ahead env got) req got = none)
    (hstep : handleRead conf env req got w = .ok w') : Accounted contents w' := by
  have hbetween := handleRead_between hready hstep
  obtain ⟨hreplies, hprocess⟩ := dialogue_of_no_transaction conf (ahead env got) hready hno
  obtain ⟨rs, hsent, hrs, hcount⟩ := h.replies
  simp only [handleRead, conclude] at hstep
  generalize dialogue conf (ahead env got) req got = d at hreplies hprocess hstep
  rw [hprocess] at hstep
  cases herr : d.error with
  | true =>
    simp only [herr, if_true, Except.ok.injEq] at hstep
    rw [← hstep] at hbetween ⊢
    exact ⟨hbetween, ⟨rs, hsent, hrs, hcount⟩, h.carries⟩
  | false =>
    simp only [herr, Bool.false_eq_true, if_false, Except.ok.injEq] at hstep
    rw [← hstep] at hbetween ⊢
    refine ⟨hbetween, ⟨rs ++ d.replies, ?_, ?_, ?_⟩, h.carries⟩
    · simp [answer, sendResponse_all conf hsends, hsent]
    · intro r hr
      rcases List.mem_append.mp hr with hr | hr
      · exact hrs r hr
      · exact List.mem_cons_of_mem _ (hreplies r hr)
    · rw [List.count_append, count_otherReplies hreplies, hcount]
      rfl

/-- **A read that ends a transaction** acknowledges one and adds its mail. -/
theorem Accounted.handleRead_some {conf : Config} {env : Env} {req : Request} {got : Bytes}
    {contents : List Bytes} {w w' : World} (h : Accounted contents w) (hready : Ready req)
    (hsends : ∀ k n, env.send k n = some n) {content rest : Bytes}
    (hends : transaction conf (ahead env got) req got = some (content, rest))
    (hrest : afterData (ahead env got) rest = none) (hdeliver : Deliverable content)
    (hroom : w.queue.shared.messageCount < w.queue.shared.messageMaxCount)
    (hstep : handleRead conf env req got w = .ok w') : Accounted (contents ++ [content]) w' := by
  have hbetween := handleRead_between hready hstep
  obtain ⟨herr, hprocess, hdata, before, after, hreplies, hbefore, hafter⟩ :=
    dialogue_of_transaction conf (ahead env got) hends hrest
  obtain ⟨rs, hsent, hrs, hcount⟩ := h.replies
  simp only [handleRead, conclude] at hstep
  generalize dialogue conf (ahead env got) req got = d at *
  obtain ⟨req', w1, m, hp, hadded, hsent1, hcarries⟩ :=
    processData_deliverable env hdata hdeliver hroom
  simp only [herr, hprocess, Bool.false_eq_true, if_false, if_true, hp, bind, Except.bind,
    Except.ok.injEq] at hstep
  rw [← hstep] at hbetween ⊢
  refine ⟨hbetween, ⟨rs ++ d.replies, ?_, ?_, ?_⟩, ?_⟩
  · simp [answer, sendResponse_all conf hsends, hsent1, hsent]
  -- no reply but the one of the transaction says that it is queued
  · intro r hr
    rw [hreplies] at hr
    simp only [List.mem_append, List.mem_cons] at hr
    rcases hr with hr | hr | rfl | hr
    · exact hrs r hr
    · exact List.mem_cons_of_mem _ (hbefore r hr)
    · exact List.mem_cons_self
    · exact List.mem_cons_of_mem _ (hafter r hr)
  · show (rs ++ d.replies).count replyQueued = w1.added.length
    rw [hadded, hreplies, List.count_append, List.count_append, List.count_cons_self,
      count_otherReplies hbefore, count_otherReplies hafter, hcount]
    simp
  · show List.Forall₂ Carries (contents ++ [content]) w1.added
    rw [hadded]
    exact List.rel_append h.carries (.cons hcarries .nil)

/-- One event, under the condition. -/
theorem Accounted.step {conf : Config} {contents : List Bytes} {w w' : World} {ev : Event}
    (h : Accounted contents w) (hok : Delivers conf w ev) (hstep : Step conf w ev w') :
    Accounted (contents ++ (endedTransaction conf w ev).toList) w' := by
  have hbetween := between_step h.between hstep
  have hready := h.between.ready ev.env
  rw [Step, workerEvent_eq conf ev w h.between, eventRead] at hstep
  rw [endedTransaction]
  cases hclosed : ev.closed with
  | true =>
    -- a closed connection is reset and answers nothing
    simp only [hclosed, if_true, Except.ok.injEq] at hstep ⊢
    rw [← hstep] at hbetween ⊢
    exact ⟨hbetween, h.replies, by simpa using h.carries⟩
  | false =>
    simp only [hclosed, Bool.false_eq_true, if_false] at hstep ⊢
    have hw : Accounted contents { w with queue := ev.queue } :=
      ⟨h.between, h.replies, h.carries⟩
    cases hgot : received conf ev.env with
    | none =>
      simp only [hgot, Except.ok.injEq] at hstep
      rw [← hstep] at hbetween ⊢
      exact ⟨hbetween, h.replies, by simpa using h.carries⟩
    | some got =>
    rw [hgot] at hstep
    cases got with
    | nil =>
      have hno : transaction conf (ahead ev.env []) (startRequest ev.env w.conn) [] = none := by
        rw [transaction, endOfData, afterData]
        split <;> rfl
      simp only [Except.ok.injEq] at hstep
      rw [← hstep] at hbetween ⊢
      exact ⟨hbetween, h.replies, by simpa [hno] using h.carries⟩
    | cons c got =>
      cases hends : transaction conf (ahead ev.env (c :: got)) (startRequest ev.env w.conn)
          (c :: got) with
      | none =>
        have := hw.handleRead_none hready hok.sends hends hstep
        simpa [hends] using this
      | some found =>
        obtain ⟨hdeliver, hrest, hroom⟩ :=
          hok.keeps (c :: got) found.1 found.2 hclosed hgot hends
        have := hw.handleRead_some hready hok.sends hends hrest hdeliver hroom hstep
        simpa [hends] using this

theorem Accounted.run {conf : Config} {contents : List Bytes} {w w' : World}
    {labels : List (Event × Option Bytes)} (h : Accounted contents w)
    (hrun : Run (Guarded (fun w l => Delivers conf w l.1) (ObservedStep conf)) w labels w') :
    Accounted (contents ++ labels.filterMap Prod.snd) w' := by
  induction hrun generalizing contents with
  | nil w => simpa using h
  | @cons w w1 w2 l labels hs _ ih =>
    obtain ⟨hok, hstep, hl⟩ := hs
    have hnext := ih (h.step hok hstep)
    rw [← hl] at hnext
    cases hl2 : l.2 with
    | none => simpa [hl2] using hnext
    | some content => simpa [hl2] using hnext

/-- **Every acknowledged mail is queued whole**, in every run of a connection
slot whose events all meet the condition: as many transactions are acknowledged
as mails are added, and the added mails carry the contents of the ended
transactions in order. -/
theorem acknowledged_delivered (conf : Config) (w w' : World)
    (labels : List (Event × Option Bytes)) (hconn : w.conn = connectionReset)
    (hsent : w.sent = []) (hadded : w.added = [])
    (hrun : Run (Guarded (fun w l => Delivers conf w l.1) (ObservedStep conf)) w labels w') :
    queuedReplies w'.sent = w'.added.length ∧
      List.Forall₂ Carries (labels.filterMap Prod.snd) w'.added := by
  have hstart : Accounted [] w :=
    ⟨.inl hconn, ⟨[], by rw [hsent]; rfl, by simp, by rw [hadded]; rfl⟩, by rw [hadded]; exact .nil⟩
  obtain ⟨-, ⟨rs, hsent', hrs, hcount⟩, hcarries⟩ := hstart.run hrun
  exact ⟨by rw [hsent', queuedReplies_flatten hrs, hcount], hcarries⟩

/-! ## One mail, with and without room -/

/-- The world after an event that does not fault. -/
def World.after (conf : Config) (ev : Event) (w : World) : World :=
  match workerEvent conf ev w with
  | .ok w' => w'
  | .error _ => w

theorem step_after {conf : Config} {ev : Event} {w : World}
    (h : (workerEvent conf ev w).isOk = true) : Step conf w ev (w.after conf ev) := by
  rw [Step, World.after]
  cases heq : workerEvent conf ev w with
  | error e => simp [heq, Except.isOk, Except.toBool] at h
  | ok w' => rfl

/-- The message of `shortMail`. -/
theorem deliverable_shortMail : Deliverable (bytes "A: b\r\n\r\nc") := by
  refine ⟨[⟨[65], 32, [98], [98]⟩], [99], by decide, ⟨by simp, by decide, ?_, ?_, ?_⟩, ?_, ?_⟩
  · intro f hf
    obtain rfl := List.mem_singleton.mp hf
    exact ⟨⟨by simp, by simp⟩, .char (by decide) (by decide) .nil⟩
  · intro f hf
    obtain rfl := List.mem_singleton.mp hf
    simp [Field.Short, keyMaxLen, valueMaxLen]
  · exact ⟨99, leftover, rfl, by decide, by decide⟩
  · intro f hf
    obtain rfl := List.mem_singleton.mp hf
    exact ⟨.inr rfl, by decide⟩
  · simp [leftover, bodyMaxLen]

theorem acknowledged_delivered_shortMail :
    let ev := readEvent shortMail (smallQueue 0)
    queuedReplies (World.closed.after .default ev).sent
        = (World.closed.after .default ev).added.length ∧
      List.Forall₂ Carries [bytes "A: b\r\n\r\nc"] (World.closed.after .default ev).added := by
  intro ev
  have hended : endedTransaction .default .closed ev = some (bytes "A: b\r\n\r\nc") := by
    decide +kernel
  have hdelivers : Delivers .default .closed ev := by
    refine ⟨fun _ _ => rfl, ?_⟩
    intro got content rest _ hgot hends
    obtain rfl : shortMail = got := by
      have : received .default ev.env = some shortMail := by decide +kernel
      simpa [this] using hgot
    have hfound : transaction .default (ahead ev.env shortMail)
        (startRequest ev.env World.closed.conn) shortMail = some (bytes "A: b\r\n\r\nc", []) := by
      decide +kernel
    rw [hfound] at hends
    obtain ⟨rfl, rfl⟩ := Prod.mk.inj (Option.some.inj hends)
    exact ⟨deliverable_shortMail, rfl, by decide⟩
  have hrun : Run (Guarded (fun w l => Delivers .default w l.1) (ObservedStep .default)) .closed
      [(ev, some (bytes "A: b\r\n\r\nc"))] (World.closed.after .default ev) :=
    .single ⟨hdelivers, step_after (by decide +kernel), hended.symm⟩
  exact acknowledged_delivered .default .closed _ _ rfl rfl rfl hrun

/-- **A full queue is acknowledged all the same.** -/
theorem fullQueue_acknowledged :
    ¬∀ (conf : Config) (w w' : World) (labels : List (Event × Option Bytes)),
      w.conn = connectionReset → w.sent = [] → w.added = [] →
      Run (ObservedStep conf) w labels w' → queuedReplies w'.sent = w'.added.length := by
  intro h
  let ev := readEvent shortMail (smallQueue 1)
  have hrun : Run (ObservedStep .default) .closed [(ev, endedTransaction .default .closed ev)]
      (World.closed.after .default ev) :=
    .single (step_after (by decide +kernel)).observed
  have hsent : queuedReplies (World.closed.after .default ev).sent = 1 := by decide +kernel
  have hadded : (World.closed.after .default ev).added.length = 0 := by decide +kernel
  have hcount := h _ _ _ _ rfl rfl rfl hrun
  rw [hsent, hadded] at hcount
  exact absurd hcount (by decide)

end ComfirmDmarc.Server
