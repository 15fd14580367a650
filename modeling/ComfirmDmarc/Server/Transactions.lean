import ComfirmDmarc.Server.Session

/-!
# Server -- transactions

The transaction a read ends, found in the received bytes alone: the content
between the `DATA` command and the first end-of-data mark. The reply to it is
made while the mark is read, before anything is parsed or queued.
-/

namespace ComfirmDmarc.Server

open CMemory

/-! ## Finding the end of a transaction -/

/-- The bytes that follow the first `DATA` command; `ahead` is the memory
behind them. -/
def afterData (ahead : Bytes) : Bytes → Option Bytes
  | [] => none
  | cur :: rest =>
    if startsWith (cur :: rest ++ ahead) (bytes "DATA\r\n") then some (rest.drop 5)
    else afterData ahead rest

/-- The content up to the first end-of-data mark, and the bytes behind the
mark. `stored` is what was stored before; no more than `limit` bytes are. -/
def endOfData (limit : Int) (stored : Bytes) : Bytes → Option (Bytes × Bytes)
  | [] => none
  | cur :: rest =>
    if (stored.length : Int) < limit then
      if endMark.isSuffixOf (stored ++ [cur]) then
        some ((stored ++ [cur]).take (stored.length + 1 - 5), rest)
      else endOfData limit (stored ++ [cur]) rest
    else none

/-- The content of the transaction that a read ends, and the bytes behind it. -/
def transaction (conf : Config) (ahead : Bytes) (req : Request) (read : Bytes) :
    Option (Bytes × Bytes) :=
  if req.inData then endOfData conf.dataBufferSize req.data read
  else (afterData ahead read).bind (endOfData conf.dataBufferSize req.data)

/-- What the end-of-data mark leaves behind the content. -/
def leftover : Bytes := [0, 10, 46, 13, 10]

/-! ## Outside of DATA -/

/-- The replies other than the acknowledgement of a transaction. -/
def otherReplies : List Bytes := [replyStart, replyHello, replyOk, replyBye]

/-- An iteration outside of DATA that finds no `DATA` command. -/
theorem commandStep_of_not_data (req : Request) {here : Bytes}
    (h : startsWith here (bytes "DATA\r\n") = false) :
    let it := commandStep req here
    it.skip = 0 ∧ it.error = false ∧ it.request = { req with quit := it.request.quit } ∧
      ∀ r ∈ it.reply, r ∈ otherReplies := by
  simp only [commandStep, h, Bool.false_eq_true, if_false]
  split_ifs <;> simp [otherReplies]

/-- Reading up to the `DATA` command, or to the end. -/
theorem dialogue_command (conf : Config) (ahead : Bytes) (req : Request) (read : Bytes)
    (hdata : req.inData = false) :
    ∃ quit replies, (∀ r ∈ replies, r ∈ otherReplies) ∧
      match afterData ahead read with
      | none => dialogue conf ahead req read = ⟨{ req with quit := quit }, replies, false⟩
      | some rest =>
        let d := dialogue conf ahead { req with quit := quit, inData := true } rest
        dialogue conf ahead req read = { d with replies := replies ++ d.replies } := by
  induction read generalizing req with
  | nil =>
    refine ⟨req.quit, [], by simp, ?_⟩
    rw [afterData, dialogue]
  | cons cur rest ih =>
    rw [afterData]
    by_cases h : startsWith (cur :: rest ++ ahead) (bytes "DATA\r\n") = true
    · rw [if_pos h]
      refine ⟨req.quit, [replyStart], by simp [otherReplies], ?_⟩
      -- DATA: the rest of the read is content
      have hstep : iterate conf ahead req cur rest =
          ⟨{ req with inData := true }, some replyStart, 5, false⟩ := by
        rw [iterate, if_pos hdata, commandStep, if_pos h]
      rw [dialogue, hstep]
      rfl
    · rw [if_neg h]
      have hstep : iterate conf ahead req cur rest = commandStep req (cur :: rest ++ ahead) := by
        rw [iterate, if_pos hdata]
      -- any other command leaves all but `quit` as it is
      obtain ⟨hskip, herr, hreq, hreply⟩ := commandStep_of_not_data req
        (Bool.eq_false_iff.mpr h)
      have hdata' : (commandStep req (cur :: rest ++ ahead)).request.inData = false := by
        rw [hreq]
        exact hdata
      obtain ⟨quit, replies, hreplies, hrest⟩ := ih _ hdata'
      refine ⟨quit, (commandStep req (cur :: rest ++ ahead)).reply.toList ++ replies, ?_, ?_⟩
      · intro r hr
        rcases List.mem_append.mp hr with hr | hr
        · exact hreply r (by simpa using hr)
        · exact hreplies r hr
      · rw [dialogue, hstep]
        simp only [herr, Bool.false_eq_true, if_false, hskip, List.drop_zero]
        have hsame : ∀ q b, { (commandStep req (cur :: rest ++ ahead)).request with
            quit := q, inData := b } = { req with quit := q, inData := b } := by
          intro q b
          rw [hreq]
        have hsame' : ∀ q, { (commandStep req (cur :: rest ++ ahead)).request with
            quit := q } = { req with quit := q } := by
          intro q
          rw [hreq]
        cases hafter : afterData ahead rest with
        | none =>
          simp only [hafter, hsame'] at hrest ⊢
          rw [hrest]
        | some more =>
          simp only [hafter, hsame] at hrest ⊢
          rw [hrest]
          simp

/-! ## Inside DATA -/

theorem endMark_eq : endMark = [13, 10, 46, 13, 10] := by decide

/-- The test for the end-of-data mark looks for it at the end of the data. -/
theorem endMark_test_iff (data : Bytes) :
    (4 < data.length ∧ startsWith (data.drop (data.length - 5)) endMark = true) ↔
      endMark.isSuffixOf data = true := by
  rw [startsWith_iff, List.isSuffixOf_iff_suffix]
  have hlen : endMark.length = 5 := by decide
  constructor
  · rintro ⟨h4, hpre⟩
    have hdrop : (data.drop (data.length - 5)).length = 5 := by
      rw [List.length_drop]
      omega
    rw [hpre.eq_of_length (by rw [hdrop, hlen])]
    exact List.drop_suffix _ _
  · rintro ⟨front, rfl⟩
    rw [List.length_append, hlen]
    exact ⟨by omega, by simp⟩

/-- Cutting the mark off leaves the content and `leftover`. -/
theorem set_endMark {data : Bytes} (h : endMark.isSuffixOf data = true) :
    data.set (data.length - 5) 0 = data.take (data.length - 5) ++ leftover := by
  rw [List.isSuffixOf_iff_suffix] at h
  obtain ⟨front, rfl⟩ := h
  simp [endMark_eq, leftover]

/-- One byte inside DATA. -/
theorem iterate_data_eq (conf : Config) (ahead : Bytes) {req : Request} (hdata : req.inData = true)
    (cur : UInt8) (rest : Bytes) :
    iterate conf ahead req cur rest =
      if (req.data.length : Int) < conf.dataBufferSize then
        if endMark.isSuffixOf (req.data ++ [cur]) then
          ⟨{ req with
              data := (req.data ++ [cur]).take (req.data.length + 1 - 5) ++ leftover
              dataAlloc := (reserveData req).dataAlloc
              inData := false
              process := true
              quit := true }, some replyQueued, 0, false⟩
        else
          ⟨{ req with data := req.data ++ [cur], dataAlloc := (reserveData req).dataAlloc }, none, 0,
            false⟩
      else ⟨{ req with dataAlloc := (reserveData req).dataAlloc }, none, 0, true⟩ := by
  rw [iterate, if_neg (by simp [hdata]), dataStep]
  simp only [endMark_test_iff, show (reserveData req).data = req.data from rfl]
  by_cases hlt : (req.data.length : Int) < conf.dataBufferSize
  · rw [if_pos hlt, if_pos hlt]
    by_cases hend : endMark.isSuffixOf (req.data ++ [cur]) = true
    · rw [if_pos hend, if_pos hend, set_endMark hend]
      simp [reserveData]
    · rw [if_neg hend, if_neg hend]
      rfl
  · rw [if_neg hlt, if_neg hlt]
    rfl

theorem iterate_data (conf : Config) (ahead : Bytes) {req : Request} (hdata : req.inData = true)
    (cur : UInt8) (rest : Bytes) :
    ∃ alloc, iterate conf ahead req cur rest =
      if (req.data.length : Int) < conf.dataBufferSize then
        if endMark.isSuffixOf (req.data ++ [cur]) then
          ⟨{ req with
              data := (req.data ++ [cur]).take (req.data.length + 1 - 5) ++ leftover
              dataAlloc := alloc
              inData := false
              process := true
              quit := true }, some replyQueued, 0, false⟩
        else ⟨{ req with data := req.data ++ [cur], dataAlloc := alloc }, none, 0, false⟩
      else ⟨{ req with dataAlloc := alloc }, none, 0, true⟩ :=
  ⟨_, iterate_data_eq conf ahead hdata cur rest⟩

/-- Reading up to the end-of-data mark, or to the end. -/
theorem dialogue_data (conf : Config) (ahead : Bytes) (req : Request) (read : Bytes)
    (hdata : req.inData = true) :
    match endOfData conf.dataBufferSize req.data read with
    | none => ∃ data alloc error,
        dialogue conf ahead req read =
          ⟨{ req with data := data, dataAlloc := alloc }, [], error⟩
    | some (content, rest) => ∃ alloc,
        let d := dialogue conf ahead { req with
          data := content ++ leftover
          dataAlloc := alloc
          inData := false
          process := true
          quit := true } rest
        dialogue conf ahead req read = { d with replies := replyQueued :: d.replies } := by
  induction read generalizing req with
  | nil =>
    rw [endOfData, dialogue]
    exact ⟨req.data, req.dataAlloc, false, rfl⟩
  | cons cur rest ih =>
    obtain ⟨alloc, hstep⟩ := iterate_data conf ahead hdata cur rest
    rw [endOfData]
    by_cases hlt : (req.data.length : Int) < conf.dataBufferSize
    · rw [if_pos hlt] at hstep ⊢
      by_cases hend : endMark.isSuffixOf (req.data ++ [cur]) = true
      -- the mark is complete with this byte
      · rw [if_pos hend] at hstep ⊢
        refine ⟨alloc, ?_⟩
        rw [dialogue, hstep]
        rfl
      · rw [if_neg hend] at hstep ⊢
        have hnext := ih { req with data := req.data ++ [cur], dataAlloc := alloc } hdata
        cases hfind : endOfData conf.dataBufferSize (req.data ++ [cur]) rest with
        | none =>
          simp only [hfind] at hnext ⊢
          obtain ⟨data, alloc', error, heq⟩ := hnext
          refine ⟨data, alloc', error, ?_⟩
          rw [dialogue, hstep]
          simp [heq]
        | some found =>
          simp only [hfind] at hnext ⊢
          obtain ⟨alloc', heq⟩ := hnext
          refine ⟨alloc', ?_⟩
          rw [dialogue, hstep]
          simp [heq]
    · rw [if_neg hlt] at hstep ⊢
      -- the content is longer than the server takes
      refine ⟨req.data, alloc, true, ?_⟩
      rw [dialogue, hstep]
      rfl

/-! ## A whole read -/

/-- A read that ends no transaction. -/
theorem dialogue_of_no_transaction (conf : Config) (ahead : Bytes) {req : Request}
    (hready : Ready req) {read : Bytes} (h : transaction conf ahead req read = none) :
    let d := dialogue conf ahead req read
    (∀ r ∈ d.replies, r ∈ otherReplies) ∧ d.request.process = false := by
  rw [transaction] at h
  by_cases hdata : req.inData = true
  · rw [if_pos hdata] at h
    have hd := dialogue_data conf ahead req read hdata
    rw [h] at hd
    obtain ⟨data, alloc, error, heq⟩ := hd
    rw [heq]
    exact ⟨by simp, hready.process⟩
  · rw [if_neg hdata] at h
    obtain ⟨quit, replies, hreplies, hd⟩ := dialogue_command conf ahead req read (by simpa using hdata)
    cases hafter : afterData ahead read with
    | none =>
      rw [hafter] at hd
      rw [hd]
      exact ⟨hreplies, hready.process⟩
    | some rest =>
      rw [hafter] at hd h
      have hin := dialogue_data conf ahead { req with quit := quit, inData := true } rest rfl
      simp only [Option.bind_some] at h
      simp only [h] at hin
      obtain ⟨data, alloc, error, heq⟩ := hin
      rw [hd, heq]
      exact ⟨by simpa using hreplies, hready.process⟩

/-- **A read that ends one transaction**: it is acknowledged, and its content
is what is then parsed. -/
theorem dialogue_of_transaction (conf : Config) (ahead : Bytes) {req : Request}
    {read content rest : Bytes}
    (h : transaction conf ahead req read = some (content, rest))
    (hrest : afterData ahead rest = none) :
    let d := dialogue conf ahead req read
    d.error = false ∧ d.request.process = true ∧ d.request.data = content ++ leftover ∧
      ∃ before after, d.replies = before ++ replyQueued :: after ∧
        (∀ r ∈ before, r ∈ otherReplies) ∧ ∀ r ∈ after, r ∈ otherReplies := by
  -- behind the mark there is no further DATA
  have hbehind : ∀ req : Request, req.inData = false → ∃ quit replies,
      (∀ r ∈ replies, r ∈ otherReplies) ∧
        dialogue conf ahead req rest = ⟨{ req with quit := quit }, replies, false⟩ := by
    intro req hreq
    obtain ⟨quit, replies, hreplies, hd⟩ := dialogue_command conf ahead req rest hreq
    rw [hrest] at hd
    exact ⟨quit, replies, hreplies, hd⟩
  rw [transaction] at h
  by_cases hdata : req.inData = true
  · rw [if_pos hdata] at h
    have hd := dialogue_data conf ahead req read hdata
    rw [h] at hd
    obtain ⟨alloc, heq⟩ := hd
    obtain ⟨quit, replies, hreplies, hafter⟩ := hbehind { req with
      data := content ++ leftover
      dataAlloc := alloc
      inData := false
      process := true
      quit := true } rfl
    rw [heq, hafter]
    exact ⟨rfl, rfl, rfl, [], replies, rfl, by simp, hreplies⟩
  · rw [if_neg hdata] at h
    obtain ⟨quit, before, hbefore, hd⟩ := dialogue_command conf ahead req read (by simpa using hdata)
    cases hafter : afterData ahead read with
    | none => simp [hafter] at h
    | some more =>
      rw [hafter] at hd h
      have hin := dialogue_data conf ahead { req with quit := quit, inData := true } more rfl
      simp only [Option.bind_some] at h
      simp only [h] at hin
      obtain ⟨alloc, heq⟩ := hin
      obtain ⟨quit', replies, hreplies, hafter'⟩ := hbehind { req with
        data := content ++ leftover
        dataAlloc := alloc
        inData := false
        process := true
        quit := true } rfl
      rw [hd, heq, hafter']
      exact ⟨rfl, rfl, rfl, before, replies, rfl, hbefore, hreplies⟩

end ComfirmDmarc.Server
