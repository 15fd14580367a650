import ComfirmDmarc.Server.Delivery
import Mathlib.Logic.Function.Iterate

/-!
# Server -- sending the response

The write step of `connection_handle`, against every way the kernel can take
the bytes. A response that is longer than the write buffer goes out in chunks,
and the loop moves on by what it asked for; so what arrives is the response
exactly if no call was taken short.
-/

namespace ComfirmDmarc.Server

open CMemory

/-! ## The chunked loop, an iteration at a time -/

/-- The variables of the loop, and the calls made so far with what they took. -/
structure SendLoop where
  dataSent : Nat
  calls : Nat
  sent : Bytes
  failed : Bool

/-- The loop is left: all was asked for, or a call failed. -/
def SendLoop.Done (data : Bytes) (s : SendLoop) : Prop :=
  data.length ≤ s.dataSent ∨ s.failed = true

instance (data : Bytes) (s : SendLoop) : Decidable (s.Done data) :=
  inferInstanceAs (Decidable (_ ∨ _))

/-- One iteration; a loop that was left stays as it is. -/
def sendIteration (conf : Config) (send : Nat → Nat → Option Nat) (data : Bytes) (s : SendLoop) :
    SendLoop :=
  if s.Done data then s
  else
    let size := if conf.writeBufferSize ≤ data.length - s.dataSent then conf.writeBufferSize
      else data.length - s.dataSent
    match send s.calls size with
    | none => { s with failed := true }
    | some m =>
      { dataSent := s.dataSent + size
        calls := s.calls + 1
        sent := s.sent ++ ((data.drop s.dataSent).take size).take m
        failed := false }

/-- The loop after `n` iterations. -/
def sendLoop (conf : Config) (send : Nat → Nat → Option Nat) (data : Bytes) (n : Nat) : SendLoop :=
  (sendIteration conf send data)^[n] ⟨0, 0, [], false⟩

/-- **The loop ends**, from every state of it, in what `sendChunks` computes. -/
theorem sendIteration_ends (conf : Config) (send : Nat → Nat → Option Nat) (data : Bytes)
    (s : SendLoop) (hs : s.failed = false) (hle : s.dataSent ≤ data.length) :
    ∃ n ≤ data.length - s.dataSent + 1, let s' := (sendIteration conf send data)^[n] s
      s'.Done data ∧ s'.sent = s.sent ++ (sendChunks conf send s.calls (data.drop s.dataSent)).1 ∧
        s'.failed = !(sendChunks conf send s.calls (data.drop s.dataSent)).2 := by
  -- what is left to ask for gets shorter
  induction hlen : data.length - s.dataSent using Nat.strong_induction_on generalizing s with
  | _ len ih =>
    have hpos := conf.writeBufferSize_pos
    by_cases hend : s.dataSent = data.length
    · refine ⟨0, Nat.zero_le _, .inl (by simp [hend]), ?_⟩
      have hnil : data.drop s.dataSent = [] := by rw [hend, List.drop_length]
      rw [hnil, sendChunks, if_pos rfl]
      simp [hs]
    · have hlt : s.dataSent < data.length := by omega
      have hopen : ¬s.Done data := by simp [SendLoop.Done, hs, hlt]
      have hne : data.drop s.dataSent ≠ [] := by simp [hlt]
      have hsize : (if conf.writeBufferSize ≤ data.length - s.dataSent then conf.writeBufferSize
          else data.length - s.dataSent) =
          min (data.drop s.dataSent).length conf.writeBufferSize := by
        rw [List.length_drop]
        split <;> omega
      rw [sendChunks, if_neg hne]
      generalize hmin : min (data.drop s.dataSent).length conf.writeBufferSize = size at hsize
      rw [List.length_drop] at hmin
      cases hsend : send s.calls size with
      | none =>
        have hstep : sendIteration conf send data s = { s with failed := true } := by
          simp only [sendIteration, if_neg hopen, hsize, hsend]
        refine ⟨1, by omega, ?_⟩
        rw [Function.iterate_one, hstep]
        exact ⟨.inr rfl, by simp [hsend], by simp [hsend]⟩
      | some m =>
        have hstep : sendIteration conf send data s =
            { dataSent := s.dataSent + size
              calls := s.calls + 1
              sent := s.sent ++ ((data.drop s.dataSent).take size).take m
              failed := false } := by
          simp only [sendIteration, if_neg hopen, hsize, hsend]
        obtain ⟨n, hn, hdone, hsent, hfailed⟩ := ih (data.length - (s.dataSent + size)) (by omega)
          { dataSent := s.dataSent + size
            calls := s.calls + 1
            sent := s.sent ++ ((data.drop s.dataSent).take size).take m
            failed := false } rfl (by simp only; omega) rfl
        refine ⟨n + 1, by omega, ?_⟩
        rw [Function.iterate_succ_apply, hstep]
        simp only [hsend, List.drop_drop]
        exact ⟨hdone, by rw [hsent, List.append_assoc], hfailed⟩

/-! ## The calls of a response -/

/-- The sizes the loop asks for when `len` bytes are left. -/
def chunkSizes (conf : Config) (len : Nat) : List Nat :=
  if len = 0 then []
  else min len conf.writeBufferSize :: chunkSizes conf (len - min len conf.writeBufferSize)
termination_by len
decreasing_by
  have := conf.writeBufferSize_pos
  omega

/-- The calls of `send` for a response of `len` bytes: what each asks for, and
its number. -/
def sendCalls (conf : Config) (len : Nat) : List (Nat × Nat) :=
  (if len ≤ conf.writeBufferSize then [len] else chunkSizes conf len).zipIdx

/-- `send` fails, or takes at least one byte of those it is given. -/
def ValidSend (send : Nat → Nat → Option Nat) : Prop :=
  ∀ k n m, send k n = some m → m ≤ n ∧ (0 < n → 0 < m)

theorem sendChunks_length_le (conf : Config) (send : Nat → Nat → Option Nat) (k : Nat)
    (data : Bytes) : (sendChunks conf send k data).1.length ≤ data.length := by
  fun_induction sendChunks conf send k data with
  | case1 k => exact Nat.le_refl _
  | case2 k data hne size hsend => exact Nat.zero_le _
  | case3 k data hne size sent hsend next ih =>
    have hnext : next.1.length ≤ (data.drop size).length := ih
    rw [List.length_drop] at hnext
    rw [List.length_append, List.length_take, List.length_take]
    omega

/-- The loop fails with the first call that fails. -/
theorem sendChunks_failed_iff (conf : Config) (send : Nat → Nat → Option Nat) (k : Nat)
    (data : Bytes) :
    (sendChunks conf send k data).2 = false ↔
      ∃ c ∈ (chunkSizes conf data.length).zipIdx k, send c.2 c.1 = none := by
  fun_induction sendChunks conf send k data with
  | case1 k =>
    rw [List.length_nil, chunkSizes]
    simp
  | case2 k data hne size hsend =>
    rw [chunkSizes, if_neg (by simpa using hne), List.zipIdx_cons]
    exact iff_of_true rfl ⟨_, List.mem_cons_self, hsend⟩
  | case3 k data hne size sent hsend next ih =>
    rw [chunkSizes, if_neg (by simpa using hne), List.zipIdx_cons]
    rw [List.length_drop] at ih
    refine ih.trans ?_
    have hhead : send k size ≠ none := by simp [hsend]
    constructor
    · intro hrest
      obtain ⟨c, hc, hfail⟩ := hrest
      exact ⟨c, List.mem_cons_of_mem _ hc, hfail⟩
    · intro hall
      obtain ⟨c, hc, hfail⟩ := hall
      rcases List.mem_cons.mp hc with rfl | hc
      · exact absurd hfail hhead
      · exact ⟨c, hc, hfail⟩

/-- Without a failure the data goes out exactly if every call takes all. -/
theorem sendChunks_sent_iff (conf : Config) {send : Nat → Nat → Option Nat}
    (hvalid : ValidSend send) (k : Nat) (data : Bytes)
    (hok : (sendChunks conf send k data).2 = true) :
    (sendChunks conf send k data).1 = data ↔
      ∀ c ∈ (chunkSizes conf data.length).zipIdx k, send c.2 c.1 = some c.1 := by
  fun_induction sendChunks conf send k data with
  | case1 k =>
    rw [List.length_nil, chunkSizes]
    simp
  | case2 k data hne size hsend => cases hok
  | case3 k data hne size sent hsend next ih =>
    rw [chunkSizes, if_neg (by simpa using hne), List.zipIdx_cons, List.forall_mem_cons]
    have hle := (hvalid k size sent hsend).1
    have hlen : (data.take size).length = size := by
      rw [List.length_take]
      omega
    have hnext := sendChunks_length_le conf send (k + 1) (data.drop size)
    have ih' := ih hok
    rw [List.length_drop] at ih'
    -- neither part can be longer than what it is taken from
    have hsplit : (data.take size).take sent ++ next.1 = data ↔
        (data.take size).take sent = data.take size ∧ next.1 = data.drop size := by
      constructor
      · intro heq
        have htotal := congrArg List.length heq
        rw [List.length_append, List.length_take, hlen] at htotal
        have hrest : (data.drop size).length = data.length - size := List.length_drop
        have hsize : size ≤ data.length := Nat.min_le_left _ _
        change next.1.length ≤ _ at hnext
        refine List.append_inj (heq.trans (List.take_append_drop size data).symm) ?_
        rw [List.length_take, hlen]
        omega
      · rintro ⟨hfirst, hrest⟩
        rw [hfirst, hrest, List.take_append_drop]
    have hhead : (data.take size).take sent = data.take size ↔ send k size = some size := by
      rw [hsend, Option.some.injEq]
      constructor
      · intro heq
        have := congrArg List.length heq
        rw [List.length_take, hlen] at this
        omega
      · rintro rfl
        rw [List.take_take, Nat.min_self]
    exact hsplit.trans (and_congr hhead ih')

/-! ## The write step -/

/-- The response goes out completely: whatever state the write step leaves
without an error, every byte of it was sent once and in order; and the chunked
loop ends. -/
structure SendsCompletely (conf : Config) (env : Env) (w : World) (data : Bytes) : Prop where
  complete : ∀ w', writeStep conf env w = .ok w' → w'.conn.status ≠ .error →
    w'.sent = w.sent ++ data
  ends : ∃ n, (sendLoop conf env.send data n).Done data

theorem sendResponse_iff (conf : Config) {send : Nat → Nat → Option Nat} (hvalid : ValidSend send)
    (data : Bytes) :
    ((sendResponse conf send data).2 = true → (sendResponse conf send data).1 = data) ↔
      (∃ c ∈ sendCalls conf data.length, send c.2 c.1 = none) ∨
        ∀ c ∈ sendCalls conf data.length, send c.2 c.1 = some c.1 := by
  rw [sendResponse, sendCalls]
  by_cases hsmall : data.length ≤ conf.writeBufferSize
  · -- one call
    rw [if_pos hsmall, if_pos hsmall, List.zipIdx_singleton]
    simp only [List.mem_singleton, exists_eq_left, forall_eq]
    cases hsend : send 0 data.length with
    | none => simp
    | some m =>
      have hle := (hvalid 0 _ m hsend).1
      simp only [forall_const, reduceCtorEq, false_or, Option.some.injEq, List.take_eq_self_iff]
      omega
  · rw [if_neg hsmall, if_neg hsmall]
    cases hok : (sendChunks conf send 0 data).2 with
    | false =>
      exact iff_of_true nofun (.inl ((sendChunks_failed_iff conf send 0 data).mp hok))
    | true =>
      rw [forall_prop_of_true rfl, sendChunks_sent_iff conf hvalid 0 data hok]
      refine (or_iff_right fun hfail => ?_).symm
      rw [← sendChunks_failed_iff, hok] at hfail
      cases hfail

/-- What a write step adds to the bytes sent, and when it ends in an error. -/
theorem writeStep_sent (conf : Config) (env : Env) {w : World} {req : Request} {resp : Response}
    (hstatus : w.conn.status = .writing) (hreq : w.conn.request = some req)
    (hresp : w.conn.response = some resp) :
    ∃ w', writeStep conf env w = .ok w' ∧
      w'.sent = w.sent ++ (sendResponse conf env.send resp.data).1 ∧
      (w'.conn.status ≠ .error ↔ (sendResponse conf env.send resp.data).2 = true) := by
  rw [writeStep, if_pos hstatus, hreq, hresp]
  simp only
  cases hok : (sendResponse conf env.send resp.data).2 with
  | false => exact ⟨_, rfl, rfl, by simp⟩
  | true =>
    refine ⟨_, rfl, rfl, iff_of_true ?_ rfl⟩
    show (if req.quit then ConnStatus.closed else .reading) ≠ .error
    split
    · decide
    · decide

/-- **The response goes out completely exactly if no call is taken short**: a
call fails, or every call takes all it is given. -/
theorem writeStep_complete_iff (conf : Config) (env : Env) (w : World) (req : Request)
    (resp : Response) (hstatus : w.conn.status = .writing) (hreq : w.conn.request = some req)
    (hresp : w.conn.response = some resp) (hvalid : ValidSend env.send) :
    SendsCompletely conf env w resp.data ↔
      (∃ c ∈ sendCalls conf resp.data.length, env.send c.2 c.1 = none) ∨
        ∀ c ∈ sendCalls conf resp.data.length, env.send c.2 c.1 = some c.1 := by
  rw [← sendResponse_iff conf hvalid]
  obtain ⟨w', hstep, hsent, hok⟩ := writeStep_sent conf env hstatus hreq hresp
  constructor
  · intro h hall
    have hcomplete := h.complete w' hstep (hok.mpr hall)
    rw [hsent] at hcomplete
    exact List.append_cancel_left hcomplete
  · intro h
    constructor
    · intro w1 hw1 hne
      obtain rfl : w' = w1 := Except.ok.inj (hstep.symm.trans hw1)
      rw [hsent, h (hok.mp hne)]
    · obtain ⟨n, -, hdone, -⟩ := sendIteration_ends conf env.send resp.data ⟨0, 0, [], false⟩ rfl
        (Nat.zero_le _)
      exact ⟨n, hdone⟩

section Examples

/-- A connection with the reply `250 Ok` to send. -/
def replying : World where
  conn := ⟨.writing, some .zero, some (responseAppend responseInit replyOk), none, 0⟩
  queue := smallQueue 0
  sent := []
  added := []

/-- An event whose `send` takes at most `most` bytes a call. -/
def sendEnv (most : Nat) : Env where
  recv := none
  readMem := []
  send := fun _ n => some (min n most)
  requestMem := .zero
  mailMem := .zero
  dataTail := []

theorem sendEnv_valid {most : Nat} (h : 0 < most) : ValidSend (sendEnv most).send := by
  intro k n m hm
  obtain rfl := Option.some.inj hm
  omega

theorem writeStep_complete_iff_replying :
    SendsCompletely .default (sendEnv 3) replying replyOk ↔
      (∃ c ∈ sendCalls .default replyOk.length, (sendEnv 3).send c.2 c.1 = none) ∨
        ∀ c ∈ sendCalls .default replyOk.length, (sendEnv 3).send c.2 c.1 = some c.1 :=
  writeStep_complete_iff .default (sendEnv 3) replying .zero (responseAppend responseInit replyOk)
    rfl rfl rfl (sendEnv_valid (by decide))

/-- A socket that takes three bytes of `250 Ok` has the reply cut there. -/
theorem partial_send_cuts_reply :
    ValidSend (sendEnv 3).send ∧ ¬SendsCompletely .default (sendEnv 3) replying replyOk := by
  refine ⟨sendEnv_valid (by decide), fun h => ?_⟩
  obtain ⟨w', hstep, hsent, hok⟩ := writeStep_sent .default (sendEnv 3) (w := replying) rfl rfl rfl
  rw [show (responseAppend responseInit replyOk).data = replyOk from rfl] at hsent hok
  have hlen : replyOk.length = 8 := by simp [replyOk, bytes]
  have hout : sendResponse .default (sendEnv 3).send replyOk = (replyOk.take 3, true) := by
    rw [sendResponse, if_pos (by rw [hlen]; decide)]
    simp [sendEnv, hlen]
  have hall := h.complete w' hstep (hok.mpr (congrArg Prod.snd hout))
  rw [hsent] at hall
  have hcut := congrArg List.length (List.append_cancel_left hall)
  rw [congrArg Prod.fst hout, List.length_take, hlen] at hcut
  exact absurd hcut (by decide)

end Examples

end ComfirmDmarc.Server
