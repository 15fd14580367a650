import ComfirmDmarc.Server.Transactions
import Mathlib.Data.Nat.Find

/-!
# Server -- the DATA phase

A stream that follows a `DATA` command, fed to `request_parse_commands` in any
pieces. The buffer `req->data` grows by 512 bytes at a time, and its size is an
`int`: the size is computed before the limit of the configuration is looked at,
so a stream that is long enough runs into an overflow.
-/

namespace ComfirmDmarc.Server

open CMemory

/-! ## Feeding a connection -/

/-- `INT_MAX`. -/
def intMax : Nat := 2147483647

/-- The reallocation at the next byte of DATA leaves the range of `int`. -/
def Overflows (req : Request) : Prop :=
  req.inData = true ∧ (intMax < req.data.length + 2 ∨
    (req.dataAlloc ≤ req.data.length + 2 ∧ intMax < req.data.length + 512))

instance (req : Request) : Decidable (Overflows req) := inferInstanceAs (Decidable (_ ∧ _))

/-- The indices of `req->data` that an iteration writes to. -/
def dataWrites (conf : Config) (req : Request) (cur : UInt8) : List Nat :=
  if req.inData = true ∧ (req.data.length : Int) < conf.dataBufferSize then
    req.data.length ::
      if endMark.isSuffixOf (req.data ++ [cur]) then [req.data.length + 1 - 5] else []
  else []

/-- An iteration: how many bytes have been fed with it, what it wrote, and what
it left. The dialogue collects all replies. -/
structure Fed where
  count : Nat
  writes : List Nat
  after : Dialogue

/-- The iterations of a run, and what they leave; `none` where the behaviour of
the program is undefined. -/
structure FedRun where
  iterations : List Fed
  last : Option Dialogue

/-- The loop of `request_parse_commands`, with `n` bytes fed before. -/
def feedLoop (conf : Config) (ahead : Bytes) (n : Nat) (d : Dialogue) : Bytes → FedRun
  | [] => ⟨[], some d⟩
  | cur :: rest =>
    if Overflows d.request then ⟨[], none⟩
    else
      let it := iterate conf ahead d.request cur rest
      let d' : Dialogue := ⟨it.request, d.replies ++ it.reply.toList, it.error⟩
      let fed : Fed := ⟨n + 1 + it.skip, dataWrites conf d.request cur, d'⟩
      if it.error then ⟨[fed], some d'⟩
      else
        let run := feedLoop conf ahead (n + 1 + it.skip) d' (rest.drop it.skip)
        { run with iterations := fed :: run.iterations }
termination_by data => data.length
decreasing_by
  simp only [List.length_drop, List.length_cons]
  omega

/-- Successive calls, each with the memory behind its buffer, up to an error. -/
def feedCalls (conf : Config) (n : Nat) (d : Dialogue) : List (Bytes × Bytes) → FedRun
  | [] => ⟨[], some d⟩
  | (chunk, ahead) :: chunks =>
    let call := feedLoop conf ahead n d chunk
    match call.last with
    | none => call
    | some d' =>
      if d'.error then call
      else
        let run := feedCalls conf (n + chunk.length) d' chunks
        { run with iterations := call.iterations ++ run.iterations }

/-- **A call that is defined is a read.** -/
theorem feedLoop_last {conf : Config} {ahead : Bytes} {n : Nat} {d d' : Dialogue} {chunk : Bytes}
    (hd : d.error = false) (h : (feedLoop conf ahead n d chunk).last = some d') :
    d'.request = (dialogue conf ahead d.request chunk).request ∧
      d'.error = (dialogue conf ahead d.request chunk).error ∧
      d'.replies = d.replies ++ (dialogue conf ahead d.request chunk).replies := by
  fun_induction feedLoop conf ahead n d chunk with
  | case1 n d =>
    obtain rfl : d = d' := by simpa using h
    rw [dialogue]
    exact ⟨rfl, hd, by simp⟩
  | case2 n d cur rest hover => cases h
  | case3 n d cur rest hover it next fed herr =>
    obtain rfl : next = d' := by simpa using h
    rw [dialogue]
    simp only [show iterate conf ahead d.request cur rest = it from rfl, if_pos herr]
    exact ⟨rfl, herr, rfl⟩
  | case4 n d cur rest hover it next fed herr run ih =>
    obtain ⟨hreq, herror, hreplies⟩ := ih (by simpa using herr) h
    rw [dialogue]
    simp only [show iterate conf ahead d.request cur rest = it from rfl, if_neg herr]
    exact ⟨hreq, herror, by rw [hreplies]; simp [next]⟩

/-- The `DATA` command enters the phase, and the loop goes on with what follows
it in the same read. -/
theorem feedLoop_data (conf : Config) (ahead : Bytes) (n : Nat) {d : Dialogue}
    (hdata : d.request.inData = false) (rest : Bytes) :
    let d' : Dialogue := ⟨{ d.request with inData := true }, d.replies ++ [replyStart], false⟩
    let run := feedLoop conf ahead (n + 6) d' rest
    feedLoop conf ahead n d (bytes "DATA\r\n" ++ rest) =
      { run with iterations := ⟨n + 6, [], d'⟩ :: run.iterations } := by
  have hover : ¬Overflows d.request := by
    rintro ⟨hin, -⟩
    rw [hdata] at hin
    cases hin
  have hword : bytes "DATA\r\n" = 68 :: [65, 84, 65, 13, 10] := by decide
  have hstep : iterate conf ahead d.request 68 ([65, 84, 65, 13, 10] ++ rest) =
      ⟨{ d.request with inData := true }, some replyStart, 5, false⟩ := by
    rw [iterate, if_pos hdata, commandStep, if_pos]
    rw [startsWith_iff, hword]
    exact ⟨rest ++ ahead, by simp⟩
  have hwrites : dataWrites conf d.request 68 = [] := by simp [dataWrites, hdata]
  rw [hword, List.cons_append, feedLoop, if_neg hover]
  simp only [hstep, hwrites]
  rfl

/-! ## What an extraction should do -/

/-- The first end-of-data mark of a stream ends behind `p` bytes. -/
structure MarkEnds (s : Bytes) (p : Nat) : Prop where
  le : p ≤ s.length
  mark : endMark <:+ s.take p
  first : ∀ q < p, ¬endMark <:+ s.take q

/-- The content is complete: it is acknowledged once and stands in front of a
NUL. -/
structure Extracted (d : Dialogue) (before : List Bytes) (content : Bytes) : Prop where
  inData : d.request.inData = false
  process : d.request.process = true
  quit : d.request.quit = true
  error : d.error = false
  replies : d.replies = before ++ [replyQueued]
  data : ∃ rest, d.request.data = content ++ 0 :: rest

/-- The content is not complete, and nothing has been acknowledged. -/
structure Unfinished (d start : Dialogue) : Prop where
  inData : d.request.inData = true
  process : d.request.process = false
  quit : d.request.quit = start.request.quit
  replies : d.replies = start.replies

/-- **The DATA phase extracts the content** from a stream that comes in
`chunks`. -/
structure ExtractsData (conf : Config) (start : Dialogue) (chunks : List (Bytes × Bytes)) : Prop where
  found : ∀ p, MarkEnds (chunks.map Prod.fst).flatten p → (p : Int) ≤ conf.dataBufferSize →
    (∀ k, 0 < k → k < p → ∃ fed, (feedCalls conf 0 start chunks).iterations[k - 1]? = some fed ∧
      fed.count = k ∧ Unfinished fed.after start ∧ fed.after.error = false) ∧
    ∃ fed, (feedCalls conf 0 start chunks).iterations[p - 1]? = some fed ∧ fed.count = p ∧
      Extracted fed.after start.replies ((chunks.map Prod.fst).flatten.take (p - 5))
  missing : (¬∃ p, MarkEnds (chunks.map Prod.fst).flatten p ∧ (p : Int) ≤ conf.dataBufferSize) →
    (∀ fed ∈ (feedCalls conf 0 start chunks).iterations, Unfinished fed.after start) ∧
    ∀ k, 0 < k → k ≤ (chunks.map Prod.fst).flatten.length → k ≤ conf.dataBufferSize.toNat + 1 →
      ∃ fed, (feedCalls conf 0 start chunks).iterations[k - 1]? = some fed ∧ fed.count = k ∧
        (fed.after.error = true ↔ conf.dataBufferSize < k)
  writes : ∀ fed ∈ (feedCalls conf 0 start chunks).iterations, ∀ i ∈ fed.writes,
    i < fed.after.request.dataAlloc

/-- A connection that has just read the `DATA` command, with the replies that
were made before. -/
def enteredData (mem : Request) (quit : Bool) (before : List Bytes) : Dialogue :=
  ⟨{ requestInit mem with quit := quit, inData := true }, before, false⟩

/-! ## The allocation -/

/-- The size of `req->data` when it holds so many bytes. -/
def reserved : Nat → Nat
  | 0 => 0
  | k + 1 => 510 * (k / 510) + 512

theorem reserved_succ (k : Nat) : reserved (k + 1) = 510 * (k / 510) + 512 := rfl

theorem reserved_next (k : Nat) :
    (if reserved k ≤ k + 2 then k + 512 else reserved k) = reserved (k + 1) := by
  have hnext := reserved_succ k
  cases k with
  | zero => rfl
  | succ k =>
    have hlast := reserved_succ k
    by_cases hfull : reserved (k + 1) ≤ k + 1 + 2
    · rw [if_pos hfull]
      omega
    · rw [if_neg hfull]
      omega

/-- As many bytes as can be stored: the next size is no `int`. -/
def dataMax : Nat := 2147483520

/-- A connection that has stored `u`. -/
def storing (start : Dialogue) (u : Bytes) : Dialogue :=
  ⟨{ start.request with data := u, dataAlloc := reserved u.length }, start.replies, false⟩

theorem overflows_storing_iff {start : Dialogue} (hdata : start.request.inData = true) {u : Bytes}
    (hu : u.length ≤ dataMax) : Overflows (storing start u).request ↔ u.length = dataMax := by
  have hreserved : 0 < u.length → reserved u.length = 510 * ((u.length - 1) / 510) + 512 := by
    intro hpos
    obtain ⟨k, hk⟩ : ∃ k, u.length = k + 1 := ⟨u.length - 1, by omega⟩
    rw [hk, reserved_succ, Nat.add_sub_cancel]
  simp only [Overflows, storing, hdata, true_and, intMax, dataMax] at hu ⊢
  constructor
  · rintro (hlen | ⟨hfull, hlen⟩)
    · omega
    · have := hreserved (by omega)
      omega
  · intro hlen
    have := hreserved (by omega)
    omega

/-! ## The iterations inside DATA -/

/-- The iteration that stores the last byte of `u`. -/
def stored (start : Dialogue) (u : Bytes) : Fed := ⟨u.length, [u.length - 1], storing start u⟩

/-- The iteration that completes the content of `u`. -/
def completed (start : Dialogue) (u : Bytes) : Fed where
  count := u.length
  writes := [u.length - 1, u.length - 5]
  after :=
    ⟨{ start.request with
        data := u.take (u.length - 5) ++ leftover
        dataAlloc := reserved u.length
        inData := false
        process := true
        quit := true }, start.replies ++ [replyQueued], false⟩

/-- The iteration that has no room for another byte behind `u`. -/
def refused (start : Dialogue) (u : Bytes) : Fed where
  count := u.length + 1
  writes := []
  after :=
    ⟨{ start.request with data := u, dataAlloc := reserved (u.length + 1) }, start.replies, true⟩

/-- The iterations inside DATA, behind the stored bytes `u`. -/
def dataIterations (conf : Config) (start : Dialogue) (u : Bytes) : Bytes → List Fed
  | [] => []
  | c :: s =>
    if dataMax ≤ u.length then []
    else if (u.length : Int) < conf.dataBufferSize then
      if endMark.isSuffixOf (u ++ [c]) then [completed start (u ++ [c])]
      else stored start (u ++ [c]) :: dataIterations conf start (u ++ [c]) s
    else [refused start u]

/-- One byte of the stream. -/
theorem feedLoop_storing (conf : Config) (ahead : Bytes) {start : Dialogue}
    (hdata : start.request.inData = true) {u : Bytes} (hu : u.length ≤ dataMax) (c : UInt8)
    (rest : Bytes) :
    feedLoop conf ahead u.length (storing start u) (c :: rest) =
      if dataMax ≤ u.length then ⟨[], none⟩
      else if (u.length : Int) < conf.dataBufferSize then
        if endMark.isSuffixOf (u ++ [c]) then
          let run := feedLoop conf ahead (u.length + 1) (completed start (u ++ [c])).after rest
          { run with iterations := completed start (u ++ [c]) :: run.iterations }
        else
          let run := feedLoop conf ahead (u.length + 1) (storing start (u ++ [c])) rest
          { run with iterations := stored start (u ++ [c]) :: run.iterations }
      else ⟨[refused start u], some (refused start u).after⟩ := by
  have hin : (storing start u).request.inData = true := hdata
  have halloc : (reserveData (storing start u).request).dataAlloc = reserved (u.length + 1) :=
    reserved_next u.length
  rw [feedLoop]
  by_cases hmax : dataMax ≤ u.length
  · rw [if_pos hmax, if_pos ((overflows_storing_iff hdata hu).mpr (by omega))]
  · rw [if_neg hmax, if_neg fun h => hmax (by rw [(overflows_storing_iff hdata hu).mp h])]
    have hwrites : dataWrites conf (storing start u).request c =
        if (u.length : Int) < conf.dataBufferSize then
          u.length :: if endMark.isSuffixOf (u ++ [c]) then [u.length + 1 - 5] else []
        else [] := by
      simp only [dataWrites, hin, true_and, show (storing start u).request.data = u from rfl]
    rw [iterate_data_eq conf ahead hin, halloc, hwrites,
      show (storing start u).request.data = u from rfl]
    by_cases hroom : (u.length : Int) < conf.dataBufferSize
    · simp only [if_pos hroom]
      by_cases hend : endMark.isSuffixOf (u ++ [c]) = true
      · simp only [if_pos hend]
        simp [completed, storing]
      · simp only [if_neg hend]
        simp [stored, storing]
    · simp only [if_neg hroom]
      simp [refused, storing]

/-- **One call inside DATA**: it stores its chunk, or it stops with what any
longer stream would stop with. -/
theorem feedLoop_chunk (conf : Config) (ahead : Bytes) {start : Dialogue}
    (hdata : start.request.inData = true) {u : Bytes} (hu : u.length ≤ dataMax) (chunk : Bytes) :
    let run := feedLoop conf ahead u.length (storing start u) chunk
    (run.last = some (storing start (u ++ chunk)) ∧ (u ++ chunk).length ≤ dataMax ∧
        ∀ t, dataIterations conf start u (chunk ++ t) =
          run.iterations ++ dataIterations conf start (u ++ chunk) t) ∨
      ∃ its rest, run.iterations = its ++ rest ∧
        (∀ t, dataIterations conf start u (chunk ++ t) = its) ∧
        ((rest = [] ∧ ∀ d ∈ run.last, d.error = true) ∨ ∃ fed ∈ its, fed.after.request.inData = false) := by
  induction chunk generalizing u with
  | nil =>
    left
    rw [feedLoop, List.append_nil]
    exact ⟨rfl, hu, fun t => by simp⟩
  | cons c chunk ih =>
    have hrun := feedLoop_storing conf ahead hdata hu c chunk
    have hits : ∀ t, dataIterations conf start u (c :: chunk ++ t) =
        if dataMax ≤ u.length then []
        else if (u.length : Int) < conf.dataBufferSize then
          if endMark.isSuffixOf (u ++ [c]) then [completed start (u ++ [c])]
          else stored start (u ++ [c]) :: dataIterations conf start (u ++ [c]) (chunk ++ t)
        else [refused start u] := fun t => by rw [List.cons_append, dataIterations]
    by_cases hmax : dataMax ≤ u.length
    · simp only [if_pos hmax] at hrun hits
      exact .inr ⟨[], [], by rw [hrun]; rfl, hits, .inl ⟨rfl, by rw [hrun]; nofun⟩⟩
    simp only [if_neg hmax] at hrun hits
    by_cases hroom : (u.length : Int) < conf.dataBufferSize
    · simp only [if_pos hroom] at hrun hits
      by_cases hend : endMark.isSuffixOf (u ++ [c]) = true
      · simp only [if_pos hend] at hrun hits
        refine .inr ⟨_, (feedLoop conf ahead (u.length + 1)
          (completed start (u ++ [c])).after chunk).iterations, by rw [hrun]; rfl, hits, .inr ?_⟩
        exact ⟨_, List.mem_singleton_self _, rfl⟩
      · simp only [if_neg hend] at hrun hits
        have hlen : (u ++ [c]).length = u.length + 1 := by simp
        have hnext := ih (by omega : (u ++ [c]).length ≤ dataMax)
        rw [hlen] at hnext
        simp only [hrun]
        rcases hnext with ⟨hlast, hle, htrace⟩ | ⟨its, rest, heq, htrace, hstop⟩
        · left
          rw [List.append_assoc, List.singleton_append] at hlast hle htrace
          exact ⟨hlast, hle, fun t => by rw [hits, htrace]; rfl⟩
        · right
          refine ⟨stored start (u ++ [c]) :: its, rest, by rw [heq]; rfl,
            fun t => by rw [hits, htrace], ?_⟩
          rcases hstop with hnone | ⟨fed, hfed, hdone⟩
          · exact .inl hnone
          · exact .inr ⟨fed, List.mem_cons_of_mem _ hfed, hdone⟩
    · simp only [if_neg hroom] at hrun hits
      refine .inr ⟨_, [], by rw [hrun, List.append_nil], hits, .inl ⟨rfl, ?_⟩⟩
      rw [hrun]
      rintro d hd
      obtain rfl : (refused start u).after = d := by simpa using hd
      rfl

/-- **The pieces of the stream do not matter**: the calls go through the
iterations of the whole stream, and on from there only when the content is
complete. -/
theorem feedCalls_storing (conf : Config) {start : Dialogue} (hdata : start.request.inData = true)
    {u : Bytes} (hu : u.length ≤ dataMax) (chunks : List (Bytes × Bytes)) :
    ∃ rest, (feedCalls conf u.length (storing start u) chunks).iterations =
        dataIterations conf start u (chunks.map Prod.fst).flatten ++ rest ∧
      (rest = [] ∨ ∃ fed ∈ dataIterations conf start u (chunks.map Prod.fst).flatten,
        fed.after.request.inData = false) := by
  induction chunks generalizing u with
  | nil => exact ⟨[], rfl, .inl rfl⟩
  | cons head chunks ih =>
    obtain ⟨chunk, ahead⟩ := head
    rw [List.map_cons, List.flatten_cons, feedCalls]
    rcases feedLoop_chunk conf ahead hdata hu chunk with ⟨hlast, hle, htrace⟩ |
      ⟨its, rest, heq, htrace, hstop⟩
    · obtain ⟨rest, hrest, hdone⟩ := ih hle
      have herr : (storing start (u ++ chunk)).error = false := rfl
      simp only [hlast, herr, Bool.false_eq_true, if_false]
      rw [← List.length_append, hrest, htrace]
      refine ⟨rest, (List.append_assoc _ _ _).symm, ?_⟩
      rcases hdone with hnil | ⟨fed, hfed, hdone⟩
      · exact .inl hnil
      · exact .inr ⟨fed, List.mem_append_right _ hfed, hdone⟩
    · rw [htrace]
      cases hlast : (feedLoop conf ahead u.length (storing start u) chunk).last with
      | none =>
        dsimp only
        exact ⟨rest, heq, hstop.imp And.left id⟩
      | some d =>
        dsimp only
        by_cases herr : d.error = true
        · rw [if_pos herr]
          exact ⟨rest, heq, hstop.imp And.left id⟩
        · rw [if_neg herr]
          -- a call that goes on has completed the content
          refine ⟨rest ++ (feedCalls conf (u.length + chunk.length) d chunks).iterations, ?_, ?_⟩
          · simp only [heq, List.append_assoc]
          · rcases hstop with ⟨-, hno⟩ | hdone
            · exact absurd (hno d hlast) herr
            · exact .inr hdone

/-! ## Where the iterations stop -/

/-- The first `i` bytes of the stream are stored. -/
def StoresFirst (conf : Config) (s : Bytes) (i : Nat) : Prop :=
  ∀ j < i, j < dataMax ∧ (j : Int) < conf.dataBufferSize ∧ ¬endMark <:+ s.take (j + 1)

theorem StoresFirst.mono {conf : Config} {s : Bytes} {i j : Nat} (h : StoresFirst conf s i)
    (hle : j ≤ i) : StoresFirst conf s j := fun k hk => h k (by omega)

/-- The iterations at the byte behind the first `i`. -/
theorem dataIterations_at (conf : Config) (start : Dialogue) {s : Bytes} {i : Nat}
    (hi : i < s.length) :
    dataIterations conf start (s.take i) (s.drop i) =
      if dataMax ≤ i then []
      else if (i : Int) < conf.dataBufferSize then
        if endMark.isSuffixOf (s.take (i + 1)) then [completed start (s.take (i + 1))]
        else stored start (s.take (i + 1)) ::
          dataIterations conf start (s.take (i + 1)) (s.drop (i + 1))
      else [refused start (s.take i)] := by
  have hlen : (s.take i).length = i := by
    rw [List.length_take]
    omega
  rw [List.drop_eq_getElem_cons hi, dataIterations, hlen, List.take_concat_get' s i hi]

theorem dataIterations_stored {conf : Config} {start : Dialogue} {s : Bytes} {i : Nat}
    (h : StoresFirst conf s i) (hi : i ≤ s.length) :
    dataIterations conf start [] s =
      (List.range i).map (fun j => stored start (s.take (j + 1))) ++
        dataIterations conf start (s.take i) (s.drop i) := by
  induction i with
  | zero => rfl
  | succ i ih =>
    obtain ⟨hmax, hroom, hend⟩ := h i (Nat.lt_succ_self i)
    rw [ih (h.mono (Nat.le_succ i)) (by omega), dataIterations_at conf start (by omega),
      if_neg (by omega), if_pos hroom, if_neg (by rwa [List.isSuffixOf_iff_suffix]),
      List.range_succ, List.map_append, List.append_assoc]
    rfl

theorem exists_markEnds {s : Bytes} {q : Nat} (h : endMark <:+ s.take q) :
    ∃ p ≤ q, MarkEnds s p := by
  have hex : ∃ p, endMark <:+ s.take p := ⟨q, h⟩
  have hfirst : ∀ q < Nat.find hex, ¬endMark <:+ s.take q := fun q hq => Nat.find_min hex hq
  refine ⟨Nat.find hex, Nat.find_min' hex h, ?_, Nat.find_spec hex, hfirst⟩
  -- a longer prefix would be no other text
  by_contra hle
  have hspec := Nat.find_spec hex
  rw [List.take_of_length_le (by omega)] at hspec
  exact hfirst s.length (by omega) (by rwa [List.take_length])

theorem MarkEnds.pos {s : Bytes} {p : Nat} (h : MarkEnds s p) : 5 ≤ p := by
  have hlen := h.mark.length_le
  rw [List.length_take, show endMark.length = 5 by decide] at hlen
  omega

/-- The content ends within the limits. -/
theorem dataIterations_of_mark {conf : Config} {start : Dialogue} {s : Bytes} {p : Nat}
    (h : MarkEnds s p) (hroom : (p : Int) ≤ conf.dataBufferSize) (hmax : p ≤ dataMax) :
    dataIterations conf start [] s =
      (List.range (p - 1)).map (fun j => stored start (s.take (j + 1))) ++
        [completed start (s.take p)] := by
  have hle := h.le
  have hpos := h.pos
  have hstores : StoresFirst conf s (p - 1) := fun j hj =>
    ⟨by omega, by omega, h.first (j + 1) (by omega)⟩
  rw [dataIterations_stored hstores (by omega), dataIterations_at conf start (by omega),
    if_neg (by omega), if_pos (by omega), show p - 1 + 1 = p by omega,
    if_pos (List.isSuffixOf_iff_suffix.mpr h.mark)]

/-- The content does not end within the limits. -/
theorem dataIterations_of_no_mark {conf : Config} {start : Dialogue} {s : Bytes}
    (h : ¬∃ p, MarkEnds s p ∧ (p : Int) ≤ conf.dataBufferSize)
    (hmax : conf.dataBufferSize < dataMax ∨ s.length ≤ dataMax) :
    dataIterations conf start [] s =
      (List.range (min s.length conf.dataBufferSize.toNat)).map
          (fun j => stored start (s.take (j + 1))) ++
        if conf.dataBufferSize.toNat < s.length then
          [refused start (s.take conf.dataBufferSize.toNat)]
        else [] := by
  have hstores : StoresFirst conf s (min s.length conf.dataBufferSize.toNat) := by
    intro j hj
    refine ⟨by omega, by omega, fun hend => ?_⟩
    obtain ⟨p, hp, hmark⟩ := exists_markEnds hend
    exact h ⟨p, hmark, by omega⟩
  have hpos : 0 < dataMax := by decide
  rw [dataIterations_stored hstores (Nat.min_le_left _ _)]
  by_cases hlt : conf.dataBufferSize.toNat < s.length
  · rw [if_pos hlt, Nat.min_eq_right (by omega), dataIterations_at conf start hlt,
      if_neg (by omega), if_neg (by omega)]
  · rw [if_neg hlt, Nat.min_eq_left (by omega), List.drop_length]
    rfl

/-- The content leaves the range of `int`. -/
theorem dataIterations_of_overflow {conf : Config} {start : Dialogue} {s : Bytes}
    (hroom : (dataMax : Int) ≤ conf.dataBufferSize) (hlen : dataMax < s.length)
    (hmark : ¬∃ p ≤ dataMax, MarkEnds s p) :
    dataIterations conf start [] s =
      (List.range dataMax).map fun j => stored start (s.take (j + 1)) := by
  have hstores : StoresFirst conf s dataMax := by
    intro j hj
    refine ⟨hj, by omega, fun hend => ?_⟩
    obtain ⟨p, hp, hends⟩ := exists_markEnds hend
    exact hmark ⟨p, by omega, hends⟩
  rw [dataIterations_stored hstores (by omega), dataIterations_at conf start hlen,
    if_pos (le_refl _), List.append_nil]

/-! ## Writes -/

theorem dataWrites_lt (conf : Config) (ahead : Bytes) (req : Request) (cur : UInt8) (rest : Bytes) :
    ∀ i ∈ dataWrites conf req cur, i < (iterate conf ahead req cur rest).request.dataAlloc := by
  have hreserve : req.data.length < (reserveData req).dataAlloc := by
    simp only [reserveData]
    split <;> omega
  intro i hi
  rw [dataWrites] at hi
  split at hi
  · next hin =>
    have hlt : i < (reserveData req).dataAlloc := by
      rcases List.mem_cons.mp hi with rfl | hi
      · exact hreserve
      · split at hi
        · obtain rfl := List.mem_singleton.mp hi
          omega
        · cases hi
    rw [iterate_data_eq conf ahead hin.1, if_pos hin.2]
    split
    · exact hlt
    · exact hlt
  · cases hi

theorem feedLoop_writes (conf : Config) (ahead : Bytes) (n : Nat) (d : Dialogue) (chunk : Bytes) :
    ∀ fed ∈ (feedLoop conf ahead n d chunk).iterations, ∀ i ∈ fed.writes,
      i < fed.after.request.dataAlloc := by
  fun_induction feedLoop conf ahead n d chunk with
  | case1 n d => simp
  | case2 n d cur rest hover => simp
  | case3 n d cur rest hover it next fed herr =>
    intro f hf
    obtain rfl := List.mem_singleton.mp hf
    exact dataWrites_lt conf ahead d.request cur rest
  | case4 n d cur rest hover it next fed herr run ih =>
    intro f hf
    rcases List.mem_cons.mp hf with rfl | hf
    · exact dataWrites_lt conf ahead d.request cur rest
    · exact ih f hf

/-- **Every write is below the allocation**, wherever the run goes. -/
theorem feedCalls_writes (conf : Config) (n : Nat) (d : Dialogue) (chunks : List (Bytes × Bytes)) :
    ∀ fed ∈ (feedCalls conf n d chunks).iterations, ∀ i ∈ fed.writes,
      i < fed.after.request.dataAlloc := by
  induction chunks generalizing n d with
  | nil => simp [feedCalls]
  | cons head chunks ih =>
    obtain ⟨chunk, ahead⟩ := head
    have hcall := feedLoop_writes conf ahead n d chunk
    rw [feedCalls]
    dsimp only
    cases (feedLoop conf ahead n d chunk).last with
    | none => exact hcall
    | some d' =>
      dsimp only
      split
      · exact hcall
      · intro fed hfed
        rcases List.mem_append.mp hfed with hfed | hfed
        · exact hcall fed hfed
        · exact ih _ _ fed hfed

/-! ## The extraction -/

section Extraction

variable {conf : Config} {mem : Request} {quit : Bool} {before : List Bytes}
  {chunks : List (Bytes × Bytes)}

/-- The iterations of the calls, from the `DATA` command on. -/
theorem feedCalls_entered (conf : Config) (mem : Request) (quit : Bool) (before : List Bytes)
    (chunks : List (Bytes × Bytes)) :
    let its := dataIterations conf (enteredData mem quit before) [] (chunks.map Prod.fst).flatten
    ∃ rest, (feedCalls conf 0 (enteredData mem quit before) chunks).iterations = its ++ rest ∧
      (rest = [] ∨ ∃ fed ∈ its, fed.after.request.inData = false) := by
  have hdata : (enteredData mem quit before).request.inData = true := rfl
  have hnil : ([] : Bytes).length ≤ dataMax := Nat.zero_le _
  exact feedCalls_storing conf hdata hnil chunks

theorem unfinished_stored (u : Bytes) :
    Unfinished (stored (enteredData mem quit before) u).after (enteredData mem quit before) :=
  ⟨rfl, rfl, rfl, rfl⟩

theorem unfinished_refused (u : Bytes) :
    Unfinished (refused (enteredData mem quit before) u).after (enteredData mem quit before) :=
  ⟨rfl, rfl, rfl, rfl⟩

theorem extracted_completed {s : Bytes} {p : Nat} (h : MarkEnds s p) :
    Extracted (completed (enteredData mem quit before) (s.take p)).after before (s.take (p - 5)) := by
  have hle := h.le
  refine ⟨rfl, rfl, rfl, rfl, rfl, [10, 46, 13, 10], ?_⟩
  show (s.take p).take ((s.take p).length - 5) ++ leftover = _
  rw [List.length_take, Nat.min_eq_left hle, List.take_take, Nat.min_eq_left (Nat.sub_le p 5)]
  rfl

/-- What the first iterations are. -/
theorem getElem?_stored {start : Dialogue} {s : Bytes} {n j : Nat} (hj : j < n) (rest : List Fed) :
    ((List.range n).map (fun j => stored start (s.take (j + 1))) ++ rest)[j]? =
      some (stored start (s.take (j + 1))) := by
  rw [List.getElem?_append_left (by simpa using hj)]
  simp [hj]

/-- No iteration of an unfinished phase leaves DATA. -/
theorem rest_eq_nil {its rest : List Fed} {start : Dialogue}
    (h : rest = [] ∨ ∃ fed ∈ its, fed.after.request.inData = false)
    (hits : ∀ fed ∈ its, Unfinished fed.after start) : rest = [] := by
  rcases h with hnil | ⟨fed, hfed, hdone⟩
  · exact hnil
  · rw [(hits fed hfed).inData] at hdone
    cases hdone

/-- Without a mark that is found every iteration is one of these two. -/
theorem unfinished_of_no_mark {s : Bytes}
    (hnone : ¬∃ p, MarkEnds s p ∧ (p : Int) ≤ conf.dataBufferSize)
    (hmax : conf.dataBufferSize < dataMax ∨ s.length ≤ dataMax) :
    ∀ fed ∈ dataIterations conf (enteredData mem quit before) [] s,
      Unfinished fed.after (enteredData mem quit before) := by
  rw [dataIterations_of_no_mark hnone hmax]
  intro fed hfed
  rcases List.mem_append.mp hfed with hfed | hfed
  · obtain ⟨j, -, rfl⟩ := List.mem_map.mp hfed
    exact unfinished_stored _
  · split at hfed
    · rw [List.mem_singleton.mp hfed]
      exact unfinished_refused _
    · cases hfed

theorem extractsData_of_room (h : conf.dataBufferSize < dataMax ∨
    (chunks.map Prod.fst).flatten.length ≤ dataMax ∨
      ∃ p ≤ dataMax, MarkEnds (chunks.map Prod.fst).flatten p) :
    ExtractsData conf (enteredData mem quit before) chunks := by
  obtain ⟨rest, hits, hrest⟩ := feedCalls_entered conf mem quit before chunks
  refine ⟨fun p hmark hroom => ?_, fun hnone => ?_,
    feedCalls_writes conf 0 (enteredData mem quit before) chunks⟩
  · generalize (chunks.map Prod.fst).flatten = s at h hits hmark ⊢
    have hle := hmark.le
    have hpos := hmark.pos
    have hmax : p ≤ dataMax := by
      rcases h with hsize | hlen | ⟨q, hq, hmark'⟩
      · omega
      · omega
      · by_contra hgt
        exact hmark.first q (by omega) hmark'.mark
    rw [dataIterations_of_mark hmark hroom hmax, List.append_assoc] at hits
    rw [hits]
    refine ⟨fun k hk hkp => ?_, ?_⟩
    · refine ⟨_, getElem?_stored (by omega) _, ?_, unfinished_stored _, rfl⟩
      show (s.take (k - 1 + 1)).length = k
      rw [List.length_take]
      omega
    · refine ⟨completed (enteredData mem quit before) (s.take p), ?_, ?_, extracted_completed hmark⟩
      · rw [List.getElem?_append_right (by simp)]
        simp
      · show (s.take p).length = p
        rw [List.length_take]
        omega
  · generalize (chunks.map Prod.fst).flatten = s at h hits hrest hnone ⊢
    have hmax : conf.dataBufferSize < dataMax ∨ s.length ≤ dataMax := by
      rcases h with hsize | hlen | ⟨q, hq, hmark⟩
      · exact .inl hsize
      · exact .inr hlen
      · refine .inl ?_
        by_contra hge
        exact hnone ⟨q, hmark, by omega⟩
    have hunfinished : ∀ fed ∈ dataIterations conf (enteredData mem quit before) [] s,
        Unfinished fed.after (enteredData mem quit before) := unfinished_of_no_mark hnone hmax
    obtain rfl := rest_eq_nil hrest hunfinished
    rw [List.append_nil] at hits
    rw [hits]
    refine ⟨hunfinished, fun k hk hlen hsize => ?_⟩
    rw [dataIterations_of_no_mark hnone hmax]
    by_cases hlast : conf.dataBufferSize < k
    · -- the byte behind the limit
      have hk' : k - 1 = min s.length conf.dataBufferSize.toNat := by omega
      refine ⟨refused (enteredData mem quit before) (s.take conf.dataBufferSize.toNat), ?_, ?_, ?_⟩
      · rw [if_pos (by omega), List.getElem?_append_right (by simp [hk'])]
        simp [hk']
      · show (s.take conf.dataBufferSize.toNat).length + 1 = k
        rw [List.length_take]
        omega
      · exact ⟨fun _ => hlast, fun _ => rfl⟩
    · refine ⟨_, getElem?_stored (by omega) _, ?_, ?_⟩
      · show (s.take (k - 1 + 1)).length = k
        rw [List.length_take]
        omega
      · exact ⟨nofun, fun hlt => absurd hlt hlast⟩

theorem not_extractsData_of_overflow (hroom : (dataMax : Int) ≤ conf.dataBufferSize)
    (hlen : dataMax < (chunks.map Prod.fst).flatten.length)
    (hmark : ¬∃ p ≤ dataMax, MarkEnds (chunks.map Prod.fst).flatten p) :
    ¬ExtractsData conf (enteredData mem quit before) chunks := by
  intro h
  obtain ⟨rest, hits, hrest⟩ := feedCalls_entered conf mem quit before chunks
  have hfound := h.found
  have hmissing := h.missing
  generalize (chunks.map Prod.fst).flatten = s at hits hrest hlen hmark hfound hmissing
  rw [dataIterations_of_overflow hroom hlen hmark] at hits hrest
  obtain rfl : rest = [] := by
    refine @rest_eq_nil _ _ (enteredData mem quit before) hrest fun fed hfed => ?_
    obtain ⟨j, -, rfl⟩ := List.mem_map.mp hfed
    exact unfinished_stored _
  -- there is no iteration at the next byte
  have hstop : (feedCalls conf 0 (enteredData mem quit before) chunks).iterations[dataMax]? = none := by
    rw [hits, List.append_nil]
    simp
  by_cases hp : ∃ p, MarkEnds s p ∧ (p : Int) ≤ conf.dataBufferSize
  · obtain ⟨p, hends, hle⟩ := hp
    have hgt : dataMax < p := by
      by_contra hle'
      exact hmark ⟨p, by omega, hends⟩
    obtain ⟨hbefore, fed, hat, -⟩ := hfound p hends hle
    rcases Nat.eq_or_lt_of_le (show dataMax + 1 ≤ p from hgt) with rfl | hlt
    · rw [Nat.add_sub_cancel, hstop] at hat
      cases hat
    · obtain ⟨fed, hat, -⟩ := hbefore (dataMax + 1) (Nat.succ_pos _) hlt
      rw [Nat.add_sub_cancel, hstop] at hat
      cases hat
  · obtain ⟨fed, hat, -⟩ := (hmissing hp).2 (dataMax + 1) (Nat.succ_pos _) (by omega) (by omega)
    rw [Nat.add_sub_cancel, hstop] at hat
    cases hat

end Extraction

/-- **The DATA phase extracts the content** exactly when it stays in the range
of `int`: the limit of the configuration lies below, or the stream does not get
that far. -/
theorem extractsData_iff (conf : Config) (mem : Request) (quit : Bool) (before : List Bytes)
    (chunks : List (Bytes × Bytes)) :
    ExtractsData conf (enteredData mem quit before) chunks ↔
      conf.dataBufferSize < dataMax ∨ (chunks.map Prod.fst).flatten.length ≤ dataMax ∨
        ∃ p ≤ dataMax, MarkEnds (chunks.map Prod.fst).flatten p := by
  constructor
  · intro h
    by_contra hno
    simp only [not_or] at hno
    obtain ⟨hroom, hlen, hmark⟩ := hno
    exact not_extractsData_of_overflow (by omega) (by omega) hmark h
  · exact extractsData_of_room

section Examples

/-- A configuration without a limit on the content. -/
def unlimitedConfig : Config := { Config.default with dataBufferSize := 2147483647 }

/-- A stream of two gigabytes without an end. -/
def endlessStream : Bytes := List.replicate (dataMax + 1) 97

theorem endless_stream_overflows :
    ¬∀ (conf : Config) (mem : Request) (quit : Bool) (before : List Bytes)
      (chunks : List (Bytes × Bytes)), ExtractsData conf (enteredData mem quit before) chunks := by
  intro h
  have hstream : (([(endlessStream, [])] : List (Bytes × Bytes)).map Prod.fst).flatten =
      endlessStream := by simp
  refine not_extractsData_of_overflow ?_ ?_ ?_
    (h unlimitedConfig .zero false [] [(endlessStream, [])])
  · show (dataMax : Int) ≤ 2147483647
    rw [dataMax]
    omega
  · rw [hstream, endlessStream, List.length_replicate]
    exact Nat.lt_succ_self _
  · rw [hstream]
    rintro ⟨p, -, hmark⟩
    -- there is no line break in it
    have h13 : (13 : UInt8) ∈ endlessStream :=
      List.mem_of_mem_take (hmark.mark.subset (by decide))
    exact absurd (List.eq_of_mem_replicate h13) (by decide)

end Examples

end ComfirmDmarc.Server
