import ComfirmDmarc.Server.Segmentation
import Mathlib.Algebra.BigOperators.Group.List.Basic

/-!
# Server -- command lines

`request_parse_commands` looks for a command word at every offset of a read
and not only where a line starts. For reads that consist of whole lines this
module says what the parser makes of each line, and when that is the one reply
to the word the line begins with.
-/

namespace ComfirmDmarc.Server

open CMemory

/-! ## What a client expects -/

/-- The bytes of a number of lines, each ended by CRLF. -/
def sendLines (ls : List Bytes) : Bytes := ls.flatMap (· ++ bytes "\r\n")

/-- The reply to a line, chosen by the command word at its start. -/
def lineReply (line : Bytes) : Option Bytes :=
  if line = bytes "DATA" then some replyStart
  else if startsWith line (bytes "EHLO") then some replyHello
  else if startsWith line (bytes "MAIL FROM:") then some replyOk
  else if startsWith line (bytes "RCPT TO:") then some replyOk
  else if startsWith line (bytes "QUIT") then some replyBye
  else none

/-- The request after the lines: in DATA if the last one was exactly `DATA`,
asking to quit if one began with `QUIT`, and otherwise as it was. -/
def afterLines (req : Request) (ls : List Bytes) : Request :=
  { req with
    inData := decide (ls.getLast? = some (bytes "DATA"))
    quit := req.quit || ls.any (startsWith · (bytes "QUIT")) }

/-- **Replies follow command lines**: one reply for each line, in order, and
the request as the beginnings of the lines say. -/
structure RepliesPerLine (req : Request) (resp : Response) (ls : List Bytes) (s : CommandState) :
    Prop where
  replies : ∃ rs : List Bytes, ls.map lineReply = rs.map some ∧
    s.response.data = resp.data ++ rs.flatten
  request : s.request = afterLines req ls
  noError : s.error = false

/-- The line begins with a command word, and no command word starts behind its
beginning. -/
def OneCommand (line : Bytes) : Prop :=
  (lineReply line).isSome = true ∧ ∀ u, u <:+ line → u ≠ line → lineReply u = none

/-! ## Command words in a line -/

theorem bytes_crlf : bytes "\r\n" = [13, 10] := bytes_ofList _

/-- A word without CR lies within the line, if it starts there. -/
theorem startsWith_line {word : Bytes} (h : (13 : UInt8) ∉ word) (u x : Bytes) :
    startsWith (u ++ 13 :: x) word = startsWith u word := by
  rw [Bool.eq_iff_iff, startsWith_iff, startsWith_iff]
  constructor
  · rintro ⟨t, ht⟩
    rcases List.append_eq_append_iff.mp ht with ⟨a, hu, -⟩ | ⟨a, hword, hx⟩
    · exact ⟨a, hu.symm⟩
    · cases a with
      | nil => exact ⟨[], by rw [hword, List.append_nil, List.append_nil]⟩
      | cons c a =>
        -- the word would go on with the CR
        have hc : c = 13 := (List.cons.inj hx).1.symm
        exact absurd (by simp [hword, hc]) h
  · exact fun hpre => hpre.trans (List.prefix_append u _)

/-- `DATA` and its CRLF start only at a line that says nothing else. -/
theorem startsWith_data {u : Bytes} (h : ¬[13, 10] <:+: u) (x : Bytes) :
    startsWith (u ++ 13 :: 10 :: x) (bytes "DATA\r\n") = decide (u = bytes "DATA") := by
  have hword : bytes "DATA\r\n" = [68, 65, 84, 65, 13, 10] := bytes_ofList _
  have hdata : bytes "DATA" = [68, 65, 84, 65] := bytes_ofList _
  rw [Bool.eq_iff_iff, startsWith_iff, decide_eq_true_eq, hword, hdata]
  constructor
  · rintro ⟨t, ht⟩
    rcases List.append_eq_append_iff.mp ht with ⟨a, hu, -⟩ | ⟨a, hcut, hx⟩
    · exact absurd ⟨[68, 65, 84, 65], a, by simp [hu]⟩ h
    · cases a with
      | nil =>
        refine absurd ⟨[68, 65, 84, 65], [], ?_⟩ h
        rw [List.append_nil] at hcut
        exact hcut
      | cons c a =>
        -- the line ends before the only CR of the word
        have hc : c = 13 := (List.cons.inj hx).1.symm
        have hlen : u.length + (a.length + 1) = 6 := by
          simpa using (congrArg List.length hcut).symm
        have hget : ([68, 65, 84, 65, 13, 10] : Bytes)[u.length]? = some 13 := by
          rw [hcut, hc]
          simp
        have hfour : u.length = 4 := by
          have hlt : u.length < 6 := by omega
          revert hget
          generalize u.length = n at hlt
          revert n
          decide
        calc u = (u ++ c :: a).take 4 := by rw [← hfour, List.take_left' rfl]
          _ = [68, 65, 84, 65] := by rw [← hcut]; rfl
  · rintro rfl
    exact ⟨x, rfl⟩

/-- The beginnings of two command words differ. -/
theorem startsWith_quit {u : Bytes} (h : startsWith u (bytes "QUIT") = true) :
    lineReply u = some replyBye := by
  rw [startsWith_iff, show bytes "QUIT" = [81, 85, 73, 84] from bytes_ofList _] at h
  obtain ⟨t, rfl⟩ := h
  simp [lineReply, startsWith, bytes]

/-- **An iteration at a line** outside of DATA. -/
theorem commandStep_line (req : Request) {u : Bytes} (h : ¬[13, 10] <:+: u) (x : Bytes) :
    commandStep req (u ++ 13 :: 10 :: x) =
      ⟨{ req with
          inData := req.inData || decide (u = bytes "DATA")
          quit := req.quit || startsWith u (bytes "QUIT") },
        lineReply u, if u = bytes "DATA" then 5 else 0, false⟩ := by
  have hword : ∀ word ∈ [bytes "EHLO", bytes "MAIL FROM:", bytes "RCPT TO:", bytes "QUIT"],
      startsWith (u ++ 13 :: 10 :: x) word = startsWith u word := by
    intro word hmem
    refine startsWith_line ?_ u (10 :: x)
    revert word
    simp [bytes]
  rw [commandStep, startsWith_data h, hword _ (by simp), hword _ (by simp), hword _ (by simp),
    hword _ (by simp)]
  by_cases hdata : u = bytes "DATA"
  · subst hdata
    simp [lineReply, startsWith, bytes]
  · by_cases hquit : startsWith u (bytes "QUIT") = true
    · have hreply := startsWith_quit hquit
      simp only [lineReply, hdata, if_false] at hreply
      simp only [hdata, hquit, decide_false, Bool.false_eq_true, if_false, if_true, lineReply,
        Bool.or_false, Bool.or_true]
      revert hreply
      split_ifs <;> simp [replyHello, replyOk, replyBye, bytes]
    · simp only [hdata, hquit, decide_false, Bool.false_eq_true, if_false, lineReply,
        Bool.or_false]
      split_ifs <;> rfl

/-! ## One line -/

/-- The replies to all offsets of a line. -/
def offsetReplies (line : Bytes) : List Bytes := line.tails.filterMap lineReply

theorem lineReply_nil : lineReply [] = none := by simp [lineReply, startsWith, bytes]

theorem offsetReplies_cons (c : UInt8) (u : Bytes) :
    offsetReplies (c :: u) = (lineReply (c :: u)).toList ++ offsetReplies u := by
  rw [offsetReplies, offsetReplies, List.tails_cons, List.filterMap_cons]
  cases lineReply (c :: u) <;> rfl

/-- The request behind a line that was read at every offset. -/
def afterOffsets (req : Request) (line : Bytes) : Request :=
  { req with
    inData := (bytes "DATA").isSuffixOf line
    quit := req.quit || line.tails.any (startsWith · (bytes "QUIT")) }

theorem afterOffsets_nil {req : Request} (hdata : req.inData = false) : afterOffsets req [] = req := by
  have hword : (bytes "DATA").isSuffixOf [] = req.inData := by
    rw [hdata]
    simp [bytes]
  rw [afterOffsets, hword]
  simp [startsWith, bytes]

/-- The first offset only adds its `QUIT`, unless the line is the `DATA` command. -/
theorem afterOffsets_cons (req : Request) {c : UInt8} {u : Bytes} (h : c :: u ≠ bytes "DATA") :
    afterOffsets req (c :: u) =
      afterOffsets { req with quit := req.quit || startsWith (c :: u) (bytes "QUIT") } u := by
  have hsuffix : (bytes "DATA").isSuffixOf (c :: u) = (bytes "DATA").isSuffixOf u := by
    rw [Bool.eq_iff_iff, List.isSuffixOf_iff_suffix, List.isSuffixOf_iff_suffix, List.suffix_cons_iff]
    exact or_iff_right fun hdata => h hdata.symm
  simp only [afterOffsets, hsuffix, List.tails_cons, List.any_cons, Bool.or_assoc]

/-- **What a line does**, at all of its offsets. -/
theorem dialogue_line (conf : Config) (ahead : Bytes) {req : Request} (hdata : req.inData = false)
    {u : Bytes} (h : ¬[13, 10] <:+: u) (more : Bytes) :
    dialogue conf ahead req (u ++ 13 :: 10 :: more) =
      { dialogue conf ahead (afterOffsets req u) more with
        replies := offsetReplies u ++ (dialogue conf ahead (afterOffsets req u) more).replies } := by
  induction u generalizing req with
  | nil =>
    have hstep : ∀ c ∈ [(13 : UInt8), 10], ∀ rest,
        iterate conf ahead req c rest = ⟨req, none, 0, false⟩ := by
      intro c hc rest
      rw [iterate_command conf ahead hdata]
      refine commandStep_of_not_starts req ?_
      simp only [List.mem_cons, List.not_mem_nil, or_false] at hc
      rcases hc with rfl | rfl <;>
        simp [startsCommand, commandWords, startsWith, bytes, List.isPrefixOf]
    rw [List.nil_append, dialogue, hstep 13 (by simp)]
    simp only [Bool.false_eq_true, if_false, List.drop_zero]
    rw [dialogue, hstep 10 (by simp)]
    simp [offsetReplies, lineReply_nil, afterOffsets_nil hdata]
  | cons c u ih =>
    have hu : ¬[13, 10] <:+: u := fun hinf => h (hinf.trans (List.suffix_cons c u).isInfix)
    have hstep := commandStep_line req h (more ++ ahead)
    rw [show c :: u ++ 13 :: 10 :: (more ++ ahead) = c :: (u ++ 13 :: 10 :: more) ++ ahead by simp,
      ← iterate_command conf ahead hdata] at hstep
    rw [List.cons_append, dialogue, hstep]
    simp only [Bool.false_eq_true, if_false]
    by_cases heq : c :: u = bytes "DATA"
    · -- the rest of the line is skipped
      have hafter : afterOffsets req (c :: u) =
          { req with
            inData := true
            quit := req.quit || startsWith (c :: u) (bytes "QUIT") } := by
        rw [heq, afterOffsets]
        simp [startsWith, bytes, List.isPrefixOf]
      have hreplies : offsetReplies (c :: u) = (lineReply (c :: u)).toList := by
        rw [heq]
        simp [offsetReplies, lineReply, startsWith, bytes]
      have hrest : (u ++ 13 :: 10 :: more).drop 5 = more := by
        have hlen : (c :: u).length = 4 := by
          rw [heq]
          simp [bytes]
        have htail : (u ++ [13, 10]).length = 5 := by simpa using hlen
        rw [show u ++ 13 :: 10 :: more = (u ++ [13, 10]) ++ more by simp]
        exact List.drop_left' htail
      rw [hafter, hreplies]
      simp [heq, hrest, hdata]
    · have hnext := @ih { req with quit := req.quit || startsWith (c :: u) (bytes "QUIT") } hdata hu
      rw [offsetReplies_cons, afterOffsets_cons req heq]
      simp only [heq, if_false, decide_false, Bool.or_false, List.drop_zero, hnext,
        List.append_assoc]

/-! ## Lines in the DATA phase -/

/-- A byte of the DATA phase is stored, unless the buffer is full. -/
theorem iterate_data_length (conf : Config) (ahead : Bytes) {req : Request}
    (hdata : req.inData = true) (cur : UInt8) (rest : Bytes) :
    (iterate conf ahead req cur rest).error = true ∨
      req.data.length < (iterate conf ahead req cur rest).request.data.length := by
  obtain ⟨alloc, hstep⟩ := iterate_data conf ahead hdata cur rest
  rw [hstep]
  split_ifs with hroom hend
  · -- the mark is overwritten, not taken away
    have hlen := (List.isSuffixOf_iff_suffix.mp hend).length_le
    have hmark : endMark.length = 5 := by simp [endMark, bytes]
    have hleft : leftover.length = 5 := by simp [leftover]
    rw [hmark, List.length_append, List.length_singleton] at hlen
    right
    simp only [List.length_append, List.length_take, List.length_singleton, hleft]
    omega
  · simp
  · exact .inl rfl

theorem iterate_length_le (conf : Config) (ahead : Bytes) (req : Request) (cur : UInt8)
    (rest : Bytes) :
    req.data.length ≤ (iterate conf ahead req cur rest).request.data.length := by
  by_cases hdata : req.inData = true
  · obtain ⟨alloc, hstep⟩ := iterate_data conf ahead hdata cur rest
    rcases iterate_data_length conf ahead hdata cur rest with herr | hlt
    · rw [hstep] at herr ⊢
      split_ifs at herr ⊢
      exact Nat.le_refl _
    · exact Nat.le_of_lt hlt
  · rw [iterate_command conf ahead (by simpa using hdata), commandStep]
    split_ifs <;> exact Nat.le_refl _

/-- A read takes nothing out of the stored data. -/
theorem dialogue_length_le (conf : Config) (ahead : Bytes) (req : Request) (read : Bytes) :
    req.data.length ≤ (dialogue conf ahead req read).request.data.length := by
  fun_induction dialogue conf ahead req read with
  | case1 req => exact Nat.le_refl _
  | case2 req cur rest it herr => exact iterate_length_le conf ahead req cur rest
  | case3 req cur rest it herr d ih =>
    exact (iterate_length_le conf ahead req cur rest).trans ih

/-- A read in the DATA phase leaves its bytes there, or an error. -/
theorem dialogue_data_length (conf : Config) (ahead : Bytes) {req : Request}
    (hdata : req.inData = true) {read : Bytes} (hne : read ≠ []) :
    (dialogue conf ahead req read).error = true ∨
      req.data.length < (dialogue conf ahead req read).request.data.length := by
  obtain ⟨cur, rest, rfl⟩ := List.exists_cons_of_ne_nil hne
  rw [dialogue]
  split_ifs with herr
  · exact .inl rfl
  · right
    exact ((iterate_data_length conf ahead hdata cur rest).resolve_left herr).trans_le
      (dialogue_length_le conf ahead _ _)

/-! ## A read of whole lines -/

theorem sendLines_cons (l : Bytes) (ls : List Bytes) :
    sendLines (l :: ls) = l ++ 13 :: 10 :: sendLines ls := by
  rw [sendLines, List.flatMap_cons, bytes_crlf, List.append_assoc]
  rfl

/-- The only offset of such a line that is answered is its first. -/
theorem OneCommand.offsetReplies {line : Bytes} (h : OneCommand line) :
    offsetReplies line = (lineReply line).toList := by
  cases line with
  | nil => exact absurd h.1 (by simp [lineReply_nil])
  | cons c u =>
    have hrest : Server.offsetReplies u = [] := by
      rw [Server.offsetReplies, List.filterMap_eq_nil_iff]
      intro v hv
      have hsuffix : v <:+ u := (List.mem_tails v u).mp hv
      refine h.2 v (hsuffix.trans (List.suffix_cons c u)) ?_
      rintro rfl
      exact absurd hsuffix.length_le (by simp)
    rw [offsetReplies_cons, hrest, List.append_nil]

theorem OneCommand.afterOffsets {line : Bytes} (h : OneCommand line) (req : Request) :
    afterOffsets req line =
      { req with
        inData := decide (line = bytes "DATA")
        quit := req.quit || startsWith line (bytes "QUIT") } := by
  -- a word at another offset would be answered
  have honly : ∀ u, u <:+ line → (lineReply u).isSome = true → u = line := by
    intro u hu hreply
    by_contra hne
    rw [h.2 u hu hne] at hreply
    cases hreply
  have hdata : (bytes "DATA").isSuffixOf line = decide (line = bytes "DATA") := by
    rw [Bool.eq_iff_iff, List.isSuffixOf_iff_suffix, decide_eq_true_eq]
    constructor
    · exact fun hsuffix => (honly _ hsuffix (by simp [lineReply])).symm
    · exact fun heq => heq ▸ List.suffix_refl _
  have hquit : line.tails.any (startsWith · (bytes "QUIT")) = startsWith line (bytes "QUIT") := by
    rw [Bool.eq_iff_iff, List.any_eq_true]
    constructor
    · rintro ⟨u, hu, hstart⟩
      rw [← honly u ((List.mem_tails u line).mp hu) (by rw [startsWith_quit hstart]; rfl)]
      exact hstart
    · exact fun hstart => ⟨line, (List.mem_tails line line).mpr (List.suffix_refl _), hstart⟩
  rw [Server.afterOffsets, hdata, hquit]

theorem afterLines_nil {req : Request} (hdata : req.inData = false) : afterLines req [] = req := by
  have hlast : decide (([] : List Bytes).getLast? = some (bytes "DATA")) = req.inData := by
    rw [hdata]
    rfl
  rw [afterLines, hlast]
  simp

/-- **Lines that say one thing each are answered one by one.** -/
theorem dialogue_lines (conf : Config) (ahead : Bytes) {req : Request} (hdata : req.inData = false)
    (ls : List Bytes) (hline : ∀ l ∈ ls, ¬bytes "\r\n" <:+: l)
    (hlast : ∀ l ∈ ls.dropLast, l ≠ bytes "DATA") (hone : ∀ l ∈ ls, OneCommand l) :
    dialogue conf ahead req (sendLines ls) =
      ⟨afterLines req ls, ls.filterMap lineReply, false⟩ := by
  induction ls generalizing req with
  | nil =>
    rw [sendLines, List.flatMap_nil, dialogue, afterLines_nil hdata]
    rfl
  | cons l ls ih =>
    have hl := hone l List.mem_cons_self
    have hinf : ¬[13, 10] <:+: l := bytes_crlf ▸ hline l List.mem_cons_self
    rw [sendLines_cons, dialogue_line conf ahead hdata hinf, hl.offsetReplies, hl.afterOffsets]
    cases ls with
    | nil =>
      rw [sendLines, List.flatMap_nil, dialogue]
      cases hreply : lineReply l <;> simp [afterLines, hreply]
    | cons l' ls =>
      have hne : l ≠ bytes "DATA" := hlast l (by simp)
      rw [ih (by simp [hne]) (fun k hk => hline k (List.mem_cons_of_mem _ hk))
        (fun k hk => hlast k (by rw [List.dropLast_cons_cons]; exact List.mem_cons_of_mem _ hk))
        (fun k hk => hone k (List.mem_cons_of_mem _ hk))]
      cases hreply : lineReply l <;>
        simp [afterLines, hreply, List.getLast?_cons_cons, Bool.or_assoc]

/-- **A read that stores nothing** was looked at outside of DATA, every line at
all of its offsets. -/
theorem dialogue_offsets (conf : Config) (ahead : Bytes) {req : Request}
    (hdata : req.inData = false) (ls : List Bytes) (hline : ∀ l ∈ ls, ¬bytes "\r\n" <:+: l)
    (herr : (dialogue conf ahead req (sendLines ls)).error = false)
    (hkeep : (dialogue conf ahead req (sendLines ls)).request.data = req.data) :
    (dialogue conf ahead req (sendLines ls)).replies = ls.flatMap offsetReplies := by
  induction ls generalizing req with
  | nil =>
    rw [sendLines, List.flatMap_nil, dialogue]
    rfl
  | cons l ls ih =>
    have hinf : ¬[13, 10] <:+: l := bytes_crlf ▸ hline l List.mem_cons_self
    rw [sendLines_cons, dialogue_line conf ahead hdata hinf] at herr hkeep ⊢
    simp only at herr hkeep ⊢
    rw [List.flatMap_cons]
    congr 1
    by_cases hin : (afterOffsets req l).inData = true
    · cases ls with
      | nil =>
        rw [sendLines, List.flatMap_nil, dialogue]
        rfl
      | cons l' ls =>
        -- the lines behind it would have been stored
        have hne : sendLines (l' :: ls) ≠ [] := by simp [sendLines_cons]
        rcases dialogue_data_length conf ahead hin hne with h | h
        · rw [herr] at h
          cases h
        · rw [hkeep] at h
          exact absurd h (Nat.lt_irrefl _)
    · exact ih (by simpa using hin) (fun k hk => hline k (List.mem_cons_of_mem _ hk)) herr hkeep

/-! ## Counting the replies -/

theorem lineReply_mem {line r : Bytes} (h : lineReply line = some r) : r ∈ allReplies := by
  rw [lineReply] at h
  split_ifs at h <;> (obtain rfl := Option.some.inj h; simp [allReplies, otherReplies])

/-- Texts of replies that are the same have as many replies. -/
theorem length_of_flatten {rs rs' : List Bytes} (h : ∀ r ∈ rs, r ∈ allReplies)
    (h' : ∀ r ∈ rs', r ∈ allReplies) (heq : rs.flatten = rs'.flatten) :
    rs.length = rs'.length := by
  have := congrArg lines heq
  rw [lines_flatten h, lines_flatten h'] at this
  simpa using congrArg List.length this

/-- A command line that is answered once says one thing. -/
theorem oneCommand_of_length {line : Bytes} (h : (lineReply line).isSome = true)
    (hlen : (offsetReplies line).length = 1) : OneCommand line := by
  refine ⟨h, fun u hu hne => ?_⟩
  cases line with
  | nil => exact absurd (List.suffix_nil.mp hu) hne
  | cons c v =>
    obtain ⟨r, hr⟩ := Option.isSome_iff_exists.mp h
    rw [offsetReplies_cons, hr, Option.toList_some, List.singleton_append, List.length_cons] at hlen
    have hnil : offsetReplies v = [] := List.length_eq_zero_iff.mp (by omega)
    have huv : u <:+ v := (List.suffix_cons_iff.mp hu).resolve_left hne
    exact List.filterMap_eq_nil_iff.mp hnil u ((List.mem_tails u v).mpr huv)

/-- If every line is answered and there are no more replies than lines, each
line is answered once. -/
theorem oneCommand_of_flatMap {ls : List Bytes} (h : ∀ l ∈ ls, (lineReply l).isSome = true)
    (hlen : (ls.flatMap offsetReplies).length ≤ ls.length) : ∀ l ∈ ls, OneCommand l := by
  have hpos : ∀ l ∈ ls, 1 ≤ (offsetReplies l).length := by
    intro l hl
    cases l with
    | nil => exact absurd (h [] hl) (by simp [lineReply_nil])
    | cons c u =>
      obtain ⟨r, hr⟩ := Option.isSome_iff_exists.mp (h _ hl)
      rw [offsetReplies_cons, hr, Option.toList_some, List.length_append, List.length_singleton]
      omega
  induction ls with
  | nil => simp
  | cons l ls ih =>
    have hl := hpos l List.mem_cons_self
    have hls : ls.length ≤ (ls.flatMap offsetReplies).length := by
      rw [List.length_flatMap]
      have := List.length_le_sum_of_one_le (ls.map fun l => (offsetReplies l).length) (by
        intro n hn
        obtain ⟨k, hk, rfl⟩ := List.mem_map.mp hn
        exact hpos k (List.mem_cons_of_mem _ hk))
      simpa using this
    rw [List.flatMap_cons, List.length_append, List.length_cons] at hlen
    intro k hk
    rcases List.mem_cons.mp hk with rfl | hk
    · exact oneCommand_of_length (h k List.mem_cons_self) (by omega)
    · exact ih (fun m hm => h m (List.mem_cons_of_mem _ hm)) (by omega)
        (fun m hm => hpos m (List.mem_cons_of_mem _ hm)) k hk

/-- **Replies follow command lines exactly if no line holds a second command
word**: every line begins with one, and none starts behind its beginning. -/
theorem repliesPerLine_iff (conf : Config) (req : Request) (resp : Response) (ls : List Bytes)
    (ahead : Bytes) (hdata : req.inData = false) (hline : ∀ l ∈ ls, ¬bytes "\r\n" <:+: l)
    (hlast : ∀ l ∈ ls.dropLast, l ≠ bytes "DATA") :
    RepliesPerLine req resp ls (requestParseCommands conf req resp (sendLines ls) ahead) ↔
      ∀ l ∈ ls, OneCommand l := by
  obtain ⟨r, heq, hresp⟩ := requestParseCommands_eq conf req resp (sendLines ls) ahead
  rw [heq]
  constructor
  · rintro ⟨⟨rs, hrs, htext⟩, hreq, herr⟩
    simp only at htext hreq herr
    have hsome : ∀ l ∈ ls, (lineReply l).isSome = true := by
      intro l hl
      have hmem : lineReply l ∈ rs.map some := hrs ▸ List.mem_map_of_mem hl
      obtain ⟨r, -, hr⟩ := List.mem_map.mp hmem
      rw [← hr]
      rfl
    have hoffsets := dialogue_offsets conf ahead hdata ls hline herr (by rw [hreq]; rfl)
    rw [hresp, hoffsets] at htext
    have hlen := length_of_flatten
      (by
        intro r hr
        obtain ⟨l, -, hl⟩ := List.mem_flatMap.mp hr
        obtain ⟨u, -, hu⟩ := List.mem_filterMap.mp hl
        exact lineReply_mem hu)
      (by
        intro r hr
        have hmem : some r ∈ ls.map lineReply := hrs ▸ List.mem_map_of_mem hr
        obtain ⟨l, -, hl⟩ := List.mem_map.mp hmem
        exact lineReply_mem hl)
      (List.append_cancel_left htext)
    refine oneCommand_of_flatMap hsome ?_
    have := congrArg List.length hrs
    simp only [List.length_map] at this
    omega
  · intro hone
    have hd := dialogue_lines conf ahead hdata ls hline hlast hone
    rw [hd] at hresp ⊢
    refine ⟨⟨ls.filterMap lineReply, ?_, hresp⟩, rfl, rfl⟩
    rw [List.map_filterMap]
    clear hline hlast hd hresp heq
    induction ls with
    | nil => rfl
    | cons l ls ih =>
      obtain ⟨r, hr⟩ := Option.isSome_iff_exists.mp (hone l List.mem_cons_self).1
      rw [List.map_cons, ih fun k hk => hone k (List.mem_cons_of_mem _ hk), List.filterMap_cons, hr]
      rfl

section Examples

theorem repliesPerLine_iff_hello :
    let ls := [bytes "EHLO me", bytes "DATA"]
    RepliesPerLine (requestInit .zero) responseInit ls
        (requestParseCommands .default (requestInit .zero) responseInit (sendLines ls) []) ↔
      ∀ l ∈ ls, OneCommand l :=
  repliesPerLine_iff .default (requestInit .zero) responseInit [bytes "EHLO me", bytes "DATA"] []
    rfl (by simp [bytes, List.infix_cons_iff]) (by simp [bytes])

/-- The host name in `EHLO QUIT` ends the session. -/
theorem hostName_quits :
    let ls := [bytes "EHLO QUIT"]
    ¬RepliesPerLine (requestInit .zero) responseInit ls
      (requestParseCommands .default (requestInit .zero) responseInit (sendLines ls) []) := by
  intro ls h
  obtain ⟨r, heq, -⟩ := requestParseCommands_eq .default (requestInit .zero) responseInit
    (sendLines ls) []
  have hline : ¬[13, 10] <:+: bytes "EHLO QUIT" := by simp [bytes, List.infix_cons_iff]
  have hquit := congrArg Request.quit h.request
  rw [heq, show sendLines ls = _ from sendLines_cons _ [],
    dialogue_line .default [] rfl hline, show sendLines [] = [] from rfl, dialogue] at hquit
  revert hquit
  simp [ls, afterOffsets, afterLines, requestInit, Request.zero, startsWith, bytes, List.isPrefixOf]

end Examples

end ComfirmDmarc.Server
