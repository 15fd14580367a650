import ComfirmDmarc.Queue.Refinement
import Mathlib.Data.List.Count

/-!
# MailHandler -- the dequeueing loop of `mailhandler/mailhandler.c`

`main` takes one mail at a time out of the persistent queue, validates and
converts it, and posts the result. The queue has forgotten the mail before
any of that starts. The loop is a step relation whose environment chooses
what the server enqueues meanwhile, how each `curl_easy_perform` ends, and
where the process stops; a run may contain any number of stops and restarts.
-/

namespace ComfirmDmarc.MailHandler

open CMemory Transition Queue

/-! ## The functions the loop calls -/

/-- What a call comes back with: the process died in it, or a null pointer, or
a result. -/
inductive Reply (β : Type)
  | crash
  | null
  | got (x : β)
  deriving DecidableEq

/-- The functions `main` calls on the way from a mail to a report, each a
function of its arguments (the DNS answers and the libraries are fixed). -/
structure Callees where
  validateDkim : Mail → Int
  base64Decode : Bytes → Bytes × Int
  unzip : Bytes → Int → Reply Bytes
  parseXml : Bytes → Reply Bytes

/-- `decode_content`: the decoded body and its length. A mail without the
header makes `strcmp` read a null pointer. -/
def decodeContent (base64Decode : Bytes → Bytes × Int) (message : Mail) : Reply (Bytes × Int) :=
  match (message.headers.toList.take message.headerCount).find?
      (fun h => h.keyStr = bytes "Content-Transfer-Encoding") with
  | none => .crash
  | some h =>
    if h.valueStr = bytes "base64" then .got (base64Decode message.bodyStr) else .null

/-! ## The loop -/

/-- Where the loop is, with the mail it has in hand. -/
inductive Pc
  | top
  | dequeued (m : Mail)
  | validated (m : Mail)
  | decoded (m : Mail) (zipdata : Bytes) (zipdataLen : Int)
  | unzipped (m : Mail) (xml : Bytes)
  | converted (m : Mail) (json : Bytes)
  | dead

/-- The mail that is only in the memory of the process. -/
def Pc.hand : Pc → Option Mail
  | .top => none
  | .dequeued m => some m
  | .validated m => some m
  | .decoded m _ _ => some m
  | .unzipped m _ => some m
  | .converted m _ => some m
  | .dead => none

structure State where
  queue : QueueFile Mail
  pc : Pc

/-- What a step shows. -/
inductive Label
  /-- the server added a mail -/
  | arrive (m : Mail)
  /-- `pq_dequeue` found nothing and the loop waits -/
  | wait
  | take (m : Mail)
  | advance
  /-- the loop reported an error and went on with the next mail -/
  | drop (m : Mail)
  /-- `curl_easy_perform` returned `CURLE_OK`, or an error -/
  | perform (m : Mail) (ok : Bool)
  /-- the process ended, with or without a mail in hand -/
  | stop (hand : Option Mail)
  | restart

/-- One step of the mail handler, of the server, or of their fate. -/
inductive Step (c : Callees) : State → Label → State → Prop
  | arrive {s : State} (m : Mail) : (pqEnqueue s.queue m).1 = 0 →
      Step c s (.arrive m) { s with queue := (pqEnqueue s.queue m).2 }
  | wait {q : QueueFile Mail} : (pqDequeue q).1 = pqMessageQueueEmptyError →
      Step c ⟨q, .top⟩ .wait ⟨q, .top⟩
  | take {q : QueueFile Mail} {m : Mail} : (pqDequeue q).1 ≠ pqMessageQueueEmptyError →
      (pqDequeue q).2.1 = some m → Step c ⟨q, .top⟩ (.take m) ⟨(pqDequeue q).2.2, .dequeued m⟩
  | valid {q : QueueFile Mail} {m : Mail} : c.validateDkim m ≠ 0 →
      Step c ⟨q, .dequeued m⟩ .advance ⟨q, .validated m⟩
  | invalid {q : QueueFile Mail} {m : Mail} : c.validateDkim m = 0 →
      Step c ⟨q, .dequeued m⟩ (.drop m) ⟨q, .top⟩
  | decode {q : QueueFile Mail} {m : Mail} {z : Bytes} {n : Int} :
      decodeContent c.base64Decode m = .got (z, n) →
      Step c ⟨q, .validated m⟩ .advance ⟨q, .decoded m z n⟩
  | undecodable {q : QueueFile Mail} {m : Mail} : decodeContent c.base64Decode m = .null →
      Step c ⟨q, .validated m⟩ (.drop m) ⟨q, .top⟩
  -- a decoded length below 35 is reported and handed to `unzip` all the same
  | unzip {q : QueueFile Mail} {m : Mail} {z x : Bytes} {n : Int} : c.unzip z n = .got x →
      Step c ⟨q, .decoded m z n⟩ .advance ⟨q, .unzipped m x⟩
  | unzippable {q : QueueFile Mail} {m : Mail} {z : Bytes} {n : Int} : c.unzip z n = .null →
      Step c ⟨q, .decoded m z n⟩ (.drop m) ⟨q, .top⟩
  | parse {q : QueueFile Mail} {m : Mail} {x j : Bytes} : c.parseXml x = .got j →
      Step c ⟨q, .unzipped m x⟩ .advance ⟨q, .converted m j⟩
  | unparsable {q : QueueFile Mail} {m : Mail} {x : Bytes} : c.parseXml x = .null →
      Step c ⟨q, .unzipped m x⟩ (.drop m) ⟨q, .top⟩
  | perform {q : QueueFile Mail} {m : Mail} {j : Bytes} (ok : Bool) :
      Step c ⟨q, .converted m j⟩ (.perform m ok) ⟨q, .top⟩
  | stop {s : State} : s.pc ≠ .dead → Step c s (.stop s.pc.hand) ⟨s.queue, .dead⟩
  | restart {q : QueueFile Mail} : Step c ⟨q, .dead⟩ .restart ⟨q, .top⟩

/-- A mail whose validation and conversion succeed. -/
def Converts (c : Callees) (m : Mail) : Prop :=
  c.validateDkim m ≠ 0 ∧ ∃ z n x j, decodeContent c.base64Decode m = .got (z, n) ∧
    c.unzip z n = .got x ∧ c.parseXml x = .got j

/-! ## What became of the mails of a run -/

def Label.arrived : Label → List Mail
  | .arrive m => [m]
  | _ => []

def Label.taken : Label → List Mail
  | .take m => [m]
  | _ => []

/-- The mails that left the hands of the process. -/
def Label.finished : Label → List Mail
  | .drop m => [m]
  | .perform m _ => [m]
  | .stop (some m) => [m]
  | _ => []

def Label.posted : Label → List Mail
  | .perform m true => [m]
  | _ => []

/-- The steps that lose nothing: no post of a report fails, and the process
does not stop with a mail in hand that converts. -/
def Harmless (c : Callees) : Label → Prop
  | .perform m ok => Converts c m → ok = true
  | .stop (some m) => ¬ Converts c m
  | _ => True

/-! ## Conservation -/

/-- What has been established about the mail in hand. -/
def Traced (c : Callees) : Pc → Prop
  | .validated m => c.validateDkim m ≠ 0
  | .decoded m z n => c.validateDkim m ≠ 0 ∧ decodeContent c.base64Decode m = .got (z, n)
  | .unzipped m x => c.validateDkim m ≠ 0 ∧ ∃ z n,
      decodeContent c.base64Decode m = .got (z, n) ∧ c.unzip z n = .got x
  | .converted m _ => Converts c m
  | _ => True

/-- What a label says about its mail. -/
def Label.Justified (c : Callees) : Label → Prop
  | .drop m => ¬ Converts c m
  | .perform m _ => Converts c m
  | _ => True

/-- The invariant of the loop on a queue of capacity `N`. -/
structure LoopInv (c : Callees) (N : Int) (s : State) : Prop where
  ring : RingInv N s.queue
  traced : Traced c s.pc

theorem drop_justified {c : Callees} {m : Mail} (h : c.validateDkim m = 0 ∨
    decodeContent c.base64Decode m = .null ∨
    (∃ z n, decodeContent c.base64Decode m = .got (z, n) ∧ c.unzip z n = .null) ∨
    ∃ z n x, decodeContent c.base64Decode m = .got (z, n) ∧ c.unzip z n = .got x ∧
      c.parseXml x = .null) : ¬ Converts c m := by
  rintro ⟨hv, z, n, x, j, hz, hx, hj⟩
  rcases h with h | h | ⟨z', n', h, hu⟩ | ⟨z', n', x', h, hu, hp⟩
  · exact hv h
  · rw [hz] at h
    cases h
  · rw [hz] at h
    cases h
    rw [hx] at hu
    cases hu
  · rw [hz] at h
    cases h
    rw [hx] at hu
    cases hu
    rw [hj] at hp
    cases hp

section Conservation

variable {c : Callees} {N : Int} (hN : Fits N)
include hN

/-- One step: the invariant, what the label says, the FIFO law of the queue,
and the mails that pass through the hands of the process. -/
theorem step_conserves {s s' : State} {l : Label} (hI : LoopInv c N s) (h : Step c s l s') :
    LoopInv c N s' ∧ l.Justified c ∧
      l.taken ++ contents N s'.queue = contents N s.queue ++ l.arrived ∧
      s.pc.hand.toList ++ l.taken = l.finished ++ s'.pc.hand.toList := by
  obtain ⟨hring, htraced⟩ := hI
  cases h with
  | arrive m hok =>
    -- an arrival that is accepted had room
    have hroom : s.queue.shared.messageCount < N := by
      rcases Int.lt_or_eq_of_le hring.countLe with hlt | heq
      · exact hlt
      · rw [pqEnqueue_full hring m heq] at hok
        cases hok
    obtain ⟨-, hring', hcont⟩ := pqEnqueue_room hN hring m hroom
    exact ⟨⟨hring', htraced⟩, trivial, by simp [Label.taken, Label.arrived, hcont],
      by simp [Label.taken, Label.finished]⟩
  | wait _ => exact ⟨⟨hring, trivial⟩, trivial, by simp [Label.taken, Label.arrived], rfl⟩
  | @take q m hret hm =>
    -- a mail that is taken was there
    have hsome : 0 < q.shared.messageCount := by
      rcases Int.lt_or_eq_of_le hring.countNonneg with hlt | heq
      · exact hlt
      · exact absurd (by rw [pqDequeue_empty heq.symm]) hret
    obtain ⟨x, -, hx, hring', hcont⟩ := pqDequeue_some hN hring hsome
    rw [hm] at hx
    cases hx
    exact ⟨⟨hring', trivial⟩, trivial, by simp [Label.taken, Label.arrived, hcont], rfl⟩
  | valid hv => exact ⟨⟨hring, hv⟩, trivial, by simp [Label.taken, Label.arrived], rfl⟩
  | invalid hv =>
    exact ⟨⟨hring, trivial⟩, drop_justified (.inl hv), by simp [Label.taken, Label.arrived], rfl⟩
  | decode hz =>
    exact ⟨⟨hring, htraced, hz⟩, trivial, by simp [Label.taken, Label.arrived], rfl⟩
  | undecodable hz =>
    exact ⟨⟨hring, trivial⟩, drop_justified (.inr (.inl hz)),
      by simp [Label.taken, Label.arrived], rfl⟩
  | unzip hx =>
    exact ⟨⟨hring, htraced.1, _, _, htraced.2, hx⟩, trivial,
      by simp [Label.taken, Label.arrived], rfl⟩
  | unzippable hx =>
    exact ⟨⟨hring, trivial⟩, drop_justified (.inr (.inr (.inl ⟨_, _, htraced.2, hx⟩))),
      by simp [Label.taken, Label.arrived], rfl⟩
  | parse hj =>
    obtain ⟨hv, z, n, hz, hx⟩ := htraced
    exact ⟨⟨hring, hv, z, n, _, _, hz, hx, hj⟩, trivial,
      by simp [Label.taken, Label.arrived], rfl⟩
  | unparsable hj =>
    obtain ⟨-, z, n, hz, hx⟩ := htraced
    exact ⟨⟨hring, trivial⟩, drop_justified (.inr (.inr (.inr ⟨z, n, _, hz, hx, hj⟩))),
      by simp [Label.taken, Label.arrived], rfl⟩
  | perform ok =>
    exact ⟨⟨hring, trivial⟩, htraced, by simp [Label.taken, Label.arrived], rfl⟩
  | stop _ =>
    refine ⟨⟨hring, trivial⟩, trivial, by simp [Label.taken, Label.arrived], ?_⟩
    cases hhand : s.pc.hand with
    | none => rfl
    | some m => rfl
  | restart => exact ⟨⟨hring, trivial⟩, trivial, by simp [Label.taken, Label.arrived], rfl⟩

/-- Whole runs: by induction, with the mail in hand carried along. -/
theorem run_conserves {s s' : State} {ls : List Label} (hI : LoopInv c N s)
    (h : Run (Step c) s ls s') :
    LoopInv c N s' ∧ (∀ l ∈ ls, l.Justified c) ∧
      ls.flatMap Label.taken ++ contents N s'.queue
        = contents N s.queue ++ ls.flatMap Label.arrived ∧
      s.pc.hand.toList ++ ls.flatMap Label.taken
        = ls.flatMap Label.finished ++ s'.pc.hand.toList := by
  induction h with
  | nil s => exact ⟨hI, by simp, by simp, by simp⟩
  | @cons s t u l ls hstep _ ih =>
    obtain ⟨hI', hl, hfifo, hhand⟩ := step_conserves hN hI hstep
    obtain ⟨hI'', hls, hfifo', hhand'⟩ := ih hI'
    refine ⟨hI'', ?_, ?_, ?_⟩
    · intro l' hl'
      rcases List.mem_cons.mp hl' with rfl | hmem
      · exact hl
      · exact hls l' hmem
    · calc (l :: ls).flatMap Label.taken ++ contents N u.queue
          = l.taken ++ (ls.flatMap Label.taken ++ contents N u.queue) := by simp
        _ = (l.taken ++ contents N t.queue) ++ ls.flatMap Label.arrived := by rw [hfifo']; simp
        _ = contents N s.queue ++ (l :: ls).flatMap Label.arrived := by rw [hfifo]; simp
    · calc s.pc.hand.toList ++ (l :: ls).flatMap Label.taken
          = (s.pc.hand.toList ++ l.taken) ++ ls.flatMap Label.taken := by simp
        _ = l.finished ++ (t.pc.hand.toList ++ ls.flatMap Label.taken) := by rw [hhand]; simp
        _ = (l :: ls).flatMap Label.finished ++ u.pc.hand.toList := by rw [hhand']; simp

end Conservation

/-! ## At-least-once -/

/-- A mail with a base64 body. -/
def reportMail : Mail :=
  { Mail.zero with
    headers := Mail.zero.headers.setIfInBounds 0
      (Hdr.ofStrings (bytes "Content-Transfer-Encoding") (bytes "base64"))
    headerCount := 1 }

/-- A service chain that accepts every mail it gets. -/
def acceptAll : Callees where
  validateDkim _ := 1
  base64Decode body := (body, body.length)
  unzip z _ := .got z
  parseXml x := .got x

theorem decodeContent_reportMail :
    decodeContent acceptAll.base64Decode reportMail = .got ([], 0) := by decide +kernel

theorem fits_one : Fits 1 := ⟨by decide, by decide⟩

end ComfirmDmarc.MailHandler
