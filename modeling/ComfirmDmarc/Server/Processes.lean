import ComfirmDmarc.Server.Session
import ComfirmDmarc.MailHandler.Loop
import Mathlib.Data.Finset.Card

/-!
# Server -- the master, the workers and the descriptor table

`main` of `master_server.c` accepts the connections, greets each over a
temporary connection and adds its descriptor to the epoll instance of the
worker that `worker_map` names. The workers are made by `clone` with
`CLONE_FILES` and without `CLONE_VM`: all processes see one table of
descriptors, and every worker has slots of its own. Behind each worker a mail
handler takes the mails out of the worker's queue.

All of them together are one step relation. A step is what one process does
until the others can notice it: an `accept`, the greeting, an `epoll_ctl`, an
`epoll_wait`, one pass of the loop in `worker_server`, a step of a mail
handler. The queue calls are atomic. A fault has no step, but for an
`epoll_wait` that stores behind the event list: it is a step like any other,
and whether there are such steps is asked of the runs.
-/

namespace ComfirmDmarc.Server.Processes

open CMemory Queue Transition

/-! ## The processes -/

/-- What does not change while the server runs. -/
structure Setup where
  conf : Config
  maxClients : Nat
  maxWorkers : Nat
  /-- the capacity of every queue -/
  queueSize : Int
  callees : MailHandler.Callees
  /-- the descriptors that are open when the main loop starts -/
  base : Finset Nat
  maxWorkers_pos : 0 < maxWorkers
  queueSize_fits : Fits queueSize

/-- `worker_map`, as `master_server_init` fills it. -/
def Setup.workerMap (S : Setup) : List Nat :=
  (List.range (S.maxClients * 2)).map (· % S.maxWorkers)

/-- An entry of the event list: the descriptor, and whether `EPOLLRDHUP` is
set. -/
structure ReadyFd where
  fd : Nat
  closed : Bool
  deriving DecidableEq, Repr

/-- A worker and what belongs to it: the slots of `connection_setup`, the
descriptors on its epoll instance, the events that `events_wait` returned and
that are not handled yet, its queue and its mail handler. -/
structure Worker where
  conns : Nat → Connection
  watched : Finset Nat
  events : List ReadyFd
  queue : QueueFile Mail
  handler : MailHandler.Pc

/-- The mail handler of a worker with its queue. -/
def Worker.loop (w : Worker) : MailHandler.State := ⟨w.queue, w.handler⟩

/-- What went over a descriptor since it was last accepted: the greeting, the
events the worker handled, the bytes it sent and the mails it queued. -/
structure Client where
  greeting : Bytes
  events : List Event
  sent : Bytes
  added : List Mail

def Client.fresh : Client := ⟨[], [], [], []⟩

/-- Where the main loop of the master is, with its `fd` and `w`. -/
inductive Master
  | waiting
  | accepted (fd w : Nat)
  | greeted (fd w : Nat)

/-- The descriptor the master has in hand. -/
def Master.fd : Master → Option Nat
  | .waiting => none
  | .accepted fd _ => some fd
  | .greeted fd _ => some fd

structure State where
  openFds : Finset Nat
  master : Master
  workers : Nat → Worker
  clients : Nat → Client

/-- The connection slot `fd` of worker `k`, as an event finds it. -/
def State.world (s : State) (k fd : Nat) : World where
  conn := (s.workers k).conns fd
  queue := (s.workers k).queue
  sent := (s.clients fd).sent
  added := (s.clients fd).added

/-- `close`, where `connection_handle` calls it: the slot is inactive again. -/
def closeIf (w : World) (fd : Nat) (fds : Finset Nat) : Finset Nat :=
  if w.conn.status = .inactive then fds.erase fd else fds

/-! ## The steps -/

/-- The temporary connection of the master. -/
def greet (conf : Config) (env : Env) (queue : QueueFile Mail) : Except Fault World :=
  connectionHandle conf env
    { conn := connectionStart env.requestMem, queue := queue, sent := [], added := [] }

/-- `accept` returned `fd`, which `worker_map` maps to `k`. -/
def State.afterAccept (s : State) (fd k : Nat) : State :=
  { s with
    openFds := insert fd s.openFds
    master := .accepted fd k
    clients := Function.update s.clients fd .fresh }

/-- The temporary connection was handled and freed. -/
def State.afterGreet (s : State) (fd k : Nat) (w : World) : State :=
  { s with
    openFds := closeIf w fd s.openFds
    master := .greeted fd k
    clients := Function.update s.clients fd { Client.fresh with greeting := w.sent } }

/-- `events_add_event_2`: a closed descriptor is refused, and `epoll_ctl` may
fail on an open one too. -/
def State.afterRegister (s : State) (fd k : Nat) (ok : Bool) : State :=
  { s with
    master := .waiting
    workers := if ok = true ∧ fd ∈ s.openFds then
        Function.update s.workers k
          { s.workers k with watched := insert fd (s.workers k).watched }
      else s.workers }

/-- `events_wait` of worker `k`. -/
def State.afterWait (s : State) (k : Nat) (evs : List ReadyFd) : State :=
  { s with workers := Function.update s.workers k { s.workers k with events := evs } }

/-- A pass of the loop of worker `k` over the event `ev` of `fd`, which left
the slot and the queue as in `w` and the events `rest`. -/
def State.afterPass (s : State) (k fd : Nat) (rest : List ReadyFd) (ev : Event) (w : World) :
    State :=
  { s with
    openFds := closeIf w fd s.openFds
    workers := Function.update s.workers k
      { s.workers k with
        conns := Function.update (s.workers k).conns fd w.conn
        watched := closeIf w fd (s.workers k).watched
        events := rest
        queue := w.queue }
    clients := Function.update s.clients fd
      { s.clients fd with
        events := (s.clients fd).events ++ [ev], sent := w.sent, added := w.added } }

/-- The mail handler of worker `k` made a step to `h`. -/
def State.afterHandler (s : State) (k : Nat) (h : MailHandler.State) : State :=
  { s with
    workers := Function.update s.workers k
      { s.workers k with queue := h.queue, handler := h.pc } }

inductive Label
  | accept (fd : Nat)
  | greet (env : Env)
  | register (ok : Bool)
  | wait (k : Nat) (evs : List ReadyFd)
  /-- worker `k` handled an event of `fd` and queued the mails `ms` -/
  | handle (k fd : Nat) (ev : Event) (ms : List Mail)
  | handler (k : Nat) (l : MailHandler.Label)

/-- One step of one process. `accept` returns the lowest free descriptor, and
`epoll_wait` at most `max_clients` events, one for each watched descriptor, also
when the event list has no room for them. -/
inductive Step (S : Setup) : State → Label → State → Prop
  | accept {s : State} {fd k : Nat} : s.master = .waiting → fd ∉ s.openFds →
      (∀ n < fd, n ∈ s.openFds) → S.workerMap[fd]? = some k →
      Step S s (.accept fd) (s.afterAccept fd k)
  | greet {s : State} {fd k : Nat} {env : Env} {w : World} : s.master = .accepted fd k →
      greet S.conf env (s.workers k).queue = .ok w →
      Step S s (.greet env) (s.afterGreet fd k w)
  | register {s : State} {fd k : Nat} (ok : Bool) : s.master = .greeted fd k →
      Step S s (.register ok) (s.afterRegister fd k ok)
  | wait {s : State} {k : Nat} {evs : List ReadyFd} : k < S.maxWorkers →
      (s.workers k).events = [] → evs.length ≤ S.maxClients → (evs.map ReadyFd.fd).Nodup →
      (∀ e ∈ evs, e.fd ∈ (s.workers k).watched) →
      Step S s (.wait k evs) (s.afterWait k evs)
  | handle {s : State} {k : Nat} {e : ReadyFd} {rest : List ReadyFd} {ev : Event} {w : World}
      {ms : List Mail} : k < S.maxWorkers → (s.workers k).events = e :: rest →
      ev.closed = e.closed → ev.queue = (s.workers k).queue →
      Server.Step S.conf (s.world k e.fd) ev w → w.added = (s.clients e.fd).added ++ ms →
      Step S s (.handle k e.fd ev ms) (s.afterPass k e.fd rest ev w)
  -- the arrivals in the queue are the worker's steps
  | handler {s : State} {k : Nat} {l : MailHandler.Label} {h : MailHandler.State} :
      k < S.maxWorkers → MailHandler.Step S.callees (s.workers k).loop l h → l.arrived = [] →
      Step S s (.handler k l) (s.afterHandler k h)

/-- The server when its main loop starts: `connection_setup` made the slots
inactive, the queues may hold mails from before. -/
structure Initial (S : Setup) (s : State) : Prop where
  openFds : s.openFds = S.base
  master : s.master = .waiting
  slots : ∀ k fd, ((s.workers k).conns fd).status = .inactive
  watched : ∀ k, (s.workers k).watched = ∅
  events : ∀ k, (s.workers k).events = []
  ring : ∀ k, RingInv S.queueSize (s.workers k).queue
  handler : ∀ k, (s.workers k).handler = .top
  clients : ∀ fd, s.clients fd = .fresh

/-! ## What a step touches -/

/-- A field that an update keeps is the same everywhere. -/
theorem field_update {ι β γ : Type*} [DecidableEq ι] (f : β → γ) {g : ι → β} {i : ι} {b : β}
    (h : f b = f (g i)) (j : ι) : f (Function.update g i b j) = f (g j) := by
  by_cases hj : j = i
  · subst hj
    rw [Function.update_self, h]
  · rw [Function.update_of_ne hj]

theorem mem_closeIf {w : World} {fd n : Nat} {fds : Finset Nat} :
    n ∈ closeIf w fd fds ↔ n ∈ fds ∧ (n = fd → w.conn.status ≠ .inactive) := by
  unfold closeIf
  split
  · rename_i h
    simp [h, and_comm]
  · rename_i h
    simp [h]

section Touches

variable (s : State)

@[simp] theorem afterRegister_conns (fd k : Nat) (ok : Bool) (j : Nat) :
    ((s.afterRegister fd k ok).workers j).conns = (s.workers j).conns := by
  unfold State.afterRegister
  split
  · exact field_update Worker.conns (by rfl) j
  · rfl

@[simp] theorem afterRegister_events (fd k : Nat) (ok : Bool) (j : Nat) :
    ((s.afterRegister fd k ok).workers j).events = (s.workers j).events := by
  unfold State.afterRegister
  split
  · exact field_update Worker.events (by rfl) j
  · rfl

@[simp] theorem afterRegister_loop (fd k : Nat) (ok : Bool) (j : Nat) :
    ((s.afterRegister fd k ok).workers j).loop = (s.workers j).loop := by
  unfold State.afterRegister
  split
  · exact field_update Worker.loop (by rfl) j
  · rfl

theorem mem_afterRegister_watched {fd k : Nat} {ok : Bool} {j n : Nat} :
    n ∈ ((s.afterRegister fd k ok).workers j).watched ↔
      n ∈ (s.workers j).watched ∨ (n = fd ∧ j = k ∧ ok = true ∧ fd ∈ s.openFds) := by
  unfold State.afterRegister
  by_cases hok : ok = true ∧ fd ∈ s.openFds
  · by_cases hj : j = k
    · subst hj
      simp [hok, or_comm]
    · simp [hok, hj]
  · simp only [if_neg hok]
    tauto

@[simp] theorem afterWait_conns (k : Nat) (evs : List ReadyFd) (j : Nat) :
    ((s.afterWait k evs).workers j).conns = (s.workers j).conns :=
  field_update Worker.conns (by rfl) j

@[simp] theorem afterWait_watched (k : Nat) (evs : List ReadyFd) (j : Nat) :
    ((s.afterWait k evs).workers j).watched = (s.workers j).watched :=
  field_update Worker.watched (by rfl) j

@[simp] theorem afterWait_loop (k : Nat) (evs : List ReadyFd) (j : Nat) :
    ((s.afterWait k evs).workers j).loop = (s.workers j).loop :=
  field_update Worker.loop (by rfl) j

@[simp] theorem afterHandler_conns (k : Nat) (h : MailHandler.State) (j : Nat) :
    ((s.afterHandler k h).workers j).conns = (s.workers j).conns :=
  field_update Worker.conns (by rfl) j

@[simp] theorem afterHandler_watched (k : Nat) (h : MailHandler.State) (j : Nat) :
    ((s.afterHandler k h).workers j).watched = (s.workers j).watched :=
  field_update Worker.watched (by rfl) j

@[simp] theorem afterHandler_events (k : Nat) (h : MailHandler.State) (j : Nat) :
    ((s.afterHandler k h).workers j).events = (s.workers j).events :=
  field_update Worker.events (by rfl) j

theorem mem_afterPass_watched {k fd : Nat} {rest : List ReadyFd} {ev : Event} {w : World}
    {j n : Nat} :
    n ∈ ((s.afterPass k fd rest ev w).workers j).watched ↔
      n ∈ (s.workers j).watched ∧ (n = fd → j = k → w.conn.status ≠ .inactive) := by
  by_cases hj : j = k
  · subst hj
    simp [State.afterPass, mem_closeIf]
  · simp [State.afterPass, hj]

theorem afterPass_conns_of_ne {k fd : Nat} {rest : List ReadyFd} {ev : Event} {w : World}
    {j n : Nat} (h : n ≠ fd ∨ j ≠ k) :
    ((s.afterPass k fd rest ev w).workers j).conns n = (s.workers j).conns n := by
  by_cases hj : j = k
  · subst hj
    have hn : n ≠ fd := by tauto
    simp [State.afterPass, hn]
  · simp [State.afterPass, hj]

theorem afterPass_conns_self {k fd : Nat} {rest : List ReadyFd} {ev : Event} {w : World} :
    ((s.afterPass k fd rest ev w).workers k).conns fd = w.conn := by
  simp [State.afterPass]

theorem afterPass_events_of_ne {k fd : Nat} {rest : List ReadyFd} {ev : Event} {w : World}
    {j : Nat} (h : j ≠ k) :
    ((s.afterPass k fd rest ev w).workers j).events = (s.workers j).events := by
  simp [State.afterPass, h]

end Touches

/-! ## The greeting -/

/-- The welcome message. -/
def greetingText (conf : Config) : Bytes :=
  bytes "220 " ++ conf.hostname ++ bytes " SMTP " ++ conf.serverName ++ bytes "\r\n"

/-- The temporary connection sends the greeting and nothing else: it queues no
mail, and it closes the descriptor exactly when a `send` fails. -/
theorem greet_eq (conf : Config) (env : Env) (queue : QueueFile Mail) :
    greet conf env queue = .ok
      { conn := nextConnection env (requestInit env.requestMem)
          (sendResponse conf env.send (greetingText conf)).2
        queue := queue
        sent := (sendResponse conf env.send (greetingText conf)).1
        added := [] } := by
  have hw := writeStep_writing conf env
    { conn := { connectionStart env.requestMem with
        response := some ([bytes "220 ", conf.hostname, bytes " SMTP ", conf.serverName,
          bytes "\r\n"].foldl responseAppend responseInit), status := .writing }
      queue := queue, sent := [], added := [] }
    rfl rfl rfl (show _ = [greetingText conf].flatten by simp [greetingText])
  simp only [greet, connectionHandle, welcome, readStep, connectionStart, if_true, bind,
    Except.bind, pure, Except.pure] at hw ⊢
  simp only [reduceCtorEq, if_false]
  simp only [Except.map, answer, List.flatten_cons, List.flatten_nil, List.append_nil,
    List.nil_append] at hw
  exact hw

/-! ## The invariant -/

/-- Some sequence of `send` results let the whole greeting pass without an
error, and `greeting` is what went out. -/
def Greeted (conf : Config) (greeting : Bytes) : Prop :=
  ∃ send, sendResponse conf send (greetingText conf) = (greeting, true)

/-- What the next event finds in a slot: of an inactive one it reads nothing. -/
def settled (conn : Connection) : Connection :=
  if conn.status = .inactive then connectionReset else conn

/-- The history of a descriptor is the run of one connection, from a reset slot
to `conn`. -/
def History (conf : Config) (c : Client) (conn : Connection) : Prop :=
  ∃ queue queue', Run (Server.Step conf) ⟨connectionReset, queue, [], []⟩ c.events
    ⟨settled conn, queue', c.sent, c.added⟩

/-- The descriptor is the master's to hand on to worker `k`. -/
structure Handed (S : Setup) (fd k : Nat) : Prop where
  notBase : fd ∉ S.base
  mapped : S.workerMap[fd]? = some k

/-- The descriptor that the master has in hand. -/
def MasterInv (S : Setup) (s : State) : Prop :=
  match s.master with
  | .waiting => True
  | .accepted fd k => Handed S fd k ∧ fd ∈ s.openFds ∧ s.clients fd = .fresh
  | .greeted fd k => Handed S fd k ∧ (fd ∈ s.openFds → Greeted S.conf (s.clients fd).greeting)

/-- A descriptor that worker `k` watches. -/
structure Watched (S : Setup) (s : State) (k fd : Nat) : Prop where
  handed : Handed S fd k
  isOpen : fd ∈ s.openFds
  notMaster : s.master.fd ≠ some fd
  greeted : Greeted S.conf (s.clients fd).greeting

/-- **The invariant of the server.** -/
structure Inv (S : Setup) (s : State) : Prop where
  base : S.base ⊆ s.openFds
  master : MasterInv S s
  watched : ∀ k fd, fd ∈ (s.workers k).watched → Watched S s k fd
  nodup : ∀ k, ((s.workers k).events.map ReadyFd.fd).Nodup
  batch : ∀ k, ∀ e ∈ (s.workers k).events, e.fd ∈ (s.workers k).watched
  idle : ∀ k fd, fd ∉ (s.workers k).watched → ((s.workers k).conns fd).status = .inactive
  history : ∀ k fd, S.workerMap[fd]? = some k →
    History S.conf (s.clients fd) ((s.workers k).conns fd)

theorem settled_of_inactive {conn : Connection} (h : conn.status = .inactive) :
    settled conn = connectionReset := if_pos h

theorem settled_of_between {conn : Connection} (h : Between conn) : settled conn = conn := by
  rcases h with rfl | ⟨req, hw⟩
  · rfl
  · rw [settled, if_neg (by simp [hw.status])]

/-- An event in an inactive slot does not see what the slot held. -/
theorem step_settled {conf : Config} {ev : Event} {w w' : World} (h : Server.Step conf w ev w') :
    Server.Step conf { w with conn := settled w.conn } ev w' := by
  by_cases hi : w.conn.status = .inactive
  · unfold Server.Step at h ⊢
    rw [← h, settled_of_inactive hi]
    unfold workerEvent
    cases ev.closed with
    | true =>
      simp [connectionHandle, welcome, readStep, writeStep, closeStep, bind, Except.bind, pure,
        Except.pure]
    | false => simp [hi, connectionReset]
  · rw [settled, if_neg hi]
    exact h

/-- The state of the queue is the event's, not the slot's. -/
theorem step_queue {conf : Config} {ev : Event} {w w' : World} (q : QueueFile Mail)
    (h : Server.Step conf w ev w') : Server.Step conf { w with queue := q } ev w' := h

theorem History.fresh (conf : Config) (q : QueueFile Mail) {conn : Connection}
    (h : conn.status = .inactive) : History conf .fresh conn := by
  refine ⟨q, q, ?_⟩
  rw [settled_of_inactive h]
  exact .nil _

theorem History.between {conf : Config} {c : Client} {conn : Connection}
    (h : History conf c conn) : Between (settled conn) := by
  obtain ⟨queue, queue', hrun⟩ := h
  exact hrun.invariant (P := fun w => Between w.conn) (fun _ _ _ hb hs => between_step hb hs)
    (.inl rfl)

theorem History.step {conf : Config} {c : Client} {conn : Connection} {q : QueueFile Mail}
    {ev : Event} {w : World} (h : History conf c conn)
    (hstep : Server.Step conf ⟨conn, q, c.sent, c.added⟩ ev w) :
    History conf { c with events := c.events ++ [ev], sent := w.sent, added := w.added } w.conn := by
  have hbetween := h.between
  obtain ⟨queue, queue', hrun⟩ := h
  have hstep := step_queue queue' (step_settled hstep)
  refine ⟨queue, w.queue, ?_⟩
  rw [settled_of_between (between_step hbetween hstep)]
  exact hrun.append (.single hstep)

theorem Initial.inv {S : Setup} {s : State} (h : Initial S s) : Inv S s where
  base := by rw [h.openFds]
  master := by
    unfold MasterInv
    rw [h.master]
    trivial
  watched k fd hfd := by simp [h.watched] at hfd
  nodup k := by simp [h.events]
  batch k := by simp [h.events]
  idle k fd _ := h.slots k fd
  history k fd _ := by
    rw [h.clients]
    exact .fresh _ (s.workers k).queue (h.slots k fd)

section Steps

variable {S : Setup} {s : State}

/-- A descriptor that is not open is no worker's. -/
theorem Inv.not_watched (hI : Inv S s) {fd : Nat} (hfd : fd ∉ s.openFds) (k : Nat) :
    fd ∉ (s.workers k).watched :=
  fun h => hfd (hI.watched k fd h).isOpen

theorem Inv.accept (hI : Inv S s) {fd k : Nat} (hfd : fd ∉ s.openFds)
    (hmap : S.workerMap[fd]? = some k) : Inv S (s.afterAccept fd k) where
  base := hI.base.trans (Finset.subset_insert _ _)
  master := ⟨⟨fun h => hfd (hI.base h), hmap⟩, Finset.mem_insert_self _ _,
    Function.update_self ..⟩
  watched j n hn := by
    have hw := hI.watched j n hn
    have hne : n ≠ fd := by
      rintro rfl
      exact hfd hw.isOpen
    refine ⟨hw.handed, Finset.mem_insert_of_mem hw.isOpen, ?_, ?_⟩
    · simpa [State.afterAccept, Master.fd] using hne.symm
    · simpa [State.afterAccept, hne] using hw.greeted
  nodup := hI.nodup
  batch := hI.batch
  idle := hI.idle
  history j n hn := by
    by_cases hne : n = fd
    · -- the slot of a descriptor that was closed is inactive
      subst hne
      simp only [State.afterAccept, Function.update_self]
      exact .fresh _ (s.workers j).queue (hI.idle j n (hI.not_watched hfd j))
    · simpa [State.afterAccept, hne] using hI.history j n hn

theorem Inv.greet (hI : Inv S s) {fd k : Nat} {env : Env} {w : World}
    (hm : s.master = .accepted fd k) (hw : greet S.conf env (s.workers k).queue = .ok w) :
    Inv S (s.afterGreet fd k w) := by
  obtain ⟨hhanded, hopen, hfresh⟩ : Handed S fd k ∧ fd ∈ s.openFds ∧ s.clients fd = .fresh := by
    simpa [MasterInv, hm] using hI.master
  have hmfd : s.master.fd = some fd := by rw [hm]; rfl
  rw [greet_eq] at hw
  have hw := Except.ok.inj hw
  refine ⟨?_, ⟨hhanded, ?_⟩, ?_, hI.nodup, hI.batch, hI.idle, ?_⟩
  · intro n hn
    refine mem_closeIf.mpr ⟨hI.base hn, ?_⟩
    rintro rfl
    exact absurd hn hhanded.notBase
  -- the descriptor is still open when no `send` failed
  · intro hstill
    have hstatus := (mem_closeIf.mp hstill).2 rfl
    refine ⟨env.send, ?_⟩
    simp only [State.afterGreet, Function.update_self]
    rw [← hw] at hstatus ⊢
    cases hall : (sendResponse S.conf env.send (greetingText S.conf)).2 with
    | true => exact Prod.ext rfl hall
    | false =>
      rw [hall] at hstatus
      exact absurd rfl hstatus
  · intro j n hn
    have hwn := hI.watched j n hn
    have hne : n ≠ fd := by
      rintro rfl
      exact hwn.notMaster hmfd
    refine ⟨hwn.handed, mem_closeIf.mpr ⟨hwn.isOpen, fun h => absurd h hne⟩, ?_, ?_⟩
    · simpa [State.afterGreet, Master.fd] using hne.symm
    · simpa [State.afterGreet, hne] using hwn.greeted
  · intro j n hn
    have hh := hI.history j n hn
    by_cases hne : n = fd
    · subst hne
      rw [hfresh] at hh
      simpa only [State.afterGreet, Function.update_self, History] using hh
    · simpa [State.afterGreet, hne] using hh

theorem Inv.register (hI : Inv S s) {fd k : Nat} (ok : Bool) (hm : s.master = .greeted fd k) :
    Inv S (s.afterRegister fd k ok) := by
  obtain ⟨hhanded, hgreeted⟩ :
      Handed S fd k ∧ (fd ∈ s.openFds → Greeted S.conf (s.clients fd).greeting) := by
    simpa [MasterInv, hm] using hI.master
  have hmaster : (s.afterRegister fd k ok).master.fd = none := rfl
  refine ⟨hI.base, trivial, ?_, ?_, ?_, ?_, ?_⟩
  · intro j n hn
    rcases (mem_afterRegister_watched s).mp hn with hold | ⟨rfl, rfl, -, hopen⟩
    · have hw := hI.watched j n hold
      exact ⟨hw.handed, hw.isOpen, by simp [hmaster], hw.greeted⟩
    · exact ⟨hhanded, hopen, by simp [hmaster], hgreeted hopen⟩
  · intro j
    simpa using hI.nodup j
  · intro j e he
    rw [afterRegister_events] at he
    exact (mem_afterRegister_watched s).mpr (.inl (hI.batch j e he))
  · intro j n hn
    rw [mem_afterRegister_watched, not_or] at hn
    simpa using hI.idle j n hn.1
  · intro j n hn
    rw [afterRegister_conns]
    exact hI.history j n hn

theorem Inv.wait (hI : Inv S s) {k : Nat} {evs : List ReadyFd}
    (hnodup : (evs.map ReadyFd.fd).Nodup) (hevs : ∀ e ∈ evs, e.fd ∈ (s.workers k).watched) :
    Inv S (s.afterWait k evs) := by
  refine ⟨hI.base, hI.master, ?_, ?_, ?_, ?_, ?_⟩
  · intro j n hn
    rw [afterWait_watched] at hn
    have hw := hI.watched j n hn
    exact ⟨hw.handed, hw.isOpen, hw.notMaster, hw.greeted⟩
  · intro j
    by_cases hj : j = k
    · subst hj
      simpa [State.afterWait] using hnodup
    · simpa [State.afterWait, hj] using hI.nodup j
  · intro j e he
    rw [afterWait_watched]
    by_cases hj : j = k
    · subst hj
      exact hevs e (by simpa [State.afterWait] using he)
    · exact hI.batch j e (by simpa [State.afterWait, hj] using he)
  · intro j n hn
    rw [afterWait_watched] at hn
    simpa using hI.idle j n hn
  · intro j n hn
    rw [afterWait_conns]
    exact hI.history j n hn

/-- A pass over an event leaves the slot inactive exactly when the descriptor
was closed. -/
theorem Inv.handle (hI : Inv S s) {k : Nat} {e : ReadyFd} {rest : List ReadyFd} {ev : Event}
    {w : World} (hevents : (s.workers k).events = e :: rest)
    (hstep : Server.Step S.conf (s.world k e.fd) ev w) :
    Inv S (s.afterPass k e.fd rest ev w) := by
  have hwe : e.fd ∈ (s.workers k).watched := hI.batch k e (by simp [hevents])
  have hself := hI.watched k e.fd hwe
  have hnodup := hI.nodup k
  rw [hevents, List.map_cons, List.nodup_cons] at hnodup
  -- no other worker watches the descriptor
  have hother : ∀ j, e.fd ∈ (s.workers j).watched → j = k := by
    intro j hj
    have := (hI.watched j e.fd hj).handed.mapped
    rw [hself.handed.mapped] at this
    exact (Option.some.inj this).symm
  refine ⟨?_, ?_, ?_, ?_, ?_, ?_, ?_⟩
  · intro n hn
    refine mem_closeIf.mpr ⟨hI.base hn, ?_⟩
    rintro rfl
    exact absurd hn hself.handed.notBase
  · -- the master's descriptor is watched by nobody
    have hmaster := hI.master
    unfold MasterInv at hmaster ⊢
    cases hm : s.master with
    | waiting => simp [State.afterPass, hm]
    | accepted fd j =>
      have hne : fd ≠ e.fd := by
        rintro rfl
        exact hself.notMaster (by rw [hm]; rfl)
      simp only [hm] at hmaster
      simpa [State.afterPass, hm, mem_closeIf, hne] using hmaster
    | greeted fd j =>
      have hne : fd ≠ e.fd := by
        rintro rfl
        exact hself.notMaster (by rw [hm]; rfl)
      simp only [hm] at hmaster
      simpa [State.afterPass, hm, mem_closeIf, hne] using hmaster
  · intro j n hn
    obtain ⟨hold, hopen⟩ := (mem_afterPass_watched s).mp hn
    have hw := hI.watched j n hold
    refine ⟨hw.handed, mem_closeIf.mpr ⟨hw.isOpen, ?_⟩, hw.notMaster, ?_⟩
    · rintro rfl
      exact hopen rfl (hother j hold)
    · by_cases hne : n = e.fd
      · subst hne
        simpa [State.afterPass] using hw.greeted
      · simpa [State.afterPass, hne] using hw.greeted
  · intro j
    by_cases hj : j = k
    · subst hj
      simpa [State.afterPass] using hnodup.2
    · rw [afterPass_events_of_ne s hj]
      exact hI.nodup j
  · intro j e' he'
    rw [mem_afterPass_watched]
    by_cases hj : j = k
    · subst hj
      have hmem : e' ∈ rest := by simpa [State.afterPass] using he'
      refine ⟨hI.batch j e' (by simp [hevents, hmem]), fun heq => ?_⟩
      exact absurd (List.mem_map_of_mem hmem) (heq ▸ hnodup.1)
    · rw [afterPass_events_of_ne s hj] at he'
      exact ⟨hI.batch j e' he', fun _ h => absurd h hj⟩
  · intro j n hn
    rw [mem_afterPass_watched, not_and] at hn
    by_cases hself' : n = e.fd ∧ j = k
    · obtain ⟨rfl, rfl⟩ := hself'
      rw [afterPass_conns_self]
      by_contra hopen
      exact hn hwe fun _ _ => hopen
    · rw [afterPass_conns_of_ne s (by tauto)]
      exact hI.idle j n fun hold => hn hold fun h1 h2 => absurd ⟨h1, h2⟩ hself'
  · intro j n hn
    by_cases hne : n = e.fd
    · subst hne
      obtain rfl : k = j := Option.some.inj (hself.handed.mapped.symm.trans hn)
      have := (hI.history k e.fd hn).step hstep
      rw [afterPass_conns_self]
      simpa [State.afterPass] using this
    · rw [afterPass_conns_of_ne s (.inl hne)]
      simpa [State.afterPass, hne] using hI.history j n hn

theorem Inv.handler (hI : Inv S s) (k : Nat) (h : MailHandler.State) :
    Inv S (s.afterHandler k h) := by
  refine ⟨hI.base, hI.master, ?_, ?_, ?_, ?_, ?_⟩
  · intro j n hn
    rw [afterHandler_watched] at hn
    have hw := hI.watched j n hn
    exact ⟨hw.handed, hw.isOpen, hw.notMaster, hw.greeted⟩
  · intro j
    simpa using hI.nodup j
  · intro j e he
    rw [afterHandler_events] at he
    rw [afterHandler_watched]
    exact hI.batch j e he
  · intro j n hn
    rw [afterHandler_watched] at hn
    simpa using hI.idle j n hn
  · intro j n hn
    rw [afterHandler_conns]
    exact hI.history j n hn

/-- **Every step of every process keeps the invariant.** -/
theorem Inv.step {t : State} {l : Label} (hI : Inv S s) (h : Step S s l t) : Inv S t := by
  cases h with
  | accept _ hfd _ hmap => exact hI.accept hfd hmap
  | greet hm hw => exact hI.greet hm hw
  | register ok hm => exact hI.register ok hm
  | wait _ _ _ hnodup hevs => exact hI.wait hnodup hevs
  | handle _ hevents _ _ hstep _ => exact hI.handle hevents hstep
  | handler _ _ _ => exact hI.handler _ _

end Steps

theorem Initial.run_inv {S : Setup} {s t : State} {ls : List Label} (hs : Initial S s)
    (h : Run (Step S) s ls t) : Inv S t :=
  h.invariant (P := Inv S) (fun _ _ _ hI hstep => hI.step hstep) hs.inv

end ComfirmDmarc.Server.Processes
