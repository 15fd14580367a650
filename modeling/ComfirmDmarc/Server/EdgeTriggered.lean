import ComfirmDmarc.Server.MissingBody

/-!
# Server -- one read for each edge

The socket of a connection is watched with `EPOLLIN | EPOLLET`: epoll reports
that bytes arrived, once, and not that bytes are left. `worker_server` answers a
report with one call of `connection_handle`, which makes one `read` of at most
`read_buffer_size` bytes. The sockets come out of `accept` and block: a `read`
that finds nothing waits.

The kernel, the peer and the worker are one step relation. Arrivals come at any
point between the steps of the worker, also before and after its `read`.
-/

namespace ComfirmDmarc.Server

open CMemory Queue Transition

/-! ## The socket and the worker -/

/-- Where the worker is: in `epoll_wait`, with a report of this socket in hand,
or behind the call of `connection_handle`. -/
inductive WorkerPhase
  | waiting
  | notified
  | handled
  deriving DecidableEq, Repr

/-- A connection slot with its socket. `arrived` is what the peer of the current
connection has sent so far, and `given` what `connection_handle` has read of it
and handed to `request_parse_commands`. -/
structure SocketState where
  world : World
  /-- the kernel's receive buffer -/
  pending : Bytes
  /-- an edge that was not delivered yet; later ones merge with it -/
  edge : Bool
  worker : WorkerPhase
  arrived : Bytes
  given : Bytes

inductive SocketLabel
  | arrive (data : Bytes)
  | deliver
  | handle (ev : Event)
  | wait

/-- What `read` can come back with: an error, or what is pending. -/
def ReadsFrom (pending : Bytes) (env : Env) : Prop :=
  env.recv = none ∨ (pending ≠ [] ∧ env.recv = some pending)

/-- The socket behind a call of `connection_handle` that led to `w`. A socket
that was closed takes its bytes along, and the slot is free for the next one. -/
def afterHandle (conf : Config) (s : SocketState) (ev : Event) (w : World) : SocketState :=
  if w.conn.status = .inactive then
    { world := w, pending := [], edge := false, worker := .handled, arrived := [], given := [] }
  else
    let got := (received conf ev.env).getD []
    { s with
      world := w
      pending := s.pending.drop got.length
      worker := .handled
      given := s.given ++ got }

/-- One step of the peer, of epoll or of the worker. -/
inductive SocketStep (conf : Config) : SocketState → SocketLabel → SocketState → Prop
  | arrive {s : SocketState} {data : Bytes} : data ≠ [] →
      SocketStep conf s (.arrive data)
        { s with pending := s.pending ++ data, edge := true, arrived := s.arrived ++ data }
  | deliver {s : SocketState} : s.worker = .waiting → s.edge = true →
      SocketStep conf s .deliver { s with edge := false, worker := .notified }
  | handle {s : SocketState} {ev : Event} {w : World} : s.worker = .notified →
      (ev.closed = false → ReadsFrom s.pending ev.env) → Step conf s.world ev w →
      SocketStep conf s (.handle ev) (afterHandle conf s ev w)
  | wait {s : SocketState} : s.worker = .handled →
      SocketStep conf s .wait { s with worker := .waiting }

/-- A slot without a connection, before anything arrived. -/
structure Untouched (s : SocketState) : Prop where
  conn : s.world.conn = connectionReset
  pending : s.pending = []
  arrived : s.arrived = []
  given : s.given = []

/-- **No received byte is stranded**: when the worker waits, the connection is
open and no edge is pending, the kernel's buffer is empty, and everything that
arrived has been handed on. -/
def NoneStranded (s : SocketState) : Prop :=
  s.worker = .waiting → s.world.conn.status = .reading → s.edge = false →
    s.pending = [] ∧ s.given = s.arrived

/-- A read has room for all that is pending. -/
def ReadDrains (conf : Config) (s : SocketState) : SocketLabel → Prop
  | .handle ev => ev.closed = false → (s.pending.length : Int) ≤ conf.readBufferSize
  | _ => True

/-! ## What a step keeps -/

/-- No byte is lost on the way to `request_parse_commands`. -/
structure Conserved (s : SocketState) : Prop where
  between : Between s.world.conn
  bytes : s.given ++ s.pending = s.arrived

/-- **The invariant**: bytes that are left are announced, by an edge or by the
report the worker has in hand. -/
structure SocketInv (s : SocketState) : Prop where
  conserved : Conserved s
  announced : s.edge = false → s.worker ≠ .notified → s.pending = []

theorem Untouched.inv {s : SocketState} (h : Untouched s) : SocketInv s :=
  ⟨⟨.inl h.conn, by rw [h.given, h.pending, h.arrived]; rfl⟩, fun _ _ => h.pending⟩

/-- What a read takes from the kernel's buffer. -/
theorem received_prefix {conf : Config} {pending : Bytes} {env : Env}
    (h : ReadsFrom pending env) : (received conf env).getD [] <+: pending := by
  rw [received]
  split
  · rcases h with hnone | ⟨-, hsome⟩
    · simp [hnone]
    · simp [hsome, List.take_prefix]
  · simp

/-- A read that does not close the connection takes all there is, if there is
room for it. -/
theorem received_all {conf : Config} {pending : Bytes} {env : Env} (h : ReadsFrom pending env)
    (hroom : (pending.length : Int) ≤ conf.readBufferSize) (hgot : received conf env ≠ none) :
    received conf env = some pending := by
  rw [received] at hgot ⊢
  split
  · rw [if_pos ‹_›] at hgot
    rcases h with hnone | ⟨-, hsome⟩
    · simp [hnone] at hgot
    · rw [hsome, Option.map_some, List.take_of_length_le (by omega)]
  · rw [if_neg ‹_›] at hgot
    exact absurd rfl hgot

/-- A call that keeps the connection open was a read of something. -/
theorem step_open {conf : Config} {w w' : World} {ev : Event} (hb : Between w.conn)
    (h : Step conf w ev w') (hopen : w'.conn.status ≠ .inactive) :
    ev.closed = false ∧ received conf ev.env ≠ none := by
  rw [Step, workerEvent_eq conf ev w hb, eventRead] at h
  have hreset : connectionReset.status = .inactive := rfl
  cases hclosed : ev.closed with
  | true =>
    rw [hclosed, if_pos rfl] at h
    exact absurd (by rw [← Except.ok.inj h, hreset]) hopen
  | false =>
    refine ⟨rfl, fun hnone => ?_⟩
    rw [hclosed, hnone, if_neg (by decide)] at h
    exact absurd (by rw [← Except.ok.inj h, hreset]) hopen

theorem afterHandle_conserved {conf : Config} {s : SocketState} {ev : Event} {w : World}
    (hI : Conserved s) (hread : ev.closed = false → ReadsFrom s.pending ev.env)
    (hstep : Step conf s.world ev w) : Conserved (afterHandle conf s ev w) := by
  have hbetween : Between w.conn := between_step hI.between hstep
  rw [afterHandle]
  by_cases hclosed : w.conn.status = .inactive
  · rw [if_pos hclosed]
    exact ⟨hbetween, rfl⟩
  · rw [if_neg hclosed]
    obtain ⟨hev, -⟩ := step_open hI.between hstep hclosed
    have hprefix : (received conf ev.env).getD [] <+: s.pending := received_prefix (hread hev)
    obtain ⟨rest, hrest⟩ := hprefix
    refine ⟨hbetween, ?_⟩
    show s.given ++ _ ++ s.pending.drop _ = s.arrived
    rw [← hI.bytes, ← hrest, List.drop_left, List.append_assoc]

/-- **No byte is lost**, whatever the reads leave behind. -/
theorem Conserved.step {conf : Config} {s s' : SocketState} {l : SocketLabel} (hI : Conserved s)
    (h : SocketStep conf s l s') : Conserved s' := by
  cases h with
  | arrive _ => exact ⟨hI.between, by rw [← List.append_assoc, hI.bytes]⟩
  | deliver _ _ => exact ⟨hI.between, hI.bytes⟩
  | handle _ hread hstep => exact afterHandle_conserved hI hread hstep
  | wait _ => exact ⟨hI.between, hI.bytes⟩

theorem SocketInv.step {conf : Config} {s s' : SocketState} {l : SocketLabel} (hI : SocketInv s)
    (h : Guarded (ReadDrains conf) (SocketStep conf) s l s') : SocketInv s' := by
  obtain ⟨hdrains, hstep⟩ := h
  refine ⟨hI.conserved.step hstep, ?_⟩
  cases hstep with
  | arrive _ => exact fun hedge => absurd hedge (by simp)
  | deliver _ _ => exact fun _ hno => absurd rfl hno
  | @handle ev w _ hread hstep =>
    intro _ _
    rw [afterHandle]
    by_cases hclosed : w.conn.status = .inactive
    · rw [if_pos hclosed]
    · -- the connection is open, so there was a read, and the read took everything
      rw [if_neg hclosed]
      obtain ⟨hev, hgot⟩ := step_open hI.conserved.between hstep hclosed
      simp only [received_all (hread hev) (hdrains hev) hgot, Option.getD_some, List.drop_length]
  | wait hphase => exact fun hedge _ => hI.announced hedge (by simp [hphase])

theorem SocketInv.noneStranded {s : SocketState} (hI : SocketInv s) : NoneStranded s := by
  intro hworker _ hedge
  have hnil := hI.announced hedge (by simp [hworker])
  refine ⟨hnil, ?_⟩
  rw [← hI.conserved.bytes, hnil, List.append_nil]

/-- **No byte is stranded while every read drains the socket**, whatever the
order of arrivals and steps of the worker. -/
theorem noneStranded_of_drains (conf : Config) {s s' : SocketState} {ls : List SocketLabel}
    (hs : Untouched s) (hrun : Run (Guarded (ReadDrains conf) (SocketStep conf)) s ls s') :
    NoneStranded s' :=
  (hrun.invariant (P := SocketInv) (fun _ _ _ hI hstep => hI.step hstep) hs.inv).noneStranded

/-! ## Bursts -/

/-- A slot whose worker waits, over an empty queue. -/
def idleSocket : SocketState :=
  { world := .closed, pending := [], edge := false, worker := .waiting, arrived := [], given := [] }

theorem idleSocket_untouched : Untouched idleSocket := ⟨rfl, rfl, rfl, rfl⟩

/-- The socket after a burst was reported. -/
def burst (data : Bytes) : SocketState :=
  { idleSocket with pending := data, worker := .notified, arrived := data }

/-- A read of a byte that is no command leaves the connection open. -/
theorem step_oneByte (conf : Config) (hsize : conf.readBufferSize = 1) (rest : Bytes) :
    ∃ w, Step conf World.closed (readEvent (69 :: rest) (smallQueue 0)) w ∧
      w.conn.status = .reading := by
  have hgot : received conf (readEvent (69 :: rest) (smallQueue 0)).env = some [69] := by
    rw [received, hsize]
    rfl
  have hit : iterate conf [] (requestInit .zero) 69 [] = ⟨requestInit .zero, none, 0, false⟩ := by
    rfl
  have hd : dialogue conf [] (requestInit .zero) [69] = ⟨requestInit .zero, [], false⟩ := by
    rw [dialogue]
    simp only [hit, List.drop_nil, dialogue]
    rfl
  refine ⟨answer conf (readEvent (69 :: rest) (smallQueue 0)).env (requestInit .zero) []
    World.closed, ?_, ?_⟩
  · rw [Step, workerEvent_eq _ _ _ (.inl rfl), eventRead, hgot]
    show handleRead conf _ (requestInit .zero) [69] World.closed = _
    rw [handleRead, show ahead (readEvent (69 :: rest) (smallQueue 0)).env [69] = [] from rfl, hd]
    rfl
  · have hsend : sendResponse conf sendAll [] = ([], true) := by
      simp [sendResponse, sendAll]
    show (nextConnection _ _ (sendResponse conf sendAll []).2).status = _
    rw [hsend]
    rfl

/-- A server that reads one byte at a time. -/
def oneByteConfig : Config := { Config.default with readBufferSize := 1 }

/-- One byte arrives and is read. -/
theorem noneStranded_of_drains_oneByte :
    ∃ s, Run (SocketStep oneByteConfig) idleSocket
        [.arrive [69], .deliver, .handle (readEvent [69] (smallQueue 0)), .wait] s ∧
      s.world.conn.status = .reading ∧ NoneStranded s := by
  obtain ⟨w, hstep, hreading⟩ := step_oneByte oneByteConfig rfl []
  have hread : ReadsFrom [69] (readEvent [69] (smallQueue 0)).env := .inr ⟨by decide, rfl⟩
  have hrun : Run (Guarded (ReadDrains oneByteConfig) (SocketStep oneByteConfig)) idleSocket
      [.arrive [69], .deliver, .handle (readEvent [69] (smallQueue 0)), .wait]
      { afterHandle oneByteConfig (burst [69]) (readEvent [69] (smallQueue 0)) w with
        worker := .waiting } := by
    refine .cons ⟨trivial, .arrive (by decide)⟩ (.cons ⟨trivial, .deliver rfl rfl⟩ (.cons ⟨?_,
      .handle rfl (fun _ => hread) hstep⟩ (.single ⟨trivial, .wait ?_⟩)))
    · exact fun _ => by decide
    · rw [afterHandle]
      split <;> rfl
  refine ⟨_, hrun.mono fun _ _ _ h => h.2, ?_, noneStranded_of_drains _ idleSocket_untouched hrun⟩
  show (afterHandle _ _ _ w).world.conn.status = _
  rw [afterHandle, if_neg (by rw [hreading]; decide)]
  exact hreading

/-- **A burst that is longer than the read buffer**: its second byte stays in
the kernel, and nothing announces it any more. -/
theorem burst_stranded :
    ¬∀ (conf : Config) (s s' : SocketState) (ls : List SocketLabel), 0 < conf.readBufferSize →
      Untouched s → Run (SocketStep conf) s ls s' → NoneStranded s' := by
  intro h
  obtain ⟨w, hstep, hreading⟩ := step_oneByte oneByteConfig rfl [72]
  have hread : ReadsFrom [69, 72] (readEvent [69, 72] (smallQueue 0)).env := .inr ⟨by decide, rfl⟩
  have hafter : afterHandle oneByteConfig (burst [69, 72]) (readEvent [69, 72] (smallQueue 0)) w =
      { burst [69, 72] with world := w, pending := [72], worker := .handled, given := [69] } := by
    rw [afterHandle, if_neg (by rw [hreading]; decide)]
    rfl
  have hrun : Run (SocketStep oneByteConfig) idleSocket
      [.arrive [69, 72], .deliver, .handle (readEvent [69, 72] (smallQueue 0)), .wait]
      { burst [69, 72] with world := w, pending := [72], worker := .waiting, given := [69] } := by
    refine .cons (.arrive (by decide)) (.cons (.deliver rfl rfl) (.cons
      (.handle rfl (fun _ => hread) hstep) ?_))
    show Run _ (afterHandle oneByteConfig (burst [69, 72]) (readEvent [69, 72] (smallQueue 0)) w) _ _
    rw [hafter]
    exact .single (.wait rfl)
  obtain ⟨hnil, -⟩ := h oneByteConfig idleSocket _ _ (by decide) idleSocket_untouched hrun rfl
    hreading rfl
  exact absurd hnil (List.cons_ne_nil _ _)

end ComfirmDmarc.Server
