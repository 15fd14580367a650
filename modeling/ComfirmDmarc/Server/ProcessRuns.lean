import ComfirmDmarc.Server.Descriptors

/-!
# Server -- runs of all processes

What holds in every interleaving of the master, the workers and the mail
handlers. A client is served as if it were alone, each worker with its mail
handler is one bounded queue between them, and a mail that was acknowledged to
a client is posted or still held.
-/

namespace ComfirmDmarc.Server.Processes

open CMemory Queue Transition

/-! ## What a pass does to the queue -/

/-- Nothing happened to the queue, or one mail was queued. -/
def Queues (q : QueueFile Mail) (ms : List Mail) (q' : QueueFile Mail) : Prop :=
  (ms = [] ∧ q' = q) ∨ ∃ m, ms = [m] ∧ (pqEnqueue q m).1 = 0 ∧ q' = (pqEnqueue q m).2

/-- The mails that were added are those that went into the queue. -/
def Passes (w w' : World) : Prop :=
  ∃ ms, w'.added = w.added ++ ms ∧ Queues w.queue ms w'.queue

theorem Passes.same {w w' : World} (ha : w'.added = w.added) (hq : w'.queue = w.queue) :
    Passes w w' :=
  ⟨[], by rw [ha, List.append_nil], .inl ⟨rfl, hq⟩⟩

theorem processData_passes {env : Env} {req : Request} {w : World} {p : Request × World}
    (h : processData env req w = .ok p) : Passes w p.2 := by
  unfold processData at h
  generalize requestParseData req env.dataTail = r at h
  obtain ⟨req1, accesses⟩ := r
  simp only at h
  split at h
  · cases h
  · split at h
    · cases hm : createMail env.mailMem req1 with
      | error e => simp [hm, bind, Except.bind] at h
      | ok m =>
        simp only [hm, bind, Except.bind, Except.ok.injEq] at h
        rw [← h]
        by_cases hok : (pqEnqueue w.queue m).1 = 0
        · exact ⟨[m], by simp [hok], .inr ⟨m, rfl, hok, rfl⟩⟩
        · exact .same (by simp [hok]) (pqEnqueue_of_ne_zero hok)
    · cases h
      exact .same rfl rfl

theorem parseStep_passes {conf : Config} {env : Env} {w w' : World} {data ahead : Bytes}
    (h : parseStep conf env w data ahead = .ok w') : Passes w w' := by
  unfold parseStep at h
  split at h
  · simp only at h
    split at h
    · cases h
      exact .same rfl rfl
    · split at h
      · rename_i req resp _ _ _ _
        cases hp : processData env (requestParseCommands conf req resp data ahead).request w with
        | error e => simp [hp, bind, Except.bind] at h
        | ok p =>
          simp only [hp, bind, Except.bind, Except.ok.injEq] at h
          rw [← h]
          exact processData_passes hp
      · cases h
        exact .same rfl rfl
  · cases h

theorem readStep_passes {conf : Config} {env : Env} {w w' : World}
    (h : readStep conf env w = .ok w') : Passes w w' := by
  unfold readStep at h
  split at h
  · simp only at h
    generalize (if w.conn.bufferLen = 0 then { w.conn with readBuffer := some env.readMem }
      else w.conn) = conn at h
    split at h
    · cases h
    · split at h
      · cases h
        exact .same rfl rfl
      · split at h
        · have hparse := parseStep_passes h
          exact hparse
        · cases h
          exact .same rfl rfl
  · cases h
    exact .same rfl rfl

theorem writeStep_passes {conf : Config} {env : Env} {w w' : World}
    (h : writeStep conf env w = .ok w') : w'.added = w.added ∧ w'.queue = w.queue := by
  unfold writeStep at h
  split at h
  · split at h
    · simp only at h
      split at h
      all_goals
        cases h
        exact ⟨rfl, rfl⟩
    · cases h
  · cases h
    exact ⟨rfl, rfl⟩

theorem welcome_passes {conf : Config} {w w' : World} (h : welcome conf w = .ok w') :
    w'.added = w.added ∧ w'.queue = w.queue := by
  unfold welcome at h
  split at h
  · split at h
    · cases h
    · cases h
      exact ⟨rfl, rfl⟩
  · cases h
    exact ⟨rfl, rfl⟩

theorem connectionHandle_passes {conf : Config} {env : Env} {w w' : World}
    (h : connectionHandle conf env w = .ok w') : Passes w w' := by
  unfold connectionHandle at h
  cases h1 : welcome conf w with
  | error e => simp [h1, bind, Except.bind] at h
  | ok w1 =>
  cases h2 : readStep conf env w1 with
  | error e => simp [h1, h2, bind, Except.bind] at h
  | ok w2 =>
  cases h3 : writeStep conf env w2 with
  | error e => simp [h1, h2, h3, bind, Except.bind] at h
  | ok w3 =>
    simp only [h1, h2, h3, bind, Except.bind, pure, Except.pure, Except.ok.injEq] at h
    obtain ⟨ha1, hq1⟩ := welcome_passes h1
    obtain ⟨ms, ha2, hq2⟩ := readStep_passes h2
    obtain ⟨ha3, hq3⟩ := writeStep_passes h3
    have hclose : w'.added = w3.added ∧ w'.queue = w3.queue := by
      rw [← h]
      unfold closeStep
      split <;> exact ⟨rfl, rfl⟩
    refine ⟨ms, ?_, ?_⟩
    · rw [hclose.1, ha3, ha2, ha1]
    · rw [hclose.2, hq3, ← hq1]
      exact hq2

/-- **What an event does to the queue**: at most one mail is added, and only
the mail is. -/
theorem step_passes {conf : Config} {ev : Event} {w w' : World} (h : Server.Step conf w ev w') :
    ∃ ms, w'.added = w.added ++ ms ∧ Queues ev.queue ms w'.queue :=
  connectionHandle_passes h

/-! ## Clients -/

/-- **A client is served as if it were alone**: whatever the other clients, the
other workers and the mail handlers do meanwhile, the events of a descriptor
since it was accepted are a run of one connection from a reset slot, with the
same bytes sent and the same mails queued. -/
theorem clients_do_not_interfere {S : Setup} {s t : State} {ls : List Label} (hs : Initial S s)
    (hrun : Run (Step S) s ls t) {fd : Nat} (hfd : fd < S.maxClients * 2) :
    ∃ queue w, Run (Server.Step S.conf) ⟨connectionReset, queue, [], []⟩ (t.clients fd).events w ∧
      w.sent = (t.clients fd).sent ∧ w.added = (t.clients fd).added ∧
      w.conn = settled ((t.workers (fd % S.maxWorkers)).conns fd) := by
  have hmap : S.workerMap[fd]? = some (fd % S.maxWorkers) := by
    simp [Setup.workerMap, hfd]
  obtain ⟨queue, queue', h⟩ := (hs.run_inv hrun).history _ fd hmap
  exact ⟨queue, _, h, rfl, rfl, rfl⟩

theorem clients_do_not_interfere_served :
    ∃ queue w, Run (Server.Step .default) ⟨connectionReset, queue, [], []⟩
        ((servedServer (smallSetup 1 1 (by decide))).clients 0).events w ∧
      w.added = ((servedServer (smallSetup 1 1 (by decide))).clients 0).added := by
  obtain ⟨ls, hrun⟩ := servedServer_run 1 1 (by decide) (by decide)
  have hfd : 0 < (smallSetup 1 1 (by decide)).maxClients * 2 := by decide
  obtain ⟨queue, w, h, -, hadded, -⟩ :=
    clients_do_not_interfere (idleServer_initial 1 1 (by decide) smallQueue_ringInv) hrun hfd
  exact ⟨queue, w, h, hadded⟩

/-! ## A worker and its mail handler -/

/-- The mails that worker `k` queues in a step. -/
def Label.enqueued (k : Nat) : Label → List Mail
  | .handle j _ _ ms => if j = k then ms else []
  | _ => []

/-- A step, as the mail handler of worker `k` sees it. -/
def Label.seenBy (k : Nat) : Label → List MailHandler.Label
  | .handle j _ _ ms => if j = k then ms.map .arrive else []
  | .handler j l => if j = k then [l] else []
  | _ => []

theorem Queues.run {S : Setup} {q q' : QueueFile Mail} {ms : List Mail} (h : Queues q ms q')
    (pc : MailHandler.Pc) :
    Run (MailHandler.Step S.callees) ⟨q, pc⟩ (ms.map .arrive) ⟨q', pc⟩ := by
  rcases h with ⟨rfl, rfl⟩ | ⟨m, rfl, hok, rfl⟩
  · exact .nil _
  · exact .single (.arrive m hok)

/-- **A worker and its mail handler are the queue system of the mail handler**:
every step of the server is a run of it, possibly empty. -/
theorem Step.seenBy {S : Setup} {s t : State} {l : Label} (h : Step S s l t) (k : Nat) :
    Run (MailHandler.Step S.callees) (s.workers k).loop (l.seenBy k) (t.workers k).loop := by
  cases h with
  | accept _ _ _ _ => exact .nil _
  | greet _ _ => exact .nil _
  | register ok _ =>
    rw [afterRegister_loop]
    exact .nil _
  | wait _ _ _ _ _ =>
    rw [afterWait_loop]
    exact .nil _
  | @handle j e rest ev w ms _ _ _ hqueue hstep hms =>
    by_cases hj : j = k
    · subst hj
      obtain ⟨ms', hadded, hq⟩ := step_passes hstep
      obtain rfl : ms = ms' := List.append_cancel_left (hms.symm.trans hadded)
      rw [hqueue] at hq
      simpa [Label.seenBy, State.afterPass, Worker.loop] using hq.run (S := S) _
    · simpa [Label.seenBy, State.afterPass, hj, Ne.symm hj] using Run.nil _
  | @handler j l h _ hstep _ =>
    by_cases hj : j = k
    · subst hj
      simpa [Label.seenBy, State.afterHandler, Worker.loop] using Run.single hstep
    · simpa [Label.seenBy, State.afterHandler, hj, Ne.symm hj] using Run.nil _

theorem Step.arrived {S : Setup} {s t : State} {l : Label} (h : Step S s l t) (k : Nat) :
    (l.seenBy k).flatMap MailHandler.Label.arrived = l.enqueued k := by
  have harrive : ∀ ms : List Mail,
      (ms.map MailHandler.Label.arrive).flatMap MailHandler.Label.arrived = ms := by
    intro ms
    induction ms with
    | nil => rfl
    | cons m ms ih => simpa [MailHandler.Label.arrived] using ih
  cases h with
  | @handle j e rest ev w ms _ _ _ _ _ _ =>
    by_cases hj : j = k
    · simp [Label.seenBy, Label.enqueued, hj, harrive]
    · simp [Label.seenBy, Label.enqueued, hj]
  | @handler j l h _ _ hl =>
    by_cases hj : j = k
    · simp [Label.seenBy, Label.enqueued, hj, hl]
    · simp [Label.seenBy, Label.enqueued, hj]
  | _ => rfl

/-- What the mail handler of worker `k` saw in a run. -/
def seen (k : Nat) (ls : List Label) : List MailHandler.Label := ls.flatMap (Label.seenBy k)

/-- The connection slot, as the next event finds it. -/
def State.view (s : State) (k fd : Nat) : World :=
  { s.world k fd with conn := settled ((s.workers k).conns fd) }

/-- **The condition on a step of the server**: the event of a client is
answered in full and finds room for the mail it ends; no post fails, and no
mail handler stops with a convertible mail in hand. -/
def Smooth (S : Setup) (s : State) : Label → Prop
  | .handle k fd ev _ => Delivers S.conf (s.view k fd) ev
  | .handler _ l => MailHandler.Harmless S.callees l
  | _ => True

/-- The history of a client whose events all met the condition, each with the
transaction it ended. -/
def SmoothHistory (conf : Config) (c : Client) (conn : Connection)
    (labels : List (Event × Option Bytes)) : Prop :=
  labels.map Prod.fst = c.events ∧ ∃ queue queue',
    Run (Guarded (fun w l => Delivers conf w l.1) (ObservedStep conf))
      ⟨connectionReset, queue, [], []⟩ labels ⟨settled conn, queue', c.sent, c.added⟩

/-- What is known of the client of `fd` after the steps `log`. -/
def Served (S : Setup) (s : State) (log : List Label) (k fd : Nat) : Prop :=
  (∃ labels, SmoothHistory S.conf (s.clients fd) ((s.workers k).conns fd) labels) ∧
    (s.clients fd).added.Sublist (log.flatMap (Label.enqueued k))

theorem SmoothHistory.fresh (conf : Config) (q : QueueFile Mail) {conn : Connection}
    (h : conn.status = .inactive) : SmoothHistory conf .fresh conn [] := by
  refine ⟨rfl, q, q, ?_⟩
  rw [settled_of_inactive h]
  exact .nil _

theorem SmoothHistory.between {conf : Config} {c : Client} {conn : Connection}
    {labels : List (Event × Option Bytes)} (h : SmoothHistory conf c conn labels) :
    Between (settled conn) := by
  obtain ⟨-, queue, queue', hrun⟩ := h
  exact hrun.invariant (P := fun w => Between w.conn)
    (fun _ _ _ hb hs => between_step hb hs.2.1) (.inl rfl)

theorem SmoothHistory.step {conf : Config} {c : Client} {conn : Connection} {q : QueueFile Mail}
    {ev : Event} {w : World} {labels : List (Event × Option Bytes)}
    (h : SmoothHistory conf c conn labels)
    (hok : Delivers conf ⟨settled conn, q, c.sent, c.added⟩ ev)
    (hstep : Server.Step conf ⟨conn, q, c.sent, c.added⟩ ev w) :
    ∃ labels, SmoothHistory conf
      { c with events := c.events ++ [ev], sent := w.sent, added := w.added } w.conn labels := by
  have hbetween := h.between
  obtain ⟨hevents, queue, queue', hrun⟩ := h
  have hstep : Server.Step conf ⟨settled conn, queue', c.sent, c.added⟩ ev w := step_settled hstep
  refine ⟨labels ++ [(ev, endedTransaction conf ⟨settled conn, queue', c.sent, c.added⟩ ev)],
    by simp [hevents], queue, w.queue, ?_⟩
  rw [settled_of_between (between_step hbetween hstep)]
  exact hrun.append (.single ⟨⟨hok.sends, hok.keeps⟩, hstep.observed⟩)

/-- A step that keeps the slot and what was sent and queued keeps the account. -/
theorem Served.keep {S : Setup} {s t : State} {log : List Label} {k fd : Nat} (l : Label)
    (h : Served S s log k fd) (hconn : (t.workers k).conns fd = (s.workers k).conns fd)
    (hevents : (t.clients fd).events = (s.clients fd).events)
    (hsent : (t.clients fd).sent = (s.clients fd).sent)
    (hadded : (t.clients fd).added = (s.clients fd).added) : Served S t (log ++ [l]) k fd := by
  obtain ⟨⟨labels, hhist⟩, hsub⟩ := h
  refine ⟨⟨labels, ?_⟩, ?_⟩
  · unfold SmoothHistory at hhist ⊢
    rw [hconn, hevents, hsent, hadded]
    exact hhist
  · rw [hadded, List.flatMap_append]
    exact hsub.trans (List.sublist_append_left _ _)

theorem served_fresh {S : Setup} {s : State} (log : List Label) {k fd : Nat}
    (hc : s.clients fd = .fresh) (hi : ((s.workers k).conns fd).status = .inactive) :
    Served S s log k fd := by
  unfold Served
  rw [hc]
  exact ⟨⟨[], .fresh _ (s.workers k).queue hi⟩, List.nil_sublist _⟩

theorem Served.step {S : Setup} {s t : State} {log : List Label} {l : Label} (hI : Inv S s)
    (h : ∀ k fd, S.workerMap[fd]? = some k → Served S s log k fd) (hok : Smooth S s l)
    (hstep : Step S s l t) : ∀ k fd, S.workerMap[fd]? = some k → Served S t (log ++ [l]) k fd := by
  intro k n hn
  cases hstep with
  | @accept fd j _ hfd _ _ =>
    by_cases hne : n = fd
    · subst hne
      exact served_fresh _ (Function.update_self ..) (hI.idle k n (hI.not_watched hfd k))
    · have hc : (s.afterAccept fd j).clients n = s.clients n := Function.update_of_ne hne ..
      exact (h k n hn).keep _ rfl (by rw [hc]) (by rw [hc]) (by rw [hc])
  | @greet fd j env w hm _ =>
    by_cases hne : n = fd
    · subst hne
      have hmaster := hI.master
      simp only [MasterInv, hm] at hmaster
      have hc : (s.afterGreet n j w).clients n = { Client.fresh with greeting := w.sent } :=
        Function.update_self ..
      exact (h k n hn).keep _ rfl (by rw [hc, hmaster.2.2]) (by rw [hc, hmaster.2.2])
        (by rw [hc, hmaster.2.2])
    · have hc : (s.afterGreet fd j w).clients n = s.clients n := Function.update_of_ne hne ..
      exact (h k n hn).keep _ rfl (by rw [hc]) (by rw [hc]) (by rw [hc])
  | register ok _ => exact (h k n hn).keep _ (by rw [afterRegister_conns]) rfl rfl rfl
  | wait _ _ _ _ _ => exact (h k n hn).keep _ (by rw [afterWait_conns]) rfl rfl rfl
  | handler _ _ _ => exact (h k n hn).keep _ (by rw [afterHandler_conns]) rfl rfl rfl
  | @handle j e rest ev w ms _ hevents _ _ hstep hms =>
    by_cases hne : n = e.fd
    · subst hne
      -- the descriptor's own worker handles it
      have hwatched := hI.watched j e.fd (hI.batch j e (by simp [hevents]))
      obtain rfl : j = k := Option.some.inj (hwatched.handed.mapped.symm.trans hn)
      obtain ⟨⟨labels, hhist⟩, hsub⟩ := h j e.fd hn
      have hc : (s.afterPass j e.fd rest ev w).clients e.fd = { s.clients e.fd with
          events := (s.clients e.fd).events ++ [ev], sent := w.sent, added := w.added } :=
        Function.update_self ..
      unfold Served
      rw [hc, afterPass_conns_self]
      refine ⟨hhist.step hok hstep, ?_⟩
      rw [hms, List.flatMap_append]
      exact hsub.append (by simp [Label.enqueued])
    · have hc : (s.afterPass j e.fd rest ev w).clients n = s.clients n :=
        Function.update_of_ne hne ..
      exact (h k n hn).keep _ (afterPass_conns_of_ne s (.inl hne)) (by rw [hc]) (by rw [hc])
        (by rw [hc])

/-- The mail handlers lose nothing: no post fails, and none of them stops with a
convertible mail in hand. -/
def HandlersHarmless (S : Setup) (_ : State) : Label → Prop
  | .handler _ l => MailHandler.Harmless S.callees l
  | _ => True

theorem HandlersHarmless.seenBy {S : Setup} {s : State} {l : Label} (h : HandlersHarmless S s l)
    (k : Nat) : ∀ l' ∈ l.seenBy k, MailHandler.Harmless S.callees l' := by
  intro l' hl'
  cases l with
  | handle j fd ev ms =>
    by_cases hj : j = k
    · simp only [Label.seenBy, hj, if_true, List.mem_map] at hl'
      obtain ⟨m, -, rfl⟩ := hl'
      trivial
    · simp [Label.seenBy, hj] at hl'
  | handler j l =>
    by_cases hj : j = k
    · obtain rfl : l' = l := by simpa [Label.seenBy, hj] using hl'
      exact h
    · simp [Label.seenBy, hj] at hl'
  | _ => simp [Label.seenBy] at hl'

end ComfirmDmarc.Server.Processes
