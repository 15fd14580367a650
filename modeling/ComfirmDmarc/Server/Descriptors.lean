import ComfirmDmarc.Server.Processes
import ComfirmDmarc.Server.Delivery

/-!
# Server -- the descriptors of a run

Which process has which descriptor, in every interleaving: none is lost, none
is served by two workers, and a closed one leaves nothing behind that its next
owner could see. At the end, the list in which `epoll_wait` returns them.
-/

namespace ComfirmDmarc.Server.Processes

open CMemory Queue Transition

/-! ## A client comes -/

/-- A client came, was greeted and handed to its worker. -/
def State.afterArrival (S : Setup) (s : State) (fd k : Nat) : State where
  openFds := insert fd s.openFds
  master := .waiting
  workers := Function.update s.workers k
    { s.workers k with watched := insert fd (s.workers k).watched }
  clients := Function.update s.clients fd
    { Client.fresh with greeting := greetingText S.conf }

/-- What the master does with a client that comes while it waits. -/
theorem accept_client {S : Setup} {s : State} {fd k : Nat} (hm : s.master = .waiting)
    (hfd : fd ∉ s.openFds) (hlow : ∀ n < fd, n ∈ s.openFds) (hmap : S.workerMap[fd]? = some k)
    (env : Env) (hsend : ∀ i n, env.send i n = some n) :
    Run (Step S) s [.accept fd, .greet env, .register true] (s.afterArrival S fd k) := by
  have hgreet := greet_eq S.conf env (s.workers k).queue
  rw [sendResponse_all S.conf hsend] at hgreet
  have hstatus : (nextConnection env (requestInit env.requestMem) true).status ≠ .inactive := by
    simp [nextConnection, requestInit]
  generalize hw : (⟨_, _, _, _⟩ : World) = w at hgreet
  have hregister : Step S ((s.afterAccept fd k).afterGreet fd k w) (.register true)
      (((s.afterAccept fd k).afterGreet fd k w).afterRegister fd k true) := .register true rfl
  refine .cons (.accept hm hfd hlow hmap) (.cons (.greet rfl hgreet) (.single ?_))
  convert hregister using 1
  simp [State.afterArrival, State.afterRegister, State.afterGreet, State.afterAccept, closeIf,
    ← hw, hstatus]

/-- A peer that takes everything, and fresh memory of zero bytes. -/
def quietEnv : Env := ⟨none, [], sendAll, .zero, .zero, [0, 0]⟩

/-! ## A small server -/

theorem smallQueue_ringInv : RingInv 1 (smallQueue 0) := by
  constructor <;> decide

/-- A server with queues of one mail and no descriptors of its own. -/
def smallSetup (maxClients maxWorkers : Nat) (hpos : 0 < maxWorkers) : Setup where
  conf := .default
  maxClients := maxClients
  maxWorkers := maxWorkers
  queueSize := 1
  callees := MailHandler.acceptAll
  base := ∅
  maxWorkers_pos := hpos
  queueSize_fits := MailHandler.fits_one

/-- Its first state, with what the queues hold from before. -/
def idleServer (queue : QueueFile Mail) : State where
  openFds := ∅
  master := .waiting
  workers _ := ⟨fun _ => connectionReset, ∅, [], queue, .top⟩
  clients _ := .fresh

theorem idleServer_initial (maxClients maxWorkers : Nat) (hpos : 0 < maxWorkers)
    {queue : QueueFile Mail} (hqueue : RingInv 1 queue) :
    Initial (smallSetup maxClients maxWorkers hpos) (idleServer queue) where
  openFds := rfl
  master := rfl
  slots _ _ := rfl
  watched _ := rfl
  events _ := rfl
  ring _ := hqueue
  handler _ := rfl
  clients _ := rfl

/-- The first client came and there is something to read from it. -/
def readyServer (S : Setup) : State :=
  ((idleServer (smallQueue 0)).afterArrival S 0 0).afterWait 0 [⟨0, false⟩]

theorem readyServer_run (maxClients maxWorkers : Nat) (hclients : 0 < maxClients)
    (hpos : 0 < maxWorkers) :
    let S := smallSetup maxClients maxWorkers hpos
    Run (Step S) (idleServer (smallQueue 0)) [.accept 0, .greet quietEnv, .register true]
        ((idleServer (smallQueue 0)).afterArrival S 0 0) ∧
      Step S ((idleServer (smallQueue 0)).afterArrival S 0 0) (.wait 0 [⟨0, false⟩])
        (readyServer S) := by
  intro S
  have hmap : S.workerMap[0]? = some 0 := by
    have hlt : 0 < maxClients * 2 := by omega
    simp [S, smallSetup, Setup.workerMap, hlt]
  refine ⟨accept_client rfl (by simp [idleServer]) (by simp) hmap quietEnv fun _ _ => rfl, ?_⟩
  exact .wait hpos rfl hclients (by simp) (by simp [State.afterArrival])

theorem readyServer_world (S : Setup) : (readyServer S).world 0 0 = .closed := by
  simp [readyServer, State.world, State.afterWait, State.afterArrival, idleServer, Client.fresh,
    World.closed]

/-- The worker has handled it: the client sent a mail and the connection is
closed. -/
def servedServer (S : Setup) : State :=
  (readyServer S).afterPass 0 0 [] (readEvent shortMail (smallQueue 0))
    (World.closed.after .default (readEvent shortMail (smallQueue 0)))

theorem servedServer_step {maxClients maxWorkers : Nat} (hpos : 0 < maxWorkers) :
    let S := smallSetup maxClients maxWorkers hpos
    Step S (readyServer S) (.handle 0 0 (readEvent shortMail (smallQueue 0))
        (World.closed.after .default (readEvent shortMail (smallQueue 0))).added)
      (servedServer S) := by
  intro S
  have hstep : Server.Step S.conf ((readyServer S).world 0 0) (readEvent shortMail (smallQueue 0))
      (World.closed.after .default (readEvent shortMail (smallQueue 0))) := by
    rw [readyServer_world]
    show Server.Step .default _ _ _
    exact step_after (by decide +kernel)
  have hevents : ((readyServer S).workers 0).events = [⟨0, false⟩] := by
    simp [readyServer, State.afterWait]
  have hqueue : ((readyServer S).workers 0).queue = smallQueue 0 := by
    simp [readyServer, State.afterWait, State.afterArrival, idleServer]
  exact .handle hpos hevents rfl hqueue.symm hstep
    (by simp [readyServer, State.afterWait, State.afterArrival, Client.fresh])

theorem servedServer_run (maxClients maxWorkers : Nat) (hclients : 0 < maxClients)
    (hpos : 0 < maxWorkers) :
    let S := smallSetup maxClients maxWorkers hpos
    ∃ ls, Run (Step S) (idleServer (smallQueue 0)) ls (servedServer S) := by
  intro S
  obtain ⟨hrun, hwait⟩ := readyServer_run maxClients maxWorkers hclients hpos
  exact ⟨_, hrun.append (.cons hwait (.single (servedServer_step hpos)))⟩

/-! ## Descriptors -/

theorem Handed.lt {S : Setup} {fd k : Nat} (h : Handed S fd k) :
    fd < S.maxClients * 2 ∧ k = fd % S.maxWorkers := by
  obtain ⟨hlt, hk⟩ := List.getElem?_eq_some_iff.mp h.mapped
  simp only [Setup.workerMap, List.length_map, List.length_range, List.getElem_map,
    List.getElem_range] at hlt hk
  exact ⟨hlt, hk.symm⟩

/-- **A closed descriptor is forgotten everywhere**, and an open one belongs to
one worker: in every reachable state of the server, a descriptor that is not
open is watched by no worker, has no event left in any batch and an inactive
slot in every worker, so that a connection that reuses it starts afresh. A
watched descriptor was greeted and is watched by the worker of its remainder
alone, and no descriptor of the server itself is ever closed. -/
theorem descriptors_partitioned {S : Setup} {s t : State} {ls : List Label} (hs : Initial S s)
    (hrun : Run (Step S) s ls t) :
    S.base ⊆ t.openFds ∧
      (∀ fd ∉ t.openFds, ∀ k, fd ∉ (t.workers k).watched ∧
        (∀ e ∈ (t.workers k).events, e.fd ≠ fd) ∧
        ((t.workers k).conns fd).status = .inactive) ∧
      ∀ k, ∀ fd ∈ (t.workers k).watched, k = fd % S.maxWorkers ∧ fd < S.maxClients * 2 ∧
        fd ∉ S.base ∧ Greeted S.conf (t.clients fd).greeting := by
  have hI := hs.run_inv hrun
  refine ⟨hI.base, fun fd hfd k => ?_, fun k fd hfd => ?_⟩
  · have hnot := hI.not_watched hfd k
    refine ⟨hnot, fun e he heq => ?_, hI.idle k fd hnot⟩
    exact hnot (heq ▸ hI.batch k e he)
  · have hw := hI.watched k fd hfd
    exact ⟨hw.handed.lt.2, hw.handed.lt.1, hw.handed.notBase, hw.greeted⟩

theorem descriptors_partitioned_served :
    0 ∉ ((servedServer (smallSetup 1 1 (by decide))).workers 0).watched ∧
      (((servedServer (smallSetup 1 1 (by decide))).workers 0).conns 0).status = .inactive := by
  obtain ⟨ls, hrun⟩ := servedServer_run 1 1 (by decide) (by decide)
  have hclosed : 0 ∉ (servedServer (smallSetup 1 1 (by decide))).openFds := by
    have hconn : (World.closed.after .default
        (readEvent shortMail (smallQueue 0))).conn.status = .inactive := by decide +kernel
    simp [servedServer, State.afterPass, closeIf, hconn]
  obtain ⟨-, hforgotten, -⟩ :=
    descriptors_partitioned (idleServer_initial 1 1 (by decide) smallQueue_ringInv) hrun
  obtain ⟨hunwatched, -, hinactive⟩ := hforgotten 0 hclosed 0
  exact ⟨hunwatched, hinactive⟩

/-- An open descriptor is the server's own, or the master has it in hand, or a
worker watches it. -/
def Held (S : Setup) (s : State) : Prop :=
  ∀ fd ∈ s.openFds, fd ∈ S.base ∨ s.master.fd = some fd ∨ ∃ k, fd ∈ (s.workers k).watched

/-- No `epoll_ctl` fails on an open descriptor. -/
def Registers (_ : State) : Label → Prop
  | .register ok => ok = true
  | _ => True

theorem Held.step {S : Setup} {s t : State} {l : Label} (h : Held S s)
    (hok : Registers s l) (hstep : Step S s l t) : Held S t := by
  intro n hn
  cases hstep with
  | @accept fd k hm _ _ _ =>
    rcases Finset.mem_insert.mp hn with rfl | hold
    · exact .inr (.inl rfl)
    · rcases h n hold with hbase | hmaster | hwatched
      · exact .inl hbase
      · simp [hm, Master.fd] at hmaster
      · exact .inr (.inr hwatched)
  | @greet fd k env w hm _ =>
    have := h n (mem_closeIf.mp hn).1
    rw [hm] at this
    exact this
  | @register fd k ok hm =>
    rcases h n hn with hbase | hmaster | ⟨j, hj⟩
    · exact .inl hbase
    -- the master hands its descriptor to the worker
    · obtain rfl : fd = n := by simpa [hm, Master.fd] using hmaster
      exact .inr (.inr ⟨k, (mem_afterRegister_watched s).mpr (.inr ⟨rfl, rfl, hok, hn⟩)⟩)
    · exact .inr (.inr ⟨j, (mem_afterRegister_watched s).mpr (.inl hj)⟩)
  | wait _ _ _ _ _ =>
    simp only [afterWait_watched]
    exact h n hn
  | @handle k e rest ev w ms _ hevents _ _ _ _ =>
    obtain ⟨hopen, hkeep⟩ := mem_closeIf.mp hn
    rcases h n hopen with hbase | hmaster | ⟨j, hj⟩
    · exact .inl hbase
    · exact .inr (.inl hmaster)
    · exact .inr (.inr ⟨j, (mem_afterPass_watched s).mpr ⟨hj, fun heq _ => hkeep heq⟩⟩)
  | handler _ _ _ =>
    simp only [afterHandler_watched]
    exact h n hn

/-- **No descriptor leaks** in any interleaving in which no `epoll_ctl` fails:
every descriptor that is open is one of the server's own, or the one the master
is greeting, or the worker of its remainder watches it, and will hear of it. -/
theorem no_descriptor_leaks {S : Setup} {s t : State} {ls : List Label} (hs : Initial S s)
    (hrun : Run (Guarded Registers (Step S)) s ls t) {fd : Nat} (hfd : fd ∈ t.openFds) :
    fd ∈ S.base ∨ t.master.fd = some fd ∨ fd ∈ (t.workers (fd % S.maxWorkers)).watched := by
  obtain ⟨hI, hacc⟩ := hrun.invariant (P := fun s => Inv S s ∧ Held S s)
    (fun _ _ _ hP h => ⟨hP.1.step h.2, hP.2.step h.1 h.2⟩)
    ⟨hs.inv, fun fd hfd => .inl (hs.openFds ▸ hfd)⟩
  rcases hacc fd hfd with hbase | hmaster | ⟨k, hk⟩
  · exact .inl hbase
  · exact .inr (.inl hmaster)
  · obtain rfl := (hI.watched k fd hk).handed.lt.2
    exact .inr (.inr hk)

theorem no_descriptor_leaks_ready :
    0 ∈ ((readyServer (smallSetup 1 1 (by decide))).workers 0).watched := by
  obtain ⟨hrun, hwait⟩ := readyServer_run 1 1 (by decide) (by decide)
  have hall : Run (Guarded Registers (Step _)) _ _ _ :=
    (hrun.append (.single hwait)).guarded (by simp [Registers])
  have hopen : 0 ∈ (readyServer (smallSetup 1 1 (by decide))).openFds := Finset.mem_insert_self _ _
  rcases no_descriptor_leaks (idleServer_initial 1 1 (by decide) smallQueue_ringInv) hall hopen
    with hbase | hmaster | hwatched
  · simp [smallSetup] at hbase
  · simp [readyServer, State.afterWait, State.afterArrival, Master.fd] at hmaster
  · exact hwatched

/-! ## The event list

`events_create` allocates `max_clients` pointers for the list, where the kernel
stores the events themselves, of 12 bytes each. -/

def sizeofPointer : Nat := 8

def sizeofEpollEvent : Nat := 12

/-- The block that `events_create` allocates for the event list. -/
def eventsAlloc (S : Setup) : Nat := S.maxClients * sizeofPointer

/-- What `epoll_wait` stores into it. -/
def eventsStored (evs : List ReadyFd) : Nat := evs.length * sizeofEpollEvent

/-- A worker watches no more descriptors than its share of `worker_map`. -/
theorem Inv.card_watched_le {S : Setup} {s : State} (hI : Inv S s) (k : Nat) :
    (s.workers k).watched.card ≤ (S.maxClients * 2 + S.maxWorkers - 1) / S.maxWorkers := by
  have hpos := S.maxWorkers_pos
  rw [← Finset.card_range ((S.maxClients * 2 + S.maxWorkers - 1) / S.maxWorkers)]
  refine Finset.card_le_card_of_injOn (· / S.maxWorkers) ?_ ?_
  · intro fd hfd
    obtain ⟨hlt, -⟩ := (hI.watched k fd hfd).handed.lt
    show fd / S.maxWorkers ∈ _
    rw [Finset.mem_coe, Finset.mem_range, Nat.div_lt_iff_lt_mul hpos]
    have hceil := Nat.lt_div_mul_add hpos (a := S.maxClients * 2 + S.maxWorkers - 1)
    omega
  · -- two descriptors of one worker have the same remainder
    intro a ha b hb hab
    have hka := (hI.watched k a ha).handed.lt.2
    have hkb := (hI.watched k b hb).handed.lt.2
    have hab : a / S.maxWorkers = b / S.maxWorkers := hab
    rw [← Nat.div_add_mod a S.maxWorkers, ← Nat.div_add_mod b S.maxWorkers, ← hka, ← hkb, hab]

/-- **Enough workers keep the event list in bounds**: when the share of a
worker is at most two thirds of `max_clients`, no `epoll_wait` of any worker, in
any reachable state, stores beyond the block of the event list. -/
theorem events_fit {S : Setup} {s t u : State} {ls : List Label} {k : Nat} {evs : List ReadyFd}
    (hshare : 3 * ((S.maxClients * 2 + S.maxWorkers - 1) / S.maxWorkers) ≤ 2 * S.maxClients)
    (hs : Initial S s) (hrun : Run (Step S) s ls t) (hwait : Step S t (.wait k evs) u) :
    eventsStored evs ≤ eventsAlloc S := by
  have hcard := (hs.run_inv hrun).card_watched_le k
  cases hwait with
  | wait _ _ _ hnodup hevs =>
    have hlen : evs.length ≤ (t.workers k).watched.card := by
      have hsub : (evs.map ReadyFd.fd).toFinset ⊆ (t.workers k).watched := by
        intro fd hfd
        obtain ⟨e, he, rfl⟩ := List.mem_map.mp (List.mem_toFinset.mp hfd)
        exact hevs e he
      have := Finset.card_le_card hsub
      rwa [List.toFinset_card_of_nodup hnodup, List.length_map] at this
    simp only [eventsStored, eventsAlloc, sizeofEpollEvent, sizeofPointer]
    omega

theorem events_fit_three :
    eventsStored [⟨0, false⟩] ≤ eventsAlloc (smallSetup 3 3 (by decide)) := by
  obtain ⟨hrun, hwait⟩ := readyServer_run 3 3 (by decide) (by decide)
  exact events_fit (by decide) (idleServer_initial 3 3 (by decide) smallQueue_ringInv) hrun hwait

/-- One worker serves every client that comes, as long as `worker_map` has
room. -/
theorem clients_arrive {S : Setup} {s : State} (hs : Initial S s) (hone : S.maxWorkers = 1)
    {b : Nat} (hbase : S.base = Finset.range b) (n : Nat) (hn : b + n ≤ S.maxClients * 2) :
    ∃ ls t, Run (Step S) s ls t ∧ t.master = .waiting ∧ t.openFds = Finset.range (b + n) ∧
      (∀ fd, b ≤ fd → fd < b + n → fd ∈ (t.workers 0).watched) ∧ (t.workers 0).events = [] := by
  induction n with
  | zero =>
    exact ⟨[], s, .nil s, hs.master, by rw [hs.openFds, hbase]; rfl, fun fd h1 h2 => by omega,
      hs.events 0⟩
  | succ n ih =>
    obtain ⟨ls, t, hrun, hm, hopen, hwatched, hevents⟩ := ih (by omega)
    have hmap : S.workerMap[b + n]? = some 0 := by
      have hlt : b + n < S.maxClients * 2 := by omega
      simp [Setup.workerMap, hlt, hone, Nat.mod_one]
    have hnext := accept_client hm (by simp [hopen]) (fun m h => by simp [hopen, h]) hmap quietEnv
      fun _ _ => rfl
    refine ⟨_, _, hrun.append hnext, rfl, ?_, ?_, ?_⟩
    · simp only [State.afterArrival, hopen, ← Finset.range_add_one, Nat.add_assoc]
    · intro fd h1 h2
      simp only [State.afterArrival, Function.update_self, Finset.mem_insert]
      rcases Nat.lt_succ_iff_lt_or_eq.mp h2 with h | h
      · exact .inr (hwatched fd h1 h)
      · exact .inl h
    · simpa [State.afterArrival] using hevents

/-- **One worker overruns the event list**: with the default of one worker, and
with at most `max_clients` descriptors of its own, the server reaches a state in
which an `epoll_wait` stores beyond the block of the event list, whatever
`max_clients` is. -/
theorem events_overrun {S : Setup} {s : State} (hs : Initial S s) (hone : S.maxWorkers = 1)
    (hclients : 0 < S.maxClients) {b : Nat} (hbase : S.base = Finset.range b)
    (hb : b ≤ S.maxClients) :
    ∃ ls t evs u, Run (Step S) s ls t ∧ Step S t (.wait 0 evs) u ∧
      eventsAlloc S < eventsStored evs := by
  obtain ⟨ls, t, hrun, -, -, hwatched, hevents⟩ :=
    clients_arrive hs hone hbase S.maxClients (by omega)
  -- every client has something to read at once
  let evs : List ReadyFd := (List.range' b S.maxClients).map fun fd => ⟨fd, false⟩
  have hlen : evs.length = S.maxClients := by simp [evs]
  have hfds : evs.map ReadyFd.fd = List.range' b S.maxClients := by simp [evs, Function.comp_def]
  refine ⟨ls, t, evs, t.afterWait 0 evs, hrun, .wait (by omega) hevents hlen.le ?_ ?_, ?_⟩
  · rw [hfds]
    exact List.nodup_range'
  · intro e he
    have hmem : e.fd ∈ List.range' b S.maxClients := hfds ▸ List.mem_map_of_mem he
    obtain ⟨h1, h2⟩ := List.mem_range'_1.mp hmem
    exact hwatched e.fd h1 h2
  · simp only [eventsAlloc, eventsStored, hlen, sizeofPointer, sizeofEpollEvent]
    omega

theorem events_overrun_one :
    ∃ ls t evs u, Run (Step (smallSetup 1 1 (by decide))) (idleServer (smallQueue 0)) ls t ∧
      Step (smallSetup 1 1 (by decide)) t (.wait 0 evs) u ∧
      eventsAlloc (smallSetup 1 1 (by decide)) < eventsStored evs :=
  events_overrun (idleServer_initial 1 1 (by decide) smallQueue_ringInv) rfl (by decide) (b := 0)
    rfl (by decide)

end ComfirmDmarc.Server.Processes
