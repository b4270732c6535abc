import Fion.Network.EventBatch
import Fion.Network.Fleet

/-!
# The loops of a server

Each pool of a server has a thread that runs `EventLoop::run`.  It polls, calls the
callback of the pool for the events that the poller returned, one after the other, and
reads the flag of the loop before it polls again.  In the meantime the accept thread hands
connections to the pools, and some thread may clear a flag.

The steps of these threads come in any order.  A server with its loops refines the pools
of `Fleet`, where every call comes by itself (`refines_fleet`).  What had to be assumed
there is a fact here: the events of a batch that are still to be handled are for
descriptors that are registered with the pool, because nobody else takes them out.  No
callback throws, so no batch is cut short, and every event that a poller returned is
handled, in order (`events_handled`).
-/

namespace Fion.Network

open Cpp (Bytes Exn ascii)
open Machine (AlwaysStep Refines emitted)

variable {W : Type}

/-! ## One loop -/

/-- Where a thread is in `EventLoop::run`. -/
inductive LoopPoint where
  /-- In front of the exchange. -/
  | entered
  | polling
  /-- Behind the poll, with the events that the callback has not been called for yet.
  With none left, at the condition of the loop. -/
  | handling (rest : List PollerEventData)
  | returned

/-- An event loop and its thread.  `polled` and `called` are the events that the poller
returned and those that the callback was called for; no function reads them. -/
structure PoolLoop where
  running : Bool := false
  point : LoopPoint := .entered
  /-- The exceptions that were caught and logged. -/
  caught : List Exn := []
  polled : List PollerEventData := []
  called : List PollerEventData := []

namespace PoolLoop

/-- The events that are still to be handled. -/
def rest (l : PoolLoop) : List PollerEventData :=
  match l.point with
  | .handling rest => rest
  | .entered | .polling | .returned => []

/-- The exchange of `run`: a loop that runs already is not entered. -/
def exchange (l : PoolLoop) : PoolLoop :=
  if l.running then { l with point := .returned }
  else { l with running := true, point := .handling [] }

/-- The condition of the loop. -/
def load (l : PoolLoop) : PoolLoop :=
  if l.running then { l with point := .polling } else { l with point := .returned }

/-- `Poller::poll` has returned, or thrown what the loop catches. -/
def poll (l : PoolLoop) (wait : WaitResult) : PoolLoop :=
  match EventLoop.poll wait with
  | .ok events => { l with point := .handling events, polled := l.polled ++ events }
  | .error e => { l with point := .handling [], caught := l.caught ++ [e] }

/-- The callback for an event has returned.  When it throws, the rest of the batch is
lost. -/
def handled (l : PoolLoop) (event : PollerEventData) (rest : List PollerEventData)
    (result : Except Exn Unit) : PoolLoop :=
  match result with
  | .ok _ => { l with point := .handling rest, called := l.called ++ [event] }
  | .error e =>
      { l with
        point := .handling []
        called := l.called ++ [event]
        caught := l.caught ++ [e] }

/-- `stop`. -/
def stop (l : PoolLoop) : PoolLoop := { l with running := false }

/-- The exception is that of a poll that failed. -/
def PollFailed (e : Exn) : Prop := ∃ strerror, EventLoop.poll (.failed strerror) = .error e

/-- The loop has its events in hand: what was polled is handled or still to be handled, what
is still to be handled is for different descriptors that are registered, and nothing was
caught but failed polls. -/
structure InHand (l : PoolLoop) (poller : Poller) : Prop where
  events : l.polled = l.called ++ l.rest
  distinct : (l.rest.map PollerEventData.fd).Nodup
  registered : ∀ event ∈ l.rest, poller.Registered event.fd
  caught : ∀ e ∈ l.caught, PollFailed e

variable {l : PoolLoop} {poller poller' : Poller}

/-- With no event left there is little to show. -/
theorem inHand_of_rest_nil (hrest : l.rest = []) (hevents : l.polled = l.called)
    (hcaught : ∀ e ∈ l.caught, PollFailed e) : l.InHand poller where
  events := by rw [hrest, List.append_nil, hevents]
  distinct := by rw [hrest]; exact List.nodup_nil
  registered := by rw [hrest]; exact fun _ hmem => absurd hmem List.not_mem_nil
  caught := hcaught

/-- Events stay in hand while their descriptors stay registered. -/
theorem InHand.mono (h : l.InHand poller)
    (hregistered : ∀ event ∈ l.rest, poller.Registered event.fd → poller'.Registered event.fd) :
    l.InHand poller' where
  events := h.events
  distinct := h.distinct
  registered := fun event hmem => hregistered event hmem (h.registered event hmem)
  caught := h.caught

theorem InHand.called_of_rest_nil (h : l.InHand poller) (hrest : l.rest = []) :
    l.polled = l.called := by
  have hevents := h.events
  rwa [hrest, List.append_nil] at hevents

theorem InHand.exchange (h : l.InHand poller) (hpoint : l.point = .entered) :
    l.exchange.InHand poller := by
  have hevents := h.called_of_rest_nil (by rw [rest, hpoint])
  rw [PoolLoop.exchange]
  split <;> exact inHand_of_rest_nil rfl hevents h.caught

theorem InHand.load (h : l.InHand poller) (hpoint : l.point = .handling []) :
    l.load.InHand poller := by
  have hevents := h.called_of_rest_nil (by rw [rest, hpoint])
  rw [PoolLoop.load]
  split <;> exact inHand_of_rest_nil rfl hevents h.caught

/-- A poll that fails is caught, and one that is interrupted returns no events. -/
theorem InHand.poll (h : l.InHand poller) (hpoint : l.point = .polling) {wait : WaitResult}
    (hwait : ∀ events, wait = .ready events →
      (events.map PollerEventData.fd).Nodup ∧ ∀ event ∈ events, poller.Registered event.fd) :
    (l.poll wait).InHand poller := by
  have hevents := h.called_of_rest_nil (by rw [rest, hpoint])
  cases wait with
  | ready events =>
      obtain ⟨hdistinct, hregistered⟩ := hwait events rfl
      exact ⟨congrArg (· ++ events) hevents, hdistinct, hregistered, h.caught⟩
  | interrupted => exact inHand_of_rest_nil rfl ((List.append_nil _).trans hevents) h.caught
  | failed strerror =>
      refine inHand_of_rest_nil rfl hevents fun e hmem => ?_
      rcases List.mem_append.mp hmem with hmem | hmem
      · exact h.caught e hmem
      · obtain rfl := List.mem_singleton.mp hmem
        exact ⟨strerror, rfl⟩

/-- A callback that returns takes one event out of the batch.  It may take its own
descriptor out of the poller, which is not that of another event. -/
theorem InHand.handled (h : l.InHand poller) {event : PollerEventData}
    {rest : List PollerEventData} (hrest : l.rest = event :: rest)
    (hothers : ∀ fd, fd ≠ event.fd → poller.Registered fd → poller'.Registered fd) :
    (l.handled event rest (.ok ())).InHand poller' := by
  have hdistinct := h.distinct
  rw [hrest, List.map_cons, List.nodup_cons] at hdistinct
  refine ⟨?_, hdistinct.2, fun e hmem => ?_, h.caught⟩
  · show l.polled = l.called ++ [event] ++ rest
    rw [h.events, hrest, List.append_assoc, List.singleton_append]
  · refine hothers e.fd (fun heq => hdistinct.1 ?_)
      (h.registered e (by rw [hrest]; exact List.mem_cons_of_mem event hmem))
    rw [← heq]
    exact List.mem_map_of_mem hmem

end PoolLoop

/-! ## The server -/

/-- The pools of a server and their loops. -/
structure RunningServer (W : Type) (n : Nat) where
  fleet : Fleet W n
  loops : Fin n → PoolLoop := fun _ => {}

/-- A step of one of the threads. -/
inductive ServerStep (n : Nat) where
  /-- The accept thread has a new connection. -/
  | accept (fd : Fd)
  | exchange (pool : Fin n)
  | load (pool : Fin n)
  | poll (pool : Fin n) (wait : WaitResult)
  /-- The callback for the next event, with what `recv` and `send` return in it. -/
  | callback (pool : Fin n) (recv : RecvResult) (send : SendResult)
  | stop (pool : Fin n)

namespace RunningServer

variable {n : Nat}

/-- A server whose pools have just been started. -/
def start (w : W) : RunningServer W n where
  fleet := { world := w }

/-- A loop has taken a step by itself. -/
def setLoop (s : RunningServer W n) (i : Fin n) (l : PoolLoop) : RunningServer W n :=
  { s with loops := Function.update s.loops i l }

/-- The threads can take the step.  A poller returns descriptors that are registered with
it, each of them once. -/
def Admits (s : RunningServer W n) : ServerStep n → Prop
  | .accept fd => s.fleet.Admits (.distributeClient fd)
  | .exchange i => (s.loops i).point = .entered
  | .load i => (s.loops i).point = .handling []
  | .poll i wait => (s.loops i).point = .polling ∧ ∀ events, wait = .ready events →
      (events.map PollerEventData.fd).Nodup ∧
        ∀ event ∈ events, (s.fleet.members i).poller.Registered event.fd
  | .callback i _ _ => (s.loops i).rest ≠ []
  | .stop _ => True

/-- What a step asks of the pools. -/
def calls (s : RunningServer W n) : ServerStep n → List (Fleet.Input n)
  | .accept fd => [.distributeClient fd]
  | .callback i recv send =>
      match (s.loops i).rest with
      | [] => []
      | event :: _ => [.event i event.fd event.events recv send]
  | .exchange _ | .load _ | .poll .. | .stop _ => []

section Routed

variable (regex : RegexEngine) (routes : List (Route W))

/-- The server behind a step. -/
def next (s : RunningServer W n) : ServerStep n → RunningServer W n
  | .accept fd => { s with fleet := s.fleet.next regex routes (.distributeClient fd) }
  | .exchange i => s.setLoop i (s.loops i).exchange
  | .load i => s.setLoop i (s.loops i).load
  | .poll i wait => s.setLoop i ((s.loops i).poll wait)
  | .callback i recv send =>
      match (s.loops i).rest with
      | [] => s
      | event :: rest =>
          let handled := (s.fleet.pool i).handleClientEvent regex routes event.fd event.events
            recv send
          { s with fleet := s.fleet.put i handled.2 }.setLoop i
            ((s.loops i).handled event rest handled.1)
  | .stop i => s.setLoop i (s.loops i).stop

end Routed

/-! ## The calls by themselves -/

/-- The pools are those of the server, and every loop has its events in hand. -/
structure Shows (s : RunningServer W n) (f : Fleet W n) : Prop where
  fleet : s.fleet = f
  pool : ∃ p, f.Shows p
  loops : ∀ i, (s.loops i).InHand (f.members i).poller

variable {regex : RegexEngine} {routes : List (Route W)} {s : RunningServer W n} {f : Fleet W n}

theorem shows_start (w : W) : (start w : RunningServer W n).Shows { world := w } where
  fleet := rfl
  pool := ⟨_, Fleet.shows_start w⟩
  loops := fun _ => PoolLoop.inHand_of_rest_nil rfl rfl fun _ hmem => absurd hmem List.not_mem_nil

/-- The pools have changed, and one of the loops. -/
theorem shows_setLoop {i : Fin n} {l : PoolLoop} (hpool : ∃ p, f.Shows p)
    (hl : l.InHand (f.members i).poller)
    (hothers : ∀ j, j ≠ i → (s.loops j).InHand (f.members j).poller) :
    ({ s with fleet := f }.setLoop i l).Shows f := by
  refine ⟨rfl, hpool, fun j => ?_⟩
  by_cases hj : j = i
  · subst hj
    simpa [RunningServer.setLoop] using hl
  · simpa [RunningServer.setLoop, hj] using hothers j hj

/-- A loop takes a step by itself. -/
theorem Shows.setLoop (h : s.Shows f) {i : Fin n} {l : PoolLoop}
    (hl : l.InHand (f.members i).poller) : (s.setLoop i l).Shows f := by
  have hshows := shows_setLoop (s := s) h.pool hl fun j _ => h.loops j
  rwa [← h.fleet] at hshows ⊢

variable (regex routes) in
/-- A new connection goes to one of the pools, and no event is lost by it. -/
theorem Shows.accept (h : s.Shows f) (hn : 0 < n) {fd : Fd}
    (hadm : f.Admits (.distributeClient fd)) :
    (s.next regex routes (.accept fd)).Shows (f.next regex routes (.distributeClient fd)) := by
  obtain ⟨p, hp⟩ := h.pool
  refine ⟨by rw [← h.fleet]; rfl, ⟨_, (hp.distributeClient regex routes hn hadm).2⟩, fun i => ?_⟩
  exact (h.loops i).mono fun event _ =>
    Fleet.registered_distributeClient regex routes hp hn hadm i

variable (regex routes) in
/-- The callback for an event is the call of the pool, and returns. -/
theorem Shows.callback (h : s.Shows f) {i : Fin n} {event : PollerEventData}
    {rest : List PollerEventData} (hrest : (s.loops i).rest = event :: rest) (recv : RecvResult)
    (send : SendResult) :
    f.Admits (.event i event.fd event.events recv send) ∧
      (s.next regex routes (.callback i recv send)).Shows
        (f.next regex routes (.event i event.fd event.events recv send)) := by
  obtain ⟨p, hp⟩ := h.pool
  have hadm : (f.members i).poller.Registered event.fd :=
    (h.loops i).registered event (by rw [hrest]; exact List.mem_cons_self)
  refine ⟨hadm, ?_⟩
  obtain ⟨q, hcall, -⟩ := Pool.consistent_handleClientEvent regex routes (hp.consistent_pool i)
    event.fd event.events recv send
  have hnext : s.next regex routes (.callback i recv send) =
      { s with fleet := f.next regex routes (.event i event.fd event.events recv send) }.setLoop i
        ((s.loops i).handled event rest (.ok ())) := by
    simp only [next, hrest, h.fleet, hcall, Fleet.next, Pool.next]
  rw [hnext]
  refine shows_setLoop ⟨_, hp.event regex routes hadm _ _ _⟩ ?_ fun j hj => ?_
  · exact (h.loops i).handled hrest fun fd hne =>
      Fleet.registered_event regex routes hp i event.fd event.events recv send (.inr hne)
  · exact (h.loops j).mono fun e _ =>
      Fleet.registered_event regex routes hp i event.fd event.events recv send (.inl hj)

variable (regex routes) in
/-- Every step of the threads shows as the calls that it makes. -/
theorem refines_fleet (hn : 0 < n) :
    Refines (next regex routes) Admits (Fleet.next regex routes) Fleet.Admits
      (calls (W := W) (n := n)) Shows where
  step := by
    intro s f a h hadm
    cases a with
    | accept fd =>
        have hadm' : f.Admits (.distributeClient fd) := h.fleet ▸ hadm
        exact ⟨⟨hadm', trivial⟩, h.accept regex routes hn hadm'⟩
    | exchange i => exact ⟨trivial, h.setLoop ((h.loops i).exchange hadm)⟩
    | load i => exact ⟨trivial, h.setLoop ((h.loops i).load hadm)⟩
    | poll i wait =>
        refine ⟨trivial, h.setLoop ((h.loops i).poll hadm.1 ?_)⟩
        rw [← h.fleet]
        exact hadm.2
    | callback i recv send =>
        obtain ⟨event, rest, hrest⟩ := List.exists_cons_of_ne_nil hadm
        obtain ⟨hadm', hshows⟩ := h.callback regex routes hrest recv send
        simp only [calls, hrest]
        exact ⟨⟨hadm', trivial⟩, hshows⟩
    | stop i =>
        have hl := h.loops i
        exact ⟨trivial, h.setLoop ⟨hl.events, hl.distinct, hl.registered, hl.caught⟩⟩

/-! ## Runs -/

variable (regex routes) in
/-- What the steps of a run ask of the pools, as the only pool of a server gets it. -/
def poolCalls (s : RunningServer W n) (steps : List (ServerStep n)) : List Pool.Input :=
  (emitted (next regex routes) calls s steps).map Fleet.Input.forPool

/-- A run of the threads shows as a run of the pools, and that one as a run of one pool. -/
theorem shows_run (hn : 0 < n) (w : W) {steps : List (ServerStep n)}
    (hsteps : AlwaysStep (next regex routes) Admits (start w : RunningServer W n) steps) :
    let s := steps.foldl (next regex routes) (start w)
    let calls := poolCalls regex routes (start w) steps
    AlwaysStep (Pool.next regex routes) Pool.Admits ({ world := w } : Pool W) calls ∧
      s.Shows s.fleet ∧ s.fleet.Shows (calls.foldl (Pool.next regex routes) { world := w }) := by
  obtain ⟨hcalls, hshows⟩ := (refines_fleet regex routes hn).run (shows_start w) hsteps
  obtain ⟨hpool, hfleet⟩ := (Fleet.shows_start w).run hn hcalls
  have hsame := hshows.fleet
  rw [← hsame] at hshows hfleet
  exact ⟨hpool, hshows, hfleet⟩

/-- However many pools a server has, and however the steps of its threads are mixed: the
calls that they make, all made to one pool, can be made there, and leave the same state of
the user code and the same log.  Every connection of that pool is in exactly one of the
pools of the server. -/
theorem behaves_as_one (hn : 0 < n) (w : W) {steps : List (ServerStep n)}
    (hsteps : AlwaysStep (next regex routes) Admits (start w : RunningServer W n) steps) :
    let s := steps.foldl (next regex routes) (start w)
    let calls := poolCalls regex routes (start w) steps
    let p := calls.foldl (Pool.next regex routes) { world := w }
    AlwaysStep (Pool.next regex routes) Pool.Admits ({ world := w } : Pool W) calls ∧
      s.fleet.world = p.world ∧ s.fleet.log = p.log ∧
      (∀ fd client, p.connectionPool.getClient fd = some client ↔
        ∃ i, s.fleet.entry i fd = some client) ∧
      ∀ i j fd, s.fleet.entry i fd ≠ none → s.fleet.entry j fd ≠ none → i = j := by
  obtain ⟨hcalls, -, hfleet⟩ := shows_run hn w hsteps
  exact ⟨hcalls, hfleet.world, hfleet.log, fun fd client =>
    ⟨hfleet.found fd client, fun ⟨i, hi⟩ => hfleet.held i fd client hi⟩, hfleet.once⟩

/-- In every run of the threads each loop calls its callback exactly once for every event
that its poller returned, in order: those it has not called it for yet are in hand, and
are none when the loop has returned.  They are for different descriptors, which are still
registered with the pool and in its table.  No callback throws. -/
theorem events_handled (hn : 0 < n) (w : W) {steps : List (ServerStep n)}
    (hsteps : AlwaysStep (next regex routes) Admits (start w : RunningServer W n) steps) :
    let s := steps.foldl (next regex routes) (start w)
    ∀ i, (s.loops i).polled = (s.loops i).called ++ (s.loops i).rest ∧
      ((s.loops i).point = .returned → (s.loops i).polled = (s.loops i).called) ∧
      ((s.loops i).rest.map PollerEventData.fd).Nodup ∧
      (∀ event ∈ (s.loops i).rest, (s.fleet.members i).poller.Registered event.fd ∧
        (s.fleet.entry i event.fd).isSome) ∧
      ∀ e ∈ (s.loops i).caught, PoolLoop.PollFailed e := by
  intro s i
  obtain ⟨-, hshows, hfleet⟩ := shows_run hn w hsteps
  have hhand := hshows.loops i
  refine ⟨hhand.events, fun hreturned => hhand.called_of_rest_nil ?_, hhand.distinct,
    fun event hmem => ?_, hhand.caught⟩
  · rw [PoolLoop.rest, hreturned]
  · have hreg := hhand.registered event hmem
    exact ⟨hreg, (hfleet.key i event.fd).mpr hreg⟩

/-- Two connections, which two pools share.  The first loop has two polls, one of which
fails, and a connection is added between its events. -/
def twoLoops : List (ServerStep 2) :=
  [.exchange 0, .load 0, .accept 3, .poll 0 .interrupted, .load 0,
    .poll 0 (.ready [⟨3, PollerEvent.READ⟩]), .accept 4,
    .callback 0 (.received ⟨ascii "HEAD /a", by decide, by decide⟩) .wouldBlock, .load 0, .stop 0,
    .poll 0 (.failed "Bad file descriptor"), .load 0]

theorem twoLoops_admitted : AlwaysStep (next (fun _ => .ok fun _ => none) []) Admits
    (start () : RunningServer Unit 2) twoLoops := by
  refine ⟨rfl, rfl, ⟨by decide, by decide⟩, ⟨rfl, fun _ => nofun⟩, rfl, ⟨rfl, ?_⟩,
    ⟨by decide, by decide⟩, List.cons_ne_nil _ _, rfl, trivial, ⟨rfl, fun _ => nofun⟩, rfl,
    trivial⟩
  rintro events hevents
  obtain rfl := WaitResult.ready.inj hevents
  exact ⟨by decide, by decide⟩

theorem twoLoops_behave_as_one :
    (twoLoops.foldl (next (fun _ => .ok fun _ => none) []) (start ())).fleet.log =
      ((poolCalls (fun _ => .ok fun _ => none) [] (start ()) twoLoops).foldl
        (Pool.next (fun _ => .ok fun _ => none) []) ({ world := () } : Pool Unit)).log :=
  (behaves_as_one (by decide) () twoLoops_admitted).2.2.1

theorem twoLoops_events_handled :
    let s := twoLoops.foldl (next (fun _ => .ok fun _ => none) []) (start ())
    (s.loops 0).polled = (s.loops 0).called :=
  (events_handled (by decide) () twoLoops_admitted 0).2.1 rfl

end RunningServer

end Fion.Network
