import Fion.Network.Server

/-!
# A stop during a start

A call of `stop` on a server that is running leaves nothing of it behind
(`tornDown_stop`), but `start` sets the flag before there is anything to tear down, and
does not look at it again.  So the rest of `start` runs after such a call as if nothing
had happened.  It leads to a server that listens or whose threads nobody joins, unless
`start` throws, and `stop` is behind it if nothing is left of `start`
(`tornDown_startAroundStop_iff`).
-/

namespace Fion.Network

/-- The step is about the pools or the accept thread. -/
def StartStep.OfPools : StartStep → Prop
  | .addPool | .startAll | .startAccept => True
  | .setFlag | .bind | .listen => False

namespace Server

/-- Nothing of the server is left: it does not listen, no thread loops or waits to be
joined, and destroying it is safe. -/
structure TornDown (s : Server) : Prop where
  running : s.running = false
  listener : s.listener.isListening = false
  pools : ∀ pool ∈ s.pools, pool = .none
  acceptThread : s.acceptThread = .none
  later : s.stop = s
  destroy : s.destroy.isSome = true

/-- What holds between two calls: a server that listens has a descriptor, and one that
is not running has been torn down. -/
structure Calm (s : Server) : Prop where
  descriptor : s.listener.isListening = true → 0 ≤ s.listener.listenFD
  idle : s.running = false → s.TornDown

/-! ## Stopping -/

theorem stop_of_running {s : Server} (h : s.running = true) : s.stop =
    { s with
      running := false
      listener := s.listener.close
      acceptThread := .none
      pools := s.pools.map fun _ => .none } := by
  simp [stop, h]

theorem stop_of_not_running {s : Server} (h : s.running = false) : s.stop = s := by
  simp [stop, h]

/-- Without threads that are left, destroying the server is safe. -/
theorem tornDown_of {s : Server} (hrunning : s.running = false)
    (hlistener : s.listener.isListening = false) (hpools : ∀ pool ∈ s.pools, pool = .none)
    (haccept : s.acceptThread = .none) : s.TornDown where
  running := hrunning
  listener := hlistener
  pools := hpools
  acceptThread := haccept
  later := stop_of_not_running hrunning
  destroy := by
    rw [Server.destroy, stop_of_not_running hrunning, haccept]
    rfl

/-- A call of `stop` on a running server leaves nothing behind. -/
theorem tornDown_stop {s : Server} (hrunning : s.running = true)
    (hfd : s.listener.isListening = true → 0 ≤ s.listener.listenFD) : s.stop.TornDown := by
  rw [stop_of_running hrunning]
  refine tornDown_of rfl (Listener.isListening_close hfd) ?_ rfl
  intro pool hpool
  obtain ⟨_, -, rfl⟩ := List.mem_map.mp hpool
  rfl

/-! ## Starting -/

section

variable {host : String} {port : UInt16} {calls : SocketCalls}

/-- The steps behind `listen`. -/
def poolSteps (numThreads : Nat) : List StartStep :=
  List.replicate numThreads .addPool ++ [.startAll, .startAccept]

theorem startSteps_eq (numThreads : Nat) :
    startSteps numThreads = .setFlag :: .bind :: .listen :: poolSteps numThreads := by
  simp [startSteps, poolSteps]

theorem ofPools_of_mem_poolSteps {numThreads : Nat} {step : StartStep}
    (h : step ∈ poolSteps numThreads) : step.OfPools := by
  rcases List.mem_append.mp h with hadd | hstart
  · rw [List.eq_of_mem_replicate hadd]
    trivial
  · rcases List.mem_pair.mp hstart with rfl | rfl <;> trivial

/-- The first steps leave the server with a listener that listens, or throw and only
leave a descriptor in it. -/
theorem performAll_bind_cases (host : String) (port : UInt16) (calls : SocketCalls)
    (s : Server) (steps : List StartStep) :
    ((calls.Bound host ∧ calls.listen = true) ∧
      s.performAll host port calls (.bind :: .listen :: steps) =
        (s.setListener { listenFD := calls.socket, isListening := true }).performAll
          host port calls steps) ∨
    ((¬ calls.Bound host ∨ calls.listen = false) ∧
      ∃ e, s.performAll host port calls (.bind :: .listen :: steps) =
        (s.setListener { s.listener with listenFD := calls.socket }, .error e)) := by
  by_cases hbound : calls.Bound host
  · have hbind := s.listener.bind_returns port hbound
    cases hlisten : calls.listen with
    | true =>
        refine .inl ⟨⟨hbound, rfl⟩, ?_⟩
        have hreturns := Listener.listen_returns
          ⟨calls.socket, s.listener.isListening⟩ hbound.socket hlisten
        simp only [performAll, perform, setListener, hbind, hreturns]
    | false =>
        obtain ⟨e, hthrows⟩ := Listener.listen_throws
          ⟨calls.socket, s.listener.isListening⟩ calls (.inr hlisten)
        refine .inr ⟨.inr rfl, e, ?_⟩
        simp only [performAll, perform, setListener, hbind, hthrows]
  · obtain ⟨e, hthrows⟩ := s.listener.bind_throws port hbound
    refine .inr ⟨.inl hbound, e, ?_⟩
    simp only [performAll, perform, hthrows]

/-- The steps about pools and the accept thread do not throw, and once there is an
accept thread there is one. -/
theorem performAll_ofPools (host : String) (port : UInt16) (calls : SocketCalls)
    {steps : List StartStep} (h : ∀ step ∈ steps, step.OfPools) (s : Server) :
    ∃ s', s.performAll host port calls steps = (s', .ok ()) ∧
      s'.running = s.running ∧ s'.listener = s.listener ∧
      (s.acceptThread ≠ .none ∨ .startAccept ∈ steps → s'.acceptThread ≠ .none) := by
  induction steps generalizing s with
  | nil => exact ⟨s, rfl, rfl, rfl, fun haccept => by simpa using haccept⟩
  | cons step steps ih =>
      have hsteps : ∀ step ∈ steps, step.OfPools := fun other hother =>
        h other (List.mem_cons_of_mem _ hother)
      cases step with
      | setFlag | bind | listen => exact (h _ List.mem_cons_self).elim
      | addPool =>
          obtain ⟨s', hrun, hrunning, hlistener, haccept⟩ :=
            ih hsteps { s with pools := s.pools ++ [.none] }
          exact ⟨s', hrun, hrunning, hlistener, fun hleft => haccept (by simpa using hleft)⟩
      | startAll =>
          obtain ⟨s', hrun, hrunning, hlistener, haccept⟩ :=
            ih hsteps { s with pools := s.pools.map fun _ => .looping }
          exact ⟨s', hrun, hrunning, hlistener, fun hleft => haccept (by simpa using hleft)⟩
      | startAccept =>
          obtain ⟨s', hrun, hrunning, hlistener, haccept⟩ :=
            ih hsteps { s with acceptThread := if s.running then .looping else .returned }
          refine ⟨s', hrun, hrunning, hlistener, fun _ => haccept (.inl ?_)⟩
          cases s.running <;> simp

/-- The first step of `start`, and what follows it. -/
theorem performAll_setFlag (s : Server) (steps : List StartStep) :
    s.performAll host port calls (.setFlag :: steps) =
      (s.setRunning true).performAll host port calls steps := rfl

/-! ## Between two calls -/

theorem calm_empty : ({} : Server).Calm where
  descriptor := fun h => by cases h
  idle := fun _ => tornDown_of rfl rfl (fun _ hpool => by cases hpool) rfl

/-- A call of `stop` keeps the server calm. -/
theorem Calm.stop {s : Server} (h : s.Calm) : s.stop.Calm := by
  cases hrunning : s.running with
  | false =>
      rw [stop_of_not_running hrunning]
      exact h
  | true =>
      have htorn := tornDown_stop hrunning h.descriptor
      refine ⟨fun hlistening => ?_, fun _ => htorn⟩
      rw [htorn.listener] at hlistening
      cases hlistening

/-- A call of `stop` during `start` leaves nothing behind when nothing listens yet. -/
theorem Calm.tornDown_stop {s : Server} (h : s.Calm) (hstopped : s.running = false) (fd : Int) :
    ((s.setRunning true).setListener { s.listener with listenFD := fd }).stop.TornDown :=
  Server.tornDown_stop rfl fun hlistening => by
    have hlistening' : s.listener.isListening = true := hlistening
    rw [(h.idle hstopped).listener] at hlistening'
    cases hlistening'

/-- So does a call of `start`, whether it returns or throws. -/
theorem Calm.start {s : Server} (h : s.Calm) (host : String) (port : UInt16)
    (calls : SocketCalls) (numThreads : Nat) : (s.start host port calls numThreads).1.Calm := by
  cases hrunning : s.running with
  | true =>
      rw [Server.start, if_pos hrunning]
      exact h
  | false =>
      rw [Server.start, if_neg (by rw [hrunning]; exact Bool.false_ne_true), startSteps_eq,
        performAll_setFlag]
      obtain ⟨⟨hbound, _⟩, heq⟩ | ⟨_, e, heq⟩ :=
        performAll_bind_cases host port calls (s.setRunning true) (poolSteps numThreads)
      · obtain ⟨s', hrun, hrunning', hlistener, -⟩ :=
          performAll_ofPools host port calls (fun _ hstep => ofPools_of_mem_poolSteps hstep)
            ((s.setRunning true).setListener { listenFD := calls.socket, isListening := true })
        rw [heq, hrun]
        refine ⟨fun _ => ?_, fun hstopped => ?_⟩
        · rw [hlistener]
          exact hbound.socket
        · rw [hrunning'] at hstopped
          cases hstopped
      · rw [heq]
        refine ⟨fun hlistening => ?_, fun hstopped => by cases hstopped⟩
        have hlistening' : s.listener.isListening = true := hlistening
        rw [(h.idle hrunning).listener] at hlistening'
        cases hlistening'

/-- Between two calls the server is calm. -/
theorem calm_afterCalls (history : List Call) : (afterCalls history).Calm := by
  suffices h : ∀ s : Server, s.Calm → (history.foldl call s).Calm from h _ calm_empty
  induction history with
  | nil => exact fun _ hs => hs
  | cons first history ih =>
      intro s hs
      cases first with
      | start host port calls numThreads => exact ih _ (hs.start host port calls numThreads)
      | stop => exact ih _ hs.stop

/-! ## A stop during a start -/

theorem startAroundStop_of_returns {s s' : Server} {before : List StartStep}
    (h : s.performAll host port calls before = (s', .ok ())) (after : List StartStep) :
    s.startAroundStop host port calls before after =
      s'.stop.performAll host port calls after := by
  rw [startAroundStop, h]

theorem startAroundStop_of_throws {s s' : Server} {before : List StartStep} {e : Cpp.Exn}
    (h : s.performAll host port calls before = (s', .error e)) (after : List StartStep) :
    s.startAroundStop host port calls before after = (s'.stop, .error e) := by
  rw [startAroundStop, h]

/-- The places at which `stop` can come: in front of `bind`, in front of `listen`, or
behind it. -/
theorem before_cases {numThreads : Nat} {before after : List StartStep}
    (hsteps : before ++ after = startSteps numThreads) (hbefore : before ≠ []) :
    (before = [.setFlag] ∧ after = .bind :: .listen :: poolSteps numThreads) ∨
      (before = [.setFlag, .bind] ∧ after = .listen :: poolSteps numThreads) ∨
      ∃ rest, before = .setFlag :: .bind :: .listen :: rest ∧
        rest ++ after = poolSteps numThreads := by
  rw [startSteps_eq] at hsteps
  match before with
  | [] => exact absurd rfl hbefore
  | [first] =>
      simp only [List.cons_append, List.nil_append, List.cons.injEq] at hsteps
      obtain ⟨rfl, hafter⟩ := hsteps
      exact .inl ⟨rfl, hafter⟩
  | [first, second] =>
      simp only [List.cons_append, List.nil_append, List.cons.injEq] at hsteps
      obtain ⟨rfl, rfl, hafter⟩ := hsteps
      exact .inr (.inl ⟨rfl, hafter⟩)
  | first :: second :: third :: rest =>
      simp only [List.cons_append, List.cons.injEq] at hsteps
      obtain ⟨rfl, rfl, rfl, hrest⟩ := hsteps
      exact .inr (.inr ⟨rest, rfl, hrest⟩)

/-- Whatever is left of `start` starts the accept thread. -/
theorem startAccept_mem {numThreads : Nat} {rest after : List StartStep}
    (h : rest ++ after = poolSteps numThreads) (hafter : after ≠ []) :
    .startAccept ∈ after := by
  obtain hnil | ⟨front, last, rfl⟩ := List.eq_nil_or_concat' after
  · exact absurd hnil hafter
  · have hpool : poolSteps numThreads =
        List.replicate numThreads .addPool ++ [.startAll] ++ [.startAccept] := by
      simp [poolSteps]
    rw [hpool, ← List.append_assoc] at h
    obtain ⟨-, hlast⟩ := List.append_inj' h rfl
    rw [hlast]
    exact List.mem_append_right _ (List.mem_singleton_self _)

/-- Behind the first step there is nothing to tear down: the server is torn down when
the rest of `start` throws, and when it does not, nobody joins its threads. -/
theorem tornDown_setFlag_iff {s : Server} (h : s.Calm) (numThreads : Nat) :
    (s.startAroundStop host port calls [.setFlag]
        (.bind :: .listen :: poolSteps numThreads)).1.TornDown ↔
      ¬ calls.Bound host ∨ calls.listen = false := by
  let s₁ := (s.setRunning true).stop
  have htorn : s₁.TornDown := tornDown_stop rfl h.descriptor
  have hperform : s.performAll host port calls [.setFlag] = (s.setRunning true, .ok ()) := rfl
  rw [startAroundStop_of_returns hperform]
  obtain ⟨⟨hbound, hlisten⟩, heq⟩ | ⟨hfails, e, heq⟩ :=
    performAll_bind_cases host port calls s₁ (poolSteps numThreads)
  · obtain ⟨s₂, hrun, -, -, haccept⟩ :=
      performAll_ofPools host port calls (fun _ hstep => ofPools_of_mem_poolSteps hstep)
        (s₁.setListener { listenFD := calls.socket, isListening := true })
    rw [heq, hrun, hlisten]
    refine iff_of_false (fun hdown => ?_) ?_
    · exact haccept (.inr (by simp [poolSteps])) hdown.acceptThread
    · simpa using hbound
  · rw [heq]
    exact iff_of_true
      (tornDown_of htorn.running htorn.listener htorn.pools htorn.acceptThread) hfails

/-- A call of `stop` between `bind` and `listen` closes the descriptor, and `listen`
throws. -/
theorem tornDown_bind {s : Server} (h : s.Calm) (hstopped : s.running = false)
    (numThreads : Nat) :
    (s.startAroundStop host port calls [.setFlag, .bind]
      (.listen :: poolSteps numThreads)).1.TornDown := by
  let s₁ := (s.setRunning true).setListener { s.listener with listenFD := calls.socket }
  have htorn : s₁.stop.TornDown := h.tornDown_stop hstopped calls.socket
  by_cases hbound : calls.Bound host
  · have hbind := s.listener.bind_returns port hbound
    have hperform : s.performAll host port calls [.setFlag, .bind] = (s₁, .ok ()) := by
      simp only [performAll, perform, setRunning, hbind]
      rfl
    obtain ⟨e, hthrows⟩ := s₁.stop.listener.listen_throws calls
      (.inl s₁.listener.listenFD_close)
    rw [startAroundStop_of_returns hperform]
    simp only [performAll, perform, hthrows]
    exact htorn
  · obtain ⟨e, hthrows⟩ := s.listener.bind_throws port hbound
    have hperform : s.performAll host port calls [.setFlag, .bind] = (s₁, .error e) := by
      simp only [performAll, perform, setRunning, hthrows]
      rfl
    rw [startAroundStop_of_throws hperform]
    exact htorn

/-- Behind `listen`, `stop` tears down everything that is there, but what is left of
`start` starts the accept thread. -/
theorem tornDown_listen_iff {s : Server} (h : s.Calm) (hstopped : s.running = false)
    {numThreads : Nat} {rest after : List StartStep}
    (hrest : rest ++ after = poolSteps numThreads) :
    (s.startAroundStop host port calls (.setFlag :: .bind :: .listen :: rest)
        after).1.TornDown ↔
      ¬ calls.Bound host ∨ calls.listen = false ∨ after = [] := by
  have hofPools : ∀ step ∈ rest ++ after, step.OfPools := fun step hstep =>
    ofPools_of_mem_poolSteps (hrest ▸ hstep)
  obtain ⟨⟨hbound, hlisten⟩, heq⟩ | ⟨hfails, e, heq⟩ :=
    performAll_bind_cases host port calls (s.setRunning true) rest
  · obtain ⟨s₁, hrun₁, hrunning, hlistener, -⟩ :=
      performAll_ofPools host port calls
        (fun step hstep => hofPools step (List.mem_append_left _ hstep))
        ((s.setRunning true).setListener { listenFD := calls.socket, isListening := true })
    obtain ⟨s₂, hrun₂, -, -, haccept⟩ :=
      performAll_ofPools host port calls
        (fun step hstep => hofPools step (List.mem_append_right _ hstep)) s₁.stop
    have htorn : s₁.stop.TornDown := tornDown_stop hrunning fun _ => by
      rw [hlistener]
      exact hbound.socket
    rw [startAroundStop_of_returns (by rw [performAll_setFlag, heq, hrun₁]), hrun₂]
    constructor
    · intro hdown
      refine .inr (.inr ?_)
      by_contra hafter
      exact haccept (.inr (startAccept_mem hrest hafter)) hdown.acceptThread
    · rintro (hnot | hfalse | rfl)
      · exact absurd hbound hnot
      · rw [hlisten] at hfalse
        cases hfalse
      · obtain rfl : s₁.stop = s₂ := congrArg Prod.fst hrun₂
        exact htorn
  · rw [startAroundStop_of_throws (by rw [performAll_setFlag, heq])]
    exact iff_of_true (h.tornDown_stop hstopped calls.socket)
      (hfails.imp_right fun hlisten => .inl hlisten)

/-- A server that is not running is started, with a call of `stop` between two steps of
`start` or behind the last one.  Then nothing of the server is left exactly when a
system call of `start` fails, when `stop` comes between `bind` and `listen`, or when it
comes behind the last step. -/
theorem tornDown_startAroundStop_iff {history : List Call} {s : Server}
    (hs : s = afterCalls history) (hstopped : s.running = false) {host : String}
    {port : UInt16} {calls : SocketCalls} {numThreads : Nat} {before after : List StartStep}
    (hsteps : before ++ after = startSteps numThreads) (hbefore : before ≠ []) :
    (s.startAroundStop host port calls before after).1.TornDown ↔
      ¬ calls.Bound host ∨ calls.listen = false ∨ before = [.setFlag, .bind] ∨
        after = [] := by
  have hcalm : s.Calm := hs ▸ calm_afterCalls history
  obtain ⟨rfl, rfl⟩ | ⟨rfl, rfl⟩ | ⟨rest, rfl, hrest⟩ := before_cases hsteps hbefore
  · rw [tornDown_setFlag_iff hcalm]
    simp
  · exact iff_of_true (tornDown_bind hcalm hstopped numThreads) (.inr (.inr (.inl rfl)))
  · rw [tornDown_listen_iff hcalm hstopped hrest]
    simp

/-- The program is interrupted between `bind` and `listen`. -/
theorem stopBeforeListen_tearsDown :
    (Server.startAroundStop "0.0.0.0" 8080 {} {} [.setFlag, .bind]
      (.listen :: poolSteps 4)).1.TornDown :=
  (tornDown_startAroundStop_iff (show ({} : Server) = afterCalls [] from rfl) rfl
    (startSteps_eq 4).symm (List.cons_ne_nil _ _)).mpr (.inr (.inr (.inl rfl)))

/-- The program is interrupted right behind the exchange: the flag is cleared, the server
listens, its pools loop, and destroying it ends the program. -/
theorem stopBehindExchange_leaves_threads :
    ∃ s, Server.startAroundStop "0.0.0.0" 8080 {} {} [.setFlag]
        (.bind :: .listen :: poolSteps 4) = (s, .ok ()) ∧
      s.running = false ∧ s.listener.isListening = true ∧
      s.pools = List.replicate 4 .looping ∧ s.acceptThread = .returned ∧
      s.destroy.isNone = true ∧ ¬ s.TornDown :=
  ⟨_, rfl, rfl, rfl, rfl, rfl, rfl, fun h => by cases h.listener⟩

end

end Server

end Fion.Network
