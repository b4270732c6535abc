import Fion.Network.Outcome
import Fion.Network.PollerBackends
import Fion.Network.EdgeTriggered

/-!
# Peers that have sent everything

A peer that has sent its request may close its direction of the connection and wait for the
answer.  Once what is queued is read, `recv` then reports the end of the data.

The two back ends do not announce this alike.  On epoll the end of the data makes the socket
readable and nothing else, since `addFD` does not ask for `EPOLLRDHUP`.  On kqueue the event
of the read filter has `EV_EOF` set from then on, also while there is data before the end,
and `poll` makes a hangup of it, which `handle_client_event` looks at first.

So a connection is closed without an answer when an event for it reports a hangup or finds
nothing to read, and not otherwise (`answered_iff_receives`).  On kqueue this loses all that
the peer has sent and that was not reported before it finished (`finished_unanswered`).
-/

namespace Fion.Network

open Cpp (Bytes Exn ascii)
open Machine (Always AlwaysStep)

variable {W : Type}

/-! ## What is reported -/

/-- `struct kevent`, as `kevent` returns it. -/
structure Kevent where
  ident : Fd
  filter : Filter
  error : Bool
  eof : Bool

/-- What `poll` makes of an event of kqueue. -/
def Kevent.eventData (e : Kevent) : Fd × EventMask :=
  (e.ident,
    { read := e.filter matches .read
      write := e.filter matches .write
      error := e.error
      hangup := e.eof })

/-- What a peer has sent that was not read yet, and whether it has sent everything. -/
structure Stream where
  queue : Bytes := []
  finished : Bool := false

/-- `recv` on a non-blocking socket. -/
def Stream.recv (s : Stream) : RecvResult :=
  if s.queue = [] ∧ s.finished = true then .closed else recvFrom s.queue

inductive Backend where
  | epoll
  | kqueue
deriving DecidableEq

/-- What `poll` reports of a stream. -/
def Backend.report : Backend → Fd → Stream → Fd × EventMask
  | .epoll, fd, _ => (fd, { read := true })
  | .kqueue, fd, s =>
      Kevent.eventData { ident := fd, filter := .read, error := false, eof := s.finished }

/-- Only reading is reported, with a hangup or not. -/
theorem Backend.report_snd (b : Backend) (fd : Fd) (s : Stream) :
    (b.report fd s).2 = { read := true, hangup := (b.report fd s).2.hangup } := by
  cases b <;> rfl

/-- The flags that the pool tests are set in the mask of one back end when they are set in
the mask of the other. -/
theorem EventMask.tested_alike (m : EventMask) :
    (m.epoll &&& (PollerEvent.ERROR ||| PollerEvent.HANGUP) = 0 ↔
      m.kqueue &&& (KqueueEvent.ERROR ||| KqueueEvent.HANGUP) = 0) ∧
    (m.epoll &&& PollerEvent.READ = 0 ↔ m.kqueue &&& KqueueEvent.READ = 0) := by
  rcases m with ⟨read, write, error, hangup, edgeTriggered⟩
  cases read <;> cases write <;> cases error <;> cases hangup <;> cases edgeTriggered <;> decide

/-- What was reported for reading is broken when it reports a hangup. -/
theorem broken_read_iff (hangup : Bool) :
    Broken { read := true, hangup := hangup : EventMask }.epoll ↔ hangup = true := by
  cases hangup <;> decide

/-! ## A pool and its peers -/

/-- A pool with what its peers have sent.  `batch` is what `poll` returned and the loop has
not handled yet. -/
structure Peers (W : Type) where
  pool : Pool W
  streams : Fd → Stream := fun _ => {}
  batch : List (Fd × EventMask) := []

/-- What can happen. -/
inductive PeerInput where
  /-- A connection is added, with the bytes that arrived before. -/
  | connect (fd : Fd) (data : Bytes)
  | arrive (fd : Fd) (data : Bytes)
  /-- The peer closes its direction. -/
  | finish (fd : Fd)
  /-- `poll` returns. -/
  | wait (fds : List Fd)
  /-- The loop handles the next event it was given. -/
  | handle (send : SendResult)

namespace Peers

/-- The events of a `poll` are handled before the next one. -/
def Admits (s : Peers W) : PeerInput → Prop
  | .connect fd _ => s.pool.Admits (.addClient fd)
  | .arrive fd _ => (s.streams fd).finished = false
  | .finish _ => True
  | .wait _ => s.batch = []
  | .handle _ => True

/-- Replace one stream. -/
def setStream (s : Peers W) (fd : Fd) (stream : Stream) : Peers W :=
  { s with streams := Function.update s.streams fd stream }

variable (regex : RegexEngine) (routes : List (Route W)) (b : Backend)

/-- The callback for one event. -/
def callback (s : Peers W) (fd : Fd) (mask : EventMask) (send : SendResult) :
    Except Exn Unit × Pool W :=
  s.pool.handleClientEvent regex routes fd mask.epoll (s.streams fd).recv send

/-- The callback reads the stream of the event. -/
def reads (s : Peers W) (fd : Fd) (mask : EventMask) : Bool :=
  (s.pool.connectionPool.getClient fd).isSome && !mask.error && !mask.hangup && mask.read

/-- One event of the loop.  An exception ends the batch. -/
def handleEvent (s : Peers W) (fd : Fd) (mask : EventMask) (rest : List (Fd × EventMask))
    (send : SendResult) : Peers W where
  pool := (s.callback regex routes fd mask send).2
  streams := Function.update s.streams fd
    { s.streams fd with
      queue :=
        if s.reads fd mask then (s.streams fd).queue.drop recvCapacity
        else (s.streams fd).queue }
  batch :=
    match (s.callback regex routes fd mask send).1 with
    | .ok _ => rest
    | .error _ => []

/-- The next state. -/
def next (s : Peers W) : PeerInput → Peers W
  | .connect fd data =>
      { s with pool := s.pool.next regex routes (.addClient fd) }.setStream fd { queue := data }
  | .arrive fd data =>
      s.setStream fd { s.streams fd with queue := (s.streams fd).queue ++ data }
  | .finish fd => s.setStream fd { s.streams fd with finished := true }
  | .wait fds => { s with batch := fds.map fun fd => b.report fd (s.streams fd) }
  | .handle send =>
      match s.batch with
      | [] => s
      | (fd, mask) :: rest => s.handleEvent regex routes fd mask rest send

/-- A new pool without connections. -/
def start (w : W) : Peers W := { pool := { world := w } }

/-- The event that is handled next, if it is for a connection, reports no hangup and finds
something to read. -/
def Receives (s : Peers W) : PeerInput → Prop
  | .handle _ => ∀ fd mask rest client, s.batch = (fd, mask) :: rest →
      s.pool.connectionPool.getClient fd = some client →
      mask.hangup = false ∧ (s.streams fd).queue ≠ []
  | .connect .. | .arrive .. | .finish _ | .wait _ => True

/-- A connection that was closed was answered before. -/
def AnsweredBeforeClosed (s : Peers W) : Prop := Pool.ClosesAnswered s.pool.log

/-- The pool is consistent, and what was reported are read events. -/
structure Inv (s : Peers W) : Prop where
  pool : s.pool.Consistent
  reported : ∀ e ∈ s.batch, e.2 = { read := true, hangup := e.2.hangup }

variable {regex routes b}

theorem inv_start (w : W) : (start w).Inv :=
  ⟨Pool.consistent_start w, fun _ hmem => absurd hmem List.not_mem_nil⟩

theorem next_handle_nil {s : Peers W} (hbatch : s.batch = []) (send : SendResult) :
    s.next regex routes b (.handle send) = s := by
  simp only [next, hbatch]

theorem next_handle_cons {s : Peers W} {fd : Fd} {mask : EventMask}
    {rest : List (Fd × EventMask)} (hbatch : s.batch = (fd, mask) :: rest) (send : SendResult) :
    s.next regex routes b (.handle send) = s.handleEvent regex routes fd mask rest send := by
  simp only [next, hbatch]

variable (regex routes) in
/-- Handling an event leaves its outcome in the pool, and goes on with the others. -/
theorem handleEvent_of_some {s : Peers W} (h : s.Inv) {fd : Fd} {client : Client}
    (hget : s.pool.connectionPool.getClient fd = some client) (mask : EventMask)
    (rest : List (Fd × EventMask)) (send : SendResult) :
    (s.handleEvent regex routes fd mask rest send).pool = s.pool.settle fd
        (outcome regex routes fd client s.pool.world mask.epoll (s.streams fd).recv send) ∧
      (s.handleEvent regex routes fd mask rest send).batch = rest := by
  have heq := Pool.handleClientEvent_eq regex routes (h.pool.holds hget) mask.epoll
    (s.streams fd).recv send
  exact ⟨congrArg Prod.snd heq, by simp only [handleEvent, callback, heq]⟩

variable (regex routes) in
/-- An event for no connection changes nothing. -/
theorem handleEvent_of_none {s : Peers W} {fd : Fd}
    (hget : s.pool.connectionPool.getClient fd = none) (mask : EventMask)
    (rest : List (Fd × EventMask)) (send : SendResult) :
    (s.handleEvent regex routes fd mask rest send).pool = s.pool ∧
      (s.handleEvent regex routes fd mask rest send).batch = rest := by
  have heq := Pool.handleClientEvent_unknown regex routes hget mask.epoll (s.streams fd).recv send
  exact ⟨congrArg Prod.snd heq, by simp only [handleEvent, callback, heq]⟩

/-- Every step keeps the invariant. -/
theorem inv_next {s : Peers W} (h : s.Inv) {input : PeerInput} (hadm : s.Admits input) :
    (s.next regex routes b input).Inv := by
  cases input with
  | connect fd data =>
      have hpool : (s.pool.next regex routes (.addClient fd)).Consistent :=
        Pool.consistent_next regex routes h.pool hadm
      exact ⟨hpool, h.reported⟩
  | arrive fd data => exact ⟨h.pool, h.reported⟩
  | finish fd => exact ⟨h.pool, h.reported⟩
  | wait fds =>
      refine ⟨h.pool, fun e hmem => ?_⟩
      obtain ⟨fd, -, rfl⟩ := List.mem_map.mp hmem
      exact b.report_snd fd (s.streams fd)
  | handle send =>
      cases hbatch : s.batch with
      | nil =>
          rw [next_handle_nil hbatch]
          exact h
      | cons e rest =>
          have hrest : ∀ e ∈ rest, e.2 = { read := true, hangup := e.2.hangup } := fun e hmem =>
            h.reported e (by rw [hbatch]; exact List.mem_cons_of_mem _ hmem)
          have hpool : (s.pool.next regex routes (.event e.1 e.2.epoll (s.streams e.1).recv
              send)).Consistent := Pool.consistent_next regex routes h.pool trivial
          rw [next_handle_cons hbatch]
          refine ⟨hpool, ?_⟩
          cases hget : s.pool.connectionPool.getClient e.1 with
          | none =>
              rw [(handleEvent_of_none regex routes hget e.2 rest send).2]
              exact hrest
          | some client =>
              rw [(handleEvent_of_some regex routes h hget e.2 rest send).2]
              exact hrest

/-! ## Closed without an answer -/

/-- `recv` has data exactly when some is queued. -/
theorem recv_received_iff (s : Stream) :
    (∃ chunk, s.recv = .received chunk) ↔ s.queue ≠ [] := by
  constructor
  · rintro ⟨chunk, hrecv⟩ hempty
    rw [Stream.recv, hempty, recvFrom_nil] at hrecv
    split at hrecv <;> cases hrecv
  · intro hqueue
    obtain ⟨chunk, hrecv, -⟩ := exists_recvFrom hqueue
    exact ⟨chunk, by rw [Stream.recv, if_neg fun h => hqueue h.1, hrecv]⟩

/-- A step closes no connection without an answer exactly when the event that it handles
reports no hangup and finds something to read. -/
theorem answeredBeforeClosed_next_iff {s : Peers W} (hs : s.Inv) {input : PeerInput}
    (hadm : s.Admits input) (h : s.AnsweredBeforeClosed) :
    (s.next regex routes b input).AnsweredBeforeClosed ↔ s.Receives input := by
  cases input with
  | connect fd data =>
      have hpool : (s.next regex routes b (.connect fd data)).pool = s.pool.enroll fd :=
        congrArg Prod.snd (Pool.addClient_of_new hadm.1 hadm.2 (hs.pool.not_registered hadm.2))
      rw [AnsweredBeforeClosed, hpool]
      exact iff_of_true (Pool.closesAnswered_enroll h fd) trivial
  | arrive | finish | wait => exact iff_of_true h trivial
  | handle send =>
      cases hbatch : s.batch with
      | nil =>
          rw [next_handle_nil hbatch]
          exact iff_of_true h fun fd mask rest client hcons => by rw [hbatch] at hcons; cases hcons
      | cons e rest =>
          obtain ⟨fd, mask⟩ := e
          have hmask : mask = { read := true, hangup := mask.hangup } :=
            hs.reported (fd, mask) (by rw [hbatch]; exact List.mem_cons_self)
          have hreceives : s.Receives (.handle send) ↔ ∀ client,
              s.pool.connectionPool.getClient fd = some client →
                mask.hangup = false ∧ (s.streams fd).queue ≠ [] := by
            constructor
            · exact fun hall client => hall fd mask rest client hbatch
            · intro hall fd' mask' rest' client hcons
              obtain ⟨heq, -⟩ := List.cons_eq_cons.mp (hbatch.symm.trans hcons)
              obtain ⟨rfl, rfl⟩ := Prod.mk.inj heq
              exact hall client
          rw [next_handle_cons hbatch, hreceives]
          cases hget : s.pool.connectionPool.getClient fd with
          | none =>
              rw [AnsweredBeforeClosed, (handleEvent_of_none regex routes hget mask rest send).1]
              exact iff_of_true h nofun
          | some client =>
              have hreading := (hs.pool fd).reading client hget
              have hread : mask.epoll &&& PollerEvent.READ ≠ 0 := by
                rw [hmask]
                cases mask.hangup <;> decide
              rw [AnsweredBeforeClosed,
                (handleEvent_of_some regex routes hs hget mask rest send).1,
                Pool.closesAnswered_settle_iff hreading h, hmask, broken_read_iff, ← hmask,
                Bool.not_eq_true]
              constructor
              · rintro ⟨hopen, hdata⟩ _ _
                exact ⟨hopen, (recv_received_iff _).mp (hdata hread)⟩
              · intro hall
                obtain ⟨hopen, hqueue⟩ := hall client rfl
                exact ⟨hopen, fun _ => (recv_received_iff _).mpr hqueue⟩

/-- On both back ends, and whatever the peers send and when they finish: all along a run
every connection that is closed was answered exactly when each event handled for a
connection reports no hangup and finds something to read. -/
theorem answered_iff_receives (w : W) {inputs : List PeerInput}
    (hadm : AlwaysStep (next regex routes b) Admits (start w) inputs) :
    Always (next regex routes b) AnsweredBeforeClosed (start w) inputs ↔
      AlwaysStep (next regex routes b) Receives (start w) inputs :=
  Machine.always_iff (fun _ _ hs hinput => inv_next hs hinput)
    (fun _ _ hs hinput h => answeredBeforeClosed_next_iff hs hinput h) (inv_start w)
    (fun _ hmem => absurd hmem List.not_mem_nil) hadm

/-- A peer sends its request and closes its direction. -/
def requestAndFinish : List PeerInput :=
  [.connect 3 (ascii "GET /a HTTP/1.1\r\n\r\n"), .finish 3, .wait [3], .handle (.accepted 9)]

theorem requestAndFinish_admitted (b : Backend) :
    AlwaysStep (next (fun _ => .ok fun _ => none) [] b) Admits (start ()) requestAndFinish :=
  ⟨⟨by decide, rfl⟩, trivial, rfl, trivial, trivial⟩

/-- On epoll it is answered. -/
theorem requestAndFinish_answered :
    Always (next (fun _ => .ok fun _ => none) [] .epoll) AnsweredBeforeClosed (start ())
      requestAndFinish := by
  rw [answered_iff_receives () (requestAndFinish_admitted .epoll)]
  refine ⟨trivial, trivial, trivial, fun fd mask rest client hbatch _ => ?_, trivial⟩
  obtain ⟨heq, -⟩ := List.cons_eq_cons.mp hbatch
  obtain ⟨rfl, rfl⟩ := Prod.mk.inj heq
  exact ⟨rfl, by decide⟩

/-! ## What kqueue loses -/

/-- The peer has sent everything, what is reported of it from now on is a hangup, and
nothing was processed for it. -/
structure CutOff (fd : Fd) (s : Peers W) : Prop where
  inv : s.Inv
  finished : (s.streams fd).finished = true
  hangup : ∀ mask, (fd, mask) ∈ s.batch → mask.hangup = true
  unprocessed : ∀ request, .processed fd request ∉ history s.pool.log fd

/-- A step that adds no connection under a descriptor. -/
def Leaves (fd : Fd) : PeerInput → Prop
  | .connect fd' _ => fd' ≠ fd
  | .arrive .. | .finish _ | .wait _ | .handle _ => True

/-- The streams keep their ends. -/
theorem finished_next {s : Peers W} {fd : Fd} (h : (s.streams fd).finished = true)
    {input : PeerInput} (hleaves : Leaves fd input) :
    ((s.next regex routes b input).streams fd).finished = true := by
  have hother : ∀ fd' stream, fd ≠ fd' → ((s.setStream fd' stream).streams fd).finished = true :=
    fun fd' stream hne => by simpa [setStream, hne] using h
  cases input with
  | connect fd' data => exact hother fd' _ (Ne.symm hleaves)
  | arrive fd' data =>
      by_cases hfd : fd = fd'
      · subst hfd
        simpa [next, setStream] using h
      · exact hother fd' _ hfd
  | finish fd' =>
      by_cases hfd : fd = fd'
      · subst hfd
        simp [next, setStream]
      · exact hother fd' _ hfd
  | wait fds => exact h
  | handle send =>
      cases hbatch : s.batch with
      | nil =>
          rw [next_handle_nil hbatch]
          exact h
      | cons e rest =>
          rw [next_handle_cons hbatch]
          by_cases hfd : fd = e.1
          · subst hfd
            simpa [handleEvent] using h
          · simpa [handleEvent, hfd] using h

/-- On kqueue it stays so. -/
theorem CutOff.step {s : Peers W} {fd : Fd} (h : CutOff fd s) {input : PeerInput}
    (hadm : s.Admits input) (hleaves : Leaves fd input) :
    CutOff fd (s.next regex routes .kqueue input) := by
  have hinv : (s.next regex routes .kqueue input).Inv := inv_next h.inv hadm
  have hfinished : ((s.next regex routes .kqueue input).streams fd).finished = true :=
    finished_next h.finished hleaves
  cases input with
  | connect fd' data =>
      have hne : fd' ≠ fd := hleaves
      have hpool : (s.next regex routes .kqueue (.connect fd' data)).pool = s.pool.enroll fd' :=
        congrArg Prod.snd (Pool.addClient_of_new hadm.1 hadm.2 (h.inv.pool.not_registered hadm.2))
      have hsame : history (s.pool.enroll fd').log fd = history s.pool.log fd :=
        history_append_of_ne (by simpa [Event.fd] using hne) _
      refine ⟨hinv, hfinished, h.hangup, ?_⟩
      rw [hpool, hsame]
      exact h.unprocessed
  | arrive | finish => exact ⟨hinv, hfinished, h.hangup, h.unprocessed⟩
  | wait fds =>
      refine ⟨hinv, hfinished, fun mask hmem => ?_, h.unprocessed⟩
      obtain ⟨fd', -, heq⟩ := List.mem_map.mp hmem
      obtain ⟨rfl, rfl⟩ := Prod.mk.inj heq
      exact h.finished
  | handle send =>
      cases hbatch : s.batch with
      | nil =>
          rw [next_handle_nil hbatch]
          exact h
      | cons e rest =>
          obtain ⟨fd', mask⟩ := e
          have hrest : ∀ mask', (fd, mask') ∈ rest → mask'.hangup = true := fun mask' hmem =>
            h.hangup mask' (by rw [hbatch]; exact List.mem_cons_of_mem _ hmem)
          rw [next_handle_cons hbatch] at hinv hfinished ⊢
          cases hget : s.pool.connectionPool.getClient fd' with
          | none =>
              obtain ⟨hpool, hleft⟩ := handleEvent_of_none regex routes hget mask rest send
              refine ⟨hinv, hfinished, by rw [hleft]; exact hrest, ?_⟩
              rw [hpool]
              exact h.unprocessed
          | some client =>
              obtain ⟨hpool, hleft⟩ :=
                handleEvent_of_some regex routes h.inv hget mask rest send
              refine ⟨hinv, hfinished, by rw [hleft]; exact hrest, fun request hmem => ?_⟩
              rw [hpool] at hmem
              by_cases hfd : fd = fd'
              · subst hfd
                -- the callback looks at the hangup first
                have hmask : mask = { read := true, hangup := mask.hangup } :=
                  h.inv.reported (fd, mask) (by rw [hbatch]; exact List.mem_cons_self)
                have hbroken : Broken mask.epoll := by
                  rw [hmask, broken_read_iff]
                  exact h.hangup mask (by rw [hbatch]; exact List.mem_cons_self)
                rw [Pool.history_settle_self, outcome_of_broken hbroken, List.mem_append] at hmem
                rcases hmem with hmem | hmem
                · exact h.unprocessed request hmem
                · cases List.mem_singleton.mp hmem
              · rw [Pool.history_settle_of_ne regex routes _ _ _ _ _ _ _ hfd] at hmem
                exact h.unprocessed request hmem

theorem CutOff.run {s : Peers W} {fd : Fd} (h : CutOff fd s) {inputs : List PeerInput}
    (hadm : AlwaysStep (next regex routes .kqueue) Admits s inputs)
    (hleaves : ∀ input ∈ inputs, Leaves fd input) :
    CutOff fd (inputs.foldl (next regex routes .kqueue) s) := by
  induction inputs generalizing s with
  | nil => exact h
  | cons input inputs ih =>
      obtain ⟨hhead, htail⟩ := List.forall_mem_cons.mp hleaves
      exact ih (h.step hadm.1 hhead) hadm.2 htail

theorem inv_run {s : Peers W} (h : s.Inv) {inputs : List PeerInput}
    (hadm : AlwaysStep (next regex routes b) Admits s inputs) :
    (inputs.foldl (next regex routes b) s).Inv := by
  induction inputs generalizing s with
  | nil => exact h
  | cons input inputs ih => exact ih (inv_next h hadm.1) hadm.2

/-- On kqueue, what a peer has sent when it finishes is lost, however complete it is: if the
connection is open then and nothing of it was reported that is still to be handled, no
request is ever processed for it. -/
theorem finished_unanswered (w : W) {before after : List PeerInput} {fd : Fd}
    (hadm : AlwaysStep (next regex routes .kqueue) Admits (start w)
      (before ++ .finish fd :: after))
    (hopen : (before.foldl (next regex routes .kqueue)
      (start w)).pool.connectionPool.getClient fd ≠ none)
    (hidle : ∀ mask, (fd, mask) ∉ (before.foldl (next regex routes .kqueue) (start w)).batch)
    (hafter : ∀ input ∈ after, Leaves fd input) :
    ¬ ∃ request, .processed fd request ∈ history ((before ++ .finish fd :: after).foldl
      (next regex routes .kqueue) (start w)).pool.log fd := by
  obtain ⟨hbefore, hfinish, hrest⟩ := Machine.alwaysStep_append.mp hadm
  have hinv := inv_run (inv_start w) hbefore
  obtain ⟨client, hclient⟩ := Option.ne_none_iff_exists'.mp hopen
  have honly := ((hinv.pool fd).reading client hclient).onlyReceived
  have hcut : CutOff fd ((before.foldl (next regex routes .kqueue) (start w)).next regex routes
      .kqueue (.finish fd)) := by
    refine ⟨inv_next hinv hfinish, by simp [next, setStream],
      fun mask hmem => absurd hmem (hidle mask), fun request hmem => ?_⟩
    obtain ⟨data, hdata⟩ := honly _ hmem
    cases hdata
  rintro ⟨request, hmem⟩
  rw [List.foldl_append, List.foldl_cons] at hmem
  exact (hcut.run hrest hafter).unprocessed request hmem

/-- So the request above is closed without an answer there. -/
theorem requestAndFinish_unanswered :
    ¬ ∃ request, .processed 3 request ∈ history (requestAndFinish.foldl
      (next (fun _ => .ok fun _ => none) [] .kqueue) (start ())).pool.log 3 := by
  have hadm : AlwaysStep (next (fun _ => .ok fun _ => none) [] .kqueue) Admits (start ())
      (requestAndFinish.take 1 ++ .finish 3 :: requestAndFinish.drop 2) :=
    requestAndFinish_admitted .kqueue
  have hleaves : ∀ input ∈ requestAndFinish.drop 2, Leaves 3 input := by
    intro input hinput
    rcases List.mem_pair.mp hinput with rfl | rfl
    · trivial
    · trivial
  exact finished_unanswered () hadm (by decide) (fun _ => List.not_mem_nil) hleaves

end Peers

end Fion.Network
