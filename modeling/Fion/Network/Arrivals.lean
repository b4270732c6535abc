import Fion.Network.EdgeTriggered
import Fion.Network.Framing
import Fion.Network.Outcome

/-!
# What arrives is answered

Nothing that arrives for a connection is lost on the way to its request: what its client
object has read and what is still queued make up what arrived, and when the connection
ends with an answer, what was processed is the beginning of what arrived (`AccountsAt`).
This holds as long as no event finds an empty queue, since `recv` reports that as an
error and the connection is closed (`Finds`).

In a run with edges in which each event drains the queue, every message that has arrived is
answered once no event is pending (`edges_answered`).
-/

namespace Fion.Network

open Cpp (Bytes ascii)
open Machine (AlwaysStep)

variable {W : Type}

namespace Net

/-! ## What arrived -/

/-- What arrived on each descriptor since a connection was last added under it, if one
was. -/
def noteArrival (arrived : Fd → Option Bytes) : NetInput → Fd → Option Bytes
  | .connect fd data => Function.update arrived fd (some data)
  | .arrive fd data => Function.update arrived fd ((arrived fd).map (· ++ data))
  | .wait _ | .handle _ => arrived

/-- What the inputs of a run bring. -/
def arrivals (inputs : List NetInput) : Fd → Option Bytes :=
  inputs.foldl noteArrival fun _ => none

/-- The event that is handled next, if it is for a connection, finds something to
read. -/
def Finds (s : Net W) : NetInput → Prop
  | .handle _ => ∀ fd rest client, s.batch = fd :: rest →
      s.pool.connectionPool.getClient fd = some client → (s.sockets fd).queue ≠ []
  | .connect .. | .arrive .. | .wait _ => True

/-- The same for the events of one descriptor. -/
def FindsAt (s : Net W) (fd : Fd) : NetInput → Prop
  | .handle _ => ∀ rest client, s.batch = fd :: rest →
      s.pool.connectionPool.getClient fd = some client → (s.sockets fd).queue ≠ []
  | .connect .. | .arrive .. | .wait _ => True

theorem Finds.findsAt {s : Net W} {input : NetInput} (h : s.Finds input) (fd : Fd) :
    s.FindsAt fd input := by
  cases input with
  | handle send => exact h fd
  | connect | arrive | wait => trivial

/-- What arrived under a descriptor is accounted for: the connection has read it or has
it before it, or was answered. -/
structure AccountsAt (s : Net W) (fd : Fd) (arrived : Option Bytes) : Prop where
  held : ∀ client, s.pool.connectionPool.getClient fd = some client →
    arrived = some (client.requestBuffer ++ (s.sockets fd).queue)
  ended : ∀ data, s.pool.connectionPool.getClient fd = none → arrived = some data →
    ∃ request, .processed fd request ∈ history s.pool.log fd ∧ requestReady request = true ∧
      request <+: data

/-- What happens under other descriptors does not matter. -/
theorem AccountsAt.frame {s s' : Net W} {fd : Fd} {arrived : Option Bytes}
    (h : s.AccountsAt fd arrived)
    (hget : s'.pool.connectionPool.getClient fd = s.pool.connectionPool.getClient fd)
    (hqueue : (s'.sockets fd).queue = (s.sockets fd).queue)
    (hhistory : history s'.pool.log fd = history s.pool.log fd) : s'.AccountsAt fd arrived where
  held := by
    rw [hget, hqueue]
    exact h.held
  ended := by
    rw [hget, hhistory]
    exact h.ended

/-- The state of the user code is another one. -/
def setWorld (s : Net W) (w : W) : Net W := { s with pool := s.pool.setWorld w }

theorem Inv.setWorld {s : Net W} (h : s.Inv) (w : W) : (s.setWorld w).Inv where
  pool fd :=
    { key := (h.pool fd).key
      reading := fun client hclient =>
        let hreading := (h.pool fd).reading client hclient
        ⟨hreading.owns, hreading.state, hreading.response, hreading.request, hreading.notReady,
          hreading.onlyReceived⟩
      once := (h.pool fd).once }
  batch := h.batch

/-! ## Every step accounts for what arrived -/

section Steps

variable {regex : RegexEngine} {routes : List (Route W)} {s : Net W}
  {arrived : Fd → Option Bytes}

/-- A new connection has its first bytes before it. -/
theorem AccountsAt.connect {fd fd' : Fd} (h : s.AccountsAt fd' (arrived fd'))
    (hs : s.pool.Consistent) {data : Bytes} (hadm : s.pool.Admits (.addClient fd)) :
    (s.next regex routes (.connect fd data)).AccountsAt fd'
      (noteArrival arrived (.connect fd data) fd') := by
  have hpool : s.pool.next regex routes (.addClient fd) = s.pool.enroll fd :=
    congrArg Prod.snd (Pool.addClient_of_new hadm.1 hadm.2 (hs.not_registered hadm.2))
  by_cases hfd : fd' = fd
  · subst hfd
    constructor
    · intro client hclient
      simp only [next, setSocket, hpool, Pool.enroll, ConnectionPool.getClient_put_self,
        Option.some.injEq] at hclient
      subst hclient
      simp [noteArrival, next, setSocket]
    · intro data' hnone
      simp [next, setSocket, hpool, Pool.enroll] at hnone
  · have hsame : (noteArrival arrived (.connect fd data)) fd' = arrived fd' :=
      Function.update_of_ne hfd ..
    rw [hsame]
    refine h.frame ?_ ?_ ?_
    · simp only [next, setSocket, hpool]
      exact ConnectionPool.getClient_put_of_ne hfd _
    · simp [next, setSocket, hfd]
    · simp only [next, setSocket, hpool]
      exact history_append_of_ne (by simpa [Event.fd] using Ne.symm hfd) _

/-- More bytes are queued behind the others. -/
theorem AccountsAt.arrive {fd' : Fd} (h : s.AccountsAt fd' (arrived fd')) (fd : Fd)
    (data : Bytes) :
    (s.next regex routes (.arrive fd data)).AccountsAt fd'
      (noteArrival arrived (.arrive fd data) fd') := by
  by_cases hfd : fd' = fd
  · subst hfd
    constructor
    · intro client hclient
      simp [noteArrival, next, setSocket, h.held client hclient]
    · intro data' hnone harrived
      simp only [noteArrival, Function.update_self, Option.map_eq_some_iff] at harrived
      obtain ⟨before, hbefore, rfl⟩ := harrived
      obtain ⟨request, hmem, hready, hprefix⟩ := h.ended before hnone hbefore
      exact ⟨request, hmem, hready, hprefix.trans (List.prefix_append before data)⟩
  · have hsame : (noteArrival arrived (.arrive fd data)) fd' = arrived fd' :=
      Function.update_of_ne hfd ..
    rw [hsame]
    exact h.frame rfl (by simp [next, setSocket, hfd]) rfl

variable (regex routes) in
/-- Handling an event of a connection leaves its outcome in the pool. -/
theorem pool_handleEvent (hs : s.pool.Consistent) {fd : Fd} {client : Client}
    (hget : s.pool.connectionPool.getClient fd = some client) (rest : List Fd)
    (send : SendResult) :
    (s.handleEvent regex routes fd rest send).pool = s.pool.settle fd (outcome regex routes fd
      client s.pool.world PollerEvent.READ (recvFrom (s.sockets fd).queue) send) :=
  congrArg Prod.snd (Pool.handleClientEvent_eq regex routes (hs.holds hget) _ _ _)

variable (regex routes) in
/-- An event for no connection leaves the pool as it is. -/
theorem pool_handleEvent_of_none {fd : Fd} (hget : s.pool.connectionPool.getClient fd = none)
    (rest : List Fd) (send : SendResult) :
    (s.handleEvent regex routes fd rest send).pool = s.pool :=
  congrArg Prod.snd (Pool.handleClientEvent_unknown regex routes hget _ _ _)

/-- An event that finds something to read takes it from the queue to the client, or to
the request that is processed. -/
theorem AccountsAt.handleEvent {fd : Fd} {data : Option Bytes} (h : s.AccountsAt fd data)
    (hs : s.pool.Consistent) {rest : List Fd} {client : Client}
    (hget : s.pool.connectionPool.getClient fd = some client)
    (hqueue : (s.sockets fd).queue ≠ []) (send : SendResult) :
    (s.handleEvent regex routes fd rest send).AccountsAt fd data := by
  obtain ⟨chunk, hrecv, hbytes⟩ := exists_recvFrom hqueue
  have htaken : chunk.bytes ++ (s.sockets fd).queue.drop recvCapacity = (s.sockets fd).queue := by
    rw [hbytes, List.take_append_drop]
  have hpool := pool_handleEvent regex routes hs hget rest send
  rw [hrecv] at hpool
  have hdata := h.held client hget
  cases hready : requestReady (client.requestBuffer ++ chunk.bytes) with
  | false =>
      rw [outcome_of_waiting readable_read hready] at hpool
      constructor
      · intro client' hclient'
        rw [hpool, Pool.getClient_settle_self] at hclient'
        obtain rfl := Option.some.inj hclient'
        simp [Net.handleEvent, hget, hdata, htaken]
      · intro arrived hnone
        rw [hpool, Pool.getClient_settle_self] at hnone
        cases hnone
  | true =>
      obtain ⟨calls, response, w', hserved⟩ :=
        outcome_of_ready regex routes fd s.pool.world readable_read send hready
      constructor
      · intro client' hclient'
        rw [hpool, Pool.getClient_settle_self, hserved] at hclient'
        cases hclient'
      · intro arrived _ harrived
        refine ⟨client.requestBuffer ++ chunk.bytes, ?_, hready, ?_⟩
        · rw [hpool, Pool.history_settle_self, hserved]
          simp [servedEvents]
        · rw [hdata] at harrived
          obtain rfl := Option.some.inj harrived
          exact ⟨_, by rw [List.append_assoc, htaken]⟩

/-- An event of another descriptor leaves it as it is. -/
theorem AccountsAt.handleEvent_of_ne {fd fd' : Fd} {data : Option Bytes}
    (h : s.AccountsAt fd' data) (hs : s.pool.Consistent) (hfd : fd' ≠ fd) (rest : List Fd)
    (send : SendResult) : (s.handleEvent regex routes fd rest send).AccountsAt fd' data := by
  have hqueue : ((s.handleEvent regex routes fd rest send).sockets fd').queue =
      (s.sockets fd').queue := by simp [Net.handleEvent, hfd]
  cases hget : s.pool.connectionPool.getClient fd with
  | none =>
      have hpool := pool_handleEvent_of_none regex routes hget rest send
      exact h.frame (by rw [hpool]) hqueue (by rw [hpool])
  | some client =>
      have hpool := pool_handleEvent regex routes hs hget rest send
      refine h.frame ?_ hqueue ?_
      · rw [hpool]
        exact Pool.getClient_settle_of_ne _ _ _ hfd
      · rw [hpool]
        exact Pool.history_settle_of_ne regex routes _ _ _ _ _ _ _ hfd

/-- A step in which no event of the descriptor finds an empty queue accounts for what it
brings. -/
theorem AccountsAt.next {fd : Fd} (h : s.AccountsAt fd (arrived fd)) (hs : s.pool.Consistent)
    {input : NetInput}
    (hconnect : ∀ fd' data, input = .connect fd' data → s.pool.Admits (.addClient fd'))
    (hfinds : s.FindsAt fd input) :
    (s.next regex routes input).AccountsAt fd (noteArrival arrived input fd) := by
  cases input with
  | connect fd' data => exact h.connect hs (hconnect fd' data rfl)
  | arrive fd' data => exact h.arrive fd' data
  | wait fds => exact h.frame rfl (by simp only [Net.next]; split <;> rfl) rfl
  | handle send =>
      cases hbatch : s.batch with
      | nil =>
          rw [next_handle_nil hbatch]
          exact h
      | cons fd' rest =>
          rw [next_handle_cons hbatch]
          by_cases hfd : fd = fd'
          · subst hfd
            cases hget : s.pool.connectionPool.getClient fd with
            | some client => exact h.handleEvent hs hget (hfinds rest client hbatch hget) send
            | none =>
                have hpool := pool_handleEvent_of_none regex routes hget rest send
                exact h.frame (by rw [hpool]) (by simp [Net.handleEvent, hget]) (by rw [hpool])
          · exact h.handleEvent_of_ne hs hfd rest send

variable (regex routes) in
/-- What the inputs of a run promise to the connections under a descriptor: their events
find something to read.  It is an invariant of the run that makes them do so. -/
structure Polling (admits : Net W → NetInput → Prop) (Kept : Net W → Prop) (fd : Fd) : Prop where
  inv : ∀ s, Kept s → s.Inv
  keeps : ∀ s input, Kept s → admits s input → Kept (s.next regex routes input)
  connects : ∀ s fd' data, admits s (.connect fd' data) → s.pool.Admits (.addClient fd')
  idle : ∀ s fds, admits s (.wait fds) → s.batch = []
  worlds : ∀ s w, Kept s → Kept (s.setWorld w)
  finds : ∀ s input, Kept s → admits s input → s.FindsAt fd input

/-- Such a step accounts for what it brings. -/
theorem Polling.accountsAt_next {admits : Net W → NetInput → Prop} {Kept : Net W → Prop}
    {fd : Fd} (p : Polling regex routes admits Kept fd) (hs : Kept s)
    (h : s.AccountsAt fd (arrived fd)) {input : NetInput} (hadm : admits s input) :
    (s.next regex routes input).AccountsAt fd (noteArrival arrived input fd) := by
  refine h.next (p.inv s hs).pool (fun fd' data heq => ?_) (p.finds s input hs hadm)
  rw [heq] at hadm
  exact p.connects s fd' data hadm

/-- So does a run of such steps. -/
theorem Polling.run {admits : Net W → NetInput → Prop} {Kept : Net W → Prop} {fd : Fd}
    (p : Polling regex routes admits Kept fd) (hs : Kept s) (h : s.AccountsAt fd (arrived fd))
    {inputs : List NetInput} (hinputs : AlwaysStep (Net.next regex routes) admits s inputs) :
    Kept (inputs.foldl (Net.next regex routes) s) ∧
      (inputs.foldl (Net.next regex routes) s).AccountsAt fd
        (inputs.foldl noteArrival arrived fd) := by
  induction inputs generalizing s arrived with
  | nil => exact ⟨hs, h⟩
  | cons input inputs ih =>
      exact ih (p.keeps s input hs hinputs.1) (p.accountsAt_next hs h hinputs.1) hinputs.2

/-- With nothing left to read, a message that has arrived was processed. -/
theorem AccountsAt.answered {fd : Fd} {message : Bytes} (h : s.AccountsAt fd (some message))
    (hs : s.pool.Consistent) (hframed : SelfFramed message)
    (hquiet : s.pool.poller.Registered fd → (s.sockets fd).queue = []) :
    s.pool.connectionPool.getClient fd = none ∧
      .processed fd message ∈ history s.pool.log fd := by
  have hnone : s.pool.connectionPool.getClient fd = none := by
    cases hget : s.pool.connectionPool.getClient fd with
    | none => rfl
    | some client =>
        have hqueue := hquiet ((hs fd).key.mp (by rw [hget]; rfl))
        have hdata := h.held client hget
        rw [hqueue, List.append_nil] at hdata
        have hready : client.isRequestReady = true := by
          rw [Client.isRequestReady, ← Option.some.inj hdata]
          exact hframed.requestReady
        rw [((hs fd).reading client hget).notReady] at hready
        cases hready
  refine ⟨hnone, ?_⟩
  obtain ⟨request, hmem, hready, hprefix⟩ := h.ended message hnone rfl
  -- no proper prefix of the message is complete
  have hwhole : ¬ request.length < message.length := by
    intro hlt
    rw [hframed.not_requestReady_of_prefix hprefix hlt] at hready
    cases hready
  rwa [← hprefix.eq_of_length_le (Nat.le_of_not_lt hwhole)]

end Steps

variable {regex : RegexEngine} {routes : List (Route W)}

/-- Before anything happens, nothing has arrived. -/
theorem accountsAt_start (w : W) (fd : Fd) : (start w).AccountsAt fd none :=
  ⟨fun _ hclient => (nomatch hclient), fun _ _ harrived => (nomatch harrived)⟩

theorem Polling.accountsAt {admits : Net W → NetInput → Prop} {Kept : Net W → Prop} {fd : Fd}
    (p : Polling regex routes admits Kept fd) {w : W} (hstart : Kept (start w))
    {inputs : List NetInput} (hinputs : AlwaysStep (next regex routes) admits (start w) inputs) :
    Kept (inputs.foldl (next regex routes) (start w)) ∧
      (inputs.foldl (next regex routes) (start w)).AccountsAt fd (arrivals inputs fd) :=
  p.run hstart (accountsAt_start w fd) hinputs

theorem inv_start (w : W) : (start w).Inv := ⟨Pool.consistent_start w, List.nodup_nil⟩

theorem notified_start (w : W) : (start w).Notified :=
  fun _ hreg => absurd hreg ((Pool.consistent_start w).not_registered rfl)

/-! ## Connections that are closed -/

/-- A connection that was closed was answered before. -/
def AnsweredBeforeClosed (s : Net W) : Prop :=
  ∀ fd, .closed fd ∈ history s.pool.log fd →
    ∃ request, .processed fd request ∈ history s.pool.log fd

/-- A step in which no event finds an empty queue closes no connection without an answer. -/
theorem answeredBeforeClosed_next {s : Net W} (hs : s.Inv) {input : NetInput}
    (hadm : s.Admits input) (hfinds : s.Finds input) (h : s.AnsweredBeforeClosed) :
    (s.next regex routes input).AnsweredBeforeClosed := by
  cases input with
  | connect fd data =>
      have hpool : (s.next regex routes (.connect fd data)).pool = s.pool.enroll fd :=
        congrArg Prod.snd (Pool.addClient_of_new hadm.1 hadm.2 (hs.pool.not_registered hadm.2))
      show Pool.ClosesAnswered (s.next regex routes (.connect fd data)).pool.log
      rw [hpool]
      exact Pool.closesAnswered_enroll h fd
  | arrive | wait => exact h
  | handle send =>
      cases hbatch : s.batch with
      | nil =>
          rw [next_handle_nil hbatch]
          exact h
      | cons fd rest =>
          rw [next_handle_cons hbatch]
          show Pool.ClosesAnswered (s.handleEvent regex routes fd rest send).pool.log
          cases hget : s.pool.connectionPool.getClient fd with
          | none =>
              rw [pool_handleEvent_of_none regex routes hget]
              exact h
          | some client =>
              have hreading := (hs.pool fd).reading client hget
              obtain ⟨chunk, hrecv, -⟩ := exists_recvFrom (hfinds fd rest client hbatch hget)
              rw [pool_handleEvent regex routes hs.pool hget,
                Pool.closesAnswered_settle_iff hreading h]
              exact ⟨readable_read.1, fun _ => ⟨chunk, hrecv⟩⟩

/-! ## With edges -/

/-- In a run with edges in which each event for a connection finds something to read and
drains it: once no event is pending for a connection that is still there, and all bytes
of a message have arrived on it, the message was processed and the connection is gone. -/
theorem edges_answered (w : W) {inputs : List NetInput}
    (hadm : AlwaysStep (next regex routes) Admits (start w) inputs)
    (hfinds : AlwaysStep (next regex routes) Finds (start w) inputs)
    (hdrains : AlwaysStep (next regex routes) Drains (start w) inputs) {fd : Fd}
    {message : Bytes} (hframed : SelfFramed message)
    (harrived : arrivals inputs fd = some message) :
    let s := inputs.foldl (next regex routes) (start w)
    (s.pool.poller.Registered fd → (s.sockets fd).edge = false ∧ fd ∉ s.batch) →
      s.pool.connectionPool.getClient fd = none ∧
        .processed fd message ∈ history s.pool.log fd := by
  intro s hquiet
  have hnotified : s.Inv ∧ s.Notified :=
    (Machine.always_of_ok (fun s input (hs : s.Inv ∧ s.Notified) hinput hdrain =>
      ⟨inv_next hs.1 hinput, (notified_next_iff hs.1 hinput hs.2).mpr hdrain⟩)
      ⟨inv_start w, notified_start w⟩ hadm hdrains).last
  have hpolling : Polling regex routes (fun s input => s.Admits input ∧ s.Finds input) Inv fd :=
    { inv := fun _ hs => hs
      keeps := fun _ _ hs hinput => inv_next hs hinput.1
      connects := fun _ _ _ hinput => hinput.1
      idle := fun _ _ hinput => hinput.1.1
      worlds := fun _ w hs => hs.setWorld w
      finds := fun _ _ _ hinput => hinput.2.findsAt fd }
  have haccounts := (hpolling.accountsAt (inv_start w) (hadm.and hfinds)).2
  rw [harrived] at haccounts
  refine haccounts.answered hnotified.1.pool hframed fun hreg => ?_
  by_contra hqueue
  rcases hnotified.2 fd hreg hqueue with hset | hmem
  · rw [(hquiet hreg).1] at hset
    cases hset
  · exact (hquiet hreg).2 hmem

/-- A message that arrives in two pieces.  The second piece comes between the return of
`epoll_wait` and the call of `recv`, which takes both. -/
def twoArrivals : List NetInput :=
  [.connect 3 (ascii "GET /a HTTP"), .wait [3], .arrive 3 (ascii "/1.1\r\n\r\n"),
    .handle (.accepted 9)]

theorem selfFramed_twoArrivals : SelfFramed (ascii "GET /a HTTP/1.1\r\n\r\n") :=
  .bare (show Text.find [Cpp.cr, Cpp.lf, Cpp.cr, Cpp.lf] _ = some 15 by decide) (by decide)
    (by decide)

theorem twoArrivals_answered :
    let s := twoArrivals.foldl (next (fun _ => .ok fun _ => none) []) (start ())
    s.pool.connectionPool.getClient 3 = none ∧
      .processed 3 (ascii "GET /a HTTP/1.1\r\n\r\n") ∈ history s.pool.log 3 := by
  have hadm : AlwaysStep (next (fun _ => .ok fun _ => none) []) Admits (start ()) twoArrivals :=
    ⟨⟨by decide, rfl⟩, ⟨rfl, by decide, by decide⟩, (by decide : ascii "/1.1\r\n\r\n" ≠ []),
      trivial, trivial⟩
  have hfinds : AlwaysStep (next (fun _ => .ok fun _ => none) []) Finds (start ())
      twoArrivals := by
    refine ⟨trivial, trivial, trivial, fun fd rest client hbatch _ => ?_, trivial⟩
    obtain ⟨rfl, -⟩ := List.cons_eq_cons.mp hbatch
    decide
  have hdrains : AlwaysStep (next (fun _ => .ok fun _ => none) []) Drains (start ())
      twoArrivals := by
    refine ⟨trivial, trivial, trivial, fun fd rest client hbatch _ => ?_, trivial⟩
    obtain ⟨rfl, -⟩ := List.cons_eq_cons.mp hbatch
    exact .inl (by decide)
  exact edges_answered () hadm hfinds hdrains selfFramed_twoArrivals rfl (by decide)

end Net

end Fion.Network
