import Fion.Network.PoolInvariant

/-!
# Edge-triggered polling

A socket is a receive queue of the kernel with a flag for a pending edge.  Bytes
that arrive are appended and raise the flag.  `epoll_wait` returns registered
descriptors whose flag is raised and lowers it, and the loop then handles them one
after the other.  More bytes can arrive at any time, also while the loop is busy
with the events of one `epoll_wait`.

`readRequest` takes at most 4096 bytes and is called once for an event.  What it
leaves in the queue is announced again only when an edge is pending already or
more bytes arrive.  So the server does not lose track of its input (`Notified`)
for as long as each event finds at most 4096 bytes, or completes a request, or
has another edge behind it (`Drains`), and no longer: `always_notified_iff`.
-/

namespace Fion.Network

open Cpp (Bytes Exn ascii)

variable {W : Type}

/-! ## Sockets -/

/-- The kernel's side of a connection. -/
structure Socket where
  queue : Bytes := []
  edge : Bool := false

/-- A pool with its sockets.  `batch` are the events that `epoll_wait` returned and
the loop has not handled yet. -/
structure Net (W : Type) where
  pool : Pool W
  sockets : Fd → Socket := fun _ => {}
  batch : List Fd := []

/-- `recv` with room for 4096 bytes on a non-blocking socket. -/
def recvFrom (queue : Bytes) : RecvResult :=
  if h : queue = [] then .failed
  else
    .received
      { bytes := queue.take recvCapacity
        ne_nil := by simp [recvCapacity, h]
        length_le := by rw [List.length_take]; exact Nat.min_le_left _ _ }

theorem recvFrom_nil : recvFrom [] = .failed := rfl

/-- What `recv` returns are the first bytes of the queue. -/
theorem exists_recvFrom {queue : Bytes} (h : queue ≠ []) :
    ∃ chunk, recvFrom queue = .received chunk ∧ chunk.bytes = queue.take recvCapacity := by
  rw [recvFrom, dif_neg h]
  exact ⟨_, rfl, rfl⟩

/-- What can happen. -/
inductive NetInput where
  /-- A connection is added, with the bytes that arrived before. -/
  | connect (fd : Fd) (data : Bytes)
  | arrive (fd : Fd) (data : Bytes)
  /-- `epoll_wait` returns. -/
  | wait (fds : List Fd)
  /-- The loop handles the next event it was given. -/
  | handle (send : SendResult)

namespace Net

variable (regex : RegexEngine) (routes : List (Route W))

/-- A new connection has a descriptor that is not in use.  `epoll_wait` is called
when all events are handled, and returns registered descriptors with an edge,
each of them once.  That Linux looks again whether there is something to read is
not asked for here, but in `AdmitsEdges`. -/
def Admits (s : Net W) : NetInput → Prop
  | .connect fd _ => s.pool.Admits (.addClient fd)
  | .arrive _ data => data ≠ []
  | .wait fds => s.batch = [] ∧ fds.Nodup ∧
      ∀ fd ∈ fds, s.pool.poller.Registered fd ∧ (s.sockets fd).edge = true
  | .handle _ => True

/-- Replace one socket. -/
def setSocket (s : Net W) (fd : Fd) (socket : Socket) : Net W :=
  { s with sockets := Function.update s.sockets fd socket }

/-- The callback for one event. -/
def callback (s : Net W) (fd : Fd) (send : SendResult) : Except Exn Unit × Pool W :=
  s.pool.handleClientEvent regex routes fd PollerEvent.READ (recvFrom (s.sockets fd).queue) send

/-- One event of the loop.  The callback takes bytes from the queue if there is a
connection, and an exception ends the batch. -/
def handleEvent (s : Net W) (fd : Fd) (rest : List Fd) (send : SendResult) : Net W where
  pool := (s.callback regex routes fd send).2
  sockets := Function.update s.sockets fd
    { s.sockets fd with
      queue :=
        if (s.pool.connectionPool.getClient fd).isSome then (s.sockets fd).queue.drop recvCapacity
        else (s.sockets fd).queue }
  batch :=
    match (s.callback regex routes fd send).1 with
    | .ok _ => rest
    | .error _ => []

/-- The next state. -/
def next (s : Net W) : NetInput → Net W
  | .connect fd data =>
      { s with pool := s.pool.next regex routes (.addClient fd) }.setSocket fd
        { queue := data, edge := decide (data ≠ []) }
  | .arrive fd data =>
      s.setSocket fd { queue := (s.sockets fd).queue ++ data, edge := true }
  | .wait fds =>
      { s with
        sockets := fun fd => if fd ∈ fds then { s.sockets fd with edge := false } else s.sockets fd
        batch := fds }
  | .handle send =>
      match s.batch with
      | [] => s
      | fd :: rest => s.handleEvent regex routes fd rest send

/-- A descriptor has input that is announced, or none. -/
def NotifiedAt (s : Net W) (fd : Fd) : Prop :=
  s.pool.poller.Registered fd → (s.sockets fd).queue ≠ [] →
    (s.sockets fd).edge = true ∨ fd ∈ s.batch

/-- Where a registered descriptor has input, an edge is pending or its event is
waiting to be handled. -/
def Notified (s : Net W) : Prop := ∀ fd, s.NotifiedAt fd

/-- The event that is handled next finds no more input than one `recv` takes, or
has another edge behind it, or completes a request. -/
def Drains (s : Net W) : NetInput → Prop
  | .handle _ => ∀ fd rest client, s.batch = fd :: rest →
      s.pool.connectionPool.getClient fd = some client →
      (s.sockets fd).queue.length ≤ recvCapacity ∨ (s.sockets fd).edge = true ∨
        requestReady (client.requestBuffer ++ (s.sockets fd).queue.take recvCapacity) = true
  | _ => True

/-- The pool is consistent, and no descriptor waits twice. -/
structure Inv (s : Net W) : Prop where
  pool : s.pool.Consistent
  batch : s.batch.Nodup

variable {regex routes}

theorem readable_read : Readable PollerEvent.READ := ⟨by decide, by decide⟩

/-! ## Handling one event -/

/-- Without an event to handle, nothing happens. -/
theorem next_handle_nil {s : Net W} (hbatch : s.batch = []) (send : SendResult) :
    s.next regex routes (.handle send) = s := by
  simp only [next, hbatch]

theorem next_handle_cons {s : Net W} {fd : Fd} {rest : List Fd} (hbatch : s.batch = fd :: rest)
    (send : SendResult) :
    s.next regex routes (.handle send) = s.handleEvent regex routes fd rest send := by
  simp only [next, hbatch]

variable (regex routes) in
/-- The callback returns, through one of its exits. -/
theorem callback_cases {s : Net W} (h : s.pool.Consistent) (fd : Fd) (send : SendResult) :
    ∃ pool, s.callback regex routes fd send = (.ok (), pool) ∧
      Pool.Exit regex routes s.pool fd PollerEvent.READ (recvFrom (s.sockets fd).queue) send pool :=
  Pool.handleClientEvent_cases regex routes (fun _ hget => h.holds hget) _ _ send

/-- The rest of the batch is handled next. -/
theorem handleEvent_batch {s : Net W} (h : s.pool.Consistent) (fd : Fd) (rest : List Fd)
    (send : SendResult) : (s.handleEvent regex routes fd rest send).batch = rest := by
  obtain ⟨pool, heq, -⟩ := callback_cases regex routes h fd send
  simp only [handleEvent, heq]

/-- Input of other descriptors is announced as before. -/
theorem notifiedAt_handleEvent_of_ne {s : Net W} (h : s.pool.Consistent) {fd fd' : Fd}
    {rest : List Fd} (hbatch : s.batch = fd :: rest) (hne : fd' ≠ fd) (hp : s.NotifiedAt fd')
    (send : SendResult) : (s.handleEvent regex routes fd rest send).NotifiedAt fd' := by
  obtain ⟨pool, heq, hexit⟩ := callback_cases regex routes h fd send
  intro hreg hqueue
  rw [handleEvent_batch h]
  simp only [handleEvent, heq, Function.update_of_ne hne] at hreg hqueue ⊢
  rcases hp ((hexit.registered_of_ne hne).mp hreg) hqueue with hedge | hmem
  · exact .inl hedge
  · rw [hbatch] at hmem
    exact .inr (List.mem_of_ne_of_mem hne hmem)

variable (regex routes) in
/-- An event that does not complete the request leaves the queue behind what one
`recv` took. -/
theorem notifiedAt_handleEvent_of_waiting {s : Net W} {fd : Fd} {client : Client}
    (hheld : s.pool.Holds fd client) (hne : (s.sockets fd).queue ≠ [])
    (hready : requestReady
      (client.requestBuffer ++ (s.sockets fd).queue.take recvCapacity) = false)
    (rest : List Fd) (send : SendResult) :
    (s.handleEvent regex routes fd rest send).NotifiedAt fd ↔
      (s.sockets fd).queue.length ≤ recvCapacity ∨ (s.sockets fd).edge = true ∨ fd ∈ rest := by
  obtain ⟨chunk, hrecv, hbytes⟩ := exists_recvFrom hne
  rw [← hbytes] at hready
  have heq := Pool.handleClientEvent_wait regex routes hheld
    readable_read hready send
  rw [← hrecv] at heq
  have hreg : ((s.pool.store fd (client.appendRequest chunk.bytes)).record
      [.received fd chunk.bytes]).poller.Registered fd := hheld.registered
  simp only [NotifiedAt, handleEvent, callback, heq, hheld.get, Option.isSome_some, if_true,
    Function.update_self, hreg, true_implies, ne_eq, List.drop_eq_nil_iff]
  tauto

/-- An event for an empty queue ends the connection. -/
theorem not_registered_handleEvent_of_empty {s : Net W} {fd : Fd} {client : Client}
    (hheld : s.pool.Holds fd client) (hempty : (s.sockets fd).queue = []) (rest : List Fd)
    (send : SendResult) :
    ¬ (s.handleEvent regex routes fd rest send).pool.poller.Registered fd := by
  have heq : s.callback regex routes fd send =
      (.ok (), (s.pool.drop fd).record [.closed fd]) := by
    rw [callback, hempty, recvFrom_nil]
    exact Pool.handleClientEvent_eof regex routes hheld readable_read (.inr rfl) send
  rw [handleEvent, heq]
  exact Poller.not_registered_unregister_self _ _

/-- And so does an event that completes the request. -/
theorem not_registered_handleEvent_of_ready {s : Net W} {fd : Fd} {client : Client}
    (hheld : s.pool.Holds fd client) (hne : (s.sockets fd).queue ≠ [])
    (hready : requestReady
      (client.requestBuffer ++ (s.sockets fd).queue.take recvCapacity) = true)
    (rest : List Fd) (send : SendResult) :
    ¬ (s.handleEvent regex routes fd rest send).pool.poller.Registered fd := by
  obtain ⟨chunk, hrecv, hbytes⟩ := exists_recvFrom hne
  rw [← hbytes] at hready
  obtain ⟨raw, w', calls, -, -, heq⟩ :=
    Pool.handleClientEvent_serve regex routes hheld readable_read hready send
  rw [← hrecv] at heq
  rw [handleEvent, callback, heq]
  exact Poller.not_registered_unregister_self _ _

variable (regex routes) in
/-- What an event leaves behind is announced exactly when the event drained the
queue, or another edge was pending, or the connection is gone. -/
theorem notifiedAt_handleEvent_iff {s : Net W} (h : s.Inv) {fd : Fd} {rest : List Fd}
    (hbatch : s.batch = fd :: rest) (send : SendResult) :
    (s.handleEvent regex routes fd rest send).NotifiedAt fd ↔
      ∀ client, s.pool.connectionPool.getClient fd = some client →
        (s.sockets fd).queue.length ≤ recvCapacity ∨ (s.sockets fd).edge = true ∨
          requestReady (client.requestBuffer ++ (s.sockets fd).queue.take recvCapacity) = true := by
  have hnot : fd ∉ rest := by
    have hnodup := h.batch
    rw [hbatch] at hnodup
    exact (List.nodup_cons.mp hnodup).1
  cases hget : s.pool.connectionPool.getClient fd with
  | none =>
      have heq : s.callback regex routes fd send = (.ok (), s.pool) :=
        Pool.handleClientEvent_unknown regex routes hget _ _ send
      refine ⟨fun _ client hsome => (nomatch hsome), fun _ hreg => ?_⟩
      rw [handleEvent, heq] at hreg
      exact absurd hreg (h.pool.not_registered hget)
  | some client =>
      have hheld := h.pool.holds hget
      by_cases hempty : (s.sockets fd).queue = []
      · refine ⟨fun _ _ _ => .inl (by simp [hempty]), fun _ hreg => ?_⟩
        exact absurd hreg (not_registered_handleEvent_of_empty hheld hempty rest send)
      · cases hready : requestReady
            (client.requestBuffer ++ (s.sockets fd).queue.take recvCapacity) with
        | true =>
            refine ⟨fun _ client' hsome => ?_, fun _ hreg => ?_⟩
            · obtain rfl := Option.some.inj hsome
              exact .inr (.inr hready)
            · exact absurd hreg (not_registered_handleEvent_of_ready hheld hempty hready rest send)
        | false =>
            rw [notifiedAt_handleEvent_of_waiting regex routes hheld hempty hready]
            constructor
            · rintro (hdrained | hedge | hmem) client' _
              · exact .inl hdrained
              · exact .inr (.inl hedge)
              · exact absurd hmem hnot
            · intro hall
              rcases hall client rfl with hdrained | hedge | hready'
              · exact .inl hdrained
              · exact .inr (.inl hedge)
              · rw [hready] at hready'
                cases hready'

/-- Handling an event keeps the input announced exactly when the event drains what
there is. -/
theorem notified_handleEvent_iff {s : Net W} (h : s.Inv) (hp : s.Notified) (send : SendResult) :
    (s.next regex routes (.handle send)).Notified ↔ s.Drains (.handle send) := by
  cases hbatch : s.batch with
  | nil =>
      rw [next_handle_nil hbatch]
      refine ⟨fun _ fd rest client hcons => ?_, fun _ => hp⟩
      rw [hbatch] at hcons
      cases hcons
  | cons fd rest =>
      have hiff := notifiedAt_handleEvent_iff regex routes h hbatch send
      rw [next_handle_cons hbatch]
      constructor
      · intro hall fd' rest' client hcons
        obtain ⟨rfl, -⟩ := List.cons_eq_cons.mp (hbatch.symm.trans hcons)
        exact hiff.mp (hall fd) client
      · intro hdrains fd'
        by_cases hfd : fd' = fd
        · subst hfd
          exact hiff.mpr fun client => hdrains fd' rest client hbatch
        · exact notifiedAt_handleEvent_of_ne h.pool hbatch hfd (hp fd') send

/-! ## Steps and runs -/

/-- Every step keeps the invariant. -/
theorem inv_next {s : Net W} (h : s.Inv) {input : NetInput} (hadm : s.Admits input) :
    (s.next regex routes input).Inv := by
  cases input with
  | connect fd data =>
      have hpool : (s.pool.next regex routes (.addClient fd)).Consistent :=
        Pool.consistent_next regex routes h.pool hadm
      exact ⟨hpool, h.batch⟩
  | arrive fd data => exact ⟨h.pool, h.batch⟩
  | wait fds => exact ⟨h.pool, hadm.2.1⟩
  | handle send =>
      cases hbatch : s.batch with
      | nil =>
          rw [next_handle_nil hbatch]
          exact h
      | cons fd rest =>
          have hnodup := h.batch
          rw [hbatch] at hnodup
          obtain ⟨pool, heq, hexit⟩ := callback_cases regex routes h.pool fd send
          rw [next_handle_cons hbatch]
          refine ⟨?_, ?_⟩
          · simp only [handleEvent, heq]
            exact Pool.consistent_exit h.pool hexit
          · rw [handleEvent_batch h.pool]
            exact (List.nodup_cons.mp hnodup).2

/-- A step keeps the input announced exactly when it drains what it handles. -/
theorem notified_next_iff {s : Net W} (h : s.Inv) {input : NetInput} (hadm : s.Admits input)
    (hp : s.Notified) : (s.next regex routes input).Notified ↔ s.Drains input := by
  cases input with
  | connect fd data =>
      refine ⟨fun _ => trivial, fun _ fd' hreg hqueue => ?_⟩
      by_cases hfd : fd' = fd
      · subst hfd
        left
        simpa [next, setSocket] using hqueue
      · have heq := Pool.addClient_of_new hadm.1 hadm.2 (h.pool.not_registered hadm.2)
        simp only [next, setSocket, Pool.next, heq, Function.update_of_ne hfd] at hreg hqueue ⊢
        exact hp fd' ((Poller.registered_register_of_ne hfd _).mp hreg) hqueue
  | arrive fd data =>
      refine ⟨fun _ => trivial, fun _ fd' hreg hqueue => ?_⟩
      by_cases hfd : fd' = fd
      · subst hfd
        exact .inl (by simp [next, setSocket])
      · simp only [next, setSocket, Function.update_of_ne hfd] at hqueue ⊢
        exact hp fd' hreg hqueue
  | wait fds =>
      refine ⟨fun _ => trivial, fun _ fd hreg hqueue => ?_⟩
      by_cases hmem : fd ∈ fds
      · exact .inr hmem
      · simp only [next, if_neg hmem] at hqueue ⊢
        rcases hp fd hreg hqueue with hedge | hbatch
        · exact .inl hedge
        · rw [hadm.1] at hbatch
          cases hbatch
  | handle send => exact notified_handleEvent_iff h hp send

/-- A new pool without connections. -/
def start (w : W) : Net W := { pool := { world := w } }

/-- No received byte is left without a future notification, in any state of a run,
exactly when every event of the run drains what it finds.  Then in particular,
whenever the loop has handled all events, each registered descriptor with input
has an edge pending. -/
theorem always_notified_iff (w : W) {inputs : List NetInput}
    (hadm : Machine.AlwaysStep (next regex routes) Admits (start w) inputs) :
    (Machine.Always (next regex routes) Notified (start w) inputs ↔
      Machine.AlwaysStep (next regex routes) Drains (start w) inputs) ∧
    (Machine.AlwaysStep (next regex routes) Drains (start w) inputs →
      Machine.Always (next regex routes) (fun s => s.batch = [] → ∀ fd,
        s.pool.poller.Registered fd → (s.sockets fd).queue ≠ [] → (s.sockets fd).edge = true)
        (start w) inputs) := by
  have hiff : Machine.Always (next regex routes) Notified (start w) inputs ↔
      Machine.AlwaysStep (next regex routes) Drains (start w) inputs := by
    refine Machine.always_iff (fun s input (hs : s.Inv) hinput => inv_next hs hinput) ?_ ?_ ?_ hadm
    · exact fun s input hs hinput hnotified => notified_next_iff hs hinput hnotified
    · exact ⟨Pool.consistent_start w, List.nodup_nil⟩
    · exact fun fd hreg => absurd hreg ((Pool.consistent_start w).not_registered rfl)
  refine ⟨hiff, fun hdrains => (hiff.mpr hdrains).imp fun s hnotified hbatch fd hreg hqueue => ?_⟩
  rcases hnotified fd hreg hqueue with hedge | hmem
  · exact hedge
  · rw [hbatch] at hmem
    cases hmem

/-- More input than one `recv` takes, all of it in one edge. -/
def flood : Bytes := List.replicate 5000 97

/-- A connection, input on it, and one round of the loop. -/
def oneRound (data : Bytes) : List NetInput :=
  [.connect 3 [], .arrive 3 data, .wait [3], .handle .wouldBlock]

theorem oneRound_notified :
    Machine.Always (next (fun _ => .ok fun _ => none) []) Notified (start ())
      (oneRound (ascii "GET /")) := by
  refine (always_notified_iff () ?_).1.mpr ⟨trivial, trivial, trivial, ?_, trivial⟩
  · exact ⟨⟨by decide, rfl⟩, List.cons_ne_nil _ _, ⟨rfl, by decide, by decide⟩, trivial, trivial⟩
  · intro fd rest client hbatch _
    obtain ⟨rfl, -⟩ := List.cons_eq_cons.mp hbatch
    exact .inl (by decide)

/-- The state in which the loop has the event for them. -/
def flooded : Net Unit :=
  ([.connect 3 [], .arrive 3 flood, .wait [3]] : List NetInput).foldl
    (next (fun _ => .ok fun _ => none) []) (start ())

/-- Of 5000 bytes, 904 stay in the queue and nothing announces them. -/
theorem oneRound_flood :
    ¬ Machine.Always (next (fun _ => .ok fun _ => none) []) Notified (start ())
      (oneRound flood) := by
  rintro ⟨-, -, -, -, hlast⟩
  have hqueue : (flooded.sockets 3).queue = flood := rfl
  have hheld : flooded.pool.Holds 3 { fd := 3 } := ⟨rfl, rfl, rfl⟩
  have hready : requestReady (([] : Bytes) ++ flood.take recvCapacity) = false := by
    refine requestReady_of_find_none (Text.find_eq_none_iff.mpr fun i hocc => ?_)
    have hmem : Cpp.cr ∈ flood :=
      List.mem_of_mem_take (List.mem_of_mem_drop (hocc.subset List.mem_cons_self))
    exact absurd (List.eq_of_mem_replicate hmem) (by decide)
  have hlen : flood.length = 5000 := List.length_replicate
  have hne : flood ≠ [] := List.ne_nil_of_length_pos (by omega)
  have hiff := notifiedAt_handleEvent_of_waiting (fun _ => .ok fun _ => none) []
    hheld (hqueue ▸ hne) (hqueue ▸ hready) [] .wouldBlock
  rcases hiff.mp (hlast 3) with hdrained | hedge | hmem
  · rw [hqueue, hlen] at hdrained
    exact absurd hdrained (by decide)
  · cases hedge
  · cases hmem

end Net

end Fion.Network
