import Fion.Network.Arrivals

/-!
# Level-triggered polling

The filters of kqueue have no edges, since `addFD` does not ask for them there: an event is
reported for a connection where there is something to read, and `recv` is called while it
still is (`levels_next`).  So no event finds an empty queue, and what one `recv` leaves
behind is reported again.  Once there is nothing left to report, every message that has
arrived is answered (`levels_answered`), and it takes no more events than reads of 4096
bytes (`levels_answered_within`).

With edges there is something to read for a reported connection too, since `epoll_wait`
looks before it reports a raised flag.  What one `recv` leaves behind need not be reported
again, but what was read is not lost, and no connection is closed without an answer
(`edges_conserve`).

`addFD` and `removeFD`, as the pool calls them, do the same on both back ends.
-/

namespace Fion.Network

open Cpp (Bytes ascii)
open Machine (Always AlwaysStep)

variable {W : Type} {regex : RegexEngine} {routes : List (Route W)}

namespace Net

/-! ## What is reported is there -/

/-- `kevent` is called when all events are handled, and returns descriptors that have
something to read, each of them once. -/
def AdmitsLevels (s : Net W) : NetInput → Prop
  | .wait fds => s.batch = [] ∧ fds.Nodup ∧
      ∀ fd ∈ fds, s.pool.poller.Registered fd ∧ (s.sockets fd).queue ≠ []
  | .connect fd _ => s.pool.Admits (.addClient fd)
  | .arrive _ data => data ≠ []
  | .handle _ => True

/-- What was reported is still there to be read. -/
structure Levels (s : Net W) : Prop where
  inv : s.Inv
  ready : ∀ fd ∈ s.batch, s.pool.poller.Registered fd ∧ (s.sockets fd).queue ≠ []

/-- Every step keeps it so. -/
theorem levels_next {s : Net W} (h : s.Levels) {input : NetInput} (hadm : s.AdmitsLevels input) :
    (s.next regex routes input).Levels := by
  cases input with
  | connect fd data =>
      have hpool : s.pool.next regex routes (.addClient fd) = s.pool.enroll fd :=
        congrArg Prod.snd (Pool.addClient_of_new hadm.1 hadm.2 (h.inv.pool.not_registered hadm.2))
      refine ⟨inv_next h.inv hadm, fun fd' hmem => ?_⟩
      obtain ⟨hreg, hqueue⟩ := h.ready fd' hmem
      -- the new descriptor was not registered, so it is not one of the reported
      have hne : fd' ≠ fd := fun heq => h.inv.pool.not_registered hadm.2 (heq ▸ hreg)
      simp only [next, setSocket, hpool, Function.update_of_ne hne]
      exact ⟨(Poller.registered_register_of_ne hne _).mpr hreg, hqueue⟩
  | arrive fd data =>
      refine ⟨inv_next h.inv hadm, fun fd' hmem => ?_⟩
      obtain ⟨hreg, hqueue⟩ := h.ready fd' hmem
      refine ⟨hreg, ?_⟩
      by_cases hfd : fd' = fd
      · subst hfd
        simpa [next, setSocket] using fun heq => absurd heq hqueue
      · simpa only [next, setSocket, Function.update_of_ne hfd] using hqueue
  | wait fds =>
      refine ⟨⟨h.inv.pool, hadm.2.1⟩, fun fd hmem => ?_⟩
      obtain ⟨hreg, hqueue⟩ := hadm.2.2 fd hmem
      exact ⟨hreg, by simpa only [next, if_pos (show fd ∈ fds from hmem)] using hqueue⟩
  | handle send =>
      refine ⟨inv_next h.inv (show s.Admits (.handle send) from trivial), ?_⟩
      cases hbatch : s.batch with
      | nil =>
          rw [next_handle_nil hbatch]
          exact h.ready
      | cons fd rest =>
          have hnodup := h.inv.batch
          rw [hbatch] at hnodup
          obtain ⟨pool, heq, hexit⟩ := callback_cases regex routes h.inv.pool fd send
          rw [next_handle_cons hbatch]
          intro fd' hmem
          rw [handleEvent_batch h.inv.pool] at hmem
          obtain ⟨hreg, hqueue⟩ := h.ready fd' (by rw [hbatch]; exact List.mem_cons_of_mem fd hmem)
          have hne : fd' ≠ fd := fun heq => (List.nodup_cons.mp hnodup).1 (heq ▸ hmem)
          simp only [handleEvent, heq, Function.update_of_ne hne]
          exact ⟨(hexit.registered_of_ne hne).mpr hreg, hqueue⟩

/-- Then every event finds something. -/
theorem Levels.finds {s : Net W} (h : s.Levels) (input : NetInput) : s.Finds input := by
  cases input with
  | handle send =>
      intro fd rest client hbatch _
      exact (h.ready fd (by rw [hbatch]; exact List.mem_cons_self)).2
  | connect | arrive | wait => trivial

/-! ## What arrives is answered -/

theorem levels_start (w : W) : (start w).Levels :=
  ⟨inv_start w, fun _ hmem => absurd hmem List.not_mem_nil⟩

/-- Levels keep the promise to every connection. -/
theorem levels_polling (fd : Fd) : Polling regex routes AdmitsLevels (Levels (W := W)) fd where
  inv _ h := h.inv
  keeps _ _ h hadm := levels_next h hadm
  connects _ _ _ hadm := hadm
  idle _ _ hadm := hadm.1
  worlds _ w h := ⟨h.inv.setWorld w, h.ready⟩
  finds _ input h _ := (h.finds input).findsAt fd

theorem levels_run (w : W) {inputs : List NetInput}
    (hadm : AlwaysStep (next regex routes) AdmitsLevels (start w) inputs) (fd : Fd) :
    (inputs.foldl (next regex routes) (start w)).Levels ∧
      (inputs.foldl (next regex routes) (start w)).AccountsAt fd (arrivals inputs fd) :=
  (levels_polling fd).accountsAt (levels_start w) hadm

/-- On kqueue, whatever the bytes arrive in and however the events of the connections are
mixed: once there is nothing left to read on a connection and all bytes of a message have
arrived on it, the message was processed and the connection is gone. -/
theorem levels_answered (w : W) {inputs : List NetInput}
    (hadm : AlwaysStep (next regex routes) AdmitsLevels (start w) inputs) {fd : Fd}
    {message : Bytes} (hframed : SelfFramed message)
    (harrived : arrivals inputs fd = some message) :
    let s := inputs.foldl (next regex routes) (start w)
    (s.pool.poller.Registered fd → (s.sockets fd).queue = []) →
      s.pool.connectionPool.getClient fd = none ∧
        .processed fd message ∈ history s.pool.log fd := by
  intro s hquiet
  obtain ⟨hlevels, haccounts⟩ := levels_run w hadm fd
  rw [harrived] at haccounts
  exact haccounts.answered hlevels.inv.pool hframed hquiet

theorem twoArrivals_answered_with_levels :
    let s := twoArrivals.foldl (next (fun _ => .ok fun _ => none) []) (start ())
    s.pool.connectionPool.getClient 3 = none ∧
      .processed 3 (ascii "GET /a HTTP/1.1\r\n\r\n") ∈ history s.pool.log 3 := by
  have hadm : AlwaysStep (next (fun _ => .ok fun _ => none) []) AdmitsLevels (start ())
      twoArrivals :=
    ⟨⟨by decide, rfl⟩, ⟨rfl, by decide, by decide⟩, (by decide : ascii "/1.1\r\n\r\n" ≠ []),
      trivial, trivial⟩
  exact levels_answered () hadm selfFramed_twoArrivals rfl (by decide)

/-! ## With edges -/

/-- `epoll_wait` reports a descriptor whose flag is raised when there is something to read
on it. -/
def AdmitsEdges (s : Net W) (input : NetInput) : Prop :=
  s.Admits input ∧
    match input with
    | .wait fds => ∀ fd ∈ fds, (s.sockets fd).queue ≠ []
    | .connect .. | .arrive .. | .handle _ => True

/-- Levels would report it as well. -/
theorem AdmitsEdges.admitsLevels {s : Net W} {input : NetInput} (h : s.AdmitsEdges input) :
    s.AdmitsLevels input := by
  cases input with
  | connect fd data => exact h.1
  | arrive fd data => exact h.1
  | handle send => trivial
  | wait fds =>
      obtain ⟨⟨hidle, hnodup, hreported⟩, hqueues⟩ := h
      exact ⟨hidle, hnodup, fun fd hmem => ⟨(hreported fd hmem).1, hqueues fd hmem⟩⟩

/-- In every run with edges in which the peers keep their direction open, no event finds an
empty queue.  So every connection that is closed was answered before, and at any point what
has arrived on a connection is what its client object has read and what is still queued, or
begins with the request that was processed. -/
theorem edges_conserve (w : W) {inputs : List NetInput}
    (hadm : AlwaysStep (next regex routes) AdmitsEdges (start w) inputs) :
    AlwaysStep (next regex routes) Finds (start w) inputs ∧
      Always (next regex routes) AnsweredBeforeClosed (start w) inputs ∧
      ∀ fd, (inputs.foldl (next regex routes) (start w)).AccountsAt fd (arrivals inputs fd) := by
  have hlevels : AlwaysStep (next regex routes) AdmitsLevels (start w) inputs :=
    hadm.imp fun _ _ hinput => hinput.admitsLevels
  have hfinds : AlwaysStep (next regex routes) Finds (start w) inputs := by
    refine AlwaysStep.of_inv ?_ ?_ (levels_start w) hlevels
    · exact fun _ _ hs hinput => levels_next hs hinput
    · exact fun _ input hs _ => hs.finds input
  refine ⟨hfinds, ?_, fun fd => (levels_run w hlevels fd).2⟩
  have hanswered := Machine.always_of_ok
    (fun s input (hs : s.Inv ∧ s.AnsweredBeforeClosed) (hinput : s.AdmitsEdges input) hfound =>
      ⟨inv_next hs.1 hinput.1, answeredBeforeClosed_next hs.1 hinput.1 hfound hs.2⟩)
    ⟨inv_start w, fun _ hmem => absurd hmem List.not_mem_nil⟩ hadm hfinds
  exact hanswered.imp fun _ hs => hs.2

/-- The second piece of a message arrives before the first one is read.  The flag that it
raises is not reported, since both are read at once, and the third piece is. -/
def threePieces : List NetInput :=
  [.connect 3 (ascii "GET /"), .wait [3], .arrive 3 (ascii "a HTTP"), .handle .wouldBlock,
    .wait [], .arrive 3 (ascii "/1.1\r\n\r\n"), .wait [3], .handle (.accepted 9)]

theorem threePieces_conserved :
    ∃ request, .processed 3 request ∈
      history (threePieces.foldl (next (fun _ => .ok fun _ => none) []) (start ())).pool.log 3 := by
  have hadm : AlwaysStep (next (fun _ => .ok fun _ => none) []) AdmitsEdges (start ())
      threePieces :=
    ⟨⟨⟨by decide, rfl⟩, trivial⟩, ⟨⟨rfl, by decide, by decide⟩, by decide⟩,
      ⟨(by decide : ascii "a HTTP" ≠ []), trivial⟩, ⟨trivial, trivial⟩,
      ⟨⟨rfl, by decide, by decide⟩, by decide⟩,
      ⟨(by decide : ascii "/1.1\r\n\r\n" ≠ []), trivial⟩,
      ⟨⟨rfl, by decide, by decide⟩, by decide⟩, ⟨trivial, trivial⟩, trivial⟩
  exact (edges_conserve () hadm).2.1.last 3 (List.mem_of_getLast? rfl)

/-! ## How many events it takes -/

/-- The input neither adds a connection under the descriptor nor brings bytes for it. -/
def Leaves (fd : Fd) : NetInput → Prop
  | .connect fd' _ | .arrive fd' _ => fd' ≠ fd
  | .wait _ | .handle _ => True

/-- The loop handles an event for the descriptor. -/
def handles (fd : Fd) (s : Net W) : NetInput → Bool
  | .handle _ => decide (s.batch.head? = some fd)
  | .connect .. | .arrive .. | .wait _ => false

/-- The number of bytes that a connection has not read yet. -/
def unread (fd : Fd) (s : Net W) : Nat :=
  if (s.pool.connectionPool.getClient fd).isSome then (s.sockets fd).queue.length else 0

theorem unread_of_same {fd : Fd} {s s' : Net W}
    (hget : s'.pool.connectionPool.getClient fd = s.pool.connectionPool.getClient fd)
    (hqueue : (s'.sockets fd).queue = (s.sockets fd).queue) : s'.unread fd = s.unread fd := by
  rw [unread, unread, hget, hqueue]

/-- An event for the descriptor takes as much as one `recv` can. -/
theorem unread_handleEvent {s : Net W} (hs : s.pool.Consistent) (fd fd' : Fd) (rest : List Fd)
    (send : SendResult) :
    (s.handleEvent regex routes fd' rest send).unread fd ≤
      s.unread fd - recvCapacity * (decide (fd' = fd)).toNat := by
  cases hget : s.pool.connectionPool.getClient fd' with
  | none =>
      have hsame : (s.handleEvent regex routes fd' rest send).unread fd = s.unread fd := by
        refine unread_of_same (by rw [pool_handleEvent_of_none regex routes hget]) ?_
        by_cases hfd : fd = fd'
        · subst hfd
          simp [Net.handleEvent, hget]
        · simp [Net.handleEvent, hfd]
      rw [hsame]
      by_cases hfd : fd' = fd
      · subst hfd
        simp [unread, hget]
      · simp [hfd]
  | some client =>
      have hpool := pool_handleEvent regex routes hs hget rest send
      by_cases hfd : fd' = fd
      · subst hfd
        have hqueue : ((s.handleEvent regex routes fd' rest send).sockets fd').queue =
            (s.sockets fd').queue.drop recvCapacity := by
          simp [Net.handleEvent, hget]
        rw [unread, unread, hget, hqueue]
        split <;> simp
      · have hsame : (s.handleEvent regex routes fd' rest send).unread fd = s.unread fd := by
          refine unread_of_same ?_ (by simp [Net.handleEvent, Ne.symm hfd])
          rw [hpool]
          exact Pool.getClient_settle_of_ne _ _ _ (Ne.symm hfd)
        simp [hsame, hfd]

/-- No step adds to what is unread on a descriptor that it leaves. -/
theorem unread_next {s : Net W} (hs : s.Levels) {fd : Fd} {input : NetInput}
    (hadm : s.AdmitsLevels input) (hleaves : Leaves fd input) :
    (s.next regex routes input).unread fd ≤
      s.unread fd - recvCapacity * (s.handles fd input).toNat := by
  cases input with
  | connect fd' data =>
      have hpool : s.pool.next regex routes (.addClient fd') = s.pool.enroll fd' :=
        congrArg Prod.snd (Pool.addClient_of_new hadm.1 hadm.2 (hs.inv.pool.not_registered hadm.2))
      refine Nat.le_of_eq (unread_of_same ?_ ?_)
      · simp only [next, setSocket, hpool]
        exact ConnectionPool.getClient_put_of_ne (Ne.symm hleaves) _
      · simp [next, setSocket, Ne.symm hleaves]
  | arrive fd' data =>
      exact Nat.le_of_eq (unread_of_same rfl (by simp [next, setSocket, Ne.symm hleaves]))
  | wait fds =>
      exact Nat.le_of_eq (unread_of_same rfl (by simp only [next]; split <;> rfl))
  | handle send =>
      cases hbatch : s.batch with
      | nil =>
          rw [next_handle_nil hbatch]
          simp [handles, hbatch]
      | cons fd' rest =>
          rw [next_handle_cons hbatch]
          simpa [handles, hbatch] using unread_handleEvent hs.inv.pool fd fd' rest send

/-- An input that leaves a descriptor brings nothing under it. -/
theorem noteArrival_of_leaves {fd : Fd} {input : NetInput} (h : Leaves fd input)
    (arrived : Fd → Option Bytes) : noteArrival arrived input fd = arrived fd := by
  cases input with
  | connect fd' data => exact Function.update_of_ne (Ne.symm h) ..
  | arrive fd' data => exact Function.update_of_ne (Ne.symm h) ..
  | wait | handle => rfl

theorem arrivals_append_of_leaves {fd : Fd} (before : List NetInput) {after : List NetInput}
    (hafter : ∀ input ∈ after, Leaves fd input) :
    arrivals (before ++ after) fd = arrivals before fd := by
  rw [arrivals, List.foldl_append]
  show after.foldl noteArrival (arrivals before) fd = arrivals before fd
  generalize arrivals before = arrived
  induction after generalizing arrived with
  | nil => rfl
  | cons input after ih =>
      obtain ⟨hinput, hrest⟩ := List.forall_mem_cons.mp hafter
      rw [List.foldl_cons, ih hrest, noteArrival_of_leaves hinput]

/-- And no connection waits longer for its answer than its own message takes: once all
bytes of it have arrived, so many events for the connection are enough that the reads of
4096 bytes cover it, whatever happens in between. -/
theorem levels_answered_within (w : W) {before after : List NetInput}
    (hadm : AlwaysStep (next regex routes) AdmitsLevels (start w) (before ++ after)) {fd : Fd}
    {message : Bytes} (hframed : SelfFramed message)
    (harrived : arrivals before fd = some message)
    (hafter : ∀ input ∈ after, Leaves fd input)
    (hevents : message.length ≤ recvCapacity * Machine.countSteps (next regex routes) (handles fd)
      (before.foldl (next regex routes) (start w)) after) :
    let s := (before ++ after).foldl (next regex routes) (start w)
    s.pool.connectionPool.getClient fd = none ∧
      .processed fd message ∈ history s.pool.log fd := by
  intro s
  obtain ⟨hbefore, hadmAfter⟩ := Machine.alwaysStep_append.mp hadm
  obtain ⟨hlevels, haccounts⟩ := levels_run w hadm fd
  obtain ⟨hlevels', haccounts'⟩ := levels_run w hbefore fd
  -- what is unread is part of the message
  have hunread : (before.foldl (next regex routes) (start w)).unread fd ≤ message.length := by
    rw [unread]
    split
    · next hsome =>
        obtain ⟨client, hclient⟩ := Option.isSome_iff_exists.mp hsome
        have hmessage := (haccounts'.held client hclient).symm.trans harrived
        rw [← Option.some.inj hmessage, List.length_append]
        exact Nat.le_add_left ..
    · exact Nat.zero_le _
  have hrun : s.unread fd ≤ (before.foldl (next regex routes) (start w)).unread fd -
      recvCapacity * Machine.countSteps (next regex routes) (handles fd)
        (before.foldl (next regex routes) (start w)) after := by
    rw [show s = after.foldl (next regex routes) (before.foldl (next regex routes) (start w)) from
      List.foldl_append]
    exact Machine.measure_le_of_countSteps (fun s input hs hinput => levels_next hs hinput.1)
      (fun s input hs hinput => unread_next hs hinput.1 hinput.2) hlevels'
      (hadmAfter.and (AlwaysStep.of_forall_mem hafter))
  have hless : s.unread fd = 0 := Nat.le_zero.mp (Nat.le_trans hrun (by omega))
  rw [(arrivals_append_of_leaves before hafter).trans harrived] at haccounts
  refine haccounts.answered hlevels.inv.pool hframed fun hreg => ?_
  have hsome := (hlevels.inv.pool fd).key.mpr hreg
  rw [unread, if_pos hsome] at hless
  exact List.eq_nil_of_length_eq_zero hless

theorem twoArrivals_answered_within :
    let s := twoArrivals.foldl (next (fun _ => .ok fun _ => none) []) (start ())
    s.pool.connectionPool.getClient 3 = none ∧
      .processed 3 (ascii "GET /a HTTP/1.1\r\n\r\n") ∈ history s.pool.log 3 := by
  have hadm : AlwaysStep (next (fun _ => .ok fun _ => none) []) AdmitsLevels (start ())
      (twoArrivals.take 3 ++ twoArrivals.drop 3) :=
    ⟨⟨by decide, rfl⟩, ⟨rfl, by decide, by decide⟩, (by decide : ascii "/1.1\r\n\r\n" ≠ []),
      trivial, trivial⟩
  have hleaves : ∀ input ∈ twoArrivals.drop 3, Leaves 3 input := by
    intro input hinput
    obtain rfl := List.mem_singleton.mp hinput
    trivial
  exact levels_answered_within () hadm selfFramed_twoArrivals rfl hleaves (by decide)

end Net

end Fion.Network
