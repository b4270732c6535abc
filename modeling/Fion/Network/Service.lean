import Fion.Machine.Fairness
import Fion.Network.Levels

/-!
# Every request is served

In a fair run the loop gets through each batch of events, and the kernel does not pass over
a descriptor for ever that it could report.  A message all of whose bytes have arrived is
then processed in the end, whatever the other connections do, as long as the rest of its
bytes is announced.

With levels it always is (`levels_served`): each batch that reports the connection leaves
less of the message unread, so that only finitely many can be needed.  With edges it may
not be, and the message is processed exactly when it is (`edges_served_iff`).
-/

namespace Fion.Network

open Cpp (Bytes ascii)
open Machine (AlwaysStep EndlessRun StronglyFair WeaklyFair)

variable {W : Type}

namespace Net

section Steps

variable (regex : RegexEngine) (routes : List (Route W)) (admits : Net W → NetInput → Prop)

/-- A step of another pool, which changes nothing but the state of the user code, or one
that leaves a descriptor to what has arrived on it. -/
def LeavingStep (fd : Fd) (s s' : Net W) : Prop :=
  (∃ w, s' = s.setWorld w) ∨
    ∃ input, admits s input ∧ Leaves fd input ∧ s' = s.next regex routes input

/-- The loop handles the next event. -/
def HandlesNext (s s' : Net W) : Prop :=
  s.batch ≠ [] ∧ ∃ send, s' = s.next regex routes (.handle send)

/-- `kevent` or `epoll_wait` reports the descriptor. -/
def Reports (fd : Fd) (s s' : Net W) : Prop :=
  ∃ fds, admits s (.wait fds) ∧ fd ∈ fds ∧ s' = s.next regex routes (.wait fds)

end Steps

variable {regex : RegexEngine} {routes : List (Route W)} {admits : Net W → NetInput → Prop}
  {Kept : Net W → Prop} {fd : Fd} {message : Bytes}

/-! ## Getting through a batch -/

/-- As long as there are events to handle, none are added. -/
theorem Polling.batch_step (p : Polling regex routes admits Kept fd) {s s' : Net W}
    (h : Kept s) (hbatch : s.batch ≠ []) (hstep : LeavingStep regex routes admits fd s s') :
    s'.batch = s.batch ∨ s'.batch.length < s.batch.length := by
  obtain ⟨w, rfl⟩ | ⟨input, hadm, -, rfl⟩ := hstep
  · exact .inl rfl
  cases input with
  | connect | arrive => exact .inl rfl
  | wait fds => exact absurd (p.idle s fds hadm) hbatch
  | handle send =>
      obtain ⟨fd', rest, hcons⟩ := List.exists_cons_of_ne_nil hbatch
      refine .inr ?_
      rw [next_handle_cons hcons, handleEvent_batch (p.inv s h).pool, hcons]
      exact Nat.lt_succ_self _

/-- The way to the end of a batch. -/
def Polling.batchProgress (p : Polling regex routes admits Kept fd) :
    Machine.Progress (LeavingStep regex routes admits fd)
      (fun _ : Unit => HandlesNext regex routes) Kept (fun s : Net W => s.batch = []) Nat where
  distance s := s.batch.length
  Helps _ _ := True
  helper _ _ _ := ⟨(), trivial⟩
  possible _ _ _ hbatch _ := ⟨_, hbatch, .wouldBlock, rfl⟩
  nearer _ s s' h hbatch _ hact := by
    obtain ⟨-, send, rfl⟩ := hact
    obtain ⟨fd', rest, hcons⟩ := List.exists_cons_of_ne_nil hbatch
    show (s.next regex routes (.handle send)).batch.length < s.batch.length
    rw [next_handle_cons hcons, handleEvent_batch (p.inv s h).pool, hcons]
    exact Nat.lt_succ_self _
  kept _ s s' h hbatch _ hstep :=
    (p.batch_step h hbatch hstep).elim
      (fun hsame => .inr ⟨congrArg List.length hsame, trivial⟩) .inl

theorem Polling.keeps_step (p : Polling regex routes admits Kept fd) {s s' : Net W} (h : Kept s)
    (hstep : LeavingStep regex routes admits fd s s') : Kept s' := by
  obtain ⟨w, rfl⟩ | ⟨input, hadm, -, rfl⟩ := hstep
  · exact p.worlds s w h
  exact p.keeps s input h hadm

/-- The loop calls the poller again and again. -/
theorem Polling.idle_again (p : Polling regex routes admits Kept fd) {run : Nat → Net W}
    (hrun : EndlessRun (LeavingStep regex routes admits fd) run)
    (hloop : WeaklyFair (HandlesNext regex routes) run) {m : Nat} (h : Kept (run m)) :
    ∃ m', m ≤ m' ∧ (run m').batch = [] :=
  p.batchProgress.reaches (fun _ _ hs hstep => p.keeps_step hs hstep) hrun (fun _ => hloop) h

/-! ## A message that has arrived -/

/-- The message has arrived on the descriptor, and is accounted for. -/
structure Awaits (Kept : Net W → Prop) (fd : Fd) (message : Bytes) (s : Net W) : Prop where
  kept : Kept s
  accounts : s.AccountsAt fd (some message)

/-- It stays so. -/
theorem Awaits.step (p : Polling regex routes admits Kept fd) {s s' : Net W}
    (h : Awaits Kept fd message s) (hstep : LeavingStep regex routes admits fd s s') :
    Awaits Kept fd message s' := by
  refine ⟨p.keeps_step h.kept hstep, ?_⟩
  obtain ⟨w, rfl⟩ | ⟨input, hadm, hleaves, rfl⟩ := hstep
  · exact h.accounts.frame rfl rfl rfl
  have haccounts : (s.next regex routes input).AccountsAt fd
      (noteArrival (fun _ => some message) input fd) :=
    p.accountsAt_next h.kept h.accounts hadm
  rwa [noteArrival_of_leaves hleaves] at haccounts

/-- And does so all along a run. -/
theorem Awaits.always (p : Polling regex routes admits Kept fd) {run : Nat → Net W}
    (h : Awaits Kept fd message (run 0))
    (hrun : EndlessRun (LeavingStep regex routes admits fd) run) (m : Nat) :
    Awaits Kept fd message (run m) :=
  hrun.always (Awaits Kept fd message) (fun _ _ h hstep => h.step p hstep) h (Nat.zero_le m)

/-- A connection that has not been answered has something to read. -/
theorem Awaits.ready {s : Net W} (h : Awaits Kept fd message s) (hs : s.Inv)
    (hframed : SelfFramed message) (hopen : s.pool.connectionPool.getClient fd ≠ none) :
    s.pool.poller.Registered fd ∧ (s.sockets fd).queue ≠ [] := by
  refine ⟨(hs.pool fd).key.mp (Option.isSome_iff_ne_none.mpr hopen), fun hqueue => hopen ?_⟩
  exact (h.accounts.answered hs.pool hframed fun _ => hqueue).1

/-- When the connection is gone, the message was processed. -/
theorem Awaits.processed {s : Net W} (h : Awaits Kept fd message s) (hs : s.Inv)
    (hframed : SelfFramed message) (hgone : s.pool.connectionPool.getClient fd = none) :
    .processed fd message ∈ history s.pool.log fd :=
  (h.accounts.answered hs.pool hframed fun hreg => absurd hreg (hs.pool.not_registered hgone)).2

/-! ## With levels -/

/-- Nothing is added to what is unread. -/
theorem unread_step {s s' : Net W} (h : s.Levels)
    (hstep : LeavingStep regex routes AdmitsLevels fd s s') : s'.unread fd ≤ s.unread fd := by
  obtain ⟨w, rfl⟩ | ⟨input, hadm, hleaves, rfl⟩ := hstep
  · exact Nat.le_refl _
  exact Nat.le_trans (unread_next h hadm hleaves) (Nat.sub_le ..)

/-- No more than so much is unread on the descriptor, and less when no event of it is in
hand. -/
structure Shrinks (fd : Fd) (bound : Nat) (s : Net W) : Prop where
  levels : s.Levels
  bounded : s.unread fd ≤ bound
  less : fd ∉ s.batch → s.unread fd < bound

/-- This stays so too, since an event that was in hand has then been handled. -/
theorem Shrinks.step {bound : Nat} {s s' : Net W} (h : Shrinks fd bound s) (hbound : 0 < bound)
    (hstep : LeavingStep regex routes AdmitsLevels fd s s') : Shrinks fd bound s' := by
  have hunread := unread_step h.levels hstep
  refine ⟨(levels_polling fd).keeps_step h.levels hstep, Nat.le_trans hunread h.bounded,
    fun hnot => ?_⟩
  by_cases hmem : fd ∈ s.batch
  · obtain ⟨w, rfl⟩ | ⟨input, hadm, hleaves, rfl⟩ := hstep
    · exact absurd hmem hnot
    cases input with
    | connect | arrive => exact absurd hmem hnot
    | wait fds =>
        rw [hadm.1] at hmem
        exact absurd hmem List.not_mem_nil
    | handle send =>
        obtain ⟨fd', rest, hcons⟩ := List.exists_cons_of_ne_nil (List.ne_nil_of_mem hmem)
        rw [next_handle_cons hcons, handleEvent_batch h.levels.inv.pool] at hnot
        rw [hcons] at hmem
        obtain rfl := (List.mem_cons.mp hmem).resolve_right hnot
        have hhandled : s.handles fd (.handle send) = true := by simp [handles, hcons]
        have htaken : (s.next regex routes (.handle send)).unread fd ≤
            s.unread fd - recvCapacity * (s.handles fd (.handle send)).toNat :=
          unread_next h.levels hadm hleaves
        rw [hhandled] at htaken
        have hbounded := h.bounded
        have hcapacity : 0 < recvCapacity := by decide
        simp only [Bool.toNat_true] at htaken
        omega
  · exact Nat.lt_of_le_of_lt hunread (h.less hmem)

/-- After any point, the connection is gone some time or has less to read. -/
theorem less_unread (hframed : SelfFramed message) {run : Nat → Net W}
    (hrun : EndlessRun (LeavingStep regex routes AdmitsLevels fd) run)
    (hloop : WeaklyFair (HandlesNext regex routes) run)
    (hkernel : StronglyFair (Reports regex routes AdmitsLevels fd) run)
    (hawaits : ∀ m, Awaits Levels fd message (run m)) (m : Nat) :
    ∃ m', m ≤ m' ∧ ((run m').pool.connectionPool.getClient fd = none ∨
      (run m').unread fd < (run m).unread fd) := by
  have hpolling : Polling regex routes AdmitsLevels Levels fd := levels_polling fd
  by_contra hnever
  have hready : ∀ j, m ≤ j → (run j).pool.poller.Registered fd ∧
      ((run j).sockets fd).queue ≠ [] := fun j hj =>
    (hawaits j).ready (hawaits j).kept.inv hframed fun hnone => hnever ⟨j, hj, .inl hnone⟩
  -- the descriptor can be reported whenever a batch is done
  have hoften : ∀ j, ∃ i, j ≤ i ∧ ∃ s, Reports regex routes AdmitsLevels fd (run i) s := by
    intro j
    obtain ⟨i, hi, hbatch⟩ := hpolling.idle_again hrun hloop (hawaits (max j m)).kept
    have hi' := hready i (Nat.le_trans (Nat.le_max_right j m) hi)
    refine ⟨i, Nat.le_trans (Nat.le_max_left j m) hi, _, [fd], ⟨hbatch, by simp, ?_⟩,
      List.mem_singleton_self fd, rfl⟩
    intro fd' hmem
    obtain rfl := List.mem_singleton.mp hmem
    exact hi'
  obtain ⟨j, hj, fds, hadm, hmem, hnext⟩ := hkernel hoften m
  have hbounded : (run (j + 1)).unread fd ≤ (run m).unread fd :=
    (hrun.always (fun s => s.Levels ∧ s.unread fd ≤ (run m).unread fd)
      (fun s s' hs hstep => ⟨hpolling.keeps_step hs.1 hstep,
        Nat.le_trans (unread_step hs.1 hstep) hs.2⟩)
      ⟨(hawaits m).kept, Nat.le_refl _⟩ (Nat.le_succ_of_le hj)).2
  have hbatch : fd ∈ (run (j + 1)).batch := by
    rw [hnext]
    exact hmem
  have hpos : 0 < (run m).unread fd := by
    obtain ⟨hreg, hqueue⟩ := hready m (Nat.le_refl m)
    rw [unread, if_pos (((hawaits m).kept.inv.pool fd).key.mpr hreg)]
    exact List.length_pos_iff.mpr hqueue
  -- and once it is, the event is handled before the batch is done
  obtain ⟨i, hi, hidle⟩ := hpolling.idle_again hrun hloop (hawaits (j + 1)).kept
  have hshrinks : Shrinks fd ((run m).unread fd) (run i) :=
    hrun.always (Shrinks fd ((run m).unread fd)) (fun s s' hs hstep => hs.step hpos hstep)
      ⟨(hawaits (j + 1)).kept, hbounded, fun hnot => absurd hbatch hnot⟩ hi
  refine hnever ⟨i, Nat.le_trans (Nat.le_succ_of_le hj) hi, .inr (hshrinks.less ?_)⟩
  rw [hidle]
  exact List.not_mem_nil

/-- So it is gone some time, and then the message was processed. -/
theorem levels_served (hframed : SelfFramed message) {run : Nat → Net W}
    (h : Awaits Levels fd message (run 0))
    (hrun : EndlessRun (LeavingStep regex routes AdmitsLevels fd) run)
    (hloop : WeaklyFair (HandlesNext regex routes) run)
    (hkernel : StronglyFair (Reports regex routes AdmitsLevels fd) run) :
    ∃ m, (run m).pool.connectionPool.getClient fd = none ∧
      .processed fd message ∈ history (run m).pool.log fd := by
  have hawaits := Awaits.always (levels_polling fd) h hrun
  obtain ⟨m, -, hgone⟩ := Machine.reached_of_nearer run
    (fun s => s.pool.connectionPool.getClient fd = none) (unread fd) fun m (_ : 0 ≤ m) =>
      less_unread hframed hrun hloop hkernel hawaits m
  exact ⟨m, hgone, (hawaits m).processed (hawaits m).kept.inv hframed hgone⟩

/-! ## With edges -/

/-- An input that no event of the descriptor finds an empty queue at. -/
def AdmitsFinding (fd : Fd) (s : Net W) (input : NetInput) : Prop :=
  s.Admits input ∧ s.FindsAt fd input

theorem edges_polling (fd : Fd) :
    Polling regex routes (AdmitsFinding fd) (Inv (W := W)) fd where
  inv _ h := h
  keeps _ _ h hadm := inv_next h hadm.1
  connects _ _ _ hadm := hadm.1
  idle _ _ hadm := hadm.1.1
  worlds _ w h := h.setWorld w
  finds _ _ _ hadm := hadm.2

/-- A descriptor that no bytes arrive on gets no edge. -/
theorem edge_step {s s' : Net W} (hedge : (s.sockets fd).edge = false)
    (hstep : LeavingStep regex routes (AdmitsFinding fd) fd s s') :
    (s'.sockets fd).edge = false := by
  obtain ⟨w, rfl⟩ | ⟨input, hadm, hleaves, rfl⟩ := hstep
  · exact hedge
  cases input with
  | connect fd' data => simpa [next, setSocket, Ne.symm hleaves] using hedge
  | arrive fd' data => simpa [next, setSocket, Ne.symm hleaves] using hedge
  | wait fds =>
      simp only [next]
      split
      · rfl
      · exact hedge
  | handle send =>
      cases hbatch : s.batch with
      | nil =>
          rw [next_handle_nil hbatch]
          exact hedge
      | cons fd' rest =>
          rw [next_handle_cons hbatch]
          by_cases hfd : fd = fd'
          · subst hfd
            simpa [handleEvent] using hedge
          · simpa [handleEvent, hfd] using hedge

/-- The descriptor has input that nothing announces. -/
structure Stalled (fd : Fd) (s : Net W) : Prop where
  inv : s.Inv
  registered : s.pool.poller.Registered fd
  input : (s.sockets fd).queue ≠ []
  noEdge : (s.sockets fd).edge = false
  notReported : fd ∉ s.batch

theorem stalled_of_not_notifiedAt {s : Net W} (h : s.Inv) (hnot : ¬ s.NotifiedAt fd) :
    Stalled fd s := by
  rw [NotifiedAt] at hnot
  push Not at hnot
  obtain ⟨hreg, hqueue, hedge, hbatch⟩ := hnot
  exact ⟨h, hreg, hqueue, Bool.eq_false_iff.mpr hedge, hbatch⟩

/-- It will never be announced when no more bytes arrive. -/
theorem Stalled.step {s s' : Net W} (h : Stalled fd s)
    (hstep : LeavingStep regex routes (AdmitsFinding fd) fd s s') : Stalled fd s' := by
  have hinv := (edges_polling fd).keeps_step h.inv hstep
  have hedge := edge_step h.noEdge hstep
  obtain ⟨w, rfl⟩ | ⟨input, ⟨hadm, -⟩, hleaves, rfl⟩ := hstep
  · exact ⟨hinv, h.registered, h.input, hedge, h.notReported⟩
  cases input with
  | connect fd' data =>
      have hne : fd ≠ fd' := Ne.symm hleaves
      have hpool : s.pool.next regex routes (.addClient fd') = s.pool.enroll fd' :=
        congrArg Prod.snd (Pool.addClient_of_new hadm.1 hadm.2 (h.inv.pool.not_registered hadm.2))
      refine ⟨hinv, ?_, ?_, hedge, h.notReported⟩
      · simp only [next, setSocket, hpool]
        exact (Poller.registered_register_of_ne hne _).mpr h.registered
      · simpa [next, setSocket, hne] using h.input
  | arrive fd' data =>
      have hne : fd ≠ fd' := Ne.symm hleaves
      exact ⟨hinv, h.registered, by simpa [next, setSocket, hne] using h.input, hedge,
        h.notReported⟩
  | wait fds =>
      have hnot : fd ∉ fds := fun hmem => by
        have hset := (hadm.2.2 fd hmem).2
        rw [h.noEdge] at hset
        cases hset
      exact ⟨hinv, h.registered, by simpa [next, hnot] using h.input, hedge, hnot⟩
  | handle send =>
      cases hbatch : s.batch with
      | nil =>
          rw [next_handle_nil hbatch]
          exact h
      | cons fd' rest =>
          have hnot := h.notReported
          rw [hbatch, List.mem_cons, not_or] at hnot
          obtain ⟨pool, heq, hexit⟩ := callback_cases regex routes h.inv.pool fd' send
          rw [next_handle_cons hbatch] at hinv hedge ⊢
          refine ⟨hinv, ?_, by simpa [handleEvent, hnot.1] using h.input, hedge, ?_⟩
          · simp only [handleEvent, heq]
            exact (hexit.registered_of_ne hnot.1).mpr h.registered
          · rw [handleEvent_batch h.inv.pool]
            exact hnot.2

/-- Under a descriptor without a connection, none appears. -/
theorem gone_step {s s' : Net W} (h : s.Inv) (hgone : s.pool.connectionPool.getClient fd = none)
    (hstep : LeavingStep regex routes (AdmitsFinding fd) fd s s') :
    s'.pool.connectionPool.getClient fd = none := by
  obtain ⟨w, rfl⟩ | ⟨input, ⟨hadm, -⟩, hleaves, rfl⟩ := hstep
  · exact hgone
  cases input with
  | connect fd' data =>
      have hpool : s.pool.next regex routes (.addClient fd') = s.pool.enroll fd' :=
        congrArg Prod.snd (Pool.addClient_of_new hadm.1 hadm.2 (h.pool.not_registered hadm.2))
      simp only [next, setSocket, hpool]
      exact (ConnectionPool.getClient_put_of_ne (Ne.symm hleaves) _).trans hgone
  | arrive | wait => exact hgone
  | handle send =>
      cases hbatch : s.batch with
      | nil =>
          rw [next_handle_nil hbatch]
          exact hgone
      | cons fd' rest =>
          rw [next_handle_cons hbatch]
          cases hget : s.pool.connectionPool.getClient fd' with
          | none =>
              rw [pool_handleEvent_of_none regex routes hget]
              exact hgone
          | some client =>
              have hne : fd ≠ fd' := fun heq => by
                rw [← heq, hgone] at hget
                cases hget
              rw [pool_handleEvent regex routes h.pool hget]
              exact (Pool.getClient_settle_of_ne _ _ _ hne).trans hgone

/-- A connection is gone some time, and the message processed, exactly when what it has not
read is announced at any time. -/
theorem edges_served_iff (hframed : SelfFramed message) {run : Nat → Net W}
    (h : Awaits Inv fd message (run 0))
    (hrun : EndlessRun (LeavingStep regex routes (AdmitsFinding fd) fd) run)
    (hloop : WeaklyFair (HandlesNext regex routes) run)
    (hkernel : StronglyFair (Reports regex routes (AdmitsFinding fd) fd) run) :
    (∃ m, (run m).pool.connectionPool.getClient fd = none ∧
      .processed fd message ∈ history (run m).pool.log fd) ↔ ∀ m, (run m).NotifiedAt fd := by
  have hpolling : Polling regex routes (AdmitsFinding fd) Inv fd := edges_polling fd
  have hawaits := Awaits.always hpolling h hrun
  constructor
  · rintro ⟨k, hgone, -⟩ m
    by_contra hnot
    have hstalled := stalled_of_not_notifiedAt (hawaits m).kept hnot
    rcases Nat.le_total k m with hle | hle
    · have hgone' := (hrun.always
        (fun s => s.Inv ∧ s.pool.connectionPool.getClient fd = none)
        (fun s s' hs hstep => ⟨hpolling.keeps_step hs.1 hstep, gone_step hs.1 hs.2 hstep⟩)
        ⟨(hawaits k).kept, hgone⟩ hle).2
      exact (hawaits m).kept.pool.not_registered hgone' hstalled.registered
    · have hstalled' := hrun.always (Stalled fd) (fun _ _ hs hstep => hs.step hstep) hstalled hle
      exact (hawaits k).kept.pool.not_registered hgone hstalled'.registered
  · intro hnotified
    by_contra hnever
    have hready : ∀ j, (run j).pool.poller.Registered fd ∧ ((run j).sockets fd).queue ≠ [] :=
      fun j => (hawaits j).ready (hawaits j).kept hframed fun hgone =>
        hnever ⟨j, hgone, (hawaits j).processed (hawaits j).kept hframed hgone⟩
    -- between two batches it is an edge that announces the input
    have hedge : ∀ j, (run j).batch = [] → ((run j).sockets fd).edge = true := by
      intro j hbatch
      refine (hnotified j (hready j).1 (hready j).2).resolve_right ?_
      rw [hbatch]
      exact List.not_mem_nil
    have hoften : ∀ j, ∃ i, j ≤ i ∧
        ∃ s, Reports regex routes (AdmitsFinding fd) fd (run i) s := by
      intro j
      obtain ⟨i, hi, hbatch⟩ := hpolling.idle_again hrun hloop (hawaits j).kept
      refine ⟨i, hi, _, [fd], ⟨⟨hbatch, by simp, ?_⟩, trivial⟩, List.mem_singleton_self fd, rfl⟩
      intro fd' hmem
      obtain rfl := List.mem_singleton.mp hmem
      exact ⟨(hready i).1, hedge i hbatch⟩
    obtain ⟨j, -, fds, -, hmem, hnext⟩ := hkernel hoften 0
    -- the report takes the edge away, and there will be no other
    have hnone : ((run (j + 1)).sockets fd).edge = false := by
      rw [hnext]
      simp only [next, if_pos hmem]
    obtain ⟨i, hi, hbatch⟩ := hpolling.idle_again hrun hloop (hawaits (j + 1)).kept
    have hnone' := hrun.always (fun s => (s.sockets fd).edge = false)
      (fun _ _ hs hstep => edge_step hs hstep) hnone hi
    rw [hedge i hbatch] at hnone'
    cases hnone'

end Net

end Fion.Network
