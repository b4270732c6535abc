import Fion.Network.Threads

/-!
# Who owns a descriptor

An open descriptor belongs to the accept thread, from `accept` on, until it is
stored in the map of a pool, and to that map from then on until it is erased.  It
has one owner at any time (`Inv.owned`, `Inv.carried`, `Inv.entry_unique`), and
the owner is the one to close it.  So a number is not given out again while
anything is left that refers to the old connection: before a pool thread erases a
client it has unregistered the number, and no other event of its batch has it.

`Live` is what an event can rely on: the entry of its connection is in the map of
the pool and is not about to be registered.  Every registered descriptor is live,
so it stays live for the events of a batch while only other descriptors are
erased (`ThreadOk.frame`).
-/

namespace Fion.Network

variable {n : Nat}

/-! ## Ownership -/

/-- The accept thread has the descriptor and no map has it. -/
def AcceptThread.Holds : AcceptThread n → Fd → Conn → Prop
  | .accepted fd conn, fd', conn' => fd' = fd ∧ conn' = conn
  | .chosen fd conn _, fd', conn' => fd' = fd ∧ conn' = conn
  | .rejected fd conn, fd', conn' => fd' = fd ∧ conn' = conn
  | .idle, _, _ => False
  | .stored .., _, _ => False

/-- The accept thread is about to register the descriptor. -/
def AcceptThread.Registers : AcceptThread n → Fd → Prop
  | .stored fd _ _, fd' => fd' = fd
  | _, _ => False

/-- The thread has an event for the descriptor. -/
def PoolThread.Mentions : PoolThread → Fd → Prop
  | .polling, _ => False
  | .looping batch, fd => ∃ event ∈ batch, event.1 = fd
  | .handling event _ batch, fd => ∃ e ∈ event :: batch, e.1 = fd
  | .removing event _ batch, fd => ∃ e ∈ event :: batch, e.1 = fd

namespace System

/-- The connection is in the map of the pool, and its descriptor is not about to be
registered. -/
structure Live (s : System n) (i : Fin n) (fd : Fd) (conn : Conn) : Prop where
  entry : s.entry i fd = some conn
  settled : ¬ s.acceptThread.Registers fd

/-- The events are for different descriptors, which are registered and live. -/
structure Pending (s : System n) (i : Fin n) (batch : List Notice) : Prop where
  nodup : (batch.map Prod.fst).Nodup
  live : ∀ event ∈ batch, s.Registered i event.1 ∧ s.Live i event.1 event.2

/-- The client that a thread handles is the one its event is about, and the other
events of the batch are still to be relied on. -/
def ThreadOk (s : System n) (i : Fin n) : PoolThread → Prop
  | .polling => True
  | .looping batch => s.Pending i batch
  | .handling event client batch => client = event.2 ∧ s.Pending i (event :: batch)
  | .removing event client batch =>
      client = event.2 ∧ ¬ s.Registered i event.1 ∧ s.Live i event.1 event.2 ∧
        (∀ e ∈ batch, e.1 ≠ event.1) ∧ s.Pending i batch

/-- The invariant. -/
structure Inv (s : System n) : Prop where
  kernel : s.kernel.Sound
  entry_open : ∀ i fd conn, s.entry i fd = some conn → s.kernel.holder fd = some conn
  entry_unique : ∀ i j fd conn conn',
    s.entry i fd = some conn → s.entry j fd = some conn' → i = j
  owned : ∀ fd conn, s.kernel.holder fd = some conn →
    s.acceptThread.Holds fd conn ∨ ∃ i, s.entry i fd = some conn
  carried : ∀ fd conn, s.acceptThread.Holds fd conn →
    s.kernel.holder fd = some conn ∧ ∀ i, s.entry i fd = none
  stored : ∀ fd conn i, s.acceptThread = .stored fd conn i → s.entry i fd = some conn
  registered : ∀ i fd, s.Registered i fd → ∃ conn, s.Live i fd conn
  threads : ∀ i, s.ThreadOk i (s.threads i)

/-! ## What the steps change -/

theorem entry_put (s : System n) (i j : Fin n) (fd fd' : Fd) (conn : Conn) :
    (s.setConnectionPool i ((s.tables i).connectionPool.put fd conn)).entry j fd' =
      if j = i ∧ fd' = fd then some conn else s.entry j fd' := by
  by_cases hj : j = i
  · subst hj
    by_cases hfd : fd' = fd
    · subst hfd
      simp [entry, setConnectionPool]
    · simp [entry, setConnectionPool, hfd, ConnectionPool.getClient_put_of_ne]
  · simp [entry, setConnectionPool, hj]

theorem entry_removeClient (s : System n) (i j : Fin n) (fd fd' : Fd) :
    (s.setConnectionPool i ((s.tables i).connectionPool.removeClient fd)).entry j fd' =
      if j = i ∧ fd' = fd then none else s.entry j fd' := by
  by_cases hj : j = i
  · subst hj
    by_cases hfd : fd' = fd
    · subst hfd
      simp [entry, setConnectionPool]
    · simp [entry, setConnectionPool, hfd, ConnectionPool.getClient_removeClient_of_ne]
  · simp [entry, setConnectionPool, hj]

@[simp] theorem registered_setConnectionPool (s : System n) (i j : Fin n) (fd : Fd)
    (connectionPool : ConnectionPool Conn) :
    (s.setConnectionPool i connectionPool).Registered j fd ↔ s.Registered j fd := by
  by_cases hj : j = i
  · subst hj
    simp [Registered, setConnectionPool]
  · simp [Registered, setConnectionPool, hj]

@[simp] theorem entry_setPoller (s : System n) (i j : Fin n) (fd : Fd) (poller : Poller) :
    (s.setPoller i poller).entry j fd = s.entry j fd := by
  by_cases hj : j = i
  · subst hj
    simp [entry, setPoller]
  · simp [entry, setPoller, hj]

theorem registered_setPoller_self (s : System n) (i : Fin n) (fd : Fd) (poller : Poller) :
    (s.setPoller i poller).Registered i fd ↔ poller.Registered fd := by
  simp [Registered, setPoller]

theorem registered_setPoller_of_ne {i j : Fin n} (hj : j ≠ i) (s : System n) (fd : Fd)
    (poller : Poller) : (s.setPoller i poller).Registered j fd ↔ s.Registered j fd := by
  simp [Registered, setPoller, hj]

theorem setThread_setPoller_setThread (s : System n) (i : Fin n) (poller : Poller)
    (t t' : PoolThread) : ((s.setThread i t).setPoller i poller).setThread i t' =
      (s.setPoller i poller).setThread i t' := by
  simp [setThread, setPoller]

/-! ## What threads rely on -/

theorem Inv.threadOk {s : System n} (h : s.Inv) {i : Fin n} {thread : PoolThread}
    (hthread : s.threads i = thread) : s.ThreadOk i thread :=
  hthread ▸ h.threads i

theorem Pending.tail {s : System n} {i : Fin n} {event : Notice} {batch : List Notice}
    (h : s.Pending i (event :: batch)) : s.Pending i batch where
  nodup := (List.nodup_cons.mp h.nodup).2
  live := fun e he => h.live e (List.mem_cons_of_mem _ he)

/-- Without an entry in the map, a descriptor is not registered. -/
theorem Inv.not_registered_of_none {s : System n} (h : s.Inv) {i : Fin n} {fd : Fd}
    (hnone : s.entry i fd = none) : ¬ s.Registered i fd := by
  intro hreg
  obtain ⟨conn, hlive⟩ := h.registered i fd hreg
  exact nomatch hnone.symm.trans hlive.entry

/-- Nor is one that is about to be. -/
theorem Inv.not_registered_of_stored {s : System n} (h : s.Inv) {fd : Fd} {conn : Conn}
    {i : Fin n} (hstored : s.acceptThread = .stored fd conn i) : ¬ s.Registered i fd := by
  intro hreg
  obtain ⟨conn', hlive⟩ := h.registered i fd hreg
  exact hlive.settled (hstored ▸ rfl)

/-- Every descriptor a thread has an event for is live. -/
theorem ThreadOk.live {s : System n} {i : Fin n} {thread : PoolThread} (h : s.ThreadOk i thread)
    {fd : Fd} (hfd : thread.Mentions fd) : ∃ conn, s.Live i fd conn := by
  cases thread with
  | polling => exact absurd hfd id
  | looping batch =>
      obtain ⟨event, hevent, rfl⟩ := hfd
      exact ⟨_, (Pending.live h event hevent).2⟩
  | handling event client batch =>
      obtain ⟨e, he, rfl⟩ := hfd
      exact ⟨_, (h.2.live e he).2⟩
  | removing event client batch =>
      obtain ⟨e, he, rfl⟩ := hfd
      obtain ⟨-, -, hlive, -, hpending⟩ := h
      rcases List.mem_cons.mp he with rfl | he
      · exact ⟨_, hlive⟩
      · exact ⟨_, (hpending.live e he).2⟩

/-- A thread is not affected by what happens to other descriptors. -/
theorem ThreadOk.frame {s s' : System n} {i : Fin n} {thread : PoolThread}
    (h : s.ThreadOk i thread)
    (hreg : ∀ fd, thread.Mentions fd → (s'.Registered i fd ↔ s.Registered i fd))
    (hlive : ∀ fd conn, thread.Mentions fd → s.Live i fd conn → s'.Live i fd conn) :
    s'.ThreadOk i thread := by
  have hpending : ∀ batch, (∀ event ∈ batch, thread.Mentions event.1) → s.Pending i batch →
      s'.Pending i batch := by
    intro batch hmentions hp
    refine ⟨hp.nodup, fun event hevent => ?_⟩
    obtain ⟨hr, hl⟩ := hp.live event hevent
    exact ⟨(hreg _ (hmentions event hevent)).mpr hr, hlive _ _ (hmentions event hevent) hl⟩
  cases thread with
  | polling => trivial
  | looping batch => exact hpending batch (fun event hevent => ⟨event, hevent, rfl⟩) h
  | handling event client batch =>
      exact ⟨h.1, hpending _ (fun e he => ⟨e, he, rfl⟩) h.2⟩
  | removing event client batch =>
      obtain ⟨hclient, hunreg, hl, hother, hp⟩ := h
      have hself : PoolThread.Mentions (.removing event client batch) event.1 :=
        ⟨event, List.mem_cons_self, rfl⟩
      refine ⟨hclient, fun hr => hunreg ((hreg _ hself).mp hr), hlive _ _ hself hl, hother,
        hpending batch (fun e he => ⟨e, List.mem_cons_of_mem _ he, rfl⟩) hp⟩

theorem inv_empty : ({} : System n).Inv where
  kernel := Machine.Ledger.sound_empty
  entry_open := fun _ _ _ hentry => nomatch hentry
  entry_unique := fun _ _ _ _ _ hentry => nomatch hentry
  owned := fun _ _ hopen => nomatch hopen
  carried := fun _ _ hholds => absurd hholds id
  stored := fun _ _ _ hstored => nomatch hstored
  registered := fun i fd hreg => absurd hreg (by simp [Registered, Poller.Registered])
  threads := fun _ => trivial

theorem inv_setNextPoolIndex {s : System n} (h : s.Inv) (next : Nat) :
    ({ s with nextPoolIndex := next } : System n).Inv where
  kernel := h.kernel
  entry_open := h.entry_open
  entry_unique := h.entry_unique
  owned := h.owned
  carried := h.carried
  stored := h.stored
  registered := fun i fd hreg =>
    let ⟨conn, hlive⟩ := h.registered i fd hreg
    ⟨conn, hlive.entry, hlive.settled⟩
  threads := fun i => (h.threads i).frame (fun _ _ => Iff.rfl)
    (fun _ _ _ hlive => ⟨hlive.entry, hlive.settled⟩)

/-! ## Steps of one thread -/

/-- A step that only moves a pool thread keeps the invariant if the thread may be
there. -/
theorem inv_setThread {s : System n} (h : s.Inv) {i : Fin n} {thread : PoolThread}
    (hthread : s.ThreadOk i thread) : (s.setThread i thread).Inv where
  kernel := h.kernel
  entry_open := h.entry_open
  entry_unique := h.entry_unique
  owned := h.owned
  carried := h.carried
  stored := h.stored
  registered := fun i fd hreg =>
    let ⟨conn, hlive⟩ := h.registered i fd hreg
    ⟨conn, hlive.entry, hlive.settled⟩
  threads := by
    intro j
    have hok : s.ThreadOk j ((s.setThread i thread).threads j) := by
      by_cases hj : j = i
      · subst hj
        simpa [setThread] using hthread
      · simpa [setThread, hj] using h.threads j
    exact hok.frame (fun _ _ => Iff.rfl) (fun _ _ _ hlive => ⟨hlive.entry, hlive.settled⟩)

/-- A step that only moves the accept thread keeps the invariant if it still has
the same descriptor, or none. -/
theorem inv_setAccept {s : System n} (h : s.Inv) {thread : AcceptThread n}
    (hholds : ∀ fd conn, thread.Holds fd conn ↔ s.acceptThread.Holds fd conn)
    (hregisters : ∀ fd, ¬ thread.Registers fd) : (s.setAccept thread).Inv where
  kernel := h.kernel
  entry_open := h.entry_open
  entry_unique := h.entry_unique
  owned := fun fd conn hopen => (h.owned fd conn hopen).imp_left (hholds fd conn).mpr
  carried := fun fd conn hh => h.carried fd conn ((hholds fd conn).mp hh)
  stored := by
    rintro fd conn i heq
    have hthread : thread = .stored fd conn i := heq
    exact absurd rfl (hthread ▸ hregisters fd)
  registered := fun i fd hreg =>
    let ⟨conn, hlive⟩ := h.registered i fd hreg
    ⟨conn, hlive.entry, hregisters fd⟩
  threads := fun i => (h.threads i).frame (fun _ _ => Iff.rfl)
    (fun fd _ _ hlive => ⟨hlive.entry, hregisters fd⟩)

/-! ## Steps of the accept thread -/

/-- A number that is not open is accepted. -/
theorem inv_accept {s : System n} (h : s.Inv) (hidle : s.acceptThread = .idle) {fd : Fd}
    (hfree : s.kernel.holder fd = none) :
    ((s.setKernel (s.kernel.acquire fd)).setAccept (.accepted fd s.kernel.issued)).Inv := by
  have hne : ∀ i fd' conn, s.entry i fd' = some conn → fd' ≠ fd := by
    rintro i fd' conn hentry rfl
    rw [h.entry_open i fd' conn hentry] at hfree
    cases hfree
  constructor
  · exact h.kernel.acquire hfree
  · intro i fd' conn hentry
    exact (Machine.Ledger.holder_acquire_of_ne (hne i fd' conn hentry)).trans
      (h.entry_open i fd' conn hentry)
  · exact h.entry_unique
  · intro fd' conn hopen
    by_cases hfd : fd' = fd
    · subst hfd
      exact .inl ⟨rfl, (Option.some.inj ((Machine.Ledger.holder_acquire_self _ _).symm.trans
        hopen)).symm⟩
    · refine .inr ((h.owned fd' conn
        ((Machine.Ledger.holder_acquire_of_ne hfd).symm.trans hopen)).resolve_left ?_)
      rw [hidle]
      exact id
  · rintro fd' conn ⟨rfl, rfl⟩
    refine ⟨Machine.Ledger.holder_acquire_self _ _, fun i => ?_⟩
    cases hentry : s.entry i fd' with
    | none => exact hentry
    | some conn => exact absurd rfl (hne i fd' conn hentry)
  · rintro fd' conn i heq
    cases heq
  · intro i fd' hreg
    obtain ⟨conn, hlive⟩ := h.registered i fd' hreg
    exact ⟨conn, hlive.entry, id⟩
  · exact fun i => (h.threads i).frame (fun _ _ => Iff.rfl) (fun _ _ _ hlive => ⟨hlive.entry, id⟩)

/-- A rejected descriptor is closed by the accept thread. -/
theorem inv_close {s : System n} (h : s.Inv) {fd : Fd} {conn : Conn}
    (hrejected : s.acceptThread = .rejected fd conn) :
    ((s.setKernel (s.kernel.release fd)).setAccept .idle).Inv := by
  obtain ⟨hopen, hnone⟩ := h.carried fd conn (hrejected ▸ ⟨rfl, rfl⟩)
  constructor
  · exact h.kernel.release hopen
  · intro i fd' conn' hentry
    have hfd : fd' ≠ fd := by
      rintro rfl
      exact nomatch (hnone i).symm.trans hentry
    exact (Machine.Ledger.holder_release_of_ne hfd).trans (h.entry_open i fd' conn' hentry)
  · exact h.entry_unique
  · intro fd' conn' hopen
    by_cases hfd : fd' = fd
    · subst hfd
      exact nomatch (Machine.Ledger.holder_release_self _ _).symm.trans hopen
    · refine .inr ((h.owned fd' conn'
        ((Machine.Ledger.holder_release_of_ne hfd).symm.trans hopen)).resolve_left ?_)
      rw [hrejected]
      exact fun hholds => hfd hholds.1
  · exact fun fd' conn' hholds => absurd hholds id
  · rintro fd' conn' i heq
    cases heq
  · intro i fd' hreg
    obtain ⟨conn', hlive⟩ := h.registered i fd' hreg
    exact ⟨conn', hlive.entry, id⟩
  · exact fun i => (h.threads i).frame (fun _ _ => Iff.rfl) (fun _ _ _ hlive => ⟨hlive.entry, id⟩)

/-- A client is stored under a descriptor that no map has, so none is destroyed. -/
theorem storeClient_eq {s : System n} {i : Fin n} {fd : Fd} (hnone : s.entry i fd = none)
    (conn : Conn) : s.storeClient i fd conn =
      s.setConnectionPool i ((s.tables i).connectionPool.put fd conn) := by
  simp only [storeClient, destroyClient, hnone]

/-- What is in the maps after storing. -/
theorem entry_storeClient_iff {s : System n} {i : Fin n} {fd : Fd}
    (hnone : ∀ j, s.entry j fd = none) {conn : Conn} {j : Fin n} {fd' : Fd} {conn' : Conn} :
    (s.storeClient i fd conn).entry j fd' = some conn' ↔
      (j = i ∧ fd' = fd ∧ conn' = conn) ∨ s.entry j fd' = some conn' := by
  rw [storeClient_eq (hnone i), entry_put]
  by_cases heq : j = i ∧ fd' = fd
  · obtain ⟨rfl, rfl⟩ := heq
    simp [hnone, eq_comm]
  · rw [if_neg heq]
    exact (or_iff_right fun h => heq ⟨h.1, h.2.1⟩).symm

/-- What storing a client leaves as it is. -/
theorem storeClient_frame {s : System n} {i : Fin n} {fd : Fd} (hnone : s.entry i fd = none)
    (conn : Conn) : (s.storeClient i fd conn).kernel = s.kernel ∧
      (s.storeClient i fd conn).threads = s.threads ∧
      ∀ j fd', (s.storeClient i fd conn).Registered j fd' ↔ s.Registered j fd' := by
  rw [storeClient_eq hnone]
  exact ⟨rfl, rfl, fun j fd' => registered_setConnectionPool s i j fd' _⟩

/-- The accept thread hands its descriptor to a map. -/
theorem inv_store {s : System n} (h : s.Inv) {fd : Fd} {conn : Conn} {i : Fin n}
    (hchosen : s.acceptThread = .chosen fd conn i) :
    ((s.storeClient i fd conn).setAccept (.stored fd conn i)).Inv := by
  obtain ⟨hopen, hnone⟩ := h.carried fd conn (hchosen ▸ ⟨rfl, rfl⟩)
  obtain ⟨hkernel, hthreads, hreg⟩ := storeClient_frame (hnone i) conn
  have hentries : ∀ {j fd' conn'}, (s.storeClient i fd conn).entry j fd' = some conn' ↔
      (j = i ∧ fd' = fd ∧ conn' = conn) ∨ s.entry j fd' = some conn' :=
    entry_storeClient_iff hnone
  have hnew : (s.storeClient i fd conn).entry i fd = some conn :=
    hentries.mpr (.inl ⟨rfl, rfl, rfl⟩)
  have hne : ∀ j fd' conn', s.entry j fd' = some conn' → fd' ≠ fd := by
    rintro j fd' conn' hentry rfl
    exact nomatch (hnone j).symm.trans hentry
  have hlive : ∀ j fd' conn', s.Live j fd' conn' →
      ((s.storeClient i fd conn).setAccept (.stored fd conn i)).Live j fd' conn' :=
    fun j fd' conn' hl => ⟨hentries.mpr (.inr hl.entry), hne j fd' conn' hl.entry⟩
  constructor
  · exact hkernel ▸ h.kernel
  · intro j fd' conn' hentry
    refine (congrArg (·.holder fd') hkernel).trans ?_
    rcases hentries.mp hentry with ⟨-, rfl, rfl⟩ | hold
    · exact hopen
    · exact h.entry_open j fd' conn' hold
  · intro j k fd' conn₁ conn₂ hj hk
    rcases hentries.mp hj with ⟨rfl, rfl, -⟩ | holdj
    · rcases hentries.mp hk with ⟨rfl, -, -⟩ | holdk
      · rfl
      · exact absurd rfl (hne k fd' conn₂ holdk)
    · rcases hentries.mp hk with ⟨-, rfl, -⟩ | holdk
      · exact absurd rfl (hne j fd' conn₁ holdj)
      · exact h.entry_unique j k fd' conn₁ conn₂ holdj holdk
  · intro fd' conn' hopen'
    rcases h.owned fd' conn' ((congrArg (·.holder fd') hkernel).symm.trans hopen') with
      hholds | ⟨j, hentry⟩
    · rw [hchosen] at hholds
      obtain ⟨rfl, rfl⟩ := hholds
      exact .inr ⟨i, hnew⟩
    · exact .inr ⟨j, hentries.mpr (.inr hentry)⟩
  · exact fun fd' conn' hholds => absurd hholds id
  · rintro fd' conn' j heq
    obtain ⟨rfl, rfl, rfl⟩ := AcceptThread.stored.inj heq
    exact hnew
  · intro j fd' hregistered
    obtain ⟨conn', hl⟩ := h.registered j fd' ((hreg j fd').mp hregistered)
    exact ⟨conn', hlive j fd' conn' hl⟩
  · intro j
    show System.ThreadOk _ j ((s.storeClient i fd conn).threads j)
    rw [hthreads]
    exact (h.threads j).frame (fun fd' _ => hreg j fd') (fun fd' conn' _ => hlive j fd' conn')

/-- A pool's poller is changed where no event of its thread is concerned, and every
descriptor it then has is live. -/
theorem inv_setPoller {s : System n} (h : s.Inv) {i : Fin n} {poller : Poller}
    (hreg : ∀ fd, poller.Registered fd → ∃ conn, s.Live i fd conn)
    (hsame : ∀ fd, (s.threads i).Mentions fd → (poller.Registered fd ↔ s.Registered i fd)) :
    (s.setPoller i poller).Inv := by
  have hlive : ∀ j fd conn, s.Live j fd conn → (s.setPoller i poller).Live j fd conn :=
    fun j fd conn hl => ⟨(entry_setPoller ..).trans hl.entry, hl.settled⟩
  constructor
  · exact h.kernel
  · intro j fd conn hentry
    exact h.entry_open j fd conn ((entry_setPoller ..).symm.trans hentry)
  · intro j k fd conn conn' hj hk
    exact h.entry_unique j k fd conn conn' ((entry_setPoller ..).symm.trans hj)
      ((entry_setPoller ..).symm.trans hk)
  · intro fd conn hopen
    exact (h.owned fd conn hopen).imp_right fun ⟨j, hentry⟩ =>
      ⟨j, (entry_setPoller ..).trans hentry⟩
  · intro fd conn hholds
    obtain ⟨hopen, hnone⟩ := h.carried fd conn hholds
    exact ⟨hopen, fun j => (entry_setPoller ..).trans (hnone j)⟩
  · intro fd conn j hstored
    exact (entry_setPoller ..).trans (h.stored fd conn j hstored)
  · intro j fd hregistered
    have hold : ∃ conn, s.Live j fd conn := by
      by_cases hj : j = i
      · subst hj
        exact hreg fd ((registered_setPoller_self ..).mp hregistered)
      · exact h.registered j fd ((registered_setPoller_of_ne hj ..).mp hregistered)
    exact hold.imp fun conn hl => hlive j fd conn hl
  · intro j
    refine (h.threads j).frame (fun fd hmentions => ?_) (fun fd conn _ hl => hlive j fd conn hl)
    by_cases hj : j = i
    · subst hj
      exact (registered_setPoller_self ..).trans (hsame fd hmentions)
    · exact registered_setPoller_of_ne hj ..

/-- The accept thread registers the descriptor that it has stored. -/
theorem inv_register {s : System n} (h : s.Inv) {fd : Fd} {conn : Conn} {i : Fin n}
    (hstored : s.acceptThread = .stored fd conn i) (events : UInt32) :
    ((s.setPoller i ((s.tables i).poller.register fd events)).setAccept .idle).Inv := by
  -- once the accept thread has let go of the descriptor, its entry is live
  have hidle : (s.setAccept .idle).Inv :=
    inv_setAccept h (fun _ _ => by rw [hstored]; exact Iff.rfl) (fun _ => id)
  refine inv_setPoller (s := s.setAccept .idle) hidle (fun fd' hreg => ?_)
    (fun fd' hmentions => ?_)
  · by_cases hfd : fd' = fd
    · subst hfd
      exact ⟨conn, h.stored fd' conn i hstored, id⟩
    · exact hidle.registered i fd' ((Poller.registered_register_of_ne hfd events).mp hreg)
  · obtain ⟨conn', hl⟩ := (h.threads i).live hmentions
    have hfd : fd' ≠ fd := by
      have hsettled := hl.settled
      rwa [hstored] at hsettled
    exact Poller.registered_register_of_ne hfd events

/-! ## Steps of a pool thread -/

/-- A pool thread that has dropped its events is not concerned by what it does next. -/
theorem inv_forget {s : System n} (h : s.Inv) (i : Fin n) : (s.setThread i .polling).Inv :=
  inv_setThread h trivial

/-- A pool thread unregisters the descriptor of a connection that ends. -/
theorem inv_unregister {s : System n} (h : s.Inv) {i : Fin n} {event : Notice} {client : Conn}
    {batch : List Notice} (hhandling : s.threads i = .handling event client batch) :
    ((s.setPoller i ((s.tables i).poller.unregister event.1)).setThread i
      (.removing event client batch)).Inv := by
  obtain ⟨hclient, hpending⟩ := h.threadOk hhandling
  have hother : ∀ e ∈ batch, e.1 ≠ event.1 := by
    intro e he heq
    have hnodup := hpending.nodup
    rw [List.map_cons, List.nodup_cons] at hnodup
    exact hnodup.1 (heq ▸ List.mem_map_of_mem he)
  have hpoller : ((s.setThread i .polling).setPoller i
      ((s.tables i).poller.unregister event.1)).Inv := by
    refine inv_setPoller (inv_forget h i) (fun fd hreg => ?_) (fun fd hmentions => ?_)
    · have hfd : fd ≠ event.1 := by
        rintro rfl
        exact Poller.not_registered_unregister_self _ _ hreg
      exact (inv_forget h i).registered i fd ((Poller.registered_unregister_of_ne hfd).mp hreg)
    · exact absurd hmentions (by simp [setThread, PoolThread.Mentions])
  have hlive : ∀ e ∈ event :: batch, ((s.setThread i .polling).setPoller i
      ((s.tables i).poller.unregister event.1)).Live i e.1 e.2 := fun e he =>
    ⟨(entry_setPoller ..).trans (hpending.live e he).2.entry, (hpending.live e he).2.settled⟩
  rw [← setThread_setPoller_setThread s i _ .polling]
  refine inv_setThread hpoller ⟨hclient, fun hreg => ?_, hlive event List.mem_cons_self, hother,
    (List.nodup_cons.mp hpending.nodup).2, fun e he => ⟨?_, ?_⟩⟩
  · exact Poller.not_registered_unregister_self _ _ ((registered_setPoller_self ..).mp hreg)
  · have hreg := (hpending.live e (List.mem_cons_of_mem _ he)).1
    exact (registered_setPoller_self ..).mpr
      ((Poller.registered_unregister_of_ne (hother e he)).mpr hreg)
  · exact hlive e (List.mem_cons_of_mem _ he)

/-- Erasing a client closes its descriptor. -/
theorem eraseClient_eq {s : System n} {i : Fin n} {fd : Fd} {conn : Conn}
    (hentry : s.entry i fd = some conn) : s.eraseClient i fd =
      (s.setKernel (s.kernel.release fd)).setConnectionPool i
        ((s.tables i).connectionPool.removeClient fd) := by
  simp only [eraseClient, destroyClient, hentry]

/-- What is in the maps after erasing the only entry for a number. -/
theorem entry_eraseClient_iff {s : System n} (h : s.Inv) {i : Fin n} {fd : Fd} {conn : Conn}
    (hentry : s.entry i fd = some conn) {j : Fin n} {fd' : Fd} {conn' : Conn} :
    (s.eraseClient i fd).entry j fd' = some conn' ↔ fd' ≠ fd ∧ s.entry j fd' = some conn' := by
  have heq : (s.eraseClient i fd).entry j fd' =
      if j = i ∧ fd' = fd then none else s.entry j fd' := by
    rw [eraseClient_eq hentry]
    exact entry_removeClient s i j fd fd'
  rw [heq]
  constructor
  · intro hsome
    split_ifs at hsome with hself
    refine ⟨?_, hsome⟩
    rintro rfl
    exact hself ⟨h.entry_unique j i fd' conn' conn hsome hentry, rfl⟩
  · rintro ⟨hfd, hold⟩
    exact (if_neg fun hself => hfd hself.2).trans hold

/-- What erasing a client leaves as it is. -/
theorem eraseClient_frame {s : System n} {i : Fin n} {fd : Fd} {conn : Conn}
    (hentry : s.entry i fd = some conn) :
    (s.eraseClient i fd).kernel = s.kernel.release fd ∧
      (s.eraseClient i fd).acceptThread = s.acceptThread ∧
      (s.eraseClient i fd).threads = s.threads ∧
      ∀ j fd', (s.eraseClient i fd).Registered j fd' ↔ s.Registered j fd' := by
  rw [eraseClient_eq hentry]
  exact ⟨rfl, rfl, rfl, fun j fd' => registered_setConnectionPool s i j fd' _⟩

/-- A client is erased that is unregistered and that no event of the thread is about. -/
theorem inv_eraseClient {s : System n} (h : s.Inv) {i : Fin n} {fd : Fd} {conn : Conn}
    (hlive : s.Live i fd conn) (hunreg : ¬ s.Registered i fd)
    (hforgotten : ¬ (s.threads i).Mentions fd) : (s.eraseClient i fd).Inv := by
  obtain ⟨hkernel, haccept, hthreads, hreg⟩ := eraseClient_frame hlive.entry
  have hentries : ∀ {j fd' conn'}, (s.eraseClient i fd).entry j fd' = some conn' ↔
      fd' ≠ fd ∧ s.entry j fd' = some conn' := entry_eraseClient_iff h hlive.entry
  have hother : ∀ {fd'}, fd' ≠ fd →
      (s.eraseClient i fd).kernel.holder fd' = s.kernel.holder fd' := by
    intro fd' hfd
    rw [hkernel, Machine.Ledger.holder_release_of_ne hfd]
  have hkeep : ∀ j fd' conn', fd' ≠ fd → s.Live j fd' conn' →
      (s.eraseClient i fd).Live j fd' conn' := fun j fd' conn' hfd hl =>
    ⟨hentries.mpr ⟨hfd, hl.entry⟩, haccept ▸ hl.settled⟩
  -- the number is live nowhere else, since the entry was the only one
  have helsewhere : ∀ j conn', j ≠ i → ¬ s.Live j fd conn' := fun j conn' hj hl =>
    hj (h.entry_unique j i fd conn' conn hl.entry hlive.entry)
  constructor
  · exact hkernel ▸ h.kernel.release (h.entry_open i fd conn hlive.entry)
  · intro j fd' conn' hentry
    obtain ⟨hfd, hold⟩ := hentries.mp hentry
    exact (hother hfd).trans (h.entry_open j fd' conn' hold)
  · intro j k fd' conn₁ conn₂ hj hk
    exact h.entry_unique j k fd' conn₁ conn₂ (hentries.mp hj).2 (hentries.mp hk).2
  · intro fd' conn' hopen
    have hfd : fd' ≠ fd := by
      rintro rfl
      rw [hkernel, Machine.Ledger.holder_release_self] at hopen
      cases hopen
    rw [haccept]
    exact (h.owned fd' conn' ((hother hfd).symm.trans hopen)).imp_right fun ⟨j, hentry⟩ =>
      ⟨j, hentries.mpr ⟨hfd, hentry⟩⟩
  · intro fd' conn' hholds
    rw [haccept] at hholds
    obtain ⟨hopen, hnone⟩ := h.carried fd' conn' hholds
    have hfd : fd' ≠ fd := by
      rintro rfl
      exact nomatch (hnone i).symm.trans hlive.entry
    refine ⟨(hother hfd).trans hopen, fun j => Option.eq_none_iff_forall_ne_some.mpr fun c hc => ?_⟩
    exact nomatch (hnone j).symm.trans (hentries.mp hc).2
  · intro fd' conn' j hstored
    rw [haccept] at hstored
    have hfd : fd' ≠ fd := by
      rintro rfl
      exact hlive.settled (hstored ▸ rfl)
    exact hentries.mpr ⟨hfd, h.stored fd' conn' j hstored⟩
  · intro j fd' hregistered
    obtain ⟨conn', hl⟩ := h.registered j fd' ((hreg j fd').mp hregistered)
    refine ⟨conn', hkeep j fd' conn' ?_ hl⟩
    rintro rfl
    by_cases hj : j = i
    · exact hunreg (hj ▸ (hreg j fd').mp hregistered)
    · exact helsewhere j conn' hj hl
  · intro j
    rw [hthreads]
    refine (h.threads j).frame (fun fd' _ => hreg j fd') (fun fd' conn' hmentions hl => ?_)
    refine hkeep j fd' conn' ?_ hl
    rintro rfl
    by_cases hj : j = i
    · exact hforgotten (hj ▸ hmentions)
    · exact helsewhere j conn' hj hl

/-- A pool thread erases the client whose descriptor it has unregistered. -/
theorem inv_erase {s : System n} (h : s.Inv) {i : Fin n} {event : Notice} {client : Conn}
    {batch : List Notice} (hremoving : s.threads i = .removing event client batch) :
    ((s.eraseClient i event.1).setThread i (.looping batch)).Inv := by
  obtain ⟨-, hunreg, hlive, hother, hpending⟩ := h.threadOk hremoving
  rw [← eraseClient_setThread]
  have hlooping : (s.setThread i (.looping batch)).Inv := inv_setThread h hpending
  have hlive' : (s.setThread i (.looping batch)).Live i event.1 event.2 :=
    ⟨hlive.entry, hlive.settled⟩
  refine inv_eraseClient hlooping hlive' hunreg ?_
  intro hmentions
  obtain ⟨e, he, heq⟩ : ∃ e ∈ batch, e.1 = event.1 := by
    simpa [setThread, PoolThread.Mentions] using hmentions
  exact hother e he heq

/-! ## Runs -/

/-- Every step keeps the invariant. -/
theorem inv_next {s s' : System n} (h : s.Inv) (hstep : Step s s') : s'.Inv := by
  cases hstep with
  | accept fd hidle _ hfree => exact inv_accept h hidle hfree
  | choose haccepted hpool =>
      refine inv_setAccept (s := { s with nextPoolIndex := _ }) ?_
        (fun _ _ => by rw [haccepted]; exact Iff.rfl) (fun _ => id)
      exact inv_setNextPoolIndex h _
  | reject haccepted _ =>
      exact inv_setAccept h (fun _ _ => by rw [haccepted]; exact Iff.rfl) (fun _ => id)
  | close hrejected => exact inv_close h hrejected
  | store hchosen => exact inv_store h hchosen
  | register hstored hpoller =>
      rw [Poller.eq_register_of_addFD hpoller]
      exact inv_register h hstored _
  | @poll i batch hpolling hnodup hevents =>
      refine inv_setThread h ⟨hnodup, fun event hevent => ?_⟩
      obtain ⟨hreg, hopen⟩ := hevents event hevent
      obtain ⟨conn, hlive⟩ := h.registered i event.1 hreg
      have hconn : conn = event.2 :=
        Option.some.inj ((h.entry_open i event.1 conn hlive.entry).symm.trans hopen)
      exact ⟨hreg, hconn ▸ hlive⟩
  | done _ => exact inv_setThread h trivial
  | @skip i event batch hlooping _ =>
      have hpending : s.Pending i (event :: batch) := h.threadOk hlooping
      have htail : s.ThreadOk i (.looping batch) := hpending.tail
      exact inv_setThread h htail
  | @take i event client batch hlooping hentry =>
      have hpending : s.Pending i (event :: batch) := h.threadOk hlooping
      have hclient := (hpending.live event List.mem_cons_self).2.entry
      exact inv_setThread h ⟨Option.some.inj (hentry.symm.trans hclient), hpending⟩
  | @keep i event client batch hhandling =>
      have htail : s.ThreadOk i (.looping batch) := (h.threadOk hhandling).2.tail
      exact inv_setThread h htail
  | abandon _ => exact inv_setThread h trivial
  | unregister hhandling hpoller =>
      rw [Poller.eq_unregister_of_removeFD hpoller]
      exact inv_unregister h hhandling
  | erase hremoving => exact inv_erase h hremoving

theorem Reached.start : ({} : System n).Reached := ⟨{}, rfl, .refl⟩

theorem Reached.step {s s' : System n} (h : s.Reached) (hstep : Step s s') : s'.Reached :=
  let ⟨s₀, h₀, hrun⟩ := h
  ⟨s₀, h₀, hrun.tail hstep⟩

/-- The invariant holds in every state that a run reaches. -/
theorem Reached.inv {s : System n} (h : s.Reached) : s.Inv :=
  h.always (fun _ heq => heq ▸ inv_empty) (fun _ _ hinv hstep => inv_next hinv hstep)

/-- Adding a descriptor to its pool's poller does not fail with `EEXIST`. -/
theorem Reached.addFD_succeeds {s : System n} (h : s.Reached) {fd : Fd} {conn : Conn}
    {i : Fin n} (hstored : s.acceptThread = .stored fd conn i) (events : UInt32) :
    (s.tables i).poller.addFD fd events = .ok ((s.tables i).poller.register fd events) :=
  Poller.addFD_of_not_registered (h.inv.not_registered_of_stored hstored) events

/-- Removing the descriptor of an event does not fail with `ENOENT`. -/
theorem Reached.removeFD_succeeds {s : System n} (h : s.Reached) {i : Fin n} {event : Notice}
    {client : Conn} {batch : List Notice} (hhandling : s.threads i = .handling event client batch) :
    (s.tables i).poller.removeFD event.1 = .ok ((s.tables i).poller.unregister event.1) := by
  have hpending : s.Pending i (event :: batch) := (h.inv.threadOk hhandling).2
  exact Poller.removeFD_of_registered (hpending.live event List.mem_cons_self).1

/-! ## Numbers that are used again -/

/-- What has to hold for descriptor numbers to be used again. -/
structure ReuseSafe (s : System n) : Prop where
  /-- One entry of one map holds an open descriptor. -/
  one_entry : ∀ fd conn i j conn₁ conn₂, s.kernel.holder fd = some conn →
    s.entry i fd = some conn₁ → s.entry j fd = some conn₂ → i = j ∧ conn₁ = conn ∧ conn₂ = conn
  /-- `addClient` finds no entry to overwrite, in no map. -/
  no_overwrite : ∀ fd conn i, s.acceptThread = .chosen fd conn i → ∀ j, s.entry j fd = none
  /-- An event is applied to the connection it was about. -/
  own_event : ∀ i event client batch,
    (s.threads i = .handling event client batch ∨ s.threads i = .removing event client batch) →
      client = event.2 ∧ s.entry i event.1 = some event.2 ∧
        s.kernel.holder event.1 = some event.2
  /-- An accepted connection was closed once, or it is open and has an owner. -/
  closed_once : ∀ conn < s.kernel.issued,
    (s.kernel.releases conn = 1 ∧ ∀ fd, s.kernel.holder fd ≠ some conn) ∨
      (s.kernel.releases conn = 0 ∧ ∃ fd, s.kernel.holder fd = some conn ∧
        (s.acceptThread.Holds fd conn ∨ ∃ i, s.entry i fd = some conn))
  /-- No number was closed that was not open. -/
  no_stray_close : s.kernel.strays = 0

/-- Numbers are used again safely in every interleaving of the threads. -/
theorem reached_reuseSafe {s : System n} (h : s.Reached) : s.ReuseSafe := by
  have hinv := h.inv
  constructor
  · intro fd conn i j conn₁ conn₂ hopen hi hj
    exact ⟨hinv.entry_unique i j fd conn₁ conn₂ hi hj,
      Option.some.inj ((hinv.entry_open i fd conn₁ hi).symm.trans hopen),
      Option.some.inj ((hinv.entry_open j fd conn₂ hj).symm.trans hopen)⟩
  · intro fd conn i hchosen
    exact (hinv.carried fd conn (hchosen ▸ ⟨rfl, rfl⟩)).2
  · rintro i event client batch (hhandling | hremoving)
    · obtain ⟨hclient, hpending⟩ := hinv.threadOk hhandling
      have hentry := (hpending.live event List.mem_cons_self).2.entry
      exact ⟨hclient, hentry, hinv.entry_open i event.1 event.2 hentry⟩
    · obtain ⟨hclient, -, hlive, -⟩ := hinv.threadOk hremoving
      exact ⟨hclient, hlive.entry, hinv.entry_open i event.1 event.2 hlive.entry⟩
  · intro conn hconn
    refine (hinv.kernel.released_or_held hconn).imp_right fun ⟨hzero, fd, hopen⟩ => ?_
    exact ⟨hzero, fd, hopen, hinv.owned fd conn hopen⟩
  · exact hinv.kernel.aimed

/-- Descriptor 5 is accepted, served and closed, and accepted again. -/
theorem reused_number : ∃ s : System 1, s.Reached ∧ s.acceptThread = .accepted 5 1 ∧
    s.kernel.issued = 2 ∧ s.ReuseSafe := by
  have haccepted := Reached.start.step (n := 1) (.accept 5 rfl (by decide) rfl)
  have hchosen := haccepted.step (.choose rfl rfl)
  have hstored := hchosen.step (.store rfl)
  have hregistered := hstored.step
    (.register rfl (Poller.addFD_of_not_registered (by decide) _))
  have hpolled := hregistered.step (.poll (i := 0) [(5, 0)] rfl (by decide)
    (List.forall_mem_singleton.mpr ⟨by decide, rfl⟩))
  have htaken := hpolled.step (.take (i := 0) rfl rfl)
  have hunregistered := htaken.step
    (.unregister (i := 0) rfl (Poller.removeFD_of_registered (by decide)))
  have herased := hunregistered.step (.erase (i := 0) rfl)
  have hagain := herased.step (.accept 5 rfl (by decide) rfl)
  exact ⟨_, hagain, rfl, rfl, reached_reuseSafe hagain⟩

end System

end Fion.Network
