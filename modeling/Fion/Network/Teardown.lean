import Fion.Machine.Custody
import Fion.Network.Ownership

/-!
# The end of a server

When the threads of a server have been joined, its pools are destroyed, and with them the
clients in their maps.  The destructor of a client closes the descriptor that it has.

The entries of the maps are custody of the descriptors (`kept_custody`): in every state
that the threads reach, what is open is in one entry of one map, or in the hands of the
accept thread.  Erasing an entry drops what it has, so a server that is destroyed has
closed every descriptor it ever accepted exactly once (`closed_when_destroyed`).
-/

namespace Fion.Network

open Machine (Custody)

namespace System

variable {n : Nat}

/-! ## Destructors -/

/-- The destructor of a pool destroys the clients in its map, whose keys are given. -/
def destroyPool (s : System n) (i : Fin n) (keys : List Fd) : System n :=
  keys.foldl (fun s fd => s.eraseClient i fd) s

/-- The destructor of the pool manager destroys the pools in order. -/
def destroyPools (s : System n) (keys : Fin n → List Fd) : System n :=
  (List.finRange n).foldl (fun s i => s.destroyPool i (keys i)) s

/-! ## Entries as custody -/

/-- Each entry of a map has the descriptor that is its key. -/
def custody (s : System n) : Custody (Fin n × Fd) Fd where
  name := fun e => (s.entry e.1 e.2).map fun _ => e.2
  ledger := s.kernel

theorem name_custody_eq_some_iff {s : System n} {e : Fin n × Fd} {fd : Fd} :
    s.custody.name e = some fd ↔ e.2 = fd ∧ ∃ conn, s.entry e.1 fd = some conn := by
  constructor
  · intro h
    obtain ⟨conn, hentry, rfl⟩ := Option.map_eq_some_iff.mp h
    exact ⟨rfl, conn, hentry⟩
  · rintro ⟨rfl, conn, hentry⟩
    exact Option.map_eq_some_iff.mpr ⟨conn, hentry, rfl⟩

/-- While the accept thread has no descriptor, the maps have all that are open. -/
theorem kept_custody {s : System n} (h : s.Inv) (hidle : s.acceptThread = .idle) :
    s.custody.Kept where
  sound := h.kernel
  held := fun e fd hname => by
    obtain ⟨-, conn, hentry⟩ := name_custody_eq_some_iff.mp hname
    exact ⟨conn, h.entry_open e.1 fd conn hentry⟩
  apart := fun e e' fd hname hname' => by
    obtain ⟨hfd, conn, hentry⟩ := name_custody_eq_some_iff.mp hname
    obtain ⟨hfd', conn', hentry'⟩ := name_custody_eq_some_iff.mp hname'
    exact Prod.ext (h.entry_unique e.1 e'.1 fd conn conn' hentry hentry') (hfd.trans hfd'.symm)
  owned := fun fd conn hopen => by
    rcases h.owned fd conn hopen with hholds | ⟨i, hentry⟩
    · rw [hidle] at hholds
      exact hholds.elim
    · exact ⟨(i, fd), name_custody_eq_some_iff.mpr ⟨rfl, conn, hentry⟩⟩

theorem entry_eraseClient (s : System n) (i j : Fin n) (fd fd' : Fd) :
    (s.eraseClient i fd).entry j fd' = if j = i ∧ fd' = fd then none else s.entry j fd' := by
  have hsame : (s.destroyClient i fd).entry j fd' = s.entry j fd' := by simp [entry]
  rw [eraseClient, ← tables_destroyClient s i fd, entry_removeClient, hsame]

/-- Erasing an entry drops what it has. -/
theorem custody_eraseClient (s : System n) (i : Fin n) (fd : Fd) :
    (s.eraseClient i fd).custody = s.custody.drop (i, fd) := by
  have hname : (s.eraseClient i fd).custody.name =
      Function.update s.custody.name (i, fd) none := by
    funext e
    have hentry := entry_eraseClient s i e.1 fd e.2
    by_cases he : e = (i, fd)
    · rw [he, Function.update_self]
      simp [custody, entry_eraseClient]
    · have hne : ¬ (e.1 = i ∧ e.2 = fd) := fun heq => he (Prod.ext heq.1 heq.2)
      rw [if_neg hne] at hentry
      rw [Function.update_of_ne he]
      simp [custody, hentry]
  cases hentry : s.entry i fd with
  | none =>
      have hnone : s.custody.name (i, fd) = none := by simp [custody, hentry]
      rw [Custody.drop_of_none hnone]
      have hkernel : (s.eraseClient i fd).kernel = s.kernel := by
        simp only [eraseClient, destroyClient, hentry]
        rfl
      rw [← hnone, Function.update_eq_self] at hname
      rw [custody, hkernel]
      exact congrArg (Custody.mk · s.kernel) hname
  | some conn =>
      have hsome : s.custody.name (i, fd) = some fd := by simp [custody, hentry]
      rw [Custody.drop_of_some hsome, custody, (eraseClient_frame hentry).1]
      exact congrArg (Custody.mk · (s.kernel.release fd)) hname

/-- So does destroying a pool, entry by entry, ... -/
theorem custody_destroyPool (s : System n) (i : Fin n) (keys : List Fd) :
    (s.destroyPool i keys).custody = s.custody.dropAll (keys.map fun fd => (i, fd)) := by
  induction keys generalizing s with
  | nil => rfl
  | cons fd keys ih =>
      show ((s.eraseClient i fd).destroyPool i keys).custody = _
      rw [ih, custody_eraseClient]
      rfl

/-- ... and destroying all of them. -/
theorem custody_destroyPools (s : System n) (keys : Fin n → List Fd) :
    (s.destroyPools keys).custody =
      s.custody.dropAll ((List.finRange n).flatMap fun i => (keys i).map fun fd => (i, fd)) := by
  rw [destroyPools]
  generalize List.finRange n = pools
  induction pools generalizing s with
  | nil => rfl
  | cons i pools ih =>
      rw [List.foldl_cons, ih, custody_destroyPool, List.flatMap_cons, Custody.dropAll,
        Custody.dropAll, Custody.dropAll, List.foldl_append]

/-! ## The end -/

/-- In every interleaving of the threads: when the accept thread has nothing in hand and the
pools are destroyed, every descriptor that was ever accepted has been closed exactly once,
under the number it had, and nothing else has been closed. -/
theorem closed_when_destroyed {s : System n} (h : s.Reached) (hidle : s.acceptThread = .idle)
    {keys : Fin n → List Fd} (hkeys : ∀ i fd, fd ∈ keys i ↔ s.entry i fd ≠ none) :
    (s.destroyPools keys).kernel.issued = s.kernel.issued ∧
      (∀ conn < s.kernel.issued, (s.destroyPools keys).kernel.releases conn = 1) ∧
      (s.destroyPools keys).kernel.strays = 0 := by
  have hcustody := custody_destroyPools s keys
  have hall : ∀ e : Fin n × Fd, s.custody.name e ≠ none →
      e ∈ (List.finRange n).flatMap fun i => (keys i).map fun fd => (i, fd) := by
    intro e hname
    have hentry : s.entry e.1 e.2 ≠ none := fun hnone => hname (by simp [custody, hnone])
    exact List.mem_flatMap.mpr ⟨e.1, List.mem_finRange e.1,
      List.mem_map.mpr ⟨e.2, (hkeys e.1 e.2).mpr hentry, rfl⟩⟩
  obtain ⟨hreleased, hstrays⟩ := (kept_custody h.inv hidle).released_of_dropAll hall
  have hissued := s.custody.issued_dropAll
    ((List.finRange n).flatMap fun i => (keys i).map fun fd => (i, fd))
  rw [← hcustody] at hreleased hstrays hissued
  exact ⟨hissued, hreleased, hstrays⟩

/-- Descriptor 5 is accepted by a server with one pool, which is then destroyed. -/
theorem storedClient_closed : ∃ s : System 1, s.Reached ∧
    (s.destroyPools fun _ => [5]).kernel.releases 0 = 1 := by
  have haccepted := Reached.start.step (n := 1) (.accept 5 rfl (by decide) rfl)
  have hchosen := haccepted.step (.choose rfl rfl)
  have hstored := hchosen.step (.store rfl)
  have hregistered := hstored.step
    (.register rfl (Poller.addFD_of_not_registered (by decide) _))
  refine ⟨_, hregistered, (closed_when_destroyed hregistered rfl fun i fd => ?_).2.1 0
    (by decide)⟩
  rw [Fin.fin_one_eq_zero i, List.mem_singleton]
  by_cases hfd : fd = 5
  · subst hfd
    exact iff_of_true rfl (by decide)
  · refine iff_of_false hfd (not_not_intro ?_)
    simp [entry, setAccept, setPoller, storeClient, destroyClient, setConnectionPool,
      ConnectionPool.getClient, ConnectionPool.put, hfd, setKernel]

end System

end Fion.Network
