import Fion.Network.Listener

/-!
# Starting and stopping the server

The class `Server` with its listener, the pools of its pool manager and its threads.
`start` is a list of steps, so that something else can happen between two of them; it
ends with the first step that throws.  `stop` is one step: it waits for every thread
it joins.

The accept thread and the pool threads are shown as they are when they have done what
they do by themselves.  A pool thread loops until its pool is stopped.  The accept
thread loops while the server is running, and returns at once when it is not.
-/

namespace Fion.Network

open Cpp (Exn)

/-- A member of type `std::thread`. -/
inductive Thread where
  /-- There is no thread, or it is joined. -/
  | none
  | looping
  /-- The thread has returned, and is not joined. -/
  | returned
deriving DecidableEq

/-- The class `Server`, with the threads of its pools. -/
structure Server where
  running : Bool := false
  listener : Listener := {}
  pools : List Thread := []
  acceptThread : Thread := .none

/-- The steps of `Server::start` that follow one another. -/
inductive StartStep where
  /-- The exchange that sets the flag. -/
  | setFlag
  | bind
  | listen
  | addPool
  | startAll
  | startAccept

/-- `Server::start` for a number of threads. -/
def startSteps (numThreads : Nat) : List StartStep :=
  [.setFlag, .bind, .listen] ++ List.replicate numThreads .addPool ++ [.startAll, .startAccept]

namespace Server

def setRunning (s : Server) (running : Bool) : Server := { s with running := running }

def setListener (s : Server) (listener : Listener) : Server := { s with listener := listener }

/-! ## Starting -/

section

variable (host : String) (port : UInt16) (calls : SocketCalls)

/-- One step of `start`. -/
def perform (s : Server) : StartStep → Server × Except Exn Unit
  | .setFlag => (s.setRunning true, .ok ())
  | .bind =>
      let (listener, result) := s.listener.bind host port calls
      (s.setListener listener, result)
  | .listen =>
      let (listener, result) := s.listener.listen calls
      (s.setListener listener, result)
  | .addPool => ({ s with pools := s.pools ++ [.none] }, .ok ())
  | .startAll => ({ s with pools := s.pools.map fun _ => .looping }, .ok ())
  | .startAccept =>
      ({ s with acceptThread := if s.running then .looping else .returned }, .ok ())

/-- Steps of `start`, up to the first one that throws. -/
def performAll (s : Server) : List StartStep → Server × Except Exn Unit
  | [] => (s, .ok ())
  | step :: steps =>
    match s.perform host port calls step with
    | (s', .ok ()) => s'.performAll steps
    | (s', .error e) => (s', .error e)

/-- `start`. -/
def start (s : Server) (numThreads : Nat) : Server × Except Exn Unit :=
  if s.running then (s, .ok ()) else s.performAll host port calls (startSteps numThreads)

end

/-! ## Stopping -/

/-- `stop`. -/
def stop (s : Server) : Server :=
  if !s.running then s
  else { s with
    running := false
    listener := s.listener.close
    acceptThread := .none
    pools := s.pools.map fun _ => .none }

/-- The destructor and those of the members.  Destroying a thread that is not joined
ends the program. -/
def destroy (s : Server) : Option Server :=
  match s.stop.acceptThread with
  | .looping | .returned => none
  | .none => some { s.stop with
      pools := s.stop.pools.map fun _ => .none
      listener := s.stop.listener.close }

/-! ## Both -/

/-- A call that runs from its beginning to its end. -/
inductive Call where
  | start (host : String) (port : UInt16) (calls : SocketCalls) (numThreads : Nat)
  | stop

def call (s : Server) : Call → Server
  | .start host port calls numThreads => (s.start host port calls numThreads).1
  | .stop => s.stop

/-- A new server after some calls. -/
def afterCalls (history : List Call) : Server := history.foldl call {}

/-- `start`, with a call of `stop` behind the first steps, which may have thrown. -/
def startAroundStop (host : String) (port : UInt16) (calls : SocketCalls) (s : Server)
    (before after : List StartStep) : Server × Except Exn Unit :=
  match s.performAll host port calls before with
  | (s', .ok ()) => s'.stop.performAll host port calls after
  | (s', .error e) => (s'.stop, .error e)

end Server

end Fion.Network
