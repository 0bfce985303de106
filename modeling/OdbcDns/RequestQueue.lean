import OdbcDns.Lib.Transition

namespace OdbcDns

/-! The threads of `DNSServer` around the request queue. Each action is one step
of one thread that the others can see; the critical section makes the push and
the pop one step each. -/

/-- Where the loop of `run` stands. -/
inductive ReceiverPlace (Request : Type) where
  | waiting
  /-- A datagram has been received, `isRunning` having been true before that. -/
  | received (request : Request)
  /-- The request is in the queue, and the semaphore is still to be released. -/
  | pushed
  | done
  deriving DecidableEq

/-- Where the loop of `serviceRequests` stands. -/
inductive WorkerPlace (Request : Type) where
  | head
  | waiting
  /-- `WaitForMultipleObjects` has returned. -/
  | checking
  /-- The check for `isRunning` and the size has been passed. -/
  | taking
  | serving (request : Request)
  /-- `front` and `pop` were called on an empty queue. -/
  | crashed
  | done
  deriving DecidableEq

structure QueueState (Request : Type) where
  queue : List Request
  /-- The count of `requestSemaphore`. -/
  units : Nat
  isRunning : Bool
  quitEvent : Bool
  receiver : ReceiverPlace Request
  workers : List (WorkerPlace Request)
  /-- All requests pushed so far. -/
  pushed : List Request
  /-- All requests taken so far, each with the worker that has taken it. -/
  taken : List (Nat × Request)
  deriving DecidableEq

namespace QueueState

variable {Request : Type}

/-- A server that has just been started with `n` threads. -/
def start (n : Nat) : QueueState Request :=
  ⟨[], 0, true, false, .waiting, List.replicate n .head, [], []⟩

/-- Worker `i` goes on to another place. -/
def goto (s : QueueState Request) (i : Nat) (place : WorkerPlace Request) : QueueState Request :=
  { s with workers := s.workers.set i place }

end QueueState

inductive QueueAction (Request : Type) where
  /-- The receiver finds `isRunning` true and receives a request. -/
  | receive (request : Request)
  | push
  | release
  | leave
  /-- Worker `i` evaluates the condition of its loop. -/
  | loop (i : Nat)
  | wait (i : Nat)
  | check (i : Nat)
  | take (i : Nat)
  | served (i : Nat)
  /-- The two statements of `shutdown`. -/
  | stopRunning
  | setQuit
  deriving DecidableEq

namespace QueueState

variable {Request : Type} [DecidableEq Request]

def step (s : QueueState Request) : QueueAction Request → Option (QueueState Request)
  | .receive r =>
    if s.receiver = .waiting ∧ s.isRunning then some { s with receiver := .received r } else none
  | .push =>
    match s.receiver with
    | .received r => some { s with
        queue := s.queue ++ [r]
        pushed := s.pushed ++ [r]
        receiver := .pushed }
    | _ => none
  | .release =>
    if s.receiver = .pushed then some { s with units := s.units + 1, receiver := .waiting }
    else none
  | .leave =>
    if s.receiver = .waiting ∧ ¬ s.isRunning then some { s with receiver := .done } else none
  | .loop i =>
    if s.workers[i]? = some .head then
      some (s.goto i (if s.isRunning ∨ s.queue ≠ [] then .waiting else .done))
    else none
  | .wait i =>
    -- the semaphore comes first in `events`; the quit event stays set
    if s.workers[i]? = some .waiting then
      if 0 < s.units then some { s.goto i .checking with units := s.units - 1 }
      else if s.quitEvent then some (s.goto i .checking)
      else none
    else none
  | .check i =>
    if s.workers[i]? = some .checking then
      some (s.goto i (if ¬ s.isRunning ∧ s.queue = [] then .done else .taking))
    else none
  | .take i =>
    if s.workers[i]? = some .taking then
      match s.queue with
      | [] => some (s.goto i .crashed)
      | r :: rest => some { s.goto i (.serving r) with
          queue := rest
          taken := s.taken ++ [(i, r)] }
    else none
  | .served i =>
    match s.workers[i]? with
    | some (.serving _) => some (s.goto i .head)
    | _ => none
  | .stopRunning => some { s with isRunning := false }
  | .setQuit => if s.isRunning then none else some { s with quitEvent := true }

end QueueState

end OdbcDns
