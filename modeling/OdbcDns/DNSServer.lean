import OdbcDns.Server
import OdbcDns.RequestQueue

namespace OdbcDns

/-! The server as a whole: the receiver, the queue, and the worker threads with what
they hold. Each action is one step of one thread that the others can see. The packets
are allocated by the receiver and freed by the worker that has taken the request. -/

/-- The `sockaddr_in` of a client. -/
structure Client where
  addr : UInt32
  port : UInt16
  deriving DecidableEq, Repr

instance Packet.instDecidableEq : DecidableEq Packet := fun p q =>
  if h : p.bytes = q.bytes then
    .isTrue (by cases p; cases q; cases h; rfl)
  else .isFalse fun he => h (congrArg Packet.bytes he)

/-- A request in the queue: where `malloc` has put the packet, what stands in it, and
the client that it came from. -/
structure DNSRequest where
  address : Nat
  datagram : List Byte
  received : datagram.length ≤ maxDnsPacketLength
  /-- What the allocation held before the datagram was copied to it. -/
  buffer : Packet
  client : Client
  deriving DecidableEq

/-- Where the loop of `serviceRequests` stands. -/
inductive ThreadPlace where
  | head
  /-- The condition of the loop was true. -/
  | begun
  /-- The packet of the last request has been cached. -/
  | cached
  | waiting
  | checking
  | taking
  | serving
  /-- A call never comes back, for the request or while the last one was cached. -/
  | hung (serving : Bool)
  /-- The condition of the loop was false. -/
  | left
  /-- The loop was left by `break`, behind the wait. -/
  | broke
  deriving DecidableEq, Repr

/-- A worker thread. `request` keeps its value when the packet is freed. -/
structure Thread where
  place : ThreadPlace
  request : Option DNSRequest
  worker : Worker

/-- A datagram that a thread has handed to `sendto`, and the request it is for. -/
structure Reply where
  thread : Nat
  request : DNSRequest
  bytes : List Byte
  deriving DecidableEq

/-- What ends the process. -/
inductive Mishap where
  /-- `front` and `pop` were called on an empty queue. -/
  | emptyQueue
  | useAfterFree
  | doubleFree
  | fault (f : Fault)
  deriving DecidableEq

structure DNSServer where
  requestQueue : List DNSRequest
  /-- The count of the semaphore. -/
  requestSemaphore : Nat
  isRunning : Bool
  quitEvent : Bool
  receiver : ReceiverPlace DNSRequest
  threads : List Thread
  /-- The addresses of the packets that are allocated. -/
  allocated : List Nat
  ended : Option Mishap
  pushed : List DNSRequest
  taken : List (Nat × DNSRequest)
  replies : List Reply

/-- What a worker thread finds when it starts. -/
structure Startup where
  connection : Connection
  socket : Socket
  length : Nat
  totalBytes : Nat
  queryBytes : Nat

def Startup.worker (u : Startup) : Worker :=
  .start u.connection u.socket u.length u.totalBytes u.queryBytes

def Startup.thread (u : Startup) : Thread := ⟨.head, none, u.worker⟩

inductive ServerAction where
  /-- The receiver finds `isRunning` true and receives a datagram; a fresh packet is
  allocated for it. -/
  | receive (datagram : List Byte) (client : Client) (address : Nat) (buffer : Packet)
  | receiveFails
  | push
  | release
  | leave
  /-- Thread `i` evaluates the condition of its loop. -/
  | loop (i : Nat)
  /-- Of the turn, what it says about caching is used here, and the rest by `serve`. -/
  | cache (i : Nat) (turn : Turn)
  | clean (i : Nat)
  | wait (i : Nat)
  | check (i : Nat)
  | take (i : Nat)
  | serve (i : Nat) (turn : Turn)
  /-- The two statements of `shutdown`. -/
  | stopRunning
  | setQuit

/-- The actions that the threads of the server take by themselves. -/
def ServerAction.internal : ServerAction → Bool
  | .receive .. | .receiveFails | .stopRunning | .setQuit => false
  | _ => true

namespace DNSServer

def start (threads : List Startup) : DNSServer :=
  ⟨[], 0, true, false, .waiting, threads.map Startup.thread, [], none, [], [], []⟩

/-- Thread `i` goes on. -/
def put (s : DNSServer) (i : Nat) (th : Thread) : DNSServer :=
  { s with threads := s.threads.set i th }

/-- A call of thread `i` does not return: it hangs, or the process ends. -/
def faulted (s : DNSServer) (i : Nat) (th : Thread) (serving : Bool) : Fault → DNSServer
  | .hang => s.put i { th with place := .hung serving }
  | f => { s with ended := some (.fault f) }

/-- `free(request.packet)`, unless it is null. -/
def frees (s : DNSServer) (request : Option DNSRequest) (next : DNSServer) : DNSServer :=
  match request with
  | none => next
  | some r =>
    if r.address ∈ s.allocated then { next with allocated := s.allocated.erase r.address }
    else { s with ended := some .doubleFree }

/-- The packet of the request is read or written. -/
def touches (s : DNSServer) (request : Option DNSRequest) (next : DNSServer) : DNSServer :=
  if request.any (fun r => r.address ∉ s.allocated) then { s with ended := some .useAfterFree }
  else next

/-- A step of the receiver. A datagram that is too long for `recvfrom` is dropped. -/
def receiverStep (s : DNSServer) : ServerAction → Option DNSServer
  | .receive datagram client address buffer =>
    if s.receiver = .waiting ∧ s.isRunning ∧ address ∉ s.allocated then
      if h : datagram.length ≤ maxDnsPacketLength then
        some { s with
          receiver := .received ⟨address, datagram, h, buffer, client⟩
          allocated := address :: s.allocated }
      else some s
    else none
  | .receiveFails => if s.receiver = .waiting ∧ s.isRunning then some s else none
  | .push =>
    match s.receiver with
    | .received r => some { s with
        requestQueue := s.requestQueue ++ [r]
        pushed := s.pushed ++ [r]
        receiver := .pushed }
    | _ => none
  | .release =>
    if s.receiver = .pushed then
      some { s with requestSemaphore := s.requestSemaphore + 1, receiver := .waiting }
    else none
  | .leave =>
    if s.receiver = .waiting ∧ ¬ s.isRunning then some { s with receiver := .done } else none
  | .stopRunning => some { s with isRunning := false }
  | .setQuit => if s.isRunning then none else some { s with quitEvent := true }
  | _ => none

/-- A step of thread `i`, which stands as `th`. -/
def threadStep (cfg : Config) (s : DNSServer) (i : Nat) (th : Thread) :
    ServerAction → Option DNSServer
  | .loop _ =>
    if th.place = .head then
      some (s.put i { th with
        place := if s.isRunning ∨ s.requestQueue ≠ [] then .begun else .left })
    else none
  | .cache _ t =>
    if th.place = .begun ∧ th.worker.due then
      some (s.touches th.request (match th.worker.caching cfg t with
        | .error f => s.faulted i th false f
        -- the handler sets `error`, and the loop goes on with its condition
        | .ok (w, true) => s.put i { th with place := .head, worker := { w with error := true } }
        | .ok (w, false) => s.put i { th with place := .cached, worker := w }))
    else none
  | .clean _ =>
    if th.place = .begun ∧ ¬ th.worker.due ∨ th.place = .cached then
      some (s.frees th.request (s.put i { th with place := .waiting, worker := th.worker.clean }))
    else none
  | .wait _ =>
    if th.place = .waiting then
      if 0 < s.requestSemaphore then
        some { s.put i { th with place := .checking } with
          requestSemaphore := s.requestSemaphore - 1 }
      else if s.quitEvent then some (s.put i { th with place := .checking })
      else none
    else none
  | .check _ =>
    if th.place = .checking then
      some (s.put i { th with
        place := if ¬ s.isRunning ∧ s.requestQueue = [] then .broke else .taking })
    else none
  | .take _ =>
    if th.place = .taking then
      match s.requestQueue with
      | [] => some { s with ended := some .emptyQueue }
      | r :: rest => some { s.put i { th with place := .serving, request := some r } with
          requestQueue := rest
          taken := s.taken ++ [(i, r)] }
    else none
  | .serve _ t =>
    match th.request with
    | none => none
    | some r =>
      if th.place = .serving ∧ t.datagram = r.datagram ∧ t.buffer = r.buffer then
        some (s.touches (some r) (match th.worker.serve cfg t with
          | .error f => s.faulted i th true f
          | .ok (w, bytes) =>
            { s.put i { th with place := .head, worker := w } with
              replies := s.replies ++ [⟨i, r, bytes⟩] }))
      else none
  | _ => none

end DNSServer

/-- The thread whose action it is. -/
def ServerAction.thread : ServerAction → Option Nat
  | .loop i | .cache i _ | .clean i | .wait i | .check i | .take i | .serve i _ => some i
  | _ => none

namespace DNSServer

def step (cfg : Config) (s : DNSServer) (a : ServerAction) : Option DNSServer :=
  if s.ended.isSome then none
  else match a.thread with
    | none => s.receiverStep a
    | some i => s.threads[i]?.bind fun th => s.threadStep cfg i th a

end DNSServer

end OdbcDns
