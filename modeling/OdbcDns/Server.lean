import OdbcDns.Resolver

namespace OdbcDns

/-- Everything outside a worker that one turn of its loop depends on: first for
caching what the turn before has received, then for the next request. -/
structure Turn where
  /-- What other connections do to RECORD before the turn. -/
  interference : List Stored → List Stored
  executions : Nat → Execution
  heap : Nat → Nat → Byte
  cacheDriver : List (Option String)
  datagram : List Byte
  received : datagram.length ≤ maxDnsPacketLength
  /-- What `malloc` returns for the request. -/
  buffer : Packet
  locals : Locals
  lookup : List Byte → List Row
  exchanges : List Exchange
  driver : List (Option String)
  sendFails : Bool

/-- The locals of `serviceRequests` that live across its iterations, and the
parts of the resolver that do. -/
structure Worker where
  packet : Option Packet
  queries : List DNSQuery
  pointerLocations : PointerLocations
  connection : Connection
  socket : Socket
  responseInfo : ResponseInfo
  error : Bool
  totalBytes : Nat
  queryBytes : Nat

namespace Worker

/-- A worker before its first request. The byte counts have no initialiser. -/
def start (connection : Connection) (socket : Socket) (length totalBytes queryBytes : Nat) :
    Worker :=
  ⟨none, [], fun _ => none, connection, socket, .new length, false, totalBytes, queryBytes⟩

/-- The session of the resolver for the packet of a request. -/
def session (w : Worker) (packet : Packet) (exchanges : List Exchange)
    (driver : List (Option String)) : Session :=
  ⟨packet, w.queries, w.pointerLocations, w.connection, w.socket, exchanges, driver⟩

/-- Whether the packet of the last request is to be cached. -/
def due (w : Worker) : Bool := !w.error && w.responseInfo.recursionOccurred

/-- The start of an iteration, over the call that caches. The second result says whether
the call has thrown. -/
def cachingBy (cacheResponse : Nat → Nat → Call Unit) (t : Turn) (w : Worker) :
    Except Fault (Worker × Bool) :=
  let w := { w with
    connection := { w.connection with record := t.interference w.connection.record } }
  if w.due then
    match w.packet with
    | none => .error .outOfBounds
    | some packet =>
      match cacheResponse (sizeAdd headerLength w.queryBytes) (ancount packet.bytes)
          (w.session packet [] t.cacheDriver) with
      | (.error (.fault f), _) => .error f
      | (.error _, s) => .ok ({ w with connection := s.connection }, true)
      | (.ok _, s) => .ok ({ w with connection := s.connection }, false)
  else .ok (w, false)

def caching (cfg : Config) (t : Turn) (w : Worker) : Except Fault (Worker × Bool) :=
  w.cachingBy (cacheResponse cfg t.executions t.heap) t

/-- The start of an iteration, up to the cleaning. When caching throws, the
handler sets `error` and the next iteration passes here without caching. -/
def cache (cfg : Config) (t : Turn) (w : Worker) : Except Fault Worker :=
  (w.caching cfg t).map Prod.fst

def clean (w : Worker) : Worker :=
  { w with error := false, queries := [], pointerLocations := fun _ => none, packet := none }

/-- Where an iteration stands between its `try` blocks. -/
structure Stage where
  session : Session
  error : Bool
  totalBytes : Nat
  queryBytes : Nat

/-- The first `try` block. An exception leaves the byte counts as they were. -/
def extract (cfg : Config) (t : Turn) (w : Worker) : Except Fault Stage :=
  match extractQueries cfg t.locals.stack
      (w.session (.ofDatagram t.datagram t.buffer) t.exchanges t.driver) with
  | (.error (.fault f), _) => .error f
  | (.error _, s) =>
    .ok ⟨{ s with packet := s.packet.setRcode Rcode.formatError.byte }, true,
      w.totalBytes, w.queryBytes⟩
  | (.ok n, s) => .ok ⟨s, false, n, n⟩

/-- The header of a reply that was not received from the recursive server. -/
def setResponseFlags (cfg : Config) (info : ResponseInfo) (p : Packet) : Packet :=
  (((((p.setQr).setRa (!cfg.noServer)).setCount 6 info.answers).setCount 8 info.authAnswers).setCount
    10 info.otherAnswers).setRcode info.rcode.byte

/-- The handlers of the second `try` block. The one for `int` prints the code
into six characters. -/
def failed (g : Stage) (s : Session) (e : Stop) : Except Fault Stage :=
  let g := { g with
    session := { s with packet := s.packet.setRcode Rcode.serverFailure.byte }
    error := true }
  match e with
  | .fault f => .error f
  | .code n => if -9999 ≤ n ∧ n ≤ 99999 then .ok g else .error .invalidParameter
  | .exception _ => .ok g

/-- The end of the second `try` block, once `resolve` has returned. -/
def answered (cfg : Config) (g : Stage) (s : Session) (info : ResponseInfo) : Stage :=
  let p := if info.truncationOccurred then s.packet.setTc else s.packet
  let p := if info.recursionOccurred then p else setResponseFlags cfg info p
  { g with session := { s with packet := p }, totalBytes := sizeAdd g.totalBytes info.length }

/-- The second `try` block, over the call that resolves. The response info is replaced
only on success. -/
def respondBy (resolve : Nat → Nat → Call ResponseInfo) (cfg : Config)
    (responseInfo : ResponseInfo) (g : Stage) : Except Fault (Stage × ResponseInfo) :=
  match resolve (sizeAdd headerLength g.totalBytes) (sizeAdd headerLength g.totalBytes)
      g.session with
  | (.error e, s) => (failed g s e).map (fun g => (g, responseInfo))
  | (.ok info, s) => .ok (answered cfg g s info, info)

def respond (cfg : Config) (t : Turn) (responseInfo : ResponseInfo) (g : Stage) :
    Except Fault (Stage × ResponseInfo) :=
  respondBy (resolve cfg t.locals t.lookup) cfg responseInfo g

/-- The datagram passed to `sendto`. -/
def Stage.reply (g : Stage) : List Byte :=
  g.session.packet.bytes.take (min (sizeAdd headerLength g.totalBytes) maxDnsPacketLength)

/-- One request, from the queue to `sendto`. -/
def serveBy (resolve : Nat → Nat → Call ResponseInfo) (cfg : Config) (t : Turn) (w : Worker) :
    Except Fault (Worker × List Byte) := do
  let g ← w.extract cfg t
  let (g, info) ← respondBy resolve cfg w.responseInfo g
  .ok ({ w with
    packet := some g.session.packet
    queries := g.session.queries
    pointerLocations := g.session.pointerLocations
    connection := g.session.connection
    socket := g.session.socket
    responseInfo := info
    error := g.error || t.sendFails
    totalBytes := g.totalBytes
    queryBytes := g.queryBytes }, g.reply)

def serve (cfg : Config) (t : Turn) (w : Worker) : Except Fault (Worker × List Byte) :=
  w.serveBy (resolve cfg t.locals t.lookup) cfg t

/-- One turn of the loop of `serviceRequests`. -/
def turnBy (cacheResponse : Nat → Nat → Call Unit) (resolve : Nat → Nat → Call ResponseInfo)
    (cfg : Config) (t : Turn) (w : Worker) : Except Fault (Worker × List Byte) := do
  let w ← (w.cachingBy cacheResponse t).map Prod.fst
  w.clean.serveBy resolve cfg t

def turn (cfg : Config) (t : Turn) (w : Worker) : Except Fault (Worker × List Byte) :=
  w.turnBy (cacheResponse cfg t.executions t.heap) (resolve cfg t.locals t.lookup) cfg t

/-- A run of a worker, with the datagrams it hands to `sendto`. -/
def runBy {τ : Type} (turn : τ → Worker → Except Fault (Worker × List Byte)) :
    List τ → Worker → Except Fault (Worker × List (List Byte))
  | [], w => .ok (w, [])
  | t :: ts, w => do
    let (w, reply) ← turn t w
    let (w, replies) ← runBy turn ts w
    .ok (w, reply :: replies)

def run (cfg : Config) : List Turn → Worker → Except Fault (Worker × List (List Byte)) :=
  runBy (turn cfg)

section Equations

variable (cfg : Config) (t : Turn) (w : Worker)

theorem cache_eq : w.cache cfg t =
    let w := { w with
      connection := { w.connection with record := t.interference w.connection.record } }
    if w.due then
      match w.packet with
      | none => .error .outOfBounds
      | some packet =>
        match cacheResponse cfg t.executions t.heap (sizeAdd headerLength w.queryBytes)
            (ancount packet.bytes) (w.session packet [] t.cacheDriver) with
        | (.error (.fault f), _) => .error f
        | (_, s) => .ok { w with connection := s.connection }
    else .ok w := by
  unfold cache caching cachingBy
  dsimp only
  split
  · cases w.packet with
    | none => rfl
    | some packet =>
      dsimp only
      generalize cacheResponse cfg t.executions t.heap _ _ _ = r
      obtain ⟨e | _, s⟩ := r
      · cases e <;> rfl
      · rfl
  · rfl

theorem respond_eq (responseInfo : ResponseInfo) (g : Stage) :
    respond cfg t responseInfo g =
      match resolve cfg t.locals t.lookup (sizeAdd headerLength g.totalBytes)
          (sizeAdd headerLength g.totalBytes) g.session with
      | (.error e, s) => (failed g s e).map (fun g => (g, responseInfo))
      | (.ok info, s) => .ok (answered cfg g s info, info) := rfl

theorem serve_eq : w.serve cfg t = (do
    let g ← w.extract cfg t
    let (g, info) ← respond cfg t w.responseInfo g
    .ok ({ w with
      packet := some g.session.packet
      queries := g.session.queries
      pointerLocations := g.session.pointerLocations
      connection := g.session.connection
      socket := g.session.socket
      responseInfo := info
      error := g.error || t.sendFails
      totalBytes := g.totalBytes
      queryBytes := g.queryBytes }, g.reply)) := rfl

theorem turn_eq : w.turn cfg t = (do
    let w ← w.cache cfg t
    w.clean.serve cfg t) := rfl

theorem run_nil : run cfg [] w = .ok (w, []) := rfl

theorem run_cons_eq (ts : List Turn) : run cfg (t :: ts) w = (do
    let (w, reply) ← w.turn cfg t
    let (w, replies) ← run cfg ts w
    .ok (w, reply :: replies)) := rfl

end Equations

end Worker

end OdbcDns
