import OdbcDns.Database
import OdbcDns.Lib.Act

namespace OdbcDns

structure DNSQuery where
  qname : List Byte
  qtype : UInt16
  qclass : UInt16
  length : Nat
  deriving DecidableEq, Repr

/-- Byte `i` behind a pointer. -/
def readByte (mem : List Byte) (i : Nat) : Except Stop Byte :=
  match mem[i]? with
  | some b => .ok b
  | none => .error (.fault .outOfBounds)

/-- The constructor of `DNSQuery`. Type and class are single `char` loads. -/
def DNSQuery.parse (start message : List Byte) : Except Stop DNSQuery := do
  match ← leadingPointer start with
  | some ptr =>
    let (qname, _) ← decodeName (message.drop ptr) message (maxDnsNameLength + 1)
    let t ← readByte start 3
    let c ← readByte start 5
    .ok ⟨qname, charToU16 t, charToU16 c, 6⟩
  | none =>
    let (qname, n) ← decodeName start message (maxDnsNameLength + 1)
    let t ← readByte start (n + 1)
    let c ← readByte start (n + 3)
    .ok ⟨qname, charToU16 t, charToU16 c, n + 4⟩

structure ResponseInfo where
  answers : UInt16
  authAnswers : UInt16
  otherAnswers : UInt16
  rcode : Rcode
  length : Nat
  recursionOccurred : Bool
  truncationOccurred : Bool
  deriving DecidableEq, Repr

/-- A fresh `ResponseInfo`. Its length has no initialiser. -/
def ResponseInfo.new (uninit : Nat) : ResponseInfo :=
  ⟨0, 0, 0, .noError, uninit, false, false⟩

/-- What the program is started with. -/
structure Config where
  recursiveServer : UInt32
  infoEnabled : Bool

/-- The address 255.255.255.255 stands for no recursive server. -/
def Config.noServer (cfg : Config) : Bool := cfg.recursiveServer = 4294967295

/-- The socket of a resolver: datagrams waiting to be read, oldest first, and
all datagrams sent so far. -/
structure Socket where
  inbox : List (List Byte)
  outbox : List (List Byte)

/-- What the network does during one call of `recursiveResolve`: errors of the
socket calls, and datagrams that arrive while it waits. -/
structure Exchange where
  sendError : Option Int
  selectError : Option Int
  recvError : Option Int
  arrivals : List (List Byte)

def Exchange.quiet : Exchange := ⟨none, none, none, []⟩

/-- What a call of the resolver reads and changes. `exchanges` and `driver` are
the answers of the network and of the ODBC driver that are still to come. -/
structure Session where
  packet : Packet
  queries : List DNSQuery
  pointerLocations : PointerLocations
  connection : Connection
  socket : Socket
  exchanges : List Exchange
  driver : List (Option String)

abbrev Call := Act Session Stop

/-- What memory without an initialiser happens to hold. -/
structure Locals where
  /-- The memory at the address of the parameter `packet` of `extractQueries`. -/
  stack : List Byte
  valueBuf : List Byte
  length : Nat

/-- A call into the driver that has no effect of its own. -/
def driverCall : Call Unit := do
  let s ← Act.get
  match s.driver with
  | [] => pure ()
  | outcome :: rest =>
    Act.set { s with driver := rest }
    match outcome with
    | none => pure ()
    | some message => Act.stop (.exception message)

/-- `SQLStatement::commit` -/
def commit : Call Unit := do
  driverCall
  Act.modify (fun s => { s with connection := s.connection.commit })

def validateDescrArrays (opcode rcode type rclass : Nat) : Bool :=
  opcode < 3 && rcode < 6 && type < 256 && rclass < 256

/-- The lookups `TYPE_DESCR[type]` and `CLASS_DESCR[rclass]` of a log line. -/
def describe (type rclass : UInt16) : Except Stop Unit :=
  if type.toNat < 256 ∧ rclass.toNat < 256 then .ok () else .error (.fault .outOfBounds)

/-- What a log line behind the guard of `extractQueries` and `resolveA` looks up. -/
def logGuarded (cfg : Config) (type rclass : UInt16) : Except Stop Unit :=
  if cfg.infoEnabled && validateDescrArrays 0 0 type.toNat rclass.toNat then describe type rclass
  else .ok ()

/-- The end of `recursiveResolve`, from `recv` on. The result is a difference of
a length and a `size_t`. -/
def receiveReply (originalId : List Byte) (packetLen : Nat) : Call Nat := do
  let s ← Act.get
  match s.socket.inbox with
  | [] => Act.stop (.fault .hang)
  | d :: rest =>
    Act.set { s with
      packet := Packet.ofDatagram (d.take maxDnsPacketLength) s.packet
      socket := { s.socket with inbox := rest } }
    if d.length > maxDnsPacketLength then Act.stop (.code 10040)
    else
      let s ← Act.get
      if idOf s.packet.bytes ≠ originalId then
        Act.stop (.exception "Recursive response ID mismatch")
      else pure (sizeSub d.length packetLen)

/-- `DNSResolver::recursiveResolve`, whose two packets are the same one. -/
def recursiveResolve (cfg : Config) (packetLen : Nat) : Call Nat := do
  if cfg.noServer then pure packetLen
  else
    let s ← Act.get
    let originalId := idOf s.packet.bytes
    let exchange := s.exchanges.headD .quiet
    Act.set { s with exchanges := s.exchanges.tail }
    match exchange.sendError with
    | some e => Act.stop (.code e)
    | none =>
      let len := packetLen % 4294967296
      if len > packetAllocation then Act.stop (.fault .outOfBounds)
      else
        Act.modify (fun s => { s with socket :=
          ⟨s.socket.inbox ++ exchange.arrivals, s.socket.outbox ++ [s.packet.bytes.take len]⟩ })
        match exchange.selectError, exchange.recvError with
        | some e, _ => Act.stop (.code e)
        | none, some e => Act.stop (.code e)
        | none, none => receiveReply originalId packetLen

/-- A string column copied into a buffer of 256 bytes. -/
def getString (text buf : List Byte) : Except Stop (List Byte) :=
  if text.length + 1 > 256 then .error (.fault .outOfBounds)
  else .ok (Slice.overwrite buf 0 (text ++ [0]))

/-- The `switch` over the type. Any other type leaves the pointer null, or
pointing to the deleted data of the row before. -/
def makeRData (type : UInt16) (valueBuf : List Byte) : Except Stop DNSRData :=
  if type = typeA then (DNSRDataA.ofText valueBuf).map .a
  else if type = typeCname then (DNSRDataCNAME.ofText (cstr valueBuf)).map .cname
  else .error (.fault .badRData)

/-- Where the loop of `resolveA` stands: `ptr` as an offset in the packet, and
whether it has been left through the check for truncation. -/
structure RowLoop where
  ptr : Nat
  remLen : Int
  numARecords : Nat
  valueBuf : List Byte
  info : ResponseInfo
  truncated : Bool

/-- The variables of `resolveA` that rows are read into. -/
structure RowBuffers where
  ttlBuf : UInt32
  nameBuf : List Byte
  valueBuf : List Byte
  typeBuf : UInt16
  classBuf : UInt16

/-- The check for truncation at the end of the loop of `resolveA`, with what follows it. -/
def RowLoop.advance {m : Type → Type} [Monad m] (l : RowLoop) (readBytes : Nat)
    (next : RowLoop → m RowLoop) : m RowLoop :=
  if l.remLen ≤ 0 then
    pure { l with
      info := { l.info with truncationOccurred := true, answers := l.info.answers - 1 }
      truncated := true }
  else
    next { l with
      ptr := l.ptr + readBytes
      info := { l.info with answers := l.info.answers + 1 } }

/-- `SQLStatement::executeUpdate`: the driver may fail before the statement
takes effect, or afterwards in `SQLRowCount`. -/
def executeUpdate (f : Connection → Connection) (count : Int) : Call Int := do
  driverCall
  Act.modify (fun s => { s with connection := f s.connection })
  driverCall
  pure count

/-- The row that is inserted for a record with data. -/
def storedRow (now : Rat) (rr : DNSResourceRecord) (rdata : DNSRData) : Stored :=
  ⟨rr.name, rdata.getValue, now + signedTTL rr.info.ttl, rr.info.type, rr.info.rclass⟩

/-- The two statements for a record with data. -/
def deleteFor (e : Execution) (rr : DNSResourceRecord) (c : Connection) : Connection :=
  c.deleteExpired rr.name e.deleteNow

def insertFor (e : Execution) (rr : DNSResourceRecord) (rdata : DNSRData) (c : Connection) :
    Connection :=
  c.insertMissing (storedRow e.insertNow rr rdata) e.testNow

/-- What the functions of the resolver run on. Each of them is written once over a host: it
runs on the session alone, with some of its events noted, or over the driver. -/
structure Host (σ : Type) where
  /-- A part that only needs the session. -/
  call : {α : Type} → Call α → Act σ Stop α
  commit : Act σ Stop Unit
  /-- A log line with `TYPE_DESCR[type]` and `CLASS_DESCR[rclass]`, behind a guard. -/
  log : Bool → UInt16 → UInt16 → Act σ Stop Unit
  /-- The record with this number is about to be decoded from this offset on. -/
  decoding : Nat → Nat → Act σ Stop Unit

namespace Host

variable {σ : Type} (host : Host σ)

/-- The session alone. -/
def plain : Host Session where
  call x := x
  commit := OdbcDns.commit
  log guard type rclass := Act.lift (if guard then describe type rclass else .ok ())
  decoding _ _ := pure ()

/-- A log line behind the guard that `extractQueries` and `resolveA` use. -/
def logGuarded (cfg : Config) (type rclass : UInt16) : Act σ Stop Unit :=
  host.log (cfg.infoEnabled && validateDescrArrays 0 0 type.toNat rclass.toNat) type rclass

/-- The loop of `extractQueries` over the questions that are left. Pointers in
a question are taken from the stack: the argument is `&packet`, not `packet`. -/
def extractLoop (cfg : Config) (stack : List Byte) : Nat → Nat → Nat → Act σ Stop Nat
  | 0, _, length => pure length
  | n + 1, ptr, length => do
    let s ← host.call Act.get
    let query ← Act.lift (DNSQuery.parse (s.packet.bytes.drop ptr) stack)
    host.logGuarded cfg query.qtype query.qclass
    host.call (Act.modify (fun s => { s with
      pointerLocations := s.pointerLocations.insert query.qname (UInt16.ofNat headerLength)
      queries := s.queries ++ [query] }))
    extractLoop cfg stack n (ptr + query.length) (length + query.length)

def extractQueries (cfg : Config) (stack : List Byte) : Act σ Stop Nat := do
  let s ← host.call Act.get
  host.extractLoop cfg stack (qdcount s.packet.bytes) headerLength 0

/-- The body of the loop of `resolveA` for a row in its buffers, up to the check for
truncation. The second result is the number of bytes that the record takes. -/
def encodeFetched (cfg : Config) (row : RowBuffers) (l : RowLoop) :
    Act σ Stop (RowLoop × Nat) := do
  let rdata ← Act.lift (makeRData row.typeBuf row.valueBuf)
  let rr : DNSResourceRecord :=
    ⟨cstr row.nameBuf, ⟨row.typeBuf, row.classBuf, row.ttlBuf, 0⟩, some rdata⟩
  host.logGuarded cfg row.typeBuf row.classBuf
  let s ← host.call Act.get
  let (_, packet, readBytes) ← Act.lift
    (rr.encode s.packet l.ptr (toSize l.remLen) s.pointerLocations)
  let value := cstr row.valueBuf
  let pointerLocations :=
    if row.typeBuf = typeCname ∧ s.pointerLocations value = none then
      s.pointerLocations.insert value (UInt16.ofNat (l.ptr + readBytes - value.length - 2))
    else s.pointerLocations
  host.call (Act.set { s with packet, pointerLocations })
  pure ({ l with
    valueBuf := row.valueBuf
    numARecords := if row.typeBuf = typeA then l.numARecords + 1 else l.numARecords
    remLen := l.remLen - readBytes }, readBytes)

/-- The body for a row of the result. -/
def encodeRow (cfg : Config) (row : Row) (l : RowLoop) : Act σ Stop (RowLoop × Nat) := do
  let nameBuf ← Act.lift (getString row.name [])
  let valueBuf ← Act.lift (getString row.value l.valueBuf)
  host.encodeFetched cfg ⟨row.ttl, nameBuf, valueBuf, row.type, row.rclass⟩ l

/-- The loop of `resolveA`. It stops at the first record that leaves no room,
with the count reduced by one. -/
def resolveRows (cfg : Config) : List Row → RowLoop → Act σ Stop RowLoop
  | [], l => do
    host.call driverCall
    pure l
  | row :: rows, l => do
    host.call driverCall
    let (l, readBytes) ← host.encodeRow cfg row l
    l.advance readBytes (resolveRows cfg rows)

/-- The end of `resolveA`, behind its loop. -/
def finishA (cfg : Config) (responseData packetLen : Nat) (l : RowLoop) :
    Act σ Stop (Nat × ResponseInfo) :=
  if l.truncated then do
    host.commit
    pure (l.ptr - responseData, l.info)
  else do
    let s ← host.call Act.get
    if l.numARecords = 0 ∧ rd s.packet.bytes then
      host.commit
      let length ← host.call (recursiveResolve cfg packetLen)
      pure (length, { l.info with recursionOccurred := true })
    else
      host.commit
      pure (l.ptr - responseData, l.info)

/-- `DNSResolver::resolveA`. The rows are what the query returns for the name;
`responseData` is an offset in the packet. -/
def resolveA (cfg : Config) (locals : Locals) (lookup : List Byte → List Row) (query : DNSQuery)
    (responseData : Nat) (info : ResponseInfo) (packetLen : Nat) :
    Act σ Stop (Nat × ResponseInfo) := do
  if query.qname.length + 1 > maxDnsNameLength then Act.stop (.fault .invalidParameter)
  else
    host.call driverCall
    let l ← host.resolveRows cfg (lookup query.qname)
      ⟨responseData, maxDnsPacketLength - headerLength, 0, locals.valueBuf, info, false⟩
    host.finishA cfg responseData packetLen l

/-- The loop of `resolve` over the questions. -/
def resolveLoop (cfg : Config) (packetLen : Nat)
    (resolveA : DNSQuery → ResponseInfo → Act σ Stop (Nat × ResponseInfo)) :
    List DNSQuery → ResponseInfo → Act σ Stop ResponseInfo
  | [], info => pure info
  | query :: queries, info => do
    if query.qtype = typeA then
      let (length, info) ← resolveA query info
      resolveLoop cfg packetLen resolveA queries { info with length }
    else
      let s ← host.call Act.get
      if rd s.packet.bytes then
        let length ← host.call (recursiveResolve cfg packetLen)
        pure { info with length, recursionOccurred := true }
      else
        pure { info with rcode := .notImplemented }

/-- The two statements for a decoded record and the log line, unless it has no data. -/
def cacheRecord (cfg : Config) (e : Execution) (rr : DNSResourceRecord) : Act σ Stop Unit :=
  match rr.rdata with
  | none => pure ()
  | some rdata => do
    let _ ← host.call (executeUpdate (deleteFor e rr) e.deleteCount)
    let inserted ← host.call (executeUpdate (insertFor e rr rdata) e.insertCount)
    host.log (inserted ≠ 0 && cfg.infoEnabled) rr.getType rr.getClass

/-- The loop of `cacheResponse` over the records that are left, with its body for a decoded
record and what that passes on. `heap i` is what the allocations for record `i` happen to
hold. -/
def cacheLoopBy {β : Type} (heap : Nat → Nat → Byte)
    (cacheRecord : Nat → DNSResourceRecord → β → Act σ Stop β) :
    Nat → Nat → Nat → β → Act σ Stop β
  | 0, _, _, b => pure b
  | n + 1, i, ptr, b => do
    let s ← host.call Act.get
    host.decoding i ptr
    let (rr, after) ← Act.lift (DNSResourceRecord.decode (heap i) s.packet.bytes ptr)
    let b ← cacheRecord i rr b
    cacheLoopBy heap cacheRecord n (i + 1) after b

def cacheLoop (cfg : Config) (executions : Nat → Execution) (heap : Nat → Nat → Byte)
    (n i ptr : Nat) : Act σ Stop Unit :=
  host.cacheLoopBy heap (fun i rr _ => host.cacheRecord cfg (executions i) rr) n i ptr ()

/-- `DNSResolver::cacheResponse`; `data` is an offset in the packet. -/
def cacheResponse (cfg : Config) (executions : Nat → Execution) (heap : Nat → Nat → Byte)
    (data numResponses : Nat) : Act σ Stop Unit := do
  host.call driverCall
  host.cacheLoop cfg executions heap numResponses 0 data
  host.commit
  host.commit

end Host

def extractLoop (cfg : Config) (stack : List Byte) : Nat → Nat → Nat → Call Nat :=
  Host.plain.extractLoop cfg stack

def extractQueries (cfg : Config) (stack : List Byte) : Call Nat :=
  Host.plain.extractQueries cfg stack

def encodeRow (cfg : Config) (row : Row) (l : RowLoop) : Call (RowLoop × Nat) :=
  Host.plain.encodeRow cfg row l

def resolveRows (cfg : Config) : List Row → RowLoop → Call RowLoop := Host.plain.resolveRows cfg

def resolveA (cfg : Config) (locals : Locals) (lookup : List Byte → List Row) (query : DNSQuery)
    (responseData : Nat) (info : ResponseInfo) (packetLen : Nat) : Call (Nat × ResponseInfo) :=
  Host.plain.resolveA cfg locals lookup query responseData info packetLen

def resolveLoop (cfg : Config) (locals : Locals) (lookup : List Byte → List Row)
    (responseData packetLen : Nat) : List DNSQuery → ResponseInfo → Call ResponseInfo :=
  Host.plain.resolveLoop cfg packetLen fun query info =>
    resolveA cfg locals lookup query responseData info packetLen

def resolve (cfg : Config) (locals : Locals) (lookup : List Byte → List Row)
    (responseData packetLen : Nat) : Call ResponseInfo := do
  let s ← Act.get
  resolveLoop cfg locals lookup responseData packetLen s.queries (.new locals.length)

def cacheRecord (cfg : Config) (e : Execution) (rr : DNSResourceRecord) : Call Unit :=
  Host.plain.cacheRecord cfg e rr

def cacheLoop (cfg : Config) (executions : Nat → Execution) (heap : Nat → Nat → Byte)
    (n i ptr : Nat) : Call Unit :=
  Host.plain.cacheLoop cfg executions heap n i ptr

def cacheResponse (cfg : Config) (executions : Nat → Execution) (heap : Nat → Nat → Byte)
    (data numResponses : Nat) : Call Unit :=
  Host.plain.cacheResponse cfg executions heap data numResponses

/-! The functions on the session alone, one step at a time. -/

section Equations

variable (cfg : Config)

theorem extractLoop_zero (stack : List Byte) (ptr length : Nat) :
    extractLoop cfg stack 0 ptr length = pure length := rfl

theorem extractLoop_succ (stack : List Byte) (n ptr length : Nat) :
    extractLoop cfg stack (n + 1) ptr length = (do
      let s ← Act.get
      let query ← Act.lift (DNSQuery.parse (s.packet.bytes.drop ptr) stack)
      Act.lift (logGuarded cfg query.qtype query.qclass)
      Act.modify (fun s => { s with
        pointerLocations := s.pointerLocations.insert query.qname (UInt16.ofNat headerLength)
        queries := s.queries ++ [query] })
      extractLoop cfg stack n (ptr + query.length) (length + query.length)) := rfl

theorem extractQueries_eq (stack : List Byte) : extractQueries cfg stack = (do
    let s ← Act.get
    extractLoop cfg stack (qdcount s.packet.bytes) headerLength 0) := rfl

theorem encodeRow_eq (row : Row) (l : RowLoop) : encodeRow cfg row l = (do
    let nameBuf ← Act.lift (getString row.name [])
    let valueBuf ← Act.lift (getString row.value l.valueBuf)
    let rdata ← Act.lift (makeRData row.type valueBuf)
    let rr : DNSResourceRecord := ⟨cstr nameBuf, ⟨row.type, row.rclass, row.ttl, 0⟩, some rdata⟩
    Act.lift (logGuarded cfg row.type row.rclass)
    let s ← Act.get
    let (_, packet, readBytes) ← Act.lift
      (rr.encode s.packet l.ptr (toSize l.remLen) s.pointerLocations)
    let value := cstr valueBuf
    let pointerLocations :=
      if row.type = typeCname ∧ s.pointerLocations value = none then
        s.pointerLocations.insert value (UInt16.ofNat (l.ptr + readBytes - value.length - 2))
      else s.pointerLocations
    Act.set { s with packet, pointerLocations }
    pure ({ l with
      valueBuf
      numARecords := if row.type = typeA then l.numARecords + 1 else l.numARecords
      remLen := l.remLen - readBytes }, readBytes)) := rfl

theorem resolveRows_nil (l : RowLoop) : resolveRows cfg [] l = (do driverCall; pure l) := rfl

theorem resolveRows_cons (row : Row) (rows : List Row) (l : RowLoop) :
    resolveRows cfg (row :: rows) l = (do
      driverCall
      let (l, readBytes) ← encodeRow cfg row l
      if l.remLen ≤ 0 then
        pure { l with
          info := { l.info with truncationOccurred := true, answers := l.info.answers - 1 }
          truncated := true }
      else
        resolveRows cfg rows { l with
          ptr := l.ptr + readBytes
          info := { l.info with answers := l.info.answers + 1 } }) := rfl

theorem resolveA_eq (locals : Locals) (lookup : List Byte → List Row) (query : DNSQuery)
    (responseData : Nat) (info : ResponseInfo) (packetLen : Nat) :
    resolveA cfg locals lookup query responseData info packetLen =
      (if query.qname.length + 1 > maxDnsNameLength then Act.stop (.fault .invalidParameter)
      else do
        driverCall
        let l ← resolveRows cfg (lookup query.qname)
          ⟨responseData, maxDnsPacketLength - headerLength, 0, locals.valueBuf, info, false⟩
        if l.truncated then
          commit
          pure (l.ptr - responseData, l.info)
        else
          let s ← Act.get
          if l.numARecords = 0 ∧ rd s.packet.bytes then
            commit
            let length ← recursiveResolve cfg packetLen
            pure (length, { l.info with recursionOccurred := true })
          else
            commit
            pure (l.ptr - responseData, l.info)) := rfl

theorem resolveLoop_nil (locals : Locals) (lookup : List Byte → List Row)
    (responseData packetLen : Nat) (info : ResponseInfo) :
    resolveLoop cfg locals lookup responseData packetLen [] info = pure info := rfl

theorem resolveLoop_cons (locals : Locals) (lookup : List Byte → List Row)
    (responseData packetLen : Nat) (query : DNSQuery) (queries : List DNSQuery)
    (info : ResponseInfo) :
    resolveLoop cfg locals lookup responseData packetLen (query :: queries) info =
      (if query.qtype = typeA then do
        let (length, info) ← resolveA cfg locals lookup query responseData info packetLen
        resolveLoop cfg locals lookup responseData packetLen queries { info with length }
      else do
        let s ← Act.get
        if rd s.packet.bytes then
          let length ← recursiveResolve cfg packetLen
          pure { info with length, recursionOccurred := true }
        else
          pure { info with rcode := .notImplemented }) := rfl

variable (e : Execution) {rr : DNSResourceRecord}

theorem cacheRecord_none (h : rr.rdata = none) : cacheRecord cfg e rr = pure () := by
  unfold cacheRecord Host.cacheRecord
  rw [h]

theorem cacheRecord_eq {rdata : DNSRData} (h : rr.rdata = some rdata) :
    cacheRecord cfg e rr = (do
      let _ ← executeUpdate (deleteFor e rr) e.deleteCount
      let inserted ← executeUpdate (insertFor e rr rdata) e.insertCount
      Act.lift (if inserted ≠ 0 && cfg.infoEnabled then describe rr.getType rr.getClass
        else .ok ())) := by
  unfold cacheRecord Host.cacheRecord
  rw [h]
  rfl

theorem cacheResponse_eq (executions : Nat → Execution) (heap : Nat → Nat → Byte)
    (data numResponses : Nat) : cacheResponse cfg executions heap data numResponses = (do
      driverCall
      cacheLoop cfg executions heap numResponses 0 data
      commit
      commit) := rfl

end Equations

end OdbcDns
