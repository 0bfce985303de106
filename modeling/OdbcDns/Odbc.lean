import OdbcDns.CommandLine
import OdbcDns.Server

namespace OdbcDns

/-! The classes over ODBC, and the resolver and the worker with each call they make of the
driver. What the driver returns is an input; what it does when it does not fail is what the
text of the statement says. -/

/-- `SQLRETURN` -/
inductive SQLReturn where
  | success
  | successWithInfo
  | noData
  | error
  | invalidHandle
  deriving DecidableEq, Repr

/-- How the driver answers a call. -/
inductive DriverAnswer where
  /-- It does what it is asked to do. It may have something to say about it. -/
  | done (info : Bool)
  /-- It fails, and leaves a diagnostic record, or several, on the handle that it was called
  with. Another handle keeps the records `old` that it has from earlier calls. -/
  | error (first : List Byte) (more old : List (List Byte))
  | invalidHandle

/-- A call of the resolver together with the driver. -/
structure OdbcSession where
  session : Session
  /-- The answers that are still to come. -/
  answers : List DriverAnswer
  /-- The texts of the diagnostic records of the handle that `getSqlMessage` asks. -/
  diag : List (List Byte)
  /-- What the buffer of `getSqlMessage` happens to hold. -/
  msg : List Byte

abbrev OdbcCall := Act OdbcSession Stop

/-- A part that does not call the driver. -/
def OdbcCall.plain {α : Type} (x : Call α) : OdbcCall α := fun d =>
  ((x d.session).1, { d with session := (x d.session).2 })

/-- A function of the driver. If it fails it has no effect and returns `unchanged`. `own` says
whether it is called with the handle that `getSqlMessage` asks afterwards. -/
def driverFunction {α : Type} (own : Bool) (unchanged : α) (effect : OdbcCall (α × SQLReturn)) :
    OdbcCall (α × SQLReturn) := do
  let d ← Act.get
  Act.set { d with answers := d.answers.tail }
  match d.answers.headD (.done false) with
  | .done info =>
    let (a, retval) ← effect
    pure (a, if info ∧ retval = .success then .successWithInfo else retval)
  | .error first more old =>
    Act.modify (fun d => { d with diag := if own then first :: more else old })
    pure (unchanged, .error)
  | .invalidHandle => pure (unchanged, .invalidHandle)

def sqlMaxMessageLength : Nat := 512

/-- `SQLMessageHandler::getSqlMessage`: each record is written over the one before. -/
def SQLMessageHandler.getSqlMessage : List (List Byte) → List Byte → List Byte
  | [], msg => msg
  | text :: diag, msg =>
    getSqlMessage diag (Slice.overwrite msg 0 (text.take (sqlMaxMessageLength - 1) ++ [0]))

/-- The function `handleErrors` that three classes have. -/
def handleErrors (invalid : String) (retval : SQLReturn) : OdbcCall Unit := do
  match retval with
  | .error =>
    let d ← Act.get
    let errorBuf := SQLMessageHandler.getSqlMessage d.diag d.msg
    let _ ← Act.lift (strlen errorBuf)
    Act.stop (.exception (screenText (cstr errorBuf)))
  | .invalidHandle => Act.stop (.exception invalid)
  | _ => pure ()

/-- A call of the driver with the check of its return: `retval = ...; handleErrors(retval);` -/
def checked {α : Type} (handleErrors : SQLReturn → OdbcCall Unit)
    (call : OdbcCall (α × SQLReturn)) : OdbcCall α := do
  let (a, retval) ← call
  handleErrors retval
  pure a

/-- The statements of the resolver, with the columns that they write and select. -/
inductive SQLText where
  /-- `DELETE FROM RECORD WHERE NAME = ? AND EXPIRES <= {fn NOW()}` -/
  | delete
  /-- `IF NOT EXISTS (SELECT TOP 1 1 FROM RECORD WHERE NAME = ? AND VALUE = ? AND
  EXPIRES >= {fn NOW()}) BEGIN INSERT INTO RECORD(NAME, VALUE, EXPIRES, TYPE, CLASS)
  VALUES(?, ?, {fn TIMESTAMPADD(SQL_TSI_SECOND, ?, {fn NOW()})}, ?, ?) END` -/
  | insert
  /-- `WITH RESULTS ... WHERE NAME = ? ... SELECT ... TTL, NAME, VALUE, TYPE, CLASS` -/
  | select
  deriving DecidableEq, Repr

inductive SQLValue where
  | varchar (text : List Byte)
  | integer (n : Int)
  | smallint (n : UInt16)
  deriving DecidableEq, Repr

/-- What `SQLExecute` leaves behind when it does not fail. -/
structure Executed where
  connection : Connection
  retval : SQLReturn
  /-- What `SQLRowCount` returns. -/
  rowCount : Int
  /-- The rows of the result. -/
  cursor : List Row

namespace SQLText

/-- The number of parameter markers. -/
def markers : SQLText → Nat
  | .delete | .select => 1
  | .insert => 7

/-- A delete or an insert with these parameters. A delete that finds no row returns
`SQL_NO_DATA`. -/
def update (e : Execution) : SQLText → List SQLValue → Connection → Option Executed
  | .delete, [.varchar name], c =>
    some ⟨c.deleteExpired name e.deleteNow,
      if c.expired name e.deleteNow = [] then .noData else .success, e.deleteCount, []⟩
  | .insert, [.varchar oldName, .varchar oldValue, .varchar name, .varchar value, .integer ttl,
      .smallint type, .smallint rclass], c =>
    let row : Stored := ⟨name, value, e.insertNow + ttl, type, rclass⟩
    some ⟨if c.live oldName oldValue e.testNow then c
      else { c with record := c.record ++ [row], pending := c.pending ++ [.insert row] },
      .success, e.insertCount, []⟩
  | _, _, _ => none

/-- A query with these parameters. It has no row count. -/
def query (lookup : List Byte → List Row) :
    SQLText → List SQLValue → Connection → Option Executed
  | .select, [.varchar name], c => some ⟨c, .success, -1, lookup name⟩
  | _, _, _ => none

end SQLText

/-- What stands at an address that is bound to a parameter. -/
inductive Cell where
  | chars (buf : List Byte)
  | slong (n : Int)
  | ushort (n : UInt16)

/-- The types that a parameter is bound with. -/
inductive ParameterType where
  /-- `SQL_C_CHAR` and `SQL_VARCHAR` of a length -/
  | string (paramLen : Nat)
  /-- `SQL_C_SLONG` and `SQL_INTEGER` -/
  | long
  /-- `SQL_C_USHORT` and `SQL_SMALLINT` -/
  | ushort
  deriving DecidableEq, Repr

/-- The driver reads a parameter when the statement is executed. -/
def ParameterType.read : ParameterType → Cell → Option SQLValue
  | .string paramLen, .chars buf =>
    if (cstr buf).length ≤ paramLen then some (.varchar (cstr buf)) else none
  | .long, .slong n => some (.integer n)
  | .ushort, .ushort n => some (.smallint n)
  | _, _ => none

/-- A statement with its handle. The addresses of its parameters are of type `ν`. -/
structure SQLStatement (ν : Type) where
  text : Option SQLText
  params : Nat → Option (ParameterType × ν)
  rowCount : Int
  /-- The rows that have not been fetched. -/
  cursor : List Row

namespace SQLStatement

variable {ν : Type}

def handleErrors : SQLReturn → OdbcCall Unit :=
  OdbcDns.handleErrors "A handle needed by the statement is invalid"

/-- The constructor. `SQLAllocHandle` is called with the handle of the connection. -/
def new : OdbcCall (SQLStatement ν) :=
  let st : SQLStatement ν := ⟨none, fun _ => none, 0, []⟩
  checked handleErrors (driverFunction false st (pure (st, .success)))

/-- A call that changes the handle. -/
def update (f : SQLStatement ν → SQLStatement ν) (st : SQLStatement ν) :
    OdbcCall (SQLStatement ν) :=
  checked handleErrors (driverFunction true st (pure (f st, .success)))

def prepare (statementText : SQLText) : SQLStatement ν → OdbcCall (SQLStatement ν) :=
  update (fun st => { st with text := some statementText })

/-- `SQLBindParameter` -/
def bind (paramNum : Nat) (type : ParameterType) (param : ν) :
    SQLStatement ν → OdbcCall (SQLStatement ν) :=
  update (fun st => { st with
    params := fun n => if n = paramNum then some (type, param) else st.params n })

def bindString (paramNum paramLen : Nat) (param : ν) : SQLStatement ν → OdbcCall (SQLStatement ν) :=
  bind paramNum (.string paramLen) param

def bindUShort (paramNum : Nat) (param : ν) : SQLStatement ν → OdbcCall (SQLStatement ν) :=
  bind paramNum .ushort param

def bindLong (paramNum : Nat) (param : ν) : SQLStatement ν → OdbcCall (SQLStatement ν) :=
  bind paramNum .long param

/-- The values of the parameters that the text has markers for. -/
def values (st : SQLStatement ν) (mem : ν → Cell) (text : SQLText) : Option (List SQLValue) :=
  (List.range text.markers).mapM fun n =>
    (st.params (n + 1)).bind fun p => p.1.read (mem p.2)

/-- `SQLExecute`, which does what `run` says for the text and the values. -/
def sqlExecute (run : SQLText → List SQLValue → Connection → Option Executed) (mem : ν → Cell)
    (st : SQLStatement ν) : OdbcCall (SQLStatement ν × SQLReturn) :=
  driverFunction true st do
    let d ← Act.get
    let outcome := st.text.bind fun text => (st.values mem text).bind fun values =>
      run text values d.session.connection
    match outcome with
    | none => pure (st, .error)
    | some ⟨connection, retval, rowCount, cursor⟩ =>
      Act.set { d with session := { d.session with connection } }
      pure ({ st with rowCount, cursor }, retval)

/-- `SQLEndTran(SQL_HANDLE_DBC, hdbc, SQL_COMMIT)` -/
def commit : OdbcCall Unit :=
  checked handleErrors (driverFunction false () do
    Act.modify (fun d => { d with session := { d.session with
      connection := d.session.connection.commit } })
    pure ((), .success))

/-- `executeUpdate(false)` -/
def executeUpdate (e : Execution) (mem : ν → Cell) (st : SQLStatement ν) :
    OdbcCall (SQLStatement ν × Int) := do
  let st ← checked handleErrors (st.sqlExecute (SQLText.update e) mem)
  let len ← checked handleErrors (driverFunction true 0 (pure (st.rowCount, .success)))
  pure (st, len)

/-- `executeQuery(false)`, up to the constructor of the result set. -/
def executeQuery (lookup : List Byte → List Row) (mem : ν → Cell) (st : SQLStatement ν) :
    OdbcCall (SQLStatement ν) :=
  checked handleErrors (st.sqlExecute (SQLText.query lookup) mem)

end SQLStatement

/-- A column of a result, as `SQLDescribeCol` describes it. -/
structure Column where
  name : String
  length : Nat
  deriving DecidableEq, Repr

/-- Column `colNum` of a row of the result, in the order of the query. -/
def Row.column (row : Row) : Nat → Option SQLValue
  | 1 => some (.integer row.ttl.toNat)
  | 2 => some (.varchar row.name)
  | 3 => some (.varchar row.value)
  | 4 => some (.smallint row.type)
  | 5 => some (.smallint row.rclass)
  | _ => none

structure SQLResultSet where
  /-- A name that is not in the map gets the position 0. -/
  colPositions : String → Nat
  colLengths : List Nat

namespace SQLResultSet

def handleErrors : SQLReturn → OdbcCall Unit :=
  OdbcDns.handleErrors "A handle needed by the result set is invalid"

/-- The loop of the constructor, over the columns that `SQLDescribeCol` returns
`SQL_SUCCESS` for. Any other return ends it, and no error is reported. -/
def describeColumns : Nat → List Column → SQLResultSet → SQLResultSet
  | _, [], rs => rs
  | colNum, col :: described, rs =>
    describeColumns (colNum + 1) described
      { colPositions := fun name => if name = col.name then colNum else rs.colPositions name
        colLengths := rs.colLengths ++ [col.length] }

/-- The constructor. -/
def new (described : List Column) : SQLResultSet := describeColumns 1 described ⟨fun _ => 0, []⟩

/-- `next`, with the rows that are left. -/
def next (cursor : List Row) : OdbcCall Bool := do
  let (_, retval) ← driverFunction true () (pure ((), if cursor = [] then .noData else .success))
  handleErrors retval
  pure (retval = .success || retval = .successWithInfo)

/-- `SQLGetData` into a variable of fixed size, with the check of its return. -/
def getFixed {α : Type} (read : SQLValue → Option α) (row : Row) (colNum : Nat)
    (outputBuffer : α) : OdbcCall α :=
  checked handleErrors (driverFunction true outputBuffer (pure
    (match (row.column colNum).bind read with
    | some a => (a, .success)
    | none => (outputBuffer, .error))))

def getLong (rs : SQLResultSet) (row : Row) (colName : String) (outputBuffer : UInt32) :
    OdbcCall UInt32 :=
  getFixed (fun | .integer n => some (UInt32.ofNat n.toNat) | _ => none) row
    (rs.colPositions colName) outputBuffer

def getUShort (rs : SQLResultSet) (row : Row) (colName : String) (outputBuffer : UInt16) :
    OdbcCall UInt16 :=
  getFixed (fun | .smallint n => some n | _ => none) row (rs.colPositions colName) outputBuffer

/-- `getString` into an array of 256 characters. The driver writes at most as many as the
column has, and a NUL. -/
def getString (rs : SQLResultSet) (row : Row) (colName : String) (outputBuffer : List Byte) :
    OdbcCall (List Byte) :=
  let colNum := rs.colPositions colName
  match if colNum = 0 then none else rs.colLengths[colNum - 1]? with
  | none => Act.stop (.fault .outOfBounds)
  | some length =>
    checked handleErrors (driverFunction true outputBuffer (match row.column colNum with
      | some (.varchar text) =>
        if (text.take length).length + 1 > 256 then Act.stop (.fault .outOfBounds)
        else pure (Slice.overwrite outputBuffer 0 (text.take length ++ [0]), .success)
      | _ => pure (outputBuffer, .error)))

end SQLResultSet

/-- The variables of `cacheResponse` that are bound to parameters. -/
structure CacheBuffers where
  name : List Byte
  value : List Byte
  ttl : Int
  type : UInt16
  rclass : UInt16

/-- Their addresses. -/
inductive CachePointer where
  | name
  | value
  | ttl
  | type
  | rclass

def CacheBuffers.cell (v : CacheBuffers) : CachePointer → Cell
  | .name => .chars v.name
  | .value => .chars v.value
  | .ttl => .slong v.ttl
  | .type => .ushort v.type
  | .rclass => .ushort v.rclass

/-- `strcpy_s` into an array of `size` characters. -/
def strcpyS (buf : List Byte) (size : Nat) (text : List Byte) : Except Stop (List Byte) :=
  if text.length + 1 > size then .error (.fault .invalidParameter)
  else .ok (Slice.overwrite buf 0 (text ++ [0]))

namespace OdbcCalls

/-- The session together with the driver. -/
def host : Host OdbcSession where
  call := OdbcCall.plain
  commit := SQLStatement.commit
  log guard type rclass := Act.lift (if guard then describe type rclass else .ok ())
  decoding _ _ := pure ()

/-- The row that has been fetched, read into the buffers. -/
def readRow (rs : SQLResultSet) (row : Row) (b : RowBuffers) : OdbcCall RowBuffers := do
  let ttlBuf ← rs.getLong row "TTL" b.ttlBuf
  let nameBuf ← rs.getString row "NAME" b.nameBuf
  let valueBuf ← rs.getString row "VALUE" b.valueBuf
  let typeBuf ← rs.getUShort row "TYPE" b.typeBuf
  let classBuf ← rs.getUShort row "CLASS" b.classBuf
  pure ⟨ttlBuf, nameBuf, valueBuf, typeBuf, classBuf⟩

/-- The loop of `resolveA`. -/
def resolveRows (cfg : Config) (rs : SQLResultSet) :
    List Row → RowBuffers → RowLoop → OdbcCall RowLoop
  | [], _, l => do
    let _ ← SQLResultSet.next []
    pure l
  | row :: rows, b, l => do
    if ← SQLResultSet.next (row :: rows) then
      let b ← readRow rs row b
      let (l, readBytes) ← .plain (Host.plain.encodeFetched cfg b l)
      l.advance readBytes (resolveRows cfg rs rows b)
    else pure l

/-- What a turn of the worker depends on besides what `Turn` has. -/
structure Driver where
  described : List Column
  answers : List DriverAnswer
  cacheAnswers : List DriverAnswer
  msg : List Byte
  rowBuffers : RowBuffers
  cacheBuffers : CacheBuffers

/-- `DNSResolver::resolveA` with its calls of the driver. Its parameter is the variable
`name`. -/
def resolveA (cfg : Config) (t : Turn) (v : Driver) (query : DNSQuery) (responseData : Nat)
    (info : ResponseInfo) (packetLen : Nat) : OdbcCall (Nat × ResponseInfo) := do
  let statement ← SQLStatement.new
  let name ← Act.lift (strcpyS [] maxDnsNameLength query.qname)
  let statement ← statement.bindString 1 maxDnsNameLength ()
  let statement ← statement.prepare .select
  let statement ← statement.executeQuery t.lookup (fun _ => .chars name)
  let l ← resolveRows cfg (.new v.described) statement.cursor
    { v.rowBuffers with valueBuf := t.locals.valueBuf }
    ⟨responseData, maxDnsPacketLength - headerLength, 0, t.locals.valueBuf, info, false⟩
  host.finishA cfg responseData packetLen l

def resolveLoop (cfg : Config) (t : Turn) (v : Driver) (responseData packetLen : Nat) :
    List DNSQuery → ResponseInfo → OdbcCall ResponseInfo :=
  host.resolveLoop cfg packetLen fun query info =>
    resolveA cfg t v query responseData info packetLen

def resolve (cfg : Config) (t : Turn) (v : Driver) (responseData packetLen : Nat) :
    OdbcCall ResponseInfo := do
  let d ← Act.get
  resolveLoop cfg t v responseData packetLen d.session.queries (.new t.locals.length)

/-- The two statements of `cacheResponse`. -/
structure CacheStatements where
  insertStatement : SQLStatement CachePointer
  deleteStatement : SQLStatement CachePointer

def prepareStatements : OdbcCall CacheStatements := do
  let insertStatement ← SQLStatement.new
  let deleteStatement ← SQLStatement.new
  let deleteStatement ← deleteStatement.bindString 1 256 .name
  let deleteStatement ← deleteStatement.prepare .delete
  let insertStatement ← insertStatement.bindString 1 256 .name
  let insertStatement ← insertStatement.bindString 2 256 .value
  let insertStatement ← insertStatement.bindString 3 256 .name
  let insertStatement ← insertStatement.bindString 4 256 .value
  let insertStatement ← insertStatement.bindLong 5 .ttl
  let insertStatement ← insertStatement.bindUShort 6 .type
  let insertStatement ← insertStatement.bindUShort 7 .rclass
  let insertStatement ← insertStatement.prepare .insert
  pure ⟨insertStatement, deleteStatement⟩

/-- The body of the loop of `cacheResponse` for a decoded record. -/
def cacheRecord (cfg : Config) (e : Execution) (rr : DNSResourceRecord) (q : CacheStatements)
    (v : CacheBuffers) : OdbcCall (CacheStatements × CacheBuffers) :=
  match rr.rdata with
  | none => pure (q, v)
  | some rdata => do
    let name ← Act.lift (strcpyS v.name 256 rr.name)
    let value ← Act.lift (strcpyS v.value 256 rdata.getValue)
    let v : CacheBuffers := ⟨name, value, rr.getTTL, rr.getType, rr.getClass⟩
    let (deleteStatement, _) ← q.deleteStatement.executeUpdate e v.cell
    let (insertStatement, inserted) ← q.insertStatement.executeUpdate e v.cell
    host.log (inserted ≠ 0 && cfg.infoEnabled) rr.getType rr.getClass
    pure (⟨insertStatement, deleteStatement⟩, v)

/-- `DNSResolver::cacheResponse` with its calls of the driver. -/
def cacheResponse (cfg : Config) (t : Turn) (v : Driver) (data numResponses : Nat) :
    OdbcCall Unit := do
  let q ← prepareStatements
  let _ ← host.cacheLoopBy t.heap (fun i rr p => cacheRecord cfg (t.executions i) rr p.1 p.2)
    numResponses 0 data (q, v.cacheBuffers)
  SQLStatement.commit
  SQLStatement.commit

/-- A call over the driver, as a call of the worker. -/
def onSession {α : Type} (x : OdbcCall α) (answers : List DriverAnswer) (msg : List Byte) :
    Call α := fun s =>
  ((x ⟨s, answers, [], msg⟩).1, (x ⟨s, answers, [], msg⟩).2.session)

def cacheCall (cfg : Config) (t : Turn) (v : Driver) (data numResponses : Nat) : Call Unit :=
  onSession (cacheResponse cfg t v data numResponses) v.cacheAnswers v.msg

def resolveCall (cfg : Config) (t : Turn) (v : Driver) (responseData packetLen : Nat) :
    Call ResponseInfo :=
  onSession (resolve cfg t v responseData packetLen) v.answers v.msg

/-- `Worker.turn`, over the driver. -/
def turn (cfg : Config) (p : Turn × Driver) : Worker → Except Fault (Worker × List Byte) :=
  Worker.turnBy (cacheCall cfg p.1 p.2) (resolveCall cfg p.1 p.2) cfg p.1

def run (cfg : Config) : List (Turn × Driver) → Worker →
    Except Fault (Worker × List (List Byte)) :=
  Worker.runBy (turn cfg)

end OdbcCalls

end OdbcDns
