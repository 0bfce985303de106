import OdbcDns.ResourceRecord

namespace OdbcDns

/-- A row of the table RECORD. -/
structure Stored where
  name : List Byte
  value : List Byte
  expires : Rat
  type : UInt16
  rclass : UInt16
  deriving DecidableEq

/-- One row changed by a statement. -/
inductive Change where
  | insert (row : Stored)
  | delete (row : Stored)
  deriving DecidableEq

/-- An ODBC connection with autocommit off. `record` holds the rows it sees,
`pending` the changes of its open transaction, `committed` all changes that its
commits have made permanent so far. -/
structure Connection where
  record : List Stored
  pending : List Change
  committed : List Change

namespace Connection

/-- `SQLEndTran(SQL_HANDLE_DBC, hdbc, SQL_COMMIT)` -/
def commit (c : Connection) : Connection :=
  { c with pending := [], committed := c.committed ++ c.pending }

def expired (c : Connection) (name : List Byte) (now : Rat) : List Stored :=
  c.record.filter (fun r => r.name = name ∧ r.expires ≤ now)

/-- `DELETE FROM RECORD WHERE NAME = ? AND EXPIRES <= {fn NOW()}` -/
def deleteExpired (c : Connection) (name : List Byte) (now : Rat) : Connection :=
  { c with
    record := c.record.filter (fun r => ¬ (r.name = name ∧ r.expires ≤ now))
    pending := c.pending ++ (c.expired name now).map .delete }

/-- The condition `EXISTS (SELECT TOP 1 1 FROM RECORD WHERE NAME = ? AND
VALUE = ? AND EXPIRES >= {fn NOW()})` of the insert. -/
def live (c : Connection) (name value : List Byte) (now : Rat) : Bool :=
  c.record.any (fun r => r.name = name ∧ r.value = value ∧ now ≤ r.expires)

/-- `IF NOT EXISTS (...) BEGIN INSERT INTO RECORD ... END`, with the condition evaluated
at `now`. -/
def insertMissing (c : Connection) (row : Stored) (now : Rat) : Connection :=
  if c.live row.name row.value now then c
  else { c with record := c.record ++ [row], pending := c.pending ++ [.insert row] }

end Connection

/-- What the database decides when the two statements for a record are executed. Every
`{fn NOW()}` has its own time: in the delete, in the condition of the insert and in the row
that it adds. The counts are what `SQLRowCount` returns, for the insert also if it has added
nothing. -/
structure Execution where
  deleteNow : Rat
  deleteCount : Int
  testNow : Rat
  insertNow : Rat
  insertCount : Int

/-- A row of the result of the lookup in `resolveA`, with the bit pattern of
the signed TTL. -/
structure Row where
  ttl : UInt32
  name : List Byte
  value : List Byte
  type : UInt16
  rclass : UInt16
  deriving DecidableEq, Repr

end OdbcDns
