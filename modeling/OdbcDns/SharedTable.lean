import OdbcDns.Database
import OdbcDns.Lib.Transition

namespace OdbcDns

/-! RECORD as the connections of several workers share it, with autocommit off
and read-committed isolation. Each action is one step of one worker; the test and
the insert of `IF NOT EXISTS (...) BEGIN INSERT ... END` are two. -/

/-- A row of the table. The number tells it apart from rows with the same content. -/
structure TableRow where
  id : Nat
  row : Stored
  deriving DecidableEq

/-- What is bound to the insert statement. -/
structure Incoming where
  name : List Byte
  value : List Byte
  ttl : Int
  type : UInt16
  rclass : UInt16
  deriving DecidableEq

/-- The row that is inserted at a time. -/
def Incoming.row (r : Incoming) (now : Rat) : Stored :=
  ⟨r.name, r.value, now + r.ttl, r.type, r.rclass⟩

/-- The open transaction of a worker. -/
structure Transaction where
  inserted : List TableRow
  deleted : List TableRow
  /-- The test has found no row, and the insert comes next. -/
  tested : Option Incoming
  deriving DecidableEq

def Transaction.empty : Transaction := ⟨[], [], none⟩

structure SharedTable where
  committed : List TableRow
  workers : List Transaction
  now : Rat
  nextId : Nat
  deriving DecidableEq

namespace SharedTable

def start (n : Nat) (now : Rat) : SharedTable := ⟨[], List.replicate n .empty, now, 0⟩

/-- The rows that a worker sees: committed ones and its own. -/
def visible (s : SharedTable) (w : Transaction) : List TableRow :=
  s.committed.filter (· ∉ w.deleted) ++ w.inserted

/-- The same as a connection that nobody else changes. -/
def view (s : SharedTable) (w : Transaction) : Connection :=
  ⟨(s.visible w).map (·.row), [], []⟩

def put (s : SharedTable) (i : Nat) (w : Transaction) : SharedTable :=
  { s with workers := s.workers.set i w }

/-- `NAME = ? AND EXPIRES <= {fn NOW()}` -/
def expired (s : SharedTable) (name : List Byte) (r : TableRow) : Bool :=
  r.row.name = name ∧ r.row.expires ≤ s.now

end SharedTable

inductive TableAction where
  | delete (i : Nat) (name : List Byte)
  | test (i : Nat) (record : Incoming)
  | insert (i : Nat)
  | commit (i : Nat)
  | tick (now : Rat)
  deriving DecidableEq

namespace SharedTable

def step (s : SharedTable) : TableAction → Option SharedTable
  | .delete i name => do
    let w ← s.workers[i]?
    if w.tested = none then
      some (s.put i { w with
        inserted := w.inserted.filter (fun r => ¬ s.expired name r)
        deleted := w.deleted ++ s.committed.filter (s.expired name) })
    else none
  | .test i record => do
    let w ← s.workers[i]?
    if w.tested = none then
      if (s.view w).live record.name record.value s.now then some s
      else some (s.put i { w with tested := some record })
    else none
  | .insert i => do
    let w ← s.workers[i]?
    let record ← w.tested
    some { s.put i { w with
        inserted := w.inserted ++ [⟨s.nextId, record.row s.now⟩]
        tested := none } with nextId := s.nextId + 1 }
  | .commit i => do
    let w ← s.workers[i]?
    if w.tested = none then some { s.put i .empty with committed := s.visible w } else none
  | .tick now => if s.now ≤ now then some { s with now } else none

end SharedTable

end OdbcDns
