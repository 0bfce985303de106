import OdbcDns.Database
import OdbcDns.Lib.UnionAll

namespace OdbcDns

/-- `{fn TIMESTAMPDIFF(SQL_TSI_SECOND, a, b)}`: the whole-second boundaries
between two times. -/
def timestampDiff (a b : Rat) : Int := b.floor - a.floor

/-! The query of `resolveA` over a content of RECORD. Rows are told apart by
their position in the table, since nothing keeps two of them from being equal. -/

namespace RecordQuery

variable (record : List Stored) (now : Rat)

/-- `SELECT ... FROM RECORD WHERE NAME = ? AND EXPIRES > {fn NOW()}` -/
def named (name : List Byte) : List (Fin record.length) :=
  (List.finRange record.length).filter fun i =>
    (record.get i).name = name ∧ now < (record.get i).expires

/-- `SELECT ... FROM RECORD JOIN RESULTS ON RECORD.NAME = RESULTS.VALUE AND
RECORD.TYPE IN(5, 1) AND RECORD.EXPIRES > {fn NOW()}`, for one row of RESULTS. -/
def joined (i : Fin record.length) : List (Fin record.length) :=
  (List.finRange record.length).filter fun j =>
    (record.get j).name = (record.get i).value ∧
      ((record.get j).type = typeCname ∨ (record.get j).type = typeA) ∧
      now < (record.get j).expires

/-- The rows of RESULTS, in the order of the rounds. -/
def Results (name : List Byte) (ids : List (Fin record.length)) : Prop :=
  UnionAll.Yields (joined record now) (named record now name) ids

/-- `SELECT {fn TIMESTAMPDIFF(SQL_TSI_SECOND, {fn NOW()}, EXPIRES)} TTL, NAME,
VALUE, TYPE, CLASS FROM RESULTS`, for one row. -/
def selected (r : Stored) : Row :=
  ⟨UInt32.ofInt (timestampDiff now r.expires), r.name, r.value, r.type, r.rclass⟩

/-- What `executeQuery` returns for a name, the query having ended. It does not ask for an
order of the rows. -/
def Returns (name : List Byte) (rows : List Row) : Prop :=
  ∃ ids, Results record now name ids ∧ rows.Perm (ids.map fun i => selected now (record.get i))

end RecordQuery

end OdbcDns
