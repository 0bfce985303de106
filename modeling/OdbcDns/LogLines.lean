import OdbcDns.Resolver

/-! The functions of the resolver with the lines that they log. Every line takes a text from
each of the tables `TYPE_DESCR` and `CLASS_DESCR`. -/

namespace OdbcDns

/-- The two indices of a log line. -/
structure LogLine where
  type : UInt16
  rclass : UInt16
  deriving DecidableEq, Repr

/-- Both tables have 256 entries. -/
def LogLine.InRange (l : LogLine) : Prop := l.type.toNat < 256 ∧ l.rclass.toNat < 256

namespace LogLines

abbrev LoggingCall := Act (Session × List LogLine) Stop

/-- A line is noted before its texts are looked up. -/
def host : Host (Session × List LogLine) where
  call := Act.silent
  commit := Act.silent commit
  log guard type rclass := do
    if guard then Act.note ⟨type, rclass⟩ else pure ()
    Act.lift (if guard then describe type rclass else .ok ())
  decoding _ _ := pure ()

/-- The lines that are logged from a session on. -/
def lines {α : Type} (x : LoggingCall α) (s : Session) : List LogLine := (x (s, [])).2.2

end LogLines

end OdbcDns
