import OdbcDns.Proofs.RoundTrip
import OdbcDns.Proofs.Statements

namespace OdbcDns
open Slice Rfc1035

/-- All changes that a connection has made, those of the open transaction last.
A change keeps its place, and it is committed once `committed` reaches it. -/
def Connection.log (c : Connection) : List Change := c.committed ++ c.pending

theorem Connection.log_commit (c : Connection) : c.commit.log = c.log := by
  simp [Connection.log, Connection.commit]

theorem Connection.committed_commit (c : Connection) : c.commit.committed = c.log := rfl

theorem Connection.length_log_deleteExpired (c : Connection) (name : List Byte) (now : Rat) :
    (c.deleteExpired name now).log.length = c.log.length + (c.expired name now).length := by
  simp [Connection.log, Connection.deleteExpired, Nat.add_assoc]

theorem Connection.deleteExpired_of_nil {c : Connection} {name : List Byte} {now : Rat}
    (h : c.expired name now = []) : c.deleteExpired name now = c := by
  have hf : c.record.filter (fun r => ¬ (r.name = name ∧ r.expires ≤ now)) = c.record := by
    rw [List.filter_eq_self]
    intro r hr
    have := List.filter_eq_nil_iff.mp h r hr
    simpa [imp_iff_not_or] using this
  unfold Connection.deleteExpired
  rw [h, hf]
  simp

theorem Connection.length_log_insertMissing (c : Connection) (row : Stored) (now : Rat) :
    (c.insertMissing row now).log.length =
      c.log.length + if c.live row.name row.value now then 0 else 1 := by
  unfold Connection.insertMissing
  split <;> simp [Connection.log, Nat.add_assoc]

/-- Whether the next call into the driver throws. -/
def callFails (driver : List (Option String)) : Bool := driver.head?.join.isSome

theorem driverCall_of_ok {s : Session} (h : callFails s.driver = false) :
    driverCall s = (.ok (), { s with driver := s.driver.drop 1 }) := by
  obtain ⟨packet, queries, table, connection, socket, exchanges, driver⟩ := s
  match driver, h with
  | [], _ => rfl
  | none :: _, _ => rfl

theorem driverCall_of_fails {s : Session} (h : callFails s.driver = true) :
    ∃ m, driverCall s = (.error (.exception m), { s with driver := s.driver.drop 1 }) := by
  obtain ⟨packet, queries, table, connection, socket, exchanges, driver⟩ := s
  match driver, h with
  | some m :: _, _ => exact ⟨m, rfl⟩

/-- A computation may only add to the log, and it leaves the packet alone. -/
def Grows (s t : Session) : Prop :=
  s.connection.log.length ≤ t.connection.log.length ∧ t.packet = s.packet

theorem tracks_grows :
    Tracks (fun _ _ => True) (fun c c' => c.log.length ≤ c'.log.length) where
  refl _ := Nat.le_refl _
  trans h h' := Nat.le_trans h h'
  commit c := Nat.le_of_eq (congrArg _ c.log_commit.symm)
  delete c name now := by
    rw [c.length_log_deleteExpired]
    omega
  insert c row now _ := by
    rw [c.length_log_insertMissing]
    omega

theorem Grows.refl (s : Session) : Grows s s := ⟨Nat.le_refl _, rfl⟩

/-- Whether the statements for one record leave RECORD as it is: no expired row
of its name is there to be deleted, and its value is there already. A statement
that fails before it is executed changes nothing. -/
def recordUntouched (e : Execution) (c : Connection) (rr : DNSResourceRecord)
    (driver : List (Option String)) : Bool :=
  match rr.rdata with
  | none => true
  | some rdata => callFails driver ||
    (c.expired rr.name e.deleteNow).isEmpty && (callFails (driver.drop 1) ||
      callFails (driver.drop 2) || c.live rr.name rdata.getValue e.testNow)

/-- The calls into the driver that are made for one record, and whether one of
them fails. -/
def recordCalls (rr : DNSResourceRecord) : Nat := if rr.rdata.isSome then 4 else 0

def recordFails (rr : DNSResourceRecord) (driver : List (Option String)) : Bool :=
  rr.rdata.isSome && (callFails driver || callFails (driver.drop 1) || callFails (driver.drop 2) ||
    callFails (driver.drop 3))

/-- Whether the same holds for all records up to the first one that cannot be
decoded or whose statements fail. -/
def untouched (executions : Nat → Execution) (heap : Nat → Nat → Byte) (packet : List Byte)
    (c : Connection) : Nat → Nat → Nat → List (Option String) → Bool
  | 0, _, _, _ => true
  | n + 1, i, ptr, driver =>
    match DNSResourceRecord.decode (heap i) packet ptr with
    | .error _ => true
    | .ok (rr, after) => recordUntouched (executions i) c rr driver &&
      (recordFails rr driver ||
        untouched executions heap packet c n (i + 1) after (driver.drop (recordCalls rr)))

section Statement

variable {s : Session} (f : Connection → Connection) (count : Int)

/-- A statement that is not executed. -/
theorem executeUpdate_of_fails (h : callFails s.driver = true) :
    ∃ m, executeUpdate f count s =
      (.error (.exception m), { s with driver := s.driver.drop 1 }) := by
  obtain ⟨m, hm⟩ := driverCall_of_fails h
  exact ⟨m, Act.bind_of_error hm⟩

/-- A statement that is executed before the driver fails. -/
theorem executeUpdate_of_late (h0 : callFails s.driver = false)
    (h1 : callFails (s.driver.drop 1) = true) :
    ∃ m, executeUpdate f count s = (.error (.exception m), { s with
      connection := f s.connection
      driver := s.driver.drop 2 }) := by
  obtain ⟨m, hm⟩ := driverCall_of_fails (s := { s with
    connection := f s.connection
    driver := s.driver.drop 1 }) h1
  refine ⟨m, ?_⟩
  unfold executeUpdate
  rw [Act.bind_of_ok (driverCall_of_ok h0)]
  simp only [Act.bind_apply, Act.modify_apply, hm, List.drop_drop]

theorem executeUpdate_of_ok (h0 : callFails s.driver = false)
    (h1 : callFails (s.driver.drop 1) = false) :
    executeUpdate f count s = (.ok count, { s with
      connection := f s.connection
      driver := s.driver.drop 2 }) := by
  have hm := driverCall_of_ok (s := { s with
    connection := f s.connection
    driver := s.driver.drop 1 }) h1
  unfold executeUpdate
  rw [Act.bind_of_ok (driverCall_of_ok h0)]
  simp only [Act.bind_apply, Act.modify_apply, hm, List.drop_drop, Act.pure_apply]

theorem executeUpdate_of_nil (h : s.driver = []) :
    executeUpdate f count s = (.ok count, { s with connection := f s.connection }) := by
  rw [executeUpdate_of_ok f count (by rw [h]; rfl) (by rw [h]; rfl), h]
  rfl

/-- Without failures of the driver, a record with data is stored, and then only its log line
can stop the loop. -/
theorem cacheRecord_of_nil (cfg : Config) (e : Execution) {rr : DNSResourceRecord}
    {rdata : DNSRData} {s : Session} (hr : rr.rdata = some rdata) (quiet : s.driver = []) :
    cacheRecord cfg e rr s =
      (if e.insertCount ≠ 0 && cfg.infoEnabled then describe rr.getType rr.getClass else .ok (),
        { s with connection := insertFor e rr rdata (deleteFor e rr s.connection) }) := by
  have deleted := executeUpdate_of_nil (deleteFor e rr) e.deleteCount quiet
  have inserted := executeUpdate_of_nil (s := { s with connection := deleteFor e rr s.connection })
    (insertFor e rr rdata) e.insertCount quiet
  rw [cacheRecord_eq cfg e hr, Act.bind_of_ok deleted, Act.bind_of_ok inserted]
  rfl

variable {f count}

/-- A statement that succeeds has had its effect on the connection only. -/
theorem executeUpdate_ok {t : Session} {k : Int} (h : executeUpdate f count s = (.ok k, t)) :
    k = count ∧ t.connection = f s.connection ∧ t.packet = s.packet := by
  cases first : callFails s.driver with
  | true =>
    obtain ⟨m, hm⟩ := executeUpdate_of_fails f count first
    cases hm.symm.trans h
  | false =>
    cases second : callFails (s.driver.drop 1) with
    | true =>
      obtain ⟨m, hm⟩ := executeUpdate_of_late f count first second
      cases hm.symm.trans h
    | false =>
      cases (executeUpdate_of_ok f count first second).symm.trans h
      exact ⟨rfl, rfl, rfl⟩

variable (f count)

/-- Once it is executed, a statement has had its effect either way. -/
theorem executeUpdate_connection (h : callFails s.driver = false) :
    (executeUpdate f count s).2.connection = f s.connection := by
  cases h1 : callFails (s.driver.drop 1) with
  | true =>
    obtain ⟨m, hm⟩ := executeUpdate_of_late f count h h1
    rw [hm]
  | false => rw [executeUpdate_of_ok f count h h1]

end Statement

section Record

variable {e : Execution} {rr : DNSResourceRecord} {s : Session}

theorem deleteFor_of_nil {c : Connection} (h : c.expired rr.name e.deleteNow = []) :
    deleteFor e rr c = c :=
  Connection.deleteExpired_of_nil h

theorem insertFor_of_live {c : Connection} {rdata : DNSRData}
    (h : c.live rr.name rdata.getValue e.testNow = true) : insertFor e rr rdata c = c := if_pos h

/-- What the line of `cacheResponse` looks up. -/
theorem describe_cases (guard : Bool) (type rclass : UInt16) :
    (if guard then describe type rclass else .ok ()) = .ok () ∨
      (if guard then describe type rclass else .ok ()) = .error (.fault .outOfBounds) := by
  unfold describe
  split
  · split
    · exact .inl rfl
    · exact .inr rfl
  · exact .inl rfl

/-- A record that changes nothing and whose statements succeed. Only its log line can stop
the loop. -/
theorem cacheRecord_of_ok (cfg : Config) (h : recordUntouched e s.connection rr s.driver = true)
    (hf : recordFails rr s.driver = false) : ∃ r,
    cacheRecord cfg e rr s = (r, { s with driver := s.driver.drop (recordCalls rr) }) ∧
      (r = .ok () ∨ r = .error (.fault .outOfBounds)) := by
  unfold recordUntouched at h
  unfold recordFails at hf
  unfold recordCalls
  cases hr : rr.rdata with
  | none =>
    rw [cacheRecord_none cfg e hr]
    exact ⟨_, rfl, .inl rfl⟩
  | some rdata =>
    simp only [hr, Option.isSome_some, Bool.true_and, Bool.or_eq_false_iff] at hf
    obtain ⟨⟨⟨h0, h1⟩, h2⟩, h3⟩ := hf
    simp only [hr, h0, h1, h2, Bool.false_or, Bool.and_eq_true, List.isEmpty_iff] at h
    have hd := executeUpdate_of_ok (deleteFor e rr) e.deleteCount h0 h1
    have hi := executeUpdate_of_ok (s := { s with driver := s.driver.drop 2 })
      (insertFor e rr rdata) e.insertCount h2 (by simpa using h3)
    rw [deleteFor_of_nil h.1] at hd
    rw [insertFor_of_live h.2] at hi
    rw [cacheRecord_eq cfg e hr, Act.bind_of_ok hd, Act.bind_of_ok hi]
    refine ⟨_, ?_, describe_cases (e.insertCount ≠ 0 && cfg.infoEnabled) rr.getType rr.getClass⟩
    simp only [Act.lift_apply, List.drop_drop, Option.isSome_some, if_true]

/-- A record that changes nothing and whose statements fail. -/
theorem cacheRecord_of_fails (cfg : Config)
    (h : recordUntouched e s.connection rr s.driver = true)
    (hf : recordFails rr s.driver = true) :
    ∃ m d, cacheRecord cfg e rr s = (.error (.exception m), { s with driver := d }) := by
  unfold recordUntouched at h
  unfold recordFails at hf
  cases hr : rr.rdata with
  | none => simp [hr] at hf
  | some rdata =>
    simp only [hr, Option.isSome_some, Bool.true_and] at h hf
    rw [cacheRecord_eq cfg e hr]
    cases h0 : callFails s.driver with
    | true =>
      obtain ⟨m, hm⟩ := executeUpdate_of_fails (deleteFor e rr) e.deleteCount h0
      exact ⟨m, _, Act.bind_of_error hm⟩
    | false =>
      simp only [h0, Bool.false_or, Bool.and_eq_true, List.isEmpty_iff] at h hf
      cases h1 : callFails (s.driver.drop 1) with
      | true =>
        obtain ⟨m, hm⟩ := executeUpdate_of_late (deleteFor e rr) e.deleteCount h0 h1
        rw [deleteFor_of_nil h.1] at hm
        exact ⟨m, _, Act.bind_of_error hm⟩
      | false =>
        have hd := executeUpdate_of_ok (deleteFor e rr) e.deleteCount h0 h1
        rw [deleteFor_of_nil h.1] at hd
        rw [Act.bind_of_ok hd]
        cases h2 : callFails (s.driver.drop 2) with
        | true =>
          obtain ⟨m, hm⟩ := executeUpdate_of_fails (s := { s with driver := s.driver.drop 2 })
            (insertFor e rr rdata) e.insertCount h2
          exact ⟨m, _, Act.bind_of_error hm⟩
        | false =>
          simp only [h1, h2, Bool.false_or] at h hf
          obtain ⟨m, hm⟩ := executeUpdate_of_late (s := { s with driver := s.driver.drop 2 })
            (insertFor e rr rdata) e.insertCount h2 (by simpa using hf)
          rw [insertFor_of_live h.2] at hm
          exact ⟨m, _, Act.bind_of_error hm⟩

theorem length_log_deleteFor (e : Execution) (rr : DNSResourceRecord) (c : Connection) :
    (deleteFor e rr c).log.length = c.log.length + (c.expired rr.name e.deleteNow).length :=
  c.length_log_deleteExpired _ _

theorem length_log_insertFor (e : Execution) (rr : DNSResourceRecord) (rdata : DNSRData)
    (c : Connection) : (insertFor e rr rdata c).log.length =
      c.log.length + if c.live rr.name rdata.getValue e.testNow then 0 else 1 :=
  c.length_log_insertMissing _ _

/-- A record that changes a row adds to the log, however its caching ends. -/
theorem cacheRecord_touched (cfg : Config)
    (h : recordUntouched e s.connection rr s.driver = false) :
    s.connection.log.length < (cacheRecord cfg e rr s).2.connection.log.length := by
  unfold recordUntouched at h
  cases hr : rr.rdata with
  | none => simp [hr] at h
  | some rdata =>
    simp only [hr, Bool.or_eq_false_iff] at h
    obtain ⟨h0, h⟩ := h
    rw [cacheRecord_eq cfg e hr]
    cases he : s.connection.expired rr.name e.deleteNow with
    | cons r rs =>
      have hg := (Act.Always.bind_snd Grows.refl (executeUpdate (deleteFor e rr) e.deleteCount)
        (fun _ => tracks_grows.insertFor cfg e rr rdata trivial) s).1
      rw [executeUpdate_connection _ _ h0, length_log_deleteFor, he, List.length_cons] at hg
      omega
    | nil =>
      simp only [he, List.isEmpty_nil, Bool.true_and, Bool.or_eq_false_iff] at h
      obtain ⟨⟨h1, h2⟩, hlive⟩ := h
      have hd := executeUpdate_of_ok (deleteFor e rr) e.deleteCount h0 h1
      rw [deleteFor_of_nil he] at hd
      rw [Act.bind_of_ok hd]
      have hg := (Act.Always.bind_snd Grows.refl (executeUpdate (insertFor e rr rdata) e.insertCount)
        (f := fun inserted => Act.lift (if inserted ≠ 0 && cfg.infoEnabled then
          describe rr.getType rr.getClass else .ok ()))
        (fun _ => Act.Always.lift Grows.refl _) { s with driver := s.driver.drop 2 }).1
      rw [executeUpdate_connection _ _ h2, length_log_insertFor, if_neg (by simp [hlive])] at hg
      exact hg

end Record

section Loop

variable (cfg : Config) (executions : Nat → Execution) (heap : Nat → Nat → Byte)

theorem cacheLoop_grows (n i ptr : Nat) :
    Act.Always Grows (cacheLoop cfg executions heap n i ptr) :=
  fun _ => tracks_grows.cacheLoop cfg executions heap fun _ _ _ _ _ _ => trivial

theorem cacheLoop_log_iff (n i ptr : Nat) (s : Session)
    (defined : ∀ f, (cacheLoop cfg executions heap n i ptr s).1 ≠ .error (.fault f)) :
    (cacheLoop cfg executions heap n i ptr s).2.connection.log.length =
        s.connection.log.length ↔
      untouched executions heap s.packet.bytes s.connection n i ptr s.driver = true := by
  induction n generalizing i ptr s with
  | zero => simp [cacheLoop, Host.cacheLoop, Host.cacheLoopBy, untouched]
  | succ n ih =>
    rw [cacheLoop_succ] at defined ⊢
    unfold untouched
    cases hd : DNSResourceRecord.decode (heap i) s.packet.bytes ptr with
    | error e => simp
    | ok r =>
      obtain ⟨rr, after⟩ := r
      simp only [hd] at defined ⊢
      cases hu : recordUntouched (executions i) s.connection rr s.driver with
      | false =>
        have hlt := cacheRecord_touched cfg hu
        have hg := (Act.Always.bind_snd Grows.refl (cacheRecord cfg (executions i) rr)
          (fun _ => cacheLoop_grows cfg executions heap n (i + 1) after) s).1
        simp only [Bool.false_and, Bool.false_eq_true, iff_false]
        omega
      | true =>
        cases hf : recordFails rr s.driver with
        | true =>
          obtain ⟨m, d, he⟩ := cacheRecord_of_fails cfg hu hf
          rw [Act.bind_of_error he]
          simp
        | false =>
          obtain ⟨_, he, rfl | rfl⟩ := cacheRecord_of_ok cfg hu hf
          · rw [Act.bind_of_ok he] at defined ⊢
            rw [ih _ _ _ defined]
            simp
          · rw [Act.bind_of_error he] at defined
            exact absurd rfl (defined .outOfBounds)

end Loop

/-- Neither way in which a commit ends changes the log. -/
theorem commit_log (s : Session) : (commit s).2.connection.log = s.connection.log := by
  cases h : callFails s.driver with
  | true =>
    obtain ⟨m, hm⟩ := driverCall_of_fails h
    rw [show commit s = _ from Act.bind_of_error hm]
  | false =>
    rw [show commit s = _ from Act.bind_of_ok (driverCall_of_ok h)]
    exact s.connection.log_commit

/-- `cacheResponse` has changed nothing exactly if no statement it has executed
met a row to delete or a value to insert. -/
theorem cacheResponse_log_iff (cfg : Config) (executions : Nat → Execution)
    (heap : Nat → Nat → Byte) (data n : Nat) (s : Session)
    (defined : ∀ f, (cacheResponse cfg executions heap data n s).1 ≠ .error (.fault f)) :
    (cacheResponse cfg executions heap data n s).2.connection.log.length =
        s.connection.log.length ↔
      (callFails s.driver || untouched executions heap s.packet.bytes s.connection n 0 data
        (s.driver.drop 1)) = true := by
  rw [cacheResponse_eq] at defined ⊢
  cases h : callFails s.driver with
  | true =>
    obtain ⟨m, hm⟩ := driverCall_of_fails h
    rw [Act.bind_of_error hm]
    simp
  | false =>
    rw [Act.bind_of_ok (driverCall_of_ok h)] at defined ⊢
    rw [Bool.false_or]
    have hl := cacheLoop_log_iff cfg executions heap n 0 data { s with driver := s.driver.drop 1 }
    rcases he : cacheLoop cfg executions heap n 0 data { s with driver := s.driver.drop 1 }
      with ⟨r, t⟩
    rw [he] at hl
    cases r with
    | error e =>
      rw [Act.bind_of_error he] at defined ⊢
      exact hl defined
    | ok _ =>
      rw [Act.bind_of_ok he]
      have hc : ((commit >>= fun _ => commit) t).2.connection.log = t.connection.log := by
        have h1 := commit_log t
        rcases hx : commit t with ⟨r, u⟩
        rw [hx] at h1
        cases r with
        | error e => rw [Act.bind_of_error hx, ← h1]
        | ok _ => rw [Act.bind_of_ok hx, commit_log, h1]
      rw [hc]
      exact hl fun _ => nofun

/-- The worker after `cacheResponse` has thrown: the handler sets `error`. -/
def Worker.cacheFailed (w : Worker) (s : Session) : Worker :=
  { w with connection := s.connection, error := true }

/-- In no later state is a change committed that was made between `c` and `c'`. -/
def NeverCommitted (cfg : Config) (w : Worker) (c c' : Connection) : Prop :=
  ∀ ts w' replies, w.run cfg ts = .ok (w', replies) →
    ∀ i, c.log.length ≤ i → i < c'.log.length → w'.connection.committed.length ≤ i

/-- An ordinary request for an address commits whatever is pending. -/
theorem Worker.turn_commits (cfg : Config) {w : Worker} {t : Turn} {q : Question}
    {as : List Answer} (due : w.due = false) (asks : Asks t.datagram [q]) (type : q.typeLow = 1)
    (rows : t.lookup q.name.text = as.map Answer.row) (stays : Local as t.datagram)
    (fits : (singleBytes q as).length < 500) (driver : t.driver = []) :
    ∃ w' reply, w.turn cfg t = .ok (w', reply) ∧ w'.connection.committed = w.connection.log := by
  let w1 : Worker := { w with
    connection := { w.connection with record := t.interference w.connection.record } }
  have hcache : w.cache cfg t = .ok w1 := by
    have hd : w1.due = false := due
    rw [Worker.cache_eq]
    exact if_neg (by simp [hd, w1])
  obtain ⟨g, info, s, hg, hr, hw⟩ := answered_single_exists cfg w1 asks type rows stays fits driver
  have h := answered_single asks type rows stays hg hr (.inl hw)
  have hturn : w.turn cfg t = w1.clean.serve cfg t := by
    simp only [Worker.turn_eq, hcache, bind, Except.bind]
  refine ⟨_, _, hturn.trans (Worker.serve_of_ok hg hr), ?_⟩
  simp only [h.connection, Connection.committed_commit]
  rfl

theorem neverCommitted_iff (cfg : Config) (w : Worker) (s : Session) (c : Connection)
    (hle : c.log.length ≤ s.connection.log.length) :
    NeverCommitted cfg (w.cacheFailed s) c s.connection ↔
      s.connection.log.length = c.log.length := by
  constructor
  · intro h
    by_contra hne
    obtain ⟨w', reply, ht, hc⟩ := Worker.turn_commits cfg (w := w.cacheFailed s) (t := turnA)
      rfl (asks_request 0 7 1 (by decide) (by decide)) rfl
      (show turnA.lookup questionA.name.text = aliasThenAddress.map Answer.row from rfl)
      (.inl (by decide)) (by decide) rfl
    have hrun : (w.cacheFailed s).run cfg [turnA] = .ok (w', [reply]) := by
      simp only [Worker.run_cons_eq, Worker.run_nil, ht, bind, Except.bind]
    have := h [turnA] w' [reply] hrun c.log.length (Nat.le_refl _) (by omega)
    rw [hc] at this
    have hlog : (w.cacheFailed s).connection.log.length = s.connection.log.length := rfl
    omega
  · intro he ts w' replies _ i hi hlt
    omega

/-- What a failed `cacheResponse` has done stays uncommitted in all later runs
exactly if it has changed nothing. -/
theorem failed_cache_never_committed_iff {cfg : Config} {w : Worker} {t : Turn} {packet : Packet}
    {message : String} {s : Session}
    (threw : cacheResponse cfg t.executions t.heap (sizeAdd headerLength w.queryBytes)
      (ancount packet.bytes) (w.session packet [] t.cacheDriver) =
        (.error (.exception message), s)) :
    NeverCommitted cfg (w.cacheFailed s) w.connection s.connection ↔
      (callFails t.cacheDriver ||
        untouched t.executions t.heap packet.bytes w.connection (ancount packet.bytes) 0
          (sizeAdd headerLength w.queryBytes) (t.cacheDriver.drop 1)) = true := by
  have hlog := cacheResponse_log_iff cfg t.executions t.heap (sizeAdd headerLength w.queryBytes)
    (ancount packet.bytes) (w.session packet [] t.cacheDriver)
  have hg := (tracks_grows.cacheResponse cfg t.executions t.heap
    (sizeAdd headerLength w.queryBytes) (ancount packet.bytes)
    (s := w.session packet [] t.cacheDriver) fun _ _ _ _ _ _ => trivial).1
  rw [threw] at hlog hg
  rw [neverCommitted_iff cfg w s w.connection hg]
  exact hlog fun _ => nofun

/-- A reply of the recursive server to the question for the first name. -/
def upstreamReply (answers : Byte) (records : List Byte) : List Byte :=
  [0, 7, 0x81, 0x80, 0, 1, 0, answers, 0, 0, 0, 0] ++ questionA.bytes ++ records

def addressRecord : List Byte := [0xC0, 12, 0, 1, 0, 1, 0, 0, 0, 60, 0, 4, 1, 2, 3, 4]

/-- The start of a record whose owner is a pointer out of the packet. -/
def brokenRecord : List Byte := [0xFF, 0xFF]

def received (reply : List Byte) : Packet := .ofDatagram reply turnA.buffer

/-- A worker that has relayed a reply and has yet to cache it. -/
def relayed (p : Packet) : Worker :=
  { Worker.idle with
    packet := some p
    responseInfo := { ResponseInfo.new 0 with recursionOccurred := true }
    queryBytes := 7 }

/-- Caching of the packet in a quiet turn. -/
def cacheRelayed (p : Packet) : Except Stop Unit × Session :=
  cacheResponse ⟨0, false⟩ turnA.executions turnA.heap (sizeAdd headerLength (relayed p).queryBytes)
    (ancount p.bytes) ((relayed p).session p [] turnA.cacheDriver)

def brokenFirst : Packet := received (upstreamReply 1 brokenRecord)

def brokenSecond : Packet := received (upstreamReply 2 (addressRecord ++ brokenRecord))

theorem failed_cache_never_committed_first :
    NeverCommitted ⟨0, false⟩ ((relayed brokenFirst).cacheFailed (cacheRelayed brokenFirst).2)
      (relayed brokenFirst).connection (cacheRelayed brokenFirst).2.connection := by
  have ends : (cacheRelayed brokenFirst).1 = .error outOfPacket := by decide +kernel
  have threw : cacheResponse ⟨0, false⟩ turnA.executions turnA.heap
      (sizeAdd headerLength (relayed brokenFirst).queryBytes) (ancount brokenFirst.bytes)
      ((relayed brokenFirst).session brokenFirst [] turnA.cacheDriver) =
        (.error outOfPacket, (cacheRelayed brokenFirst).2) := Act.eq_of_fst ends
  have still : (callFails turnA.cacheDriver || untouched turnA.executions turnA.heap brokenFirst.bytes
      (relayed brokenFirst).connection (ancount brokenFirst.bytes) 0
      (sizeAdd headerLength (relayed brokenFirst).queryBytes) (turnA.cacheDriver.drop 1)) = true := by
    decide +kernel
  exact (failed_cache_never_committed_iff threw).mpr still

/-- The first record is inserted, the second one throws, and the next request
commits the insert. -/
theorem failed_cache_committed_second :
    (cacheRelayed brokenSecond).1 = .error outOfPacket ∧
    ¬ NeverCommitted ⟨0, false⟩ ((relayed brokenSecond).cacheFailed (cacheRelayed brokenSecond).2)
      (relayed brokenSecond).connection (cacheRelayed brokenSecond).2.connection := by
  have hlog : (relayed brokenSecond).connection.log.length <
      (cacheRelayed brokenSecond).2.connection.log.length := by decide +kernel
  refine ⟨by decide +kernel, fun h => ?_⟩
  have he := (neverCommitted_iff ⟨0, false⟩ (relayed brokenSecond) (cacheRelayed brokenSecond).2
    (relayed brokenSecond).connection (Nat.le_of_lt hlog)).mp h
  omega

end OdbcDns
