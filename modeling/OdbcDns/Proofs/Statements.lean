import OdbcDns.Proofs.Lookup

namespace OdbcDns

theorem cacheLoop_succ (cfg : Config) (executions : Nat → Execution) (heap : Nat → Nat → Byte)
    (n i ptr : Nat) (s : Session) : cacheLoop cfg executions heap (n + 1) i ptr s =
      match DNSResourceRecord.decode (heap i) s.packet.bytes ptr with
      | .error e => (.error e, s)
      | .ok (rr, after) => (cacheRecord cfg (executions i) rr >>= fun _ =>
          cacheLoop cfg executions heap n (i + 1) after) s := by
  have first : Host.plain.call Act.get s = (.ok s, s) := rfl
  unfold cacheLoop Host.cacheLoop
  rw [Host.cacheLoopBy, Act.bind_of_ok first]
  cases DNSResourceRecord.decode (heap i) s.packet.bytes ptr with
  | error e => rfl
  | ok r => rfl

/-- A call of `decode` that the loop of `cacheResponse` makes, and what it returns. -/
structure DecodeCall where
  number : Nat
  buffer : Nat
  result : Except Stop (DNSResourceRecord × Nat)

/-- The calls that a packet leads to as long as the statements succeed. -/
def decodeCalls (heap : Nat → Nat → Byte) (packet : List Byte) :
    Nat → Nat → Nat → List DecodeCall
  | 0, _, _ => []
  | n + 1, i, ptr =>
    let result := DNSResourceRecord.decode (heap i) packet ptr
    ⟨i, ptr, result⟩ :: match result with
      | .error _ => []
      | .ok (_, after) => decodeCalls heap packet n (i + 1) after

section Calls

variable {heap : Nat → Nat → Byte} {packet : List Byte} {n i ptr : Nat}

theorem decodeCalls_of_error {e : Stop}
    (h : DNSResourceRecord.decode (heap i) packet ptr = .error e) :
    decodeCalls heap packet (n + 1) i ptr = [⟨i, ptr, .error e⟩] := by
  simp only [decodeCalls, h]

theorem decodeCalls_of_ok {rr : DNSResourceRecord} {after : Nat}
    (h : DNSResourceRecord.decode (heap i) packet ptr = .ok (rr, after)) :
    decodeCalls heap packet (n + 1) i ptr =
      ⟨i, ptr, .ok (rr, after)⟩ :: decodeCalls heap packet n (i + 1) after := by
  simp only [decodeCalls, h]

/-- The record that a call returns. -/
def DecodeCall.record (c : DecodeCall) : Option DNSResourceRecord :=
  c.result.toOption.map Prod.fst

/-- The records that the loop of `cacheResponse` decodes, up to the first one
that cannot be decoded. -/
def decoded (heap : Nat → Nat → Byte) (packet : List Byte) (n i ptr : Nat) :
    List DNSResourceRecord :=
  (decodeCalls heap packet n i ptr).filterMap DecodeCall.record

theorem decoded_of_error {e : Stop}
    (h : DNSResourceRecord.decode (heap i) packet ptr = .error e) :
    decoded heap packet (n + 1) i ptr = [] := by
  unfold decoded
  rw [decodeCalls_of_error h]
  rfl

theorem decoded_of_ok {rr : DNSResourceRecord} {after : Nat}
    (h : DNSResourceRecord.decode (heap i) packet ptr = .ok (rr, after)) :
    decoded heap packet (n + 1) i ptr = rr :: decoded heap packet n (i + 1) after := by
  unfold decoded
  rw [decodeCalls_of_ok h]
  rfl

end Calls

/-- Between two sessions the connection changes by `K`, and the packet stays. -/
def Changed (K : Connection → Connection → Prop) (s t : Session) : Prop :=
  K s.connection t.connection ∧ t.packet = s.packet

/-- All that `cacheResponse` does to a connection is of the kind `K`, as long as
the rows that it inserts have `Q` at the time at which they were found missing. -/
structure Tracks (Q : Rat → Stored → Prop) (K : Connection → Connection → Prop) : Prop where
  refl : ∀ c, K c c
  trans : ∀ {c c' c''}, K c c' → K c' c'' → K c c''
  commit : ∀ c, K c c.commit
  delete : ∀ c name now, K c (c.deleteExpired name now)
  insert : ∀ c row now, Q now row → K c (c.insertMissing row now)

namespace Tracks

variable {Q : Rat → Stored → Prop} {K : Connection → Connection → Prop} (h : Tracks Q K)
include h

theorem changed_refl (s : Session) : Changed K s s := ⟨h.refl _, rfl⟩

theorem changed_trans (s t u : Session) (hst : Changed K s t) (htu : Changed K t u) :
    Changed K s u := ⟨h.trans hst.1 htu.1, htu.2.trans hst.2⟩

theorem driverCall : Act.Always (Changed K) driverCall := by
  intro s
  rw [driverCall_snd]
  exact h.changed_refl s

theorem commit_changed : Act.Always (Changed K) OdbcDns.commit :=
  .bind h.changed_trans h.driverCall fun _ s => ⟨h.commit s.connection, rfl⟩

theorem executeUpdate {f : Connection → Connection} (hf : ∀ c, K c (f c)) (count : Int) :
    Act.Always (Changed K) (executeUpdate f count) := by
  refine .bind h.changed_trans h.driverCall fun _ => .bind h.changed_trans ?_ fun _ => ?_
  · exact fun s => ⟨hf s.connection, rfl⟩
  · exact .bind h.changed_trans h.driverCall fun _ => .pure h.changed_refl _

/-- The second statement for a record, and its log line. -/
theorem insertFor (cfg : Config) (e : Execution) (rr : DNSResourceRecord) (rdata : DNSRData)
    (hq : Q e.testNow (storedRow e.insertNow rr rdata)) : Act.Always (Changed K) (do
      let inserted ← OdbcDns.executeUpdate (insertFor e rr rdata) e.insertCount
      Act.lift (if inserted ≠ 0 && cfg.infoEnabled then describe rr.getType rr.getClass
        else .ok ())) :=
  .bind h.changed_trans (h.executeUpdate (fun c => h.insert c _ _ hq) _)
    fun _ => .lift h.changed_refl _

theorem cacheRecord (cfg : Config) (e : Execution) {rr : DNSResourceRecord}
    (hq : ∀ rdata, rr.rdata = some rdata → Q e.testNow (storedRow e.insertNow rr rdata)) :
    Act.Always (Changed K) (cacheRecord cfg e rr) := by
  cases hr : rr.rdata with
  | none =>
    rw [cacheRecord_none cfg e hr]
    exact .pure h.changed_refl _
  | some rdata =>
    rw [cacheRecord_eq cfg e hr]
    exact .bind h.changed_trans (h.executeUpdate (fun c => h.delete c rr.name _) _)
      fun _ => h.insertFor cfg e rr rdata (hq rdata hr)

variable (cfg : Config) (executions : Nat → Execution) (heap : Nat → Nat → Byte)

theorem cacheLoop {n i ptr : Nat} {s : Session}
    (hq : ∀ d ∈ decodeCalls heap s.packet.bytes n i ptr, ∀ rr ∈ d.record, ∀ rdata,
      rr.rdata = some rdata → Q (executions d.number).testNow
        (storedRow (executions d.number).insertNow rr rdata)) :
    Changed K s (cacheLoop cfg executions heap n i ptr s).2 := by
  induction n generalizing i ptr s with
  | zero => exact h.changed_refl s
  | succ n ih =>
    rw [cacheLoop_succ]
    split
    · exact h.changed_refl s
    · rename_i rr after hd
      rw [decodeCalls_of_ok hd] at hq
      obtain ⟨hrr, hrest⟩ := List.forall_mem_cons.mp hq
      have first := h.cacheRecord cfg (executions i) (hrr rr rfl) s
      refine Act.after_bind (P := Changed K s) first fun _ t ht => ?_
      exact h.changed_trans _ _ _ ht (ih (by rwa [ht.2]))

theorem cacheResponse (data n : Nat) {s : Session}
    (hq : ∀ d ∈ decodeCalls heap s.packet.bytes n 0 data, ∀ rr ∈ d.record, ∀ rdata,
      rr.rdata = some rdata → Q (executions d.number).testNow
        (storedRow (executions d.number).insertNow rr rdata)) :
    Changed K s (cacheResponse cfg executions heap data n s).2 := by
  rw [cacheResponse_eq]
  refine Act.after_bind (h.driverCall s) fun _ t ht => h.changed_trans _ _ _ ht ?_
  refine Act.after_bind (h.cacheLoop cfg executions heap (by rwa [ht.2])) fun _ u hu =>
    h.changed_trans _ _ _ hu ?_
  exact Act.Always.bind h.changed_trans h.commit_changed (fun _ => h.commit_changed) u

end Tracks

/-- RECORD gains rows with `Q` only. -/
def Adds (Q : Stored → Prop) (c c' : Connection) : Prop :=
  ∀ r ∈ c'.record, r ∈ c.record ∨ Q r

theorem tracks_adds (Q : Stored → Prop) : Tracks (fun _ => Q) (Adds Q) where
  refl _ _ hr := .inl hr
  trans h h' r hr := (h' r hr).elim (h r) .inr
  commit _ _ hr := .inl hr
  delete _ _ _ _ hr := .inl (List.mem_of_mem_filter hr)
  insert c row now hq r hr := by
    unfold Connection.insertMissing at hr
    split at hr
    · exact .inl hr
    · rcases List.mem_append.mp hr with hr | hr
      · exact .inl hr
      · exact .inr (List.mem_singleton.mp hr ▸ hq)

end OdbcDns
