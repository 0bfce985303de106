import OdbcDns.LogLines
import OdbcDns.Proofs.Noting

/-! The indices that the log lines use into the tables of descriptions. -/

namespace OdbcDns

namespace LogLines

theorem noting {P : LogLine → Prop} :
    host.Noting P (fun type rclass => P ⟨type, rclass⟩) (fun _ _ => True) where
  silent _ := rfl
  commits := rfl
  log guard type rclass line := by
    cases guard with
    | true => exact .note (line rfl) (.lift _)
    | false => exact .lift (.ok ())
  decoding _ _ _ := .pure ()

section Run

variable {cfg : Config} {heap : Nat → Nat → Byte} {s : Session} {n i ptr : Nat}

/-- The line of a record is logged before anything can stop the loop. -/
theorem cacheRecord_of_nil (info : cfg.infoEnabled = true) (now : Rat) {rr : DNSResourceRecord}
    {rdata : DNSRData} (hr : rr.rdata = some rdata) (quiet : s.driver = []) (log : List LogLine) :
    ∃ t, t.driver = [] ∧ t.packet = s.packet ∧ host.cacheRecord cfg (.instant now) rr (s, log) =
      (describe rr.getType rr.getClass, t, log ++ [⟨rr.getType, rr.getClass⟩]) := by
  let e := Execution.instant now
  have update : ∀ f count c, (Act.silent (executeUpdate f count) : LoggingCall Int)
      ({ s with connection := c }, log) = (.ok count, { s with connection := f c }, log) := by
    intro f count c
    rw [Act.silent, executeUpdate_of_nil (s := { s with connection := c }) f count quiet]
  have deleted := update (deleteFor e rr) e.deleteCount s.connection
  have inserted := update (insertFor e rr rdata) e.insertCount (deleteFor e rr s.connection)
  refine ⟨{ s with connection := insertFor e rr rdata (deleteFor e rr s.connection) }, quiet, rfl,
    ?_⟩
  unfold Host.cacheRecord
  rw [hr]
  refine (Act.bind_of_ok deleted).trans ((Act.bind_of_ok inserted).trans ?_)
  simp only [host, e, Execution.instant, info]
  rfl

/-- If all lines are in range, then so is the line of every record with data. -/
theorem described_of_lines (info : cfg.infoEnabled = true) (now : Rat) (quiet : s.driver = [])
    {log : List LogLine}
    (lines : ∀ w ∈ (host.cacheLoop cfg (fun _ => .instant now) heap n i ptr (s, log)).2.2,
      w.InRange) :
    ∀ rr ∈ decoded heap s.packet.bytes n i ptr, rr.rdata ≠ none →
      LogLine.InRange ⟨rr.getType, rr.getClass⟩ := by
  induction n generalizing i ptr s log with
  | zero => exact List.forall_mem_nil _
  | succ n ih =>
    cases hd : DNSResourceRecord.decode (heap i) s.packet.bytes ptr with
    | error e =>
      rw [decoded_of_error hd]
      exact List.forall_mem_nil _
    | ok r =>
      obtain ⟨rr, after⟩ := r
      rw [decoded_of_ok hd, List.forall_mem_cons]
      rw [(noting (P := fun _ => True)).cacheLoop_succ, hd] at lines
      let rest := host.cacheLoop cfg (fun _ => .instant now) heap n (i + 1) after
      have go : ∀ w ∈ ((host.cacheRecord cfg (.instant now) rr >>= fun _ => rest) (s, log)).2.2,
        w.InRange := lines
      cases hr : rr.rdata with
      | none =>
        have passed : host.cacheRecord cfg (.instant now) rr (s, log) = (.ok (), s, log) := by
          rw [Host.cacheRecord, hr]
          rfl
        rw [Act.bind_of_ok passed] at go
        exact ⟨fun some => absurd rfl some, ih quiet go⟩
      | some rdata =>
        obtain ⟨t, quiet', packet, step⟩ := cacheRecord_of_nil info now hr quiet log
        -- the line is among those at the end, so it has not stopped the loop
        have keeps := Act.Always.bind_snd (fun p => List.prefix_refl p.2)
          (host.cacheRecord cfg (.instant now) rr) (fun _ => ((noting (P := fun _ => True)).cacheLoop
            cfg (fun _ => .instant now) heap (fun _ _ => trivial) (fun _ _ => trivial) n (i + 1)
            after).keeps) (s, log)
        rw [step] at keeps
        have line := go _ (keeps.subset (List.mem_append_right _ (List.mem_singleton_self _)))
        refine ⟨fun _ => line, ?_⟩
        have there : describe rr.getType rr.getClass = .ok () := if_pos line
        rw [there] at step
        rw [Act.bind_of_ok step] at go
        rw [← packet]
        exact ih quiet' go

end Run

end LogLines

/-- Records with data are addresses or aliases. -/
theorem type_lt_of_decode {uninit : Nat → Byte} {packet : List Byte} {buffer after : Nat}
    {rr : DNSResourceRecord} {rdata : DNSRData}
    (h : DNSResourceRecord.decode uninit packet buffer = .ok (rr, after))
    (hr : rr.rdata = some rdata) : rr.getType.toNat < 256 := by
  unfold DNSResourceRecord.getType
  rcases (remade_of_decoded h hr).type with ha | hc
  · rw [ha]
    decide
  · rw [hc]
    decide

/-- A session of an empty cache, with the packet to be cached. -/
def Session.caching (packet : Packet) : Session :=
  ⟨packet, [], fun _ => none, ⟨[], [], []⟩, ⟨[], []⟩, [], []⟩

/-- The indices are in range for every request, every content of the cache and whatever the
driver returns exactly when nothing is logged, or the class of every record of the reply that
has data is below 256. -/
theorem description_indices_iff (cfg : Config) (heap : Nat → Nat → Byte) (packet : Packet)
    (data numResponses : Nat) :
    ((∀ stack s, ∀ l ∈ LogLines.lines (LogLines.host.extractQueries cfg stack) s, l.InRange) ∧
        (∀ locals lookup query responseData info packetLen s, ∀ l ∈ LogLines.lines
          (LogLines.host.resolveA cfg locals lookup query responseData info packetLen) s,
          l.InRange) ∧
        ∀ executions s, s.packet = packet → ∀ l ∈ LogLines.lines
          (LogLines.host.cacheResponse cfg executions heap data numResponses) s, l.InRange) ↔
      (cfg.infoEnabled = true → ∀ rr ∈ decoded heap packet.bytes numResponses 0 data,
        rr.rdata ≠ none → rr.getClass.toNat < 256) := by
  have none : ∀ l ∈ ([] : List LogLine), l.InRange := List.forall_mem_nil _
  have noting := LogLines.noting (P := LogLine.InRange)
  have valid : ∀ type rclass : UInt16, type.toNat < 256 → rclass.toNat < 256 →
      LogLine.InRange ⟨type, rclass⟩ := fun _ _ type rclass => ⟨type, rclass⟩
  constructor
  · rintro ⟨_, _, all⟩ info rr hrr hdata
    -- a driver that never fails and counts every record lets every line be logged
    have first := (LogLines.noting (P := fun _ => True)).prefix_cacheResponse cfg
      (fun _ => .instant 0) heap (s := .caching packet) data numResponses rfl
    have inRange := fun l hl => all _ (.caching packet) rfl l (first.subset hl)
    exact (LogLines.described_of_lines info 0 rfl inRange rr hrr hdata).2
  · intro described
    refine ⟨fun stack s => (noting.extractQueries cfg valid stack).notes (s, []) none, ?_, ?_⟩
    · intro locals lookup query responseData info packetLen s
      exact (noting.resolveA cfg valid locals lookup query responseData info packetLen).notes
        (s, []) none
    · rintro executions s rfl
      refine noting.cacheResponse_notes cfg executions heap fun c hc => ⟨trivial, ?_⟩
      intro rr hrr info hdata
      have there : rr ∈ decoded heap s.packet.bytes numResponses 0 data :=
        List.mem_filterMap.mpr ⟨c, hc, hrr⟩
      obtain ⟨rdata, hr⟩ := Option.ne_none_iff_exists'.mp hdata
      obtain ⟨_, _, _, decodes⟩ := decode_of_mem_decoded there
      exact ⟨type_lt_of_decode decodes hr, described info rr there hdata⟩

/-- An address of class 256. -/
def otherClass : Packet :=
  received (upstreamReply 1 [0xC0, 12, 0, 1, 1, 0, 0, 0, 0, 60, 0, 4, 1, 2, 3, 4])

/-- The line for the record reads behind the end of `CLASS_DESCR`. -/
theorem description_index_outside :
    LogLines.lines (LogLines.host.cacheResponse ⟨0, true⟩ (fun _ => .instant 0) (fun _ _ => 0) 19 1)
        (.caching otherClass) = [⟨1, 256⟩] ∧
      ¬ LogLine.InRange ⟨1, 256⟩ ∧
      (cacheResponse ⟨0, true⟩ (fun _ => .instant 0) (fun _ _ => 0) 19 1
        (.caching otherClass)).1 = .error (.fault .outOfBounds) := by
  refine ⟨by decide +kernel, fun h => ?_, by decide +kernel⟩
  exact absurd h.2 (by decide)

end OdbcDns
