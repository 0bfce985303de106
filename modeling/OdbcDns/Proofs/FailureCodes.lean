import OdbcDns.Proofs.ReplyMatching

namespace OdbcDns

/-- The failures of a request are reported: RCODE 1 when extracting the questions
throws, RCODE 2 when that succeeds and resolving them throws. -/
def Worker.Reports (cfg : Config) (t : Turn) (w : Worker) : Prop :=
  ∀ w₁ w' reply, w.cache cfg t = .ok w₁ → w.turn cfg t = .ok (w', reply) →
    match extractQueries cfg t.locals.stack
      (w₁.clean.session (.ofDatagram t.datagram t.buffer) t.exchanges t.driver) with
    | (.error _, _) => rcode reply = 1
    | (.ok n, s) => ∀ e s', resolve cfg t.locals t.lookup (sizeAdd headerLength n)
        (sizeAdd headerLength n) s = (.error e, s') → rcode reply = 2

/-- A reply that holds the header has the RCODE of the packet. -/
theorem rcode_reply {g : Worker.Stage} (h : 4 ≤ sizeAdd headerLength g.totalBytes) :
    rcode g.reply = rcode g.session.packet.bytes := by
  have hm : 3 < min (sizeAdd headerLength g.totalBytes) maxDnsPacketLength := by
    unfold maxDnsPacketLength
    omega
  rw [rcode, rcode, Worker.Stage.reply, byteAt_take hm]

/-- The handlers of the second `try` block put RCODE 2 into the packet. -/
theorem rcode_failed {g g' : Worker.Stage} {s : Session} {e : Stop}
    (h : Worker.failed g s e = .ok g') (hb : 4 ≤ sizeAdd headerLength g.totalBytes) :
    rcode g'.reply = 2 := by
  rw [Worker.failed_ok h]
  refine (rcode_reply ?_).trans (rcode_setRcode s.packet .serverFailure)
  exact hb

/-- A request whose questions are all accepted is reported as it should be. -/
theorem Worker.reports_of_faults {cfg : Config} {t : Turn} {w : Worker}
    (h : ∀ e, t.parsed.2 = some e → e.IsFault) : w.Reports cfg t := by
  intro w₁ w' reply hc ht
  obtain ⟨connection, hc', hs⟩ := Worker.turn_ok ht
  cases hc'.symm.trans hc
  obtain ⟨g, g', info, hg, hr, _, rfl⟩ := Worker.serve_ok hs
  rw [Worker.extract_eq] at hg
  rw [Worker.extractQueries_eq]
  cases hp : t.parsed.2 with
  | some e =>
    have hf := h e hp
    rw [hp] at hg
    cases e with
    | fault f => cases hg
    | code n => cases hf
    | exception m => cases hf
  | none =>
    rw [hp] at hg
    cases hg
    intro e s' he
    rcases Worker.respond_ok hr with ⟨e', s, _, hf, _⟩ | ⟨s, hok, _⟩
    · refine rcode_failed hf ?_
      rw [t.sizeAdd_parsed]
      omega
    · cases hok.symm.trans he

/-- A request is always reported as it should be, whatever the worker has served
before, whatever is stored and however the driver and the network behave, exactly
when no question of it makes the parser throw, or read what it should not. -/
theorem failures_reported_iff (cfg : Config) (t : Turn) :
    (t.Defined ∧ ∀ (w : Worker) u, w.Reached cfg → t.SameRequest u → w.Reports cfg u) ↔
    ∀ e, t.parsed.2 = some e → ∃ f, f ≠ .outOfBounds ∧ e = .fault f := by
  constructor
  · rintro ⟨defined, reported⟩ e he
    by_cases fault : e.IsFault
    · cases e with
      | fault f => exact ⟨f, fun h => defined (by rw [he, h]), rfl⟩
      | code n => cases fault
      | exception m => cases fault
    · -- the counter that the request before has left makes the reply empty
      obtain ⟨w', reply, turn, empty⟩ := t.again_empty cfg he fault
      have code := reported _ (t.again 0) (Worker.reached_fresh cfg _) ⟨rfl, rfl, rfl⟩ _ w' reply
        (Worker.cache_fresh cfg rfl _) turn
      have same : (t.again 0).parsed = t.parsed := rfl
      rw [Worker.extractQueries_eq, same, he, empty] at code
      cases code
  · intro parses
    refine ⟨fun undefined => ?_, fun w u _ same => Worker.reports_of_faults (same.parsed ▸ ?_)⟩
    · obtain ⟨f, other, is⟩ := parses _ undefined
      exact other (Stop.fault.inj is).symm
    · intro e he
      obtain ⟨f, _, rfl⟩ := parses e he
      trivial

/-- A request whose only label is longer than 63 bytes. -/
def longLabel : Turn :=
  .quiet [0, 7, 0, 0, 0, 1, 0, 0, 0, 0, 0, 0, 64, 0] (by decide) (fun _ => [])

/-- It is answered as if nothing had failed. -/
theorem longLabel_unreported :
    (∃ m s, extractQueries resolver longLabel.locals.stack
      (Worker.idle.clean.session (.ofDatagram longLabel.datagram longLabel.buffer)
        longLabel.exchanges longLabel.driver) = (.error (.exception m), s)) ∧
    ∃ w' reply, Worker.idle.run resolver [longLabel] = .ok (w', [reply]) ∧ rcode reply = 0 := by
  constructor
  · exact ⟨"Label length longer than maximum of 63", _, Act.eq_of_fst (by decide +kernel)⟩
  · obtain ⟨w', run⟩ : ∃ w', Worker.idle.run resolver [longLabel] =
        .ok (w', [[0, 7, 0x80, 0x80, 0, 1, 0, 0, 0, 0, 0, 0]]) :=
      Worker.run_of_replies (by decide +kernel)
    exact ⟨w', _, run, by decide⟩

end OdbcDns
