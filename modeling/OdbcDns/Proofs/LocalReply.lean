import OdbcDns.Proofs.AnswerSection
import OdbcDns.Proofs.Forwarding

namespace OdbcDns
open Slice Rfc1035

/-! The reply that a request for the addresses of one name gets from the cache, as a whole
message. -/

theorem or_qr_rd (b : Byte) : (b ||| 0x80) &&& 0x01 = b &&& 0x01 := by
  revert b
  apply forall_byte
  decide +kernel

theorem rd_flags (cfg : Config) (info : ResponseInfo) (p : Packet) :
    rd (Worker.setResponseFlags cfg info p).bytes = rd p.bytes := by
  rw [rd, byteAt_flags_two, or_qr_rd, rd]

theorem tc_of_take_eq {m m' : List Byte} {n : Nat} (he : m.take n = m'.take n) (h : 3 ≤ n) :
    tc m = tc m' := by
  unfold tc
  rw [byteAt_of_take_eq he (by omega)]

/-- The counts other than ANCOUNT. -/
theorem counts_flags (cfg : Config) (info : ResponseInfo) (p : Packet) :
    qdcount (Worker.setResponseFlags cfg info p).bytes = qdcount p.bytes ∧
      nscount (Worker.setResponseFlags cfg info p).bytes = info.authAnswers.toNat ∧
      arcount (Worker.setResponseFlags cfg info p).bytes = info.otherAnswers.toNat := by
  have hn := info.authAnswers.toNat_lt
  have ho := info.otherAnswers.toNat_lt
  simp only [qdcount, nscount, arcount, Worker.setResponseFlags, Packet.setRcode, Packet.setRa,
    Packet.setQr, byteAt_setCount _ (by decide : 10 + 1 < 12),
    byteAt_setCount _ (by decide : 8 + 1 < 12), byteAt_setCount _ (by decide : 6 + 1 < 12),
    Packet.byteAt_set _ (by decide : 3 < 12), Packet.byteAt_set _ (by decide : 2 < 12)]
  simp only [Nat.reduceEqDiff, Nat.reduceAdd, if_false, if_true, toNat_ofNat_mod, true_and]
  omega

/-- A reply to a request for the addresses of one name: the header of the request turned into
that of a response, the question as it was asked, the answers, and nothing else. -/
structure Replied (request reply : List Byte) (q : Question) (as : List Answer) : Prop where
  id : idOf reply = idOf request
  response : qr reply = true
  desired : rd reply = rd request
  truncation : tc reply = tc request
  code : rcode reply = 0
  counts : qdcount reply = 1 ∧ ancount reply = as.length ∧ nscount reply = 0 ∧ arcount reply = 0
  question : At reply 12 q.bytes
  answers : RecordsAt reply (12 + q.bytes.length) (as.map Answer.record) reply.length

theorem Replied.wellFormed {request reply : List Byte} {q : Question} {as : List Answer}
    (h : Replied request reply q as) : WellFormed reply := by
  obtain ⟨qd, an, ns, ar⟩ := h.counts
  refine ⟨12 + q.bytes.length, ?_, ?_⟩
  · have bytes : wireBytes [q.onWire] = q.bytes := List.append_nil _
    have questions := questionsAt_wire (m := reply) [q.onWire] (bytes ▸ h.question)
    rw [bytes] at questions
    rw [qd]
    exact questions
  · refine ⟨_, [], [], _, _, h.answers, .nil, .nil, ?_, ns.symm, ar.symm⟩
    rw [List.length_map, an]

/-- What `resolve` returns when it has answered the question from these rows. -/
def ResponseInfo.single (t : Turn) (q : Question) (as : List Answer) : ResponseInfo :=
  { ResponseInfo.new t.locals.length with
    answers := UInt16.ofNat as.length
    length := (singleBytes q as).length }

section Reply

variable {cfg : Config} {t : Turn} {w : Worker} {g : Worker.Stage} {q : Question}
  {as : List Answer} {info : ResponseInfo} {s : Session}

/-- What `resolve` returns for the question, without using the socket. -/
theorem resolved_single (asks : Asks t.datagram [q]) (type : q.typeLow = 1)
    (rows : t.lookup q.name.text = as.map Answer.row) (stays : Local as t.datagram)
    (resolved : resolve cfg t.locals t.lookup (12 + q.bytes.length) (12 + q.bytes.length)
      (w.clean.asked t [q]) = (.ok info, s)) (fits : (singleBytes q as).length < 500) :
    info = .single t q as ∧ s.socket = w.socket := by
  have hq := q.length_bytes_le
  obtain ⟨n, info', hr, rfl⟩ := (resolve_single q.query rfl (Question.qtype_of_low type)).mp resolved
  obtain ⟨_, _, length, hinfo, _, frame⟩ := resolveA_ok hr (.inr fits) rows (by omega)
    (by omega) (stays.asked asks w.clean)
  constructor
  · rw [hinfo, length]
    simp only [ResponseInfo.single, ResponseInfo.new, UInt16.zero_add]
    rfl
  · rw [frame]
    rfl

/-- The header of the packet in which the answers stand is that of the request. -/
theorem AnsweredSingle.header (h : AnsweredSingle w t q as info s) (asks : Asks t.datagram [q]) :
    s.packet.bytes.take 12 = t.datagram.take 12 := by
  have hq := q.length_bytes_le
  have hfit := h.fits
  have hlen := asks.le
  rw [h.packet, take_overwrite (by rw [Packet.size, packetAllocation]; omega) (by omega),
    ofDatagram_bytes t.received, List.take_append_of_le_length (by omega)]

theorem AnsweredSingle.sent (h : AnsweredSingle w t q as info s) (cfg : Config)
    (counted : g.totalBytes = q.bytes.length)
    (room : 12 + q.bytes.length + (singleBytes q as).length ≤ 512) :
    (Worker.answered cfg g s info).session.packet = Worker.setResponseFlags cfg info s.packet ∧
    (Worker.answered cfg g s info).reply =
      (Worker.setResponseFlags cfg info s.packet).bytes.take
        (12 + q.bytes.length + (singleBytes q as).length) := by
  have size : sizeAdd headerLength (sizeAdd q.bytes.length (singleBytes q as).length) =
      12 + q.bytes.length + (singleBytes q as).length := by
    unfold sizeAdd headerLength
    omega
  simp only [Worker.Stage.reply, Worker.answered, h.whole, h.recursion, h.length, counted,
    Bool.false_eq_true, if_false, size, maxDnsPacketLength, Nat.min_eq_left room, and_self]

/-- The header of the reply. -/
theorem AnsweredSingle.fields (h : AnsweredSingle w t q as info s) (asks : Asks t.datagram [q])
    (cfg : Config) {reply : List Byte} {n : Nat} (hn : 12 ≤ n)
    (sent : reply = (Worker.setResponseFlags cfg info s.packet).bytes.take n) :
    idOf reply = idOf t.datagram ∧ qr reply = true ∧ rd reply = rd t.datagram ∧
      tc reply = tc t.datagram ∧ rcode reply = info.rcode.byte.toNat ∧ qdcount reply = 1 ∧
      ancount reply = info.answers.toNat ∧ nscount reply = info.authAnswers.toNat ∧
      arcount reply = info.otherAnswers.toNat := by
  have front : reply.take n = (Worker.setResponseFlags cfg info s.packet).bytes.take n := by
    rw [sent, List.take_take, Nat.min_self]
  have header := h.header asks
  obtain ⟨qd, ns, ar⟩ := counts_flags cfg info s.packet
  refine ⟨?_, ?_, ?_, ?_, ?_, ?_, ?_, ?_, ?_⟩
  · rw [idOf_of_take_eq front (by omega), (SameBody.flags cfg info s.packet).id]
    exact idOf_of_take_eq header (by omega)
  · rw [qr_of_take_eq front (by omega), qr_flags]
  · rw [rd_of_take_eq front (by omega), rd_flags]
    exact rd_of_take_eq header (by omega)
  · rw [tc_of_take_eq front (by omega), tc_flags]
    exact tc_of_take_eq header (by omega)
  · rw [rcode, byteAt_of_take_eq front (by omega)]
    exact rcode_flags cfg info s.packet
  · rw [qdcount_of_take_eq front (by omega), qd, ← List.length_singleton (a := q), ← asks.count]
    exact qdcount_of_take_eq header (by omega)
  · rw [ancount_of_take_eq front (by omega), ancount_flags]
  · rw [nscount_of_take_eq front (by omega), ns]
  · rw [arcount_of_take_eq front (by omega), ar]

theorem AnsweredSingle.replied (h : AnsweredSingle w t q as info s) (asks : Asks t.datagram [q])
    (cfg : Config) (counted : g.totalBytes = q.bytes.length) (returned : info = .single t q as)
    (room : 12 + q.bytes.length + (singleBytes q as).length ≤ 512) :
    Replied t.datagram (Worker.answered cfg g s info).reply q as := by
  obtain ⟨packet, sent⟩ := h.sent cfg counted room
  obtain ⟨id, response, desired, truncation, code, qd, an, ns, ar⟩ :=
    h.fields asks cfg (by omega) sent
  have front : (Worker.answered cfg g s info).reply.take
        (12 + q.bytes.length + (singleBytes q as).length) =
      (Worker.answered cfg g s info).session.packet.bytes.take
        (12 + q.bytes.length + (singleBytes q as).length) := by
    rw [sent, packet, List.take_take, Nat.min_self]
  have length : (Worker.answered cfg g s info).reply.length =
      12 + q.bytes.length + (singleBytes q as).length := by
    rw [sent, List.length_take, Packet.size, packetAllocation]
    omega
  obtain ⟨hquestion, hanswers⟩ := h.at_reply asks cfg g
  have question := hquestion.of_take_eq front (by omega)
  have answers := hanswers.of_take_eq front (Nat.le_refl _)
  obtain ⟨records, _⟩ := recordsAt_answers (spelled_single question) answers
    (Nat.le_trans room (by decide))
  have few : 12 * as.length ≤ (singleBytes q as).length := length_answers_le _ _ _
  refine ⟨id, response, desired, truncation, ?_, ⟨qd, ?_, ?_, ?_⟩, question, ?_⟩
  · rw [code, returned]
    rfl
  · rw [an, returned, ResponseInfo.single, UInt16.toNat_ofNat']
    omega
  · rw [ns, returned]
    rfl
  · rw [ar, returned]
    rfl
  · rw [length]
    exact records

theorem local_reply (cfg : Config) (w : Worker) (asks : Asks t.datagram [q])
    (type : q.typeLow = 1) (rows : t.lookup q.name.text = as.map Answer.row)
    (stays : Local as t.datagram) (driver : t.driver = [])
    (room : 12 + q.bytes.length + (singleBytes q as).length ≤ 512) :
    ∃ w' reply, w.clean.serve cfg t = .ok (w', reply) ∧ Replied t.datagram reply q as ∧
      w'.socket = w.socket ∧ w'.due = false ∧ w'.connection = w.connection.commit := by
  have hq := q.length_bytes_le
  have hpos := q.length_bytes
  obtain ⟨g, info, s, hg, hr, hw⟩ := answered_single_exists cfg w asks type rows stays
    (by omega) driver
  have h := answered_single asks type rows stays hg hr (.inl hw)
  have stage := w.clean.extract_asks cfg t asks
  rw [hg] at stage
  cases stage
  have counted : (questionBytes [q]).length = q.bytes.length := by simp [questionBytes]
  have size : sizeAdd headerLength (questionBytes [q]).length = 12 + q.bytes.length := by
    rw [counted]
    exact sizeAdd_of_lt (by unfold headerLength; omega)
  obtain ⟨returned, socket⟩ := resolved_single (w := w) asks type rows stays (size ▸ hr) h.fits
  refine ⟨_, _, Worker.serve_of_ok hg hr, h.replied asks cfg counted returned room, socket, ?_,
    h.connection⟩
  simp [Worker.due, h.recursion]

/-- A request for the addresses of one name that the cache can answer within a datagram gets
a well-formed reply, whatever else the request holds: the answers are the rows that were
found, and nothing is sent to the recursive server. -/
theorem local_reply_wellFormed (cfg : Config) (w : Worker) (asks : Asks t.datagram [q])
    (type : q.typeLow = 1) (rows : t.lookup q.name.text = as.map Answer.row)
    (stays : Local as t.datagram) (driver : t.driver = [])
    (room : 12 + q.bytes.length + (singleBytes q as).length ≤ 512) :
    ∃ w' reply, w.clean.serve cfg t = .ok (w', reply) ∧ WellFormed reply ∧
      Replied t.datagram reply q as ∧ w'.socket = w.socket ∧ w'.due = false := by
  obtain ⟨w', reply, serves, replied, socket, due, _⟩ :=
    local_reply cfg w asks type rows stays driver room
  exact ⟨w', reply, serves, replied.wellFormed, replied, socket, due⟩

end Reply

/-- A request with a record behind its question, as EDNS has it. -/
def requestWithOpt : List Byte :=
  [0, 7, 1, 0, 0, 1, 0, 0, 0, 0, 0, 1] ++ questionA.bytes ++ [0, 0, 41, 4, 208, 0, 0, 0, 0, 0, 0]

theorem requestWithOpt_short : requestWithOpt.length ≤ 512 := by decide

def turnWithOpt : Turn :=
  .quiet requestWithOpt requestWithOpt_short fun _ => aliasThenAddress.map Answer.row

theorem local_reply_wellFormed_opt : ∃ w' reply,
    Worker.idle.clean.serve ⟨0, false⟩ turnWithOpt = .ok (w', reply) ∧ WellFormed reply ∧
      arcount requestWithOpt = 1 ∧ arcount reply = 0 := by
  have asks : Asks turnWithOpt.datagram [questionA] := ⟨by decide, by decide, by decide⟩
  have rows : turnWithOpt.lookup questionA.name.text = aliasThenAddress.map Answer.row := rfl
  obtain ⟨w', reply, serves, wellFormed, replied, _⟩ := local_reply_wellFormed ⟨0, false⟩
    Worker.idle asks rfl rows (.inl (by decide)) rfl (by decide)
  exact ⟨w', reply, serves, wellFormed, by decide, replied.counts.2.2.2⟩

end OdbcDns
