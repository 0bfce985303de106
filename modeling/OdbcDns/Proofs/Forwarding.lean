import OdbcDns.Proofs.Matching

namespace OdbcDns
open Slice Rfc1035

/-- The header counts the questions and records that follow it. -/
def WellFormed (m : List Byte) : Prop :=
  ∃ off, QuestionsAt m 12 (qdcount m) off ∧
    SectionsAt m off (ancount m) (nscount m) (arcount m)

/-- A well-formed message of a client that does not compress the names of its
questions. -/
structure ClientMessage (d : List Byte) (qs : List WireQuestion) : Prop where
  raises : Raises d qs
  records : SectionsAt d (12 + (wireBytes qs).length) (ancount d) (nscount d) (arcount d)

theorem questionsAt_wire {m : List Byte} (qs : List WireQuestion) {off : Nat}
    (h : At m off (wireBytes qs)) :
    QuestionsAt m off qs.length (off + (wireBytes qs).length) := by
  induction qs generalizing off with
  | nil => exact .nil
  | cons q qs ih =>
    obtain ⟨hq, hqs⟩ := at_append.mp (show At m off (q.bytes ++ wireBytes qs) from h)
    have hname := nameAt_of_wire q.ok (at_append.mp hq).1
    have hl : q.bytes.length = (wire q.labels).length + 4 := by simp [WireQuestion.bytes]
    have hle := hq.le (List.ne_nil_of_length_pos q.length_bytes_pos)
    have hend : off + (wireBytes (q :: qs)).length =
        off + q.bytes.length + (wireBytes qs).length := by
      simp only [wireBytes, List.flatMap_cons, List.length_append]
      omega
    rw [hend]
    rw [hl, ← Nat.add_assoc] at hqs hle ⊢
    exact .cons hname hle (ih hqs)

theorem ClientMessage.wellFormed {d : List Byte} {qs : List WireQuestion}
    (h : ClientMessage d qs) : WellFormed d := by
  refine ⟨12 + (wireBytes qs).length, ?_, h.records⟩
  rw [h.raises.count]
  exact questionsAt_wire qs h.raises.bytes

/-- The header with the questions alone is well-formed if there is nothing else. -/
theorem ClientMessage.wellFormed_take_iff {d : List Byte} {qs : List WireQuestion}
    (h : ClientMessage d qs) : WellFormed (d.take (12 + (wireBytes qs).length)) ↔
      ancount d = 0 ∧ nscount d = 0 ∧ arcount d = 0 := by
  have hle := h.raises.le
  have htake : (d.take (12 + (wireBytes qs).length)).take (12 + (wireBytes qs).length) =
      d.take (12 + (wireBytes qs).length) := by rw [List.take_take, Nat.min_self]
  rw [← h.records.end_iff]
  constructor
  · rintro ⟨off, hq, hs⟩
    have hat : At (d.take (12 + (wireBytes qs).length)) 12 (wireBytes qs) :=
      h.raises.bytes.of_take_eq htake (Nat.le_refl _)
    have hend := questionsAt_wire qs hat
    rw [← h.raises.count, ← qdcount_of_take_eq htake (by omega)] at hend
    have hlen : (d.take (12 + (wireBytes qs).length)).length = 12 + (wireBytes qs).length :=
      List.length_take_of_le hle
    rw [hq.unique hend] at hs
    have zero := hs.end_iff.mp hlen.symm
    rw [ancount_of_take_eq htake (by omega), nscount_of_take_eq htake (by omega),
      arcount_of_take_eq htake (by omega)] at zero
    exact h.records.end_iff.mpr zero
  · intro he
    rw [he, List.take_length]
    exact h.wellFormed

/-- A part of the program that uses no network and keeps the first bytes of the
packet. -/
structure Keeps (n : Nat) (s t : Session) : Prop where
  offline : Offline s t
  first : t.packet.bytes.take n = s.packet.bytes.take n

theorem Keeps.refl (n : Nat) (s : Session) : Keeps n s s := ⟨.refl s, rfl⟩

theorem Keeps.trans {n : Nat} {s t u : Session} (h : Keeps n s t) (g : Keeps n t u) :
    Keeps n s u := ⟨.trans s t u h.offline g.offline, g.first.trans h.first⟩

theorem driverCall_keeps (n : Nat) (s : Session) : Keeps n s (driverCall s).2 :=
  ⟨driverCall_offline s, by rw [driverCall_snd]⟩

theorem commit_keeps (n : Nat) (s : Session) : Keeps n s (commit s).2 :=
  Act.after_bind (driverCall_keeps n s) fun _ _ ht => ht.trans ⟨⟨rfl, rfl, rfl⟩, rfl⟩

theorem encodeRow_keeps {cfg : Config} {row : Row} {l l' : RowLoop} {n k : Nat} {s t : Session}
    (h : encodeRow cfg row l s = (.ok (l', k), t)) (hl : n ≤ l.ptr) :
    Keeps n s t ∧ l'.ptr = l.ptr := by
  obtain ⟨_, _, _, _, _, _, _, _, henc, rfl, rfl⟩ := encodeRow_inv h
  exact ⟨⟨⟨rfl, rfl, rfl⟩, encode_take henc hl⟩, rfl⟩

/-- The rows are written behind the bytes that are kept. -/
theorem resolveRows_keeps (cfg : Config) (rows : List Row) {n : Nat} {l : RowLoop} (s : Session)
    (hl : n ≤ l.ptr) : Keeps n s (resolveRows cfg rows l s).2 := by
  induction rows generalizing l s with
  | nil => exact Act.after_bind (driverCall_keeps n s) fun _ _ ht => ht
  | cons row rows ih =>
    rw [resolveRows_cons]
    refine Act.after_bind (driverCall_keeps n s) fun _ t ht => ?_
    rcases he : encodeRow cfg row l t with ⟨⟨e⟩ | ⟨l', k⟩, u⟩
    · rw [Act.bind_of_error he, (encodeRow_error he).1]
      exact ht
    · rw [Act.bind_of_ok he]
      obtain ⟨hu, hptr⟩ := encodeRow_keeps he hl
      dsimp only
      split
      · exact ht.trans hu
      · exact (ht.trans hu).trans (ih _ (by simp only; omega))

theorem Keeps.rd {n : Nat} {s t : Session} (h : Keeps n s t) (hn : 3 ≤ n) :
    rd t.packet.bytes = rd s.packet.bytes := rd_of_take_eq h.first hn

section ResolveA

variable {cfg : Config} {locals : Locals} {lookup : List Byte → List Row} {query : DNSQuery}
  {responseData packetLen : Nat} {info : ResponseInfo} {s : Session}

/-- `resolveA` keeps the packet up to the answers, unless it asks the server. -/
theorem resolveA_after {P : Session → Prop} {n : Nat} (hn : n ≤ responseData) (h3 : 3 ≤ n)
    (keep : ∀ u, Keeps n s u → P u)
    (ask : rd s.packet.bytes = true → ∀ u, Keeps n s u → P (recursiveResolve cfg packetLen u).2) :
    P (resolveA cfg locals lookup query responseData info packetLen s).2 := by
  have answered : ∀ (l : RowLoop) t, Keeps n s t →
      P ((do commit; pure (l.ptr - responseData, l.info) : Call (Nat × ResponseInfo)) t).2 :=
    fun l t ht => Act.after_bind_of (ht.trans (commit_keeps n t)) keep fun _ => keep
  rw [resolveA_eq]
  split
  · exact keep s (.refl n s)
  · refine Act.after_bind_of (driverCall_keeps n s) keep fun _ t ht => ?_
    refine Act.after_bind_of (ht.trans (resolveRows_keeps cfg _ t hn)) keep fun l u hu => ?_
    split
    · exact answered l u hu
    · rw [Act.bind_of_ok (Act.get_apply u)]
      split
      · rename_i hz
        refine Act.after_bind_of (hu.trans (commit_keeps n u)) keep fun _ v hv => ?_
        exact Act.after_bind (ask (hu.rd h3 ▸ hz.2) v hv) fun _ _ h => h
      · exact answered l u hu

end ResolveA

/-- Everything that is sent is the start of the packet. -/
def Sends (packetLen : Nat) (s t : Session) : Prop :=
  ∃ sent, t.socket.outbox = s.socket.outbox ++ sent ∧
    ∀ m ∈ sent, m = s.packet.bytes.take (packetLen % 4294967296)

theorem Keeps.sends {n : Nat} {s t : Session} (h : Keeps n s t) (packetLen : Nat) :
    Sends packetLen s t := ⟨[], by rw [h.offline.socket, List.append_nil], by simp⟩

theorem recursiveResolve_sends (cfg : Config) (packetLen : Nat) (s : Session) :
    Sends packetLen s (recursiveResolve cfg packetLen s).2 := by
  unfold Sends
  rw [recursiveResolve_socket, Forward.after]
  split
  · exact ⟨[], (List.append_nil _).symm, by simp⟩
  · refine ⟨[s.packet.bytes.take (packetLen % 4294967296)], ?_, by simp⟩
    split <;> rfl

theorem Keeps.sends_trans {n packetLen : Nat} {s t u : Session} (h : Keeps n s t)
    (hn : packetLen % 4294967296 ≤ n) (hu : Sends packetLen t u) : Sends packetLen s u := by
  obtain ⟨sent, ho, hm⟩ := hu
  have first : t.packet.bytes.take (packetLen % 4294967296) =
      s.packet.bytes.take (packetLen % 4294967296) := by
    have := congrArg (List.take (packetLen % 4294967296)) h.first
    rwa [List.take_take, List.take_take, Nat.min_eq_left hn] at this
  refine ⟨sent, by rw [ho, h.offline.socket], fun m hmem => ?_⟩
  rw [← first]
  exact hm m hmem

section Resolve

variable (cfg : Config) (locals : Locals) (lookup : List Byte → List Row)
  {responseData packetLen : Nat} {s : Session}

/-- Without recursion, or without a server, nothing is sent and nothing is received. -/
theorem resolveLoop_keeps (hr : 3 ≤ responseData)
    (quiet : cfg.noServer = true ∨ rd s.packet.bytes = false) (queries : List DNSQuery)
    (info : ResponseInfo) : Keeps responseData s
      (resolveLoop cfg locals lookup responseData packetLen queries info s).2 := by
  -- whoever asks for recursion then gets the packet back as it is
  have same : rd s.packet.bytes = true → ∀ u,
      (recursiveResolve cfg packetLen u).2 = u := by
    intro desired u
    rcases quiet with none | hrd
    · rw [recursiveResolve_of_noServer none]
    · cases hrd.symm.trans desired
  induction queries generalizing s info with
  | nil => exact .refl _ s
  | cons query queries ih =>
    rw [resolveLoop_cons]
    split
    · refine Act.after_bind ?_ fun r t ht => ?_
      · refine resolveA_after (Nat.le_refl _) hr (fun _ hu => hu) fun desired u hu => ?_
        rw [same desired]
        exact hu
      · obtain ⟨length, info'⟩ := r
        rw [← ht.rd hr] at quiet same
        exact ht.trans (ih quiet _ same)
    · rw [Act.bind_of_ok (Act.get_apply s)]
      split
      · rename_i desired
        refine Act.after_bind ?_ fun _ _ h => h
        rw [same desired]
        exact .refl _ s
      · exact .refl _ s

theorem resolve_keeps (packetLen : Nat) (hr : 3 ≤ responseData)
    (quiet : cfg.noServer = true ∨ rd s.packet.bytes = false) :
    Keeps responseData s (resolve cfg locals lookup responseData packetLen s).2 := by
  rw [resolve, Act.bind_of_ok (Act.get_apply s)]
  exact resolveLoop_keeps cfg locals lookup hr quiet s.queries _

/-- A single question, or a first one of another type than A, is forwarded at most
once, as it stands in the packet. -/
theorem resolveLoop_sends (hr : 3 ≤ responseData) (hl : packetLen % 4294967296 ≤ responseData)
    {queries : List DNSQuery}
    (hq : queries.length ≤ 1 ∨ ∀ q ∈ queries.head?, q.qtype ≠ typeA) (info : ResponseInfo) :
    Sends packetLen s
      (resolveLoop cfg locals lookup responseData packetLen queries info s).2 := by
  cases queries with
  | nil => exact (Keeps.refl 0 s).sends packetLen
  | cons query queries =>
    rw [resolveLoop_cons]
    by_cases ht : query.qtype = typeA
    · rw [if_pos ht]
      have alone : queries = [] := by
        rcases hq with hq | hq
        · simpa using hq
        · exact absurd ht (hq query rfl)
      subst alone
      refine Act.after_bind ?_ fun _ _ h => h
      refine resolveA_after (Nat.le_refl _) hr (fun _ hu => hu.sends packetLen) fun _ u hu => ?_
      exact hu.sends_trans hl (recursiveResolve_sends cfg packetLen u)
    · rw [if_neg ht, Act.bind_of_ok (Act.get_apply s)]
      split
      · exact Act.after_bind (recursiveResolve_sends cfg packetLen s) fun _ _ h => h
      · exact (Keeps.refl 0 s).sends packetLen

end Resolve

section Miss

variable {cfg : Config} {locals : Locals} {lookup : List Byte → List Row} {query : DNSQuery}
  {responseData packetLen : Nat} {info : ResponseInfo} {s : Session}

/-- Nothing is stored for a question, and its resolution may be forwarded. -/
structure Misses (lookup : List Byte → List Row) (query : DNSQuery) (s : Session) : Prop where
  name : query.qname.length ≤ 254
  rows : lookup query.qname = []
  driver : s.driver = []
  desired : rd s.packet.bytes = true

/-- The session when the lookup has found nothing. -/
def Session.missed (s : Session) : Session := { s with connection := s.connection.commit }

theorem resolveA_of_miss (h : Misses lookup query s) :
    resolveA cfg locals lookup query responseData info packetLen s =
      (do
        let length ← recursiveResolve cfg packetLen
        pure (length, { info with recursionOccurred := true }) : Call (Nat × ResponseInfo))
        s.missed := by
  have hlen : ¬ query.qname.length + 1 > maxDnsNameLength := by
    have := h.name
    unfold maxDnsNameLength
    omega
  have hrows : ∀ l, resolveRows cfg [] l s = (.ok l, s) :=
    fun l => Act.bind_of_ok (driverCall_of_nil h.driver)
  rw [resolveA_eq, if_neg hlen, Act.bind_of_ok (driverCall_of_nil h.driver), h.rows,
    Act.bind_of_ok (hrows _)]
  simp only [Bool.false_eq_true, if_false]
  rw [Act.bind_of_ok (Act.get_apply s), if_pos ⟨trivial, h.desired⟩,
    Act.bind_of_ok (commit_of_nil h.driver)]
  rfl

theorem recursiveResolve_outbox (server : cfg.noServer = false)
    (send : s.exchange.sendError = none) (hl : packetLen % 4294967296 ≤ 1024) :
    (recursiveResolve cfg packetLen s).2.socket.outbox =
      s.socket.outbox ++ [s.packet.bytes.take (packetLen % 4294967296)] := by
  rw [recursiveResolve_socket, Forward.after, if_neg (by
    simp only [server, send, packetAllocation, Bool.false_eq_true, Option.isSome_none, false_or]
    omega)]
  split <;> rfl

/-- The packet has been sent when waiting for the reply fails. -/
theorem recursiveResolve_unanswered (server : cfg.noServer = false)
    (send : s.exchange.sendError = none) {n : Int} (select : s.exchange.selectError = some n)
    (hl : packetLen % 4294967296 ≤ 1024) :
    ∃ e t, recursiveResolve cfg packetLen s = (.error e, t) ∧
      t.socket.outbox = s.socket.outbox ++ [s.packet.bytes.take (packetLen % 4294967296)] := by
  have silent : ¬ (s.exchange.Works ∧ packetLen % 4294967296 ≤ 1024) := by
    rintro ⟨works, _⟩
    rw [works.select] at select
    cases select
  obtain ⟨e, t, he, _⟩ := recursiveResolve_of_fails server silent
  refine ⟨e, t, he, ?_⟩
  have ho := recursiveResolve_outbox server send hl
  rwa [he] at ho

/-- A question that is missed is forwarded. -/
theorem resolveLoop_forwards (h : Misses lookup query s) (server : cfg.noServer = false)
    (send : s.exchange.sendError = none) {n : Int} (select : s.exchange.selectError = some n)
    (hl : packetLen % 4294967296 ≤ 1024) (queries : List DNSQuery) :
    (resolveLoop cfg locals lookup responseData packetLen (query :: queries) info s).2.socket.outbox
      = s.socket.outbox ++ [s.packet.bytes.take (packetLen % 4294967296)] := by
  rw [resolveLoop_cons]
  by_cases ht : query.qtype = typeA
  · obtain ⟨e, t, he, ho⟩ := recursiveResolve_unanswered (s := s.missed) server send select hl
    have stopped : resolveA cfg locals lookup query responseData info packetLen s =
        (.error e, t) := by rw [resolveA_of_miss h, Act.bind_of_error he]
    rw [if_pos ht, Act.bind_of_error stopped]
    exact ho
  · obtain ⟨e, t, he, ho⟩ := recursiveResolve_unanswered server send select hl
    rw [if_neg ht, Act.bind_of_ok (Act.get_apply s), if_pos h.desired, Act.bind_of_error he]
    exact ho

/-- Once the first question has been answered from the network, the reply is forwarded
for the second. -/
theorem resolveLoop_forwards_reply (h : Misses lookup query s) (ht : query.qtype = typeA)
    (server : cfg.noServer = false) (works : s.exchange.Works)
    (hl : packetLen % 4294967296 ≤ 1024) {reply : List Byte} (ha : s.available = [reply])
    (hc : Carries s.packet.bytes reply) (hr : reply.length ≤ 512) {next : DNSQuery}
    (hnext : Misses lookup next (s.received reply [])) {wait : Exchange} {n : Int}
    (hx : s.exchanges.tail = [wait]) (send : wait.sendError = none)
    (select : wait.selectError = some n) (queries : List DNSQuery) :
    (resolveLoop cfg locals lookup responseData packetLen (query :: next :: queries) info
        s).2.socket.outbox =
      s.socket.outbox ++ [s.packet.bytes.take (packetLen % 4294967296),
        (s.received reply []).packet.bytes.take (packetLen % 4294967296)] := by
  have first := recursiveResolve_of_carries (s := s.missed) server works hl ha hc hr
  have answered : resolveA cfg locals lookup query responseData info packetLen s =
      (.ok (sizeSub reply.length packetLen, { info with recursionOccurred := true }),
        (s.missed.forwarded packetLen).received reply []) :=
    (resolveA_of_miss h).trans (Act.bind_of_ok first)
  have misses : Misses lookup next ((s.missed.forwarded packetLen).received reply []) :=
    ⟨hnext.name, hnext.rows, hnext.driver, hnext.desired⟩
  have waits : ((s.missed.forwarded packetLen).received reply []).exchange = wait := by
    show s.exchanges.tail.headD .quiet = wait
    rw [hx]
    rfl
  rw [resolveLoop_cons, if_pos ht, Act.bind_of_ok answered]
  refine (resolveLoop_forwards misses server (waits ▸ send) (waits ▸ select) hl queries).trans ?_
  exact List.append_assoc _ [_] [_]

end Miss

/-- A datagram that is sent to the recursive server while a request is resolved. -/
def Forwards (cfg : Config) (t : Turn) (w : Worker) (m : List Byte) : Prop :=
  ∃ g sent, w.clean.extract cfg t = .ok g ∧
    (resolve cfg t.locals t.lookup (sizeAdd headerLength g.totalBytes)
      (sizeAdd headerLength g.totalBytes) g.session).2.socket.outbox = w.socket.outbox ++ sent ∧
    m ∈ sent

section Client

variable {d : List Byte} {qs : List WireQuestion} (h : ClientMessage d qs) {cfg : Config} {t : Turn}
  {w : Worker} {m : List Byte} (ht : t.datagram = d)
include h ht

/-- What the packet of the request starts with. -/
theorem ClientMessage.first_extracted (queries : List DNSQuery) :
    (w.extracted t queries).packet.bytes.take (12 + (wireBytes qs).length) =
      d.take (12 + (wireBytes qs).length) := by
  subst ht
  have hle := h.raises.le
  have hp := take_ofDatagram t.received t.buffer
  have := congrArg (List.take (12 + (wireBytes qs).length)) hp
  rwa [List.take_take, List.take_take, Nat.min_eq_left hle] at this

/-- The datagrams sent for a request, by the run of `resolve` that sends them. -/
theorem ClientMessage.forwards_iff (named : ∀ q ∈ qs, q.labels ≠ []) :
    Forwards cfg t w m ↔ ∃ sent,
      (resolve cfg t.locals t.lookup (12 + (wireBytes qs).length) (12 + (wireBytes qs).length)
        (w.clean.extracted t (qs.map WireQuestion.query))).2.socket.outbox =
          w.socket.outbox ++ sent ∧ m ∈ sent := by
  have hle := h.raises.le
  have hd : d.length ≤ 512 := ht ▸ t.received
  have hoff : sizeAdd headerLength (wireBytes qs).length = 12 + (wireBytes qs).length :=
    sizeAdd_of_lt (by unfold headerLength; omega)
  unfold Forwards
  simp only [h.raises.extract named cfg ht, Except.ok.injEq]
  constructor
  · rintro ⟨_, sent, rfl, ho, hm⟩
    rw [hoff] at ho
    exact ⟨sent, ho, hm⟩
  · rintro ⟨sent, ho, hm⟩
    refine ⟨_, sent, rfl, ?_, hm⟩
    rw [hoff]
    exact ho

/-- A request that is forwarded at most once is forwarded up to its records. -/
theorem ClientMessage.forwards_first (named : ∀ q ∈ qs, q.labels ≠ [])
    (hq : qs.length = 1 ∨ ∀ q ∈ qs.head?, q.typeLow ≠ 1) (hf : Forwards cfg t w m) :
    m = d.take (12 + (wireBytes qs).length) := by
  have hmod := h.raises.end_mod (ht ▸ t.received)
  have hqs : (w.clean.extracted t (qs.map WireQuestion.query)).queries =
      qs.map WireQuestion.query := Worker.queries_extracted rfl t _
  have once : (qs.map WireQuestion.query).length ≤ 1 ∨
      ∀ q ∈ (qs.map WireQuestion.query).head?, q.qtype ≠ typeA := by
    refine hq.imp (fun hq => by simp [hq]) fun hq q hmem => ?_
    rw [List.head?_map] at hmem
    obtain ⟨k, hk, rfl⟩ := Option.map_eq_some_iff.mp hmem
    exact fun he => hq k hk ((charToU16_eq_typeA k.typeLow).mp he)
  obtain ⟨sent, ho, hm⟩ := (h.forwards_iff ht named).mp hf
  rw [resolve, Act.bind_of_ok (Act.get_apply _), hqs] at ho
  obtain ⟨sent', ho', hall⟩ := resolveLoop_sends cfg t.locals t.lookup (by omega)
    (Nat.le_of_eq hmod) once (.new t.locals.length)
  rw [ho'] at ho
  have same : sent' = sent := List.append_cancel_left ho
  rw [hall m (same ▸ hm), hmod, h.first_extracted ht]

end Client

/-- A request for which nothing is stored, with what the network does. -/
def Turn.missing (d : List Byte) (hl : d.length ≤ 512) (exchanges : List Exchange) : Turn :=
  { Turn.quiet d hl (fun _ => []) with exchanges }

/-- An exchange that is interrupted once the packet has been sent. -/
def Exchange.interrupted : Exchange := ⟨none, some 10004, none, []⟩

/-- The header of a reply that holds nothing. -/
def emptyReply (d : List Byte) : List Byte :=
  [byteAt d 0, byteAt d 1, 0x81, 0x80, 0, 0, 0, 0, 0, 0, 0, 0]

theorem length_emptyReply (d : List Byte) : (emptyReply d).length = 12 := rfl

/-- Nothing may follow a header that counts nothing. -/
theorem not_wellFormed_emptyReply (d : List Byte) {rest : List Byte} (hr : rest ≠ []) :
    ¬ WellFormed (emptyReply d ++ rest) := by
  rintro ⟨off, hq, hs⟩
  have hz : qdcount (emptyReply d ++ rest) = 0 := by simp [qdcount, byteAt, emptyReply]
  rw [hz] at hq
  have ho : off = 12 := hq.unique .nil
  have hend := hs.end_iff.mpr (by simp [ancount, nscount, arcount, byteAt, emptyReply])
  rw [List.length_append, length_emptyReply, ho] at hend
  have hp := List.length_pos_of_ne_nil hr
  omega

/-- The packet once such a reply has been received. -/
theorem bytes_received_emptyReply (s : Session) (d : List Byte) :
    (s.received (emptyReply d) []).packet.bytes = emptyReply d ++ s.packet.bytes.drop 12 := by
  have hl : (emptyReply d).length ≤ 512 := by
    rw [length_emptyReply]
    decide
  rw [Session.received, take_maxDnsPacketLength hl, ofDatagram_bytes hl, length_emptyReply]

theorem not_wellFormed_received (s : Session) (d : List Byte) {n : Nat} (hp : 0 < n) :
    ¬ WellFormed ((s.received (emptyReply d) []).packet.bytes.take (12 + n)) := by
  rw [bytes_received_emptyReply, List.take_append, length_emptyReply, Nat.add_sub_cancel_left,
    List.take_of_length_le (by rw [length_emptyReply]; omega)]
  apply not_wellFormed_emptyReply
  apply List.ne_nil_of_length_pos
  rw [List.length_take, List.length_drop, s.packet.size, packetAllocation]
  omega

section Client

variable {cfg : Config} {d : List Byte} {qs : List WireQuestion} (h : ClientMessage d qs)
  (hrd : rd d = true) (hl : d.length ≤ 512)
include h hrd

theorem ClientMessage.misses (q : WireQuestion) (exchanges : List Exchange) :
    Misses (Turn.missing d hl exchanges).lookup q.query
      (Worker.idle.clean.extracted (.missing d hl exchanges) (qs.map WireQuestion.query)) :=
  ⟨q.length_qname, rfl, rfl, (h.raises.rd_extracted rfl _ _).trans hrd⟩

variable (named : ∀ q ∈ qs, q.labels ≠ []) (server : cfg.noServer = false)
include named server

/-- The header and the questions are what is sent first. -/
theorem ClientMessage.forwards_questions (hne : qs ≠ []) :
    Forwards cfg (.missing d hl [.interrupted]) .idle
      (d.take (12 + (wireBytes qs).length)) := by
  have hle := h.raises.le
  have hmod := h.raises.end_mod hl
  refine (h.forwards_iff rfl named).mpr ⟨[d.take (12 + (wireBytes qs).length)], ?_, by simp⟩
  obtain ⟨q, rest, rfl⟩ := List.exists_cons_of_ne_nil hne
  rw [resolve, Act.bind_of_ok (Act.get_apply _), Worker.queries_extracted rfl]
  refine (resolveLoop_forwards (h.misses hrd hl q [.interrupted]) server rfl rfl (by omega)
    _).trans ?_
  rw [hmod, h.first_extracted rfl]
  rfl

/-- Behind a first question of type A the reply to it is forwarded for the next one,
and any reply will do. -/
theorem ClientMessage.forwards_malformed {q k : WireQuestion} {rest : List WireQuestion}
    (hqs : qs = q :: k :: rest) (hlow : q.typeLow = 1) :
    ∃ m, Forwards cfg
      (.missing d hl [⟨none, none, none, [emptyReply d]⟩, .interrupted]) .idle m ∧
      ¬ WellFormed m := by
  have hle := h.raises.le
  have hmod := h.raises.end_mod hl
  have hpos : 0 < (wireBytes qs).length := by
    have := q.length_bytes_pos
    rw [hqs, wireBytes, List.flatMap_cons, List.length_append]
    omega
  let exchanges : List Exchange := [⟨none, none, none, [emptyReply d]⟩, .interrupted]
  let s := Worker.idle.clean.extracted (.missing d hl exchanges) (qs.map WireQuestion.query)
  have carries : Carries s.packet.bytes (emptyReply d) :=
    ⟨by rw [length_emptyReply]; decide, (idOf_ofDatagram (by omega) hl _).symm⟩
  have next : Misses (fun _ => []) k.query (s.received (emptyReply d) []) := by
    refine ⟨k.length_qname, rfl, rfl, ?_⟩
    have flags : byteAt (emptyReply d ++ s.packet.bytes.drop 12) 2 = 0x81 := rfl
    rw [bytes_received_emptyReply, rd, flags]
    rfl
  have sends : (resolveLoop cfg ⟨[], [], 0⟩ (fun _ => []) (12 + (wireBytes qs).length)
      (12 + (wireBytes qs).length) (q.query :: k.query :: rest.map WireQuestion.query) (.new 0)
      s).2.socket.outbox = [s.packet.bytes.take (12 + (wireBytes qs).length),
        (s.received (emptyReply d) []).packet.bytes.take (12 + (wireBytes qs).length)] := by
    refine (resolveLoop_forwards_reply (h.misses hrd hl q exchanges)
      ((charToU16_eq_typeA q.typeLow).mpr hlow) server ⟨rfl, rfl, rfl⟩ (by rw [hmod]; omega) rfl
      carries (by rw [length_emptyReply]; decide) next rfl rfl rfl _).trans ?_
    rw [hmod]
    rfl
  have queries : s.queries = q.query :: k.query :: rest.map WireQuestion.query := by
    rw [Worker.queries_extracted rfl, hqs]
    rfl
  refine ⟨(s.received (emptyReply d) []).packet.bytes.take (12 + (wireBytes qs).length), ?_,
    not_wellFormed_received s d hpos⟩
  have resolved : (resolve cfg ⟨[], [], 0⟩ (fun _ => []) (12 + (wireBytes qs).length)
      (12 + (wireBytes qs).length) s).2.socket.outbox =
        [] ++ [s.packet.bytes.take (12 + (wireBytes qs).length),
          (s.received (emptyReply d) []).packet.bytes.take (12 + (wireBytes qs).length)] := by
    rw [resolve, Act.bind_of_ok (Act.get_apply _), queries]
    exact sends
  exact (h.forwards_iff rfl named).mpr ⟨_, resolved, .tail _ (.head _)⟩

end Client

/-- Without a server, without recursion or without a question nothing is forwarded. -/
theorem ClientMessage.not_forwards {cfg : Config} {d : List Byte} {qs : List WireQuestion}
    (h : ClientMessage d qs) (hq : cfg.noServer = true ∨ rd d = false ∨ qs = [])
    (named : ∀ q ∈ qs, q.labels ≠ []) {t : Turn} (ht : t.datagram = d) {w : Worker}
    {m : List Byte} : ¬ Forwards cfg t w m := by
  intro hf
  obtain ⟨sent, ho, hm⟩ := (h.forwards_iff ht named).mp hf
  have kept : Offline (w.clean.extracted t (qs.map WireQuestion.query))
      (resolve cfg t.locals t.lookup (12 + (wireBytes qs).length) (12 + (wireBytes qs).length)
        (w.clean.extracted t (qs.map WireQuestion.query))).2 := by
    rw [← or_assoc] at hq
    rcases hq with quiet | rfl
    · refine (resolve_keeps cfg t.locals t.lookup _ (by omega) (quiet.imp_right ?_)).offline
      exact fun hrd => (h.raises.rd_extracted ht w.clean _).trans hrd
    · exact .refl _
  rw [kept.socket] at ho
  have none : sent = [] := List.append_cancel_left (ho.symm.trans (List.append_nil _).symm)
  rw [none] at hm
  cases hm

/-- A well-formed message is read without anything undefined, and what is forwarded for it is
well-formed, whatever is stored and however the network behaves, exactly when no question has
the root as its name, and nothing is forwarded, or the message holds questions only and the
first of them is the last one to be resolved. -/
theorem forwarded_wellFormed_iff (cfg : Config) {d : List Byte} {qs : List WireQuestion}
    (h : ClientMessage d qs) (hl : d.length ≤ 512) :
    (∀ t, t.datagram = d → t.Defined ∧ ∀ w m, Forwards cfg t w m → WellFormed m) ↔
      (∀ q ∈ qs, q.labels ≠ []) ∧ (cfg.noServer = true ∨ rd d = false ∨ qs = [] ∨
        (ancount d = 0 ∧ nscount d = 0 ∧ arcount d = 0) ∧
          (qs.length = 1 ∨ ∀ q ∈ qs.head?, q.typeLow ≠ 1)) := by
  constructor
  · intro hall
    have named : ∀ q ∈ qs, q.labels ≠ [] := by
      intro q hq root
      exact h.raises.not_defined (t := .missing d hl []) ⟨q, hq, root⟩ (hall _ rfl).1
    refine ⟨named, ?_⟩
    by_contra hn
    simp only [not_or, Bool.not_eq_true, Bool.not_eq_false] at hn
    obtain ⟨server, hrd, hne, hn⟩ := hn
    have bare := h.wellFormed_take_iff.mp
      ((hall _ rfl).2 _ _ (h.forwards_questions hrd hl named server hne))
    obtain ⟨hone, hlow⟩ := not_or.mp (fun hq => hn ⟨bare, hq⟩)
    match qs, hne, hone with
    | q :: k :: rest, _, _ =>
      have low : q.typeLow = 1 := by
        by_contra hx
        exact hlow (by simpa using hx)
      obtain ⟨m, hf, bad⟩ := h.forwards_malformed hrd hl named server rfl low
      exact bad ((hall _ rfl).2 _ m hf)
    | [q], _, hone => exact hone rfl
  · rintro ⟨named, hq⟩ t ht
    refine ⟨Raises.defined (ht ▸ h.raises) named, fun w m hf => ?_⟩
    rcases hq with none | hrd | empty | ⟨bare, hq⟩
    · exact absurd hf (h.not_forwards (.inl none) named ht)
    · exact absurd hf (h.not_forwards (.inr (.inl hrd)) named ht)
    · exact absurd hf (h.not_forwards (.inr (.inr empty)) named ht)
    · rw [h.forwards_first ht named hq hf]
      exact h.wellFormed_take_iff.mpr bare

theorem clientMessage_request : ClientMessage (request 0 7 1 [questionA]) [questionA.onWire] :=
  ⟨⟨by decide, by decide, by decide⟩, sectionsAt_end _⟩

theorem forwarded_wellFormed_iff_plain :
    ClientMessage (request 0 7 1 [questionA]) [questionA.onWire] ∧
      ∀ t, t.datagram = request 0 7 1 [questionA] →
        t.Defined ∧ ∀ w m, Forwards resolver t w m → WellFormed m := by
  refine ⟨clientMessage_request, ?_⟩
  exact (forwarded_wellFormed_iff resolver clientMessage_request (by decide)).mpr
    ⟨by decide, .inr (.inr (.inr ⟨by decide, .inl rfl⟩))⟩

/-- The same question with an EDNS record in the additional section. -/
def ednsRequest : List Byte :=
  (request 0 7 1 [questionA]).set 11 1 ++ [0, 0, 41, 16, 0, 0, 0, 0, 0, 0, 0]

theorem clientMessage_edns : ClientMessage ednsRequest [questionA.onWire] := by
  have record : RecordAt ednsRequest 19 ⟨[], 41, 4096, 0, .other []⟩ 30 :=
    @RecordAt.mk ednsRequest 19 20 ⟨[], 41, 4096, 0, .other []⟩ 0 (.root (by decide)) (by decide)
      (.other (by decide) (by decide) rfl (by decide))
  exact ⟨⟨by decide, by decide, by decide⟩,
    [], [], [_], 19, 19, .nil, .nil, .cons record .nil, by decide, by decide, by decide⟩

/-- The record is counted but not forwarded. -/
theorem edns_forwarded_malformed :
    ClientMessage ednsRequest [questionA.onWire] ∧
      ∃ m, Forwards resolver (.missing ednsRequest (by decide) [.interrupted]) .idle m ∧
        arcount m = 1 ∧ m.length = 19 ∧ ¬ WellFormed m := by
  refine ⟨clientMessage_edns, _, clientMessage_edns.forwards_questions (by decide) (by decide)
    (by decide) rfl (by decide), by decide, by decide, ?_⟩
  rw [clientMessage_edns.wellFormed_take_iff]
  decide

end OdbcDns
