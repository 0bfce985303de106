import OdbcDns.Proofs.Faults
import OdbcDns.Proofs.Turns

namespace OdbcDns
open Slice Rfc1035

/-- The datagrams that calls of `recursiveResolve` can read one after the other. -/
def Session.upcoming (s : Session) : List (List Byte) :=
  s.socket.inbox ++ s.exchanges.flatMap Exchange.arrivals

theorem Session.upcoming_eq (s : Session) :
    s.upcoming = s.available ++ s.exchanges.tail.flatMap Exchange.arrivals := by
  unfold Session.upcoming Session.available Session.exchange
  cases s.exchanges with
  | nil => simp [Exchange.quiet]
  | cons e es => simp

/-- Datagrams with the id of the request are replies. -/
def Upstream (request : List Byte) (s : Session) : Prop :=
  ∀ d ∈ s.upcoming, Carries request d → qr d = true

/-- The next `k` calls of `recursiveResolve` each meet a network that works and
read a datagram with the id of the request. -/
structure Prepared (cfg : Config) (request : List Byte) (k : Nat) (s : Session) : Prop where
  server : cfg.noServer = false
  works : ∀ e ∈ s.exchanges.take k, e.Works
  replies : ∀ d ∈ s.upcoming.take k, Carries request d ∧ d.length ≤ 512

theorem Session.upcoming_congr {s t : Session} (hs : t.socket = s.socket)
    (hx : t.exchanges = s.exchanges) : t.upcoming = s.upcoming := by
  unfold Session.upcoming
  rw [hs, hx]

section Prepared

variable {cfg : Config} {request : List Byte} {k packetLen : Nat} {s t : Session}

theorem Upstream.congr (h : Upstream request s) (hs : t.socket = s.socket)
    (hx : t.exchanges = s.exchanges) : Upstream request t := by
  unfold Upstream
  rw [Session.upcoming_congr hs hx]
  exact h

theorem Upstream.stays (h : Upstream request s) (hs : Stays s t) : Upstream request t :=
  h.congr hs.offline.socket hs.offline.exchanges

theorem Prepared.congr (h : Prepared cfg request k s) (hs : t.socket = s.socket)
    (hx : t.exchanges = s.exchanges) : Prepared cfg request k t :=
  ⟨h.server, by rw [hx]; exact h.works, by rw [Session.upcoming_congr hs hx]; exact h.replies⟩

theorem Prepared.stays (h : Prepared cfg request k s) (hs : Stays s t) :
    Prepared cfg request k t := h.congr hs.offline.socket hs.offline.exchanges

theorem Prepared.mono {j : Nat} (h : Prepared cfg request k s) (hj : j ≤ k) :
    Prepared cfg request j s :=
  ⟨h.server, fun e he => h.works e (List.take_subset_take_left _ hj he),
    fun d hd => h.replies d (List.take_subset_take_left _ hj hd)⟩

theorem Prepared.exchange_works (h : Prepared cfg request (k + 1) s) : s.exchange.Works := by
  have hw := h.works
  unfold Session.exchange
  cases hx : s.exchanges with
  | nil => exact ⟨rfl, rfl, rfl⟩
  | cons e es =>
    rw [hx] at hw
    exact hw e (.head _)

theorem three_le_of_qr {d : List Byte} (h : qr d = true) : 3 ≤ d.length := by
  by_contra hl
  have : byteAt d 2 = 0 := by
    rw [byteAt, List.getD_eq_getElem?_getD, List.getElem?_eq_none (by omega), Option.getD_none]
  simp [qr, this] at h

/-- The next `k` calls of `recursiveResolve` leave a reply to the request in the packet: the
network is prepared for them, or there is no recursive server, and the request is marked as a
reply itself. -/
def Recurses (cfg : Config) (request : List Byte) (k : Nat) (s : Session) : Prop :=
  Prepared cfg request k s ∨ cfg.noServer = true ∧ qr s.packet.bytes = true

theorem Recurses.stays (h : Recurses cfg request k s) (hs : Stays s t) :
    Recurses cfg request k t :=
  h.imp (fun hp => hp.stays hs) fun h => ⟨h.1, hs.qr.trans h.2⟩

theorem Recurses.mono {j : Nat} (h : Recurses cfg request k s) (hj : j ≤ k) :
    Recurses cfg request j s := h.imp_left fun hp => hp.mono hj

/-- What a call leaves that has returned a reply to the request. -/
structure Relayed (E : Stop → Prop) (cfg : Config) (request : List Byte) (k packetLen n : Nat)
    (t : Session) : Prop where
  id : idOf t.packet.bytes = idOf request
  response : qr t.packet.bytes = true
  long : 3 ≤ sizeAdd packetLen n
  recurses : Recurses cfg request k t
  upstream : Upstream request t
  allows : Allows E t

theorem Session.upcoming_received (packetLen : Nat) {d : List Byte} {rest : List (List Byte)}
    (ha : s.available = d :: rest) :
    s.upcoming = d :: ((s.forwarded packetLen).received d rest).upcoming := by
  rw [s.upcoming_eq, ha, List.cons_append]
  rfl

theorem Upstream.received (up : Upstream request s) {d : List Byte} {rest : List (List Byte)}
    (ha : s.available = d :: rest) :
    Upstream request ((s.forwarded packetLen).received d rest) := by
  unfold Upstream at up
  rw [Session.upcoming_received packetLen ha] at up
  exact fun d' hd' => up d' (.tail _ hd')

theorem Prepared.received (h : Prepared cfg request (k + 1) s) {d : List Byte}
    {rest : List (List Byte)} (ha : s.available = d :: rest) :
    Prepared cfg request k ((s.forwarded packetLen).received d rest) := by
  have hrep := h.replies
  rw [Session.upcoming_received packetLen ha] at hrep
  refine ⟨h.server, fun e he => h.works e ?_, fun d' hd' => hrep d' (.tail _ hd')⟩
  change e ∈ s.exchanges.tail.take k at he
  cases hx : s.exchanges with
  | nil => simp [hx] at he
  | cons x xs =>
    rw [hx] at he
    exact .tail _ he

theorem Prepared.first (h : Prepared cfg request (k + 1) s) {d : List Byte}
    {rest : List (List Byte)} (ha : s.available = d :: rest) :
    Carries request d ∧ d.length ≤ 512 := by
  have hrep := h.replies
  rw [s.upcoming_eq, ha] at hrep
  exact hrep d (.head _)

theorem Prepared.recursiveResolve {E : Stop → Prop} (h : Prepared cfg request (k + 1) s)
    (up : Upstream request s) (hid : idOf s.packet.bytes = idOf request) (allows : Allows E s) :
    Act.Ends E (fun n t => Relayed E cfg request k packetLen n t)
      (recursiveResolve cfg packetLen s) := by
  have hw := h.exchange_works
  by_cases hlen : packetLen % 4294967296 ≤ 1024
  · cases ha : s.available with
    | nil =>
      rw [recursiveResolve_of_works h.server hw hlen,
        receiveReply_nil (s := s.forwarded packetLen) ha]
      exact allows.fault _
    | cons d rest =>
      obtain ⟨hc, hd⟩ := h.first ha
      have hq : qr d = true := up d (by rw [s.upcoming_eq, ha]; exact .head _) hc
      have h3 := three_le_of_qr hq
      have hcs : Carries s.packet.bytes d := ⟨hc.1, hc.2.trans hid.symm⟩
      rw [recursiveResolve_of_carries h.server hw hlen ha hcs hd]
      refine ⟨?_, ?_, ?_, .inl (h.received ha), up.received ha, allows.fault, allows.driver⟩
      · rw [Session.received, take_maxDnsPacketLength hd, idOf_ofDatagram hc.1 hd]
        exact hc.2
      · rw [Session.received, take_maxDnsPacketLength hd,
          qr_of_take_eq (take_ofDatagram hd _) h3]
        exact hq
      · rw [sizeAdd_sizeSub (by omega)]
        exact h3
  · rw [Act.eq_of_fst (recursiveResolve_of_long h.server hw hlen)]
    exact allows.fault _

theorem Recurses.recursiveResolve {E : Stop → Prop} (h : Recurses cfg request (k + 1) s)
    (up : Upstream request s) (hid : idOf s.packet.bytes = idOf request) (allows : Allows E s)
    (long : 12 ≤ packetLen) (small : 2 * packetLen < 18446744073709551616) :
    Act.Ends E (fun n t => Relayed E cfg request k packetLen n t)
      (recursiveResolve cfg packetLen s) := by
  rcases h with hp | ⟨none, marked⟩
  · exact hp.recursiveResolve up hid allows
  · rw [recursiveResolve_of_noServer none]
    refine ⟨hid, marked, ?_, .inr ⟨none, marked⟩, up, allows⟩
    rw [sizeAdd_of_lt (by omega)]
    omega

end Prepared

/-- There is an address for each of the questions. -/
def Held (lookup : List Byte → List Row) (queries : List DNSQuery) : Prop :=
  ∀ q ∈ queries, q.qtype = typeA ∧ ∃ row ∈ lookup q.qname, row.type = typeA

/-- The questions that are left can be answered: if recursion is desired, from the
rows alone, or by recursion. -/
def Ready (cfg : Config) (lookup : List Byte → List Row) (request : List Byte)
    (queries : List DNSQuery) (s : Session) : Prop :=
  rd s.packet.bytes = true → Held lookup queries ∨ Recurses cfg request queries.length s

/-- The packet is the start of a reply to the request, up to the flags that are
yet to be set; `n` is the length of the questions. -/
structure Replying (request : List Byte) (n : Nat) (info : ResponseInfo) (s : Session) : Prop where
  id : idOf s.packet.bytes = idOf request
  response : info.recursionOccurred = true → qr s.packet.bytes = true
  long : 3 ≤ sizeAdd 12 (sizeAdd n info.length)

section Loop

variable {cfg : Config} {lookup : List Byte → List Row} {request : List Byte} {n : Nat}
  {query : DNSQuery} {queries : List DNSQuery} {s t : Session}

theorem Ready.recurses (h : Ready cfg lookup request (query :: queries) s)
    (hrd : rd s.packet.bytes = true)
    (hno : query.qtype = typeA → ∀ row ∈ lookup query.qname, row.type ≠ typeA) :
    Recurses cfg request (queries.length + 1) s := by
  rcases h hrd with hloc | hp
  · obtain ⟨hq, row, hrow, ht⟩ := hloc query (.head _)
    exact absurd ht (hno hq row hrow)
  · exact hp

theorem Ready.stays (h : Ready cfg lookup request (query :: queries) s) (hs : Stays s t) :
    Ready cfg lookup request queries t := by
  intro hrd
  rcases h (hs.rd ▸ hrd) with hloc | hp
  · exact .inl fun q hq => hloc q (.tail _ hq)
  · exact .inr ((hp.mono (Nat.le_succ _)).stays hs)

theorem Ready.congr (h : Ready cfg lookup request queries s)
    (hrd : rd t.packet.bytes = rd s.packet.bytes) (hqr : qr t.packet.bytes = qr s.packet.bytes)
    (hs : t.socket = s.socket) (hx : t.exchanges = s.exchanges) :
    Ready cfg lookup request queries t :=
  fun hr => (h (hrd ▸ hr)).imp_right fun hp =>
    hp.imp (fun hp => hp.congr hs hx) fun h => ⟨h.1, hqr.trans h.2⟩

theorem sizeAdd_assoc (a b c : Nat) : sizeAdd (sizeAdd a b) c = sizeAdd a (sizeAdd b c) := by
  unfold sizeAdd
  omega

theorem resolveLoop_replying {E : Stop → Prop} (locals : Locals)
    (hn : 2 * n + 1024 < 18446744073709551616) {info : ResponseInfo} (allows : Allows E s)
    (id : idOf s.packet.bytes = idOf request)
    (response : info.recursionOccurred = true → qr s.packet.bytes = true)
    (long : 3 ≤ sizeAdd 12 (sizeAdd n info.length) ∨
      ∃ q qs, queries = q :: qs ∧ (q.qtype = typeA ∨ rd s.packet.bytes = true))
    (up : Upstream request s) (ready : Ready cfg lookup request queries s) :
    Act.Ends E (fun info' t => Replying request n info' t)
      (resolveLoop cfg locals lookup (sizeAdd headerLength n) (sizeAdd headerLength n) queries info
        s) := by
  have hoff : sizeAdd headerLength n = 12 + n := sizeAdd_of_lt (by unfold headerLength; omega)
  -- A question that is not answered from the rows uses up one of the exchanges the
  -- network is prepared for.
  induction queries generalizing info s with
  | nil =>
    rcases long with hl | ⟨_, _, hq, _⟩
    · exact ⟨id, response, hl⟩
    · cases hq
  | cons query queries ih =>
    rw [resolveLoop_cons]
    split
    · rename_i hA
      have off : 12 ≤ sizeAdd headerLength n := by omega
      refine .bind (resolveA_stays cfg locals allows off
        fun hrd hno u hu => ((ready.recurses hrd fun _ => hno).stays hu).recursiveResolve
          (up.stays hu) (hu.idOf.trans id) (allows.stays hu) off (by omega)) fun r t ht => ?_
      obtain ⟨len, info'⟩ := r
      rcases ht with ⟨ht, hlen, hrec⟩ | ⟨ht, _, _⟩
      · refine ih (allows.stays ht) (ht.idOf.trans id) (fun h => ?_) (.inl ?_) (up.stays ht)
          (ready.stays ht)
        · rw [ht.qr]
          exact response (hrec.symm.trans h)
        · unfold sizeAdd
          dsimp only at hlen ⊢
          omega
      · refine ih ht.allows ht.id (fun _ => ht.response) (.inl ?_) ht.upstream
          fun _ => .inr ht.recurses
        rw [← sizeAdd_assoc]
        exact ht.long
    · rename_i hA
      rw [Act.bind_of_ok (Act.get_apply s)]
      split
      · rename_i hrd
        refine .bind ((ready.recurses hrd fun h => absurd h hA).recursiveResolve up id allows
          (by omega) (by omega)) fun len t ht => ?_
        refine ⟨ht.id, fun _ => ht.response, ?_⟩
        rw [← sizeAdd_assoc]
        exact ht.long
      · rename_i hrd
        refine ⟨id, response, ?_⟩
        rcases long with hl | ⟨q, qs, hq, hcase⟩
        · exact hl
        · cases hq
          exact absurd hcase (by simp [hA, hrd])

end Loop

namespace Worker

/-- The session at the start of a request. -/
def opening (w : Worker) (t : Turn) : Session :=
  w.session (.ofDatagram t.datagram t.buffer) t.exchanges t.driver

/-- The length of the questions that the rest of the turn counts with. If they
cannot be parsed, it is left from the request before. -/
def counted (w : Worker) (t : Turn) : Nat :=
  if t.parsed.2 = none then (t.parsed.1.map DNSQuery.length).sum else w.totalBytes

/-- What the first `try` block leaves alone. -/
structure Opened (w : Worker) (t : Turn) (g : Stage) : Prop where
  queries : g.session.queries = w.queries ++ t.parsed.1
  total : g.totalBytes = w.counted t
  socket : g.session.socket = w.socket
  exchanges : g.session.exchanges = t.exchanges
  driver : g.session.driver = t.driver
  id : idOf g.session.packet.bytes = idOf (w.opening t).packet.bytes
  rd : rd g.session.packet.bytes = rd (w.opening t).packet.bytes
  qr : qr g.session.packet.bytes = qr (w.opening t).packet.bytes

theorem opened {cfg : Config} {t : Turn} {w : Worker} {g : Stage}
    (h : w.extract cfg t = .ok g) : Opened w t g := by
  rw [extract_eq] at h
  split at h
  · rename_i hn
    cases h
    exact ⟨rfl, (if_pos hn).symm, rfl, rfl, rfl, rfl, rfl, rfl⟩
  · cases h
  · rename_i e _ hn
    cases h
    refine ⟨rfl, (if_neg (by rw [hn]; exact Option.some_ne_none e)).symm, rfl, rfl, rfl, ?_, ?_, ?_⟩
    · exact (SameBody.set _ (by decide) (by decide) _).id
    · unfold OdbcDns.rd
      rw [Packet.setRcode, Packet.byteAt_set _ (by decide), if_neg (by decide)]
      rfl
    · unfold OdbcDns.qr
      rw [Packet.setRcode, Packet.byteAt_set _ (by decide), if_neg (by decide)]
      rfl

end Worker

/-- A request that a worker answers with a reply to it. -/
structure Answerable (cfg : Config) (w : Worker) (t : Turn) : Prop where
  header : 12 ≤ t.datagram.length
  defined : t.Defined
  bytes : t.parsed.2 ≠ none → w.totalBytes + 512 < 9223372036854775808
  first : (∃ q qs, t.parsed.1 = q :: qs ∧ (q.qtype = typeA ∨ rd t.datagram = true)) ∨
    3 ≤ sizeAdd 12 (sizeAdd (w.counted t) t.locals.length)
  driver : ∀ outcome ∈ t.driver, outcome = none
  recursion : Ready cfg t.lookup t.datagram t.parsed.1 (w.opening t)

theorem Answerable.counted_lt {cfg : Config} {w : Worker} {t : Turn} (h : Answerable cfg w t) :
    2 * w.counted t + 1024 < 18446744073709551616 := by
  have hs := t.sum_parsed_le
  unfold Worker.counted
  split
  · omega
  · rename_i hn
    have := h.bytes hn
    omega

theorem SameBody.setTc (p : Packet) : SameBody p p.setTc :=
  .set p (by decide) (by decide) _

theorem qr_setTc (p : Packet) : qr p.setTc.bytes = qr p.bytes := by
  rw [qr, Packet.setTc, p.byteAt_set (by decide), if_pos rfl, or_tc_qr, qr]

/-- A reply of three bytes or more starts as the packet does. -/
theorem reply_header {g : Worker.Stage} (h : 3 ≤ sizeAdd headerLength g.totalBytes) :
    idOf g.reply = idOf g.session.packet.bytes ∧ qr g.reply = qr g.session.packet.bytes := by
  have hm : 2 < min (sizeAdd headerLength g.totalBytes) maxDnsPacketLength := by
    unfold maxDnsPacketLength
    omega
  unfold Worker.Stage.reply
  constructor
  · rw [idOf, idOf, byteAt_take (by omega), byteAt_take (by omega)]
  · rw [qr, qr, byteAt_take (by omega)]

/-- The packet that is sent once the flags have been set. -/
theorem Replying.reply {cfg : Config} {request : List Byte} {g : Worker.Stage} {s : Session}
    {info : ResponseInfo} (h : Replying request g.totalBytes info s) :
    idOf (Worker.answered cfg g s info).reply = idOf request ∧
      qr (Worker.answered cfg g s info).reply = true := by
  have hlen : 3 ≤ sizeAdd headerLength (Worker.answered cfg g s info).totalBytes := h.long
  have htc : SameBody s.packet (if info.truncationOccurred then s.packet.setTc else s.packet) ∧
      qr (if info.truncationOccurred then s.packet.setTc else s.packet).bytes =
        qr s.packet.bytes := by
    split
    · exact ⟨.setTc _, qr_setTc _⟩
    · exact ⟨⟨rfl, rfl⟩, rfl⟩
  have hp : idOf (Worker.answered cfg g s info).session.packet.bytes = idOf s.packet.bytes ∧
      qr (Worker.answered cfg g s info).session.packet.bytes = true := by
    unfold Worker.answered
    dsimp only
    generalize (if info.truncationOccurred then s.packet.setTc else s.packet) = p at htc
    split
    · rename_i hrec
      exact ⟨htc.1.id, htc.2.trans (h.response hrec)⟩
    · exact ⟨(htc.1.trans (.flags cfg info p)).id, qr_flags cfg info p⟩
  obtain ⟨id, response⟩ := reply_header hlen
  exact ⟨id.trans (hp.1.trans h.id), response.trans hp.2⟩

/-- Where `resolve` returns, the reply is one to the request. -/
theorem Worker.resolve_replying {E : Stop → Prop} {cfg : Config} {t : Turn} {w : Worker}
    {g : Worker.Stage} (hg : w.extract cfg t = .ok g) (hq : w.queries = [])
    (header : 12 ≤ t.datagram.length) (small : 2 * w.counted t + 1024 < 18446744073709551616)
    (first : (∃ q qs, t.parsed.1 = q :: qs ∧ (q.qtype = typeA ∨ rd t.datagram = true)) ∨
      3 ≤ sizeAdd 12 (sizeAdd (w.counted t) t.locals.length))
    (allows : Allows E g.session) (up : Upstream t.datagram (w.opening t))
    (ready : Ready cfg t.lookup t.datagram t.parsed.1 (w.opening t)) :
    Act.Ends E (fun info' s => Replying t.datagram g.totalBytes info' s)
      (resolve cfg t.locals t.lookup (sizeAdd headerLength g.totalBytes)
        (sizeAdd headerLength g.totalBytes) g.session) := by
  have ho := Worker.opened hg
  have hqueries : g.session.queries = t.parsed.1 := by rw [ho.queries, hq, List.nil_append]
  have hrd : rd g.session.packet.bytes = rd t.datagram :=
    ho.rd.trans (rd_of_take_eq (take_ofDatagram t.received t.buffer) (by omega))
  refine resolveLoop_replying t.locals (ho.total ▸ small) allows ?_ ?_ ?_ ?_ ?_
  · exact ho.id.trans (idOf_ofDatagram (by omega) t.received t.buffer)
  · exact fun h => nomatch h
  · rw [hqueries, hrd, ho.total]
    exact first.symm
  · exact up.congr ho.socket ho.exchanges
  · rw [hqueries]
    exact ready.congr ho.rd ho.qr ho.socket ho.exchanges

theorem Worker.serve_reply {cfg : Config} {t : Turn} {w w' : Worker} {reply : List Byte}
    (h : w.serve cfg t = .ok (w', reply)) (hq : w.queries = [])
    (up : Upstream t.datagram (w.opening t)) (ok : Answerable cfg w t) :
    idOf reply = idOf t.datagram ∧ qr reply = true := by
  obtain ⟨g, g', info, hg, hr, rfl, rfl⟩ := Worker.serve_ok h
  have allows : Allows Stop.IsFault g.session := by
    refine ⟨fun _ => trivial, fun m hm => ?_⟩
    rw [(Worker.opened hg).driver] at hm
    exact absurd (ok.driver _ hm) (Option.some_ne_none m)
  have ends := Worker.resolve_replying hg hq ok.header ok.counted_lt ok.first allows up
    ok.recursion
  rcases Worker.respond_ok hr with ⟨e, s, hx, hf, _⟩ | ⟨s, hx, rfl⟩
  · have := ends.of_error hx
    cases e with
    | fault f => cases hf
    | code n => cases this
    | exception m => cases this
  · exact (ends.of_ok hx).reply

/-- In a run of a worker whose requests are all answerable every reply has the id
of its request and is marked as a reply. -/
theorem Worker.run_replies {cfg : Config} {ts : List Turn} {w w' : Worker}
    {replies : List (List Byte)} (run : w.run cfg ts = .ok (w', replies))
    (upstream : Worker.Along (fun w t => Upstream t.datagram (w.opening t)) cfg ts w)
    (answerable : Worker.Along (Answerable cfg) cfg ts w) :
    List.Forall₂ (fun t reply => idOf reply = idOf t.datagram ∧ qr reply = true) ts replies := by
  refine (upstream.and answerable).replies (fun h ht => ?_) run
  obtain ⟨c, _, hs⟩ := Worker.turn_ok ht
  exact Worker.serve_reply hs rfl h.1
    ⟨h.2.header, h.2.defined, h.2.bytes, h.2.first, h.2.driver,
      h.2.recursion.congr rfl rfl rfl rfl⟩

end OdbcDns
