import OdbcDns.Proofs.Forwarding
import OdbcDns.Proofs.Replies

namespace OdbcDns
open Slice Rfc1035

/-! Which requests are answered with a reply to them, whatever happens while they are served. -/

/-- A worker that has been started, and has served some requests since. -/
def Worker.Reached (cfg : Config) (w : Worker) : Prop :=
  ∃ connection socket length totalBytes queryBytes ts replies,
    (Worker.start connection socket length totalBytes queryBytes).run cfg ts = .ok (w, replies)

/-- Another turn receives the same datagram into the same memory. -/
structure Turn.SameRequest (t u : Turn) : Prop where
  datagram : u.datagram = t.datagram
  buffer : u.buffer = t.buffer
  stack : u.locals.stack = t.locals.stack

theorem Turn.SameRequest.parsed {t u : Turn} (h : t.SameRequest u) : u.parsed = t.parsed := by
  unfold Turn.parsed
  rw [h.datagram, h.buffer, h.stack]

/-- Every reply to a request has its id and is marked as a reply, whatever the worker has served
before and whatever is stored, as long as the driver and the network behave as `E` says.
Datagrams with the id of the request are taken to be replies. -/
def Turn.RepliedIn (E : Worker → Turn → Prop) (cfg : Config) (t : Turn) : Prop :=
  ∀ (w : Worker) u w' reply, w.Reached cfg → t.SameRequest u →
    Upstream u.datagram (w.opening u) → E w u → w.turn cfg u = .ok (w', reply) →
    idOf reply = idOf t.datagram ∧ qr reply = true

/-- However the driver and the network behave. -/
def Turn.AlwaysReplied (cfg : Config) (t : Turn) : Prop := t.RepliedIn (fun _ _ => True) cfg

/-- Nothing fails while the turn is served: no call of the driver and no call of the network,
which has only datagrams with the id of the request. -/
structure Undisturbed (cfg : Config) (w : Worker) (u : Turn) : Prop where
  driver : ∀ outcome ∈ u.driver, outcome = none
  network : cfg.noServer = true ∨ ∀ k, Prepared cfg u.datagram k (w.opening u)

/-- The first question sets the length of the answers. -/
def Turn.SetsLength (t : Turn) : Prop :=
  ∃ q qs, t.parsed.1 = q :: qs ∧ (q.qtype = typeA ∨ rd t.datagram = true)

/-- The parser neither returns nor throws. Or it accepts all questions, the request is marked as a
reply itself, the first question sets the length of the answers, and nothing is received from the
network. -/
def Turn.Settled (cfg : Config) (t : Turn) : Prop :=
  (∃ f, f ≠ .outOfBounds ∧ t.parsed.2 = some (.fault f)) ∨
    t.parsed.2 = none ∧ qr t.datagram = true ∧ t.SetsLength ∧
      (cfg.noServer = true ∨ rd t.datagram = false)

section Settled

variable {cfg : Config} {t : Turn}

/-- The handlers of the second `try` block leave the id and the QR bit. -/
theorem reply_failed {g g' : Worker.Stage} {s : Session} {e : Stop}
    (h : Worker.failed g s e = .ok g') (hb : 3 ≤ sizeAdd headerLength g.totalBytes) :
    idOf g'.reply = idOf s.packet.bytes ∧ qr g'.reply = qr s.packet.bytes := by
  rw [Worker.failed_ok h]
  obtain ⟨id, response⟩ := reply_header (g := { g with
    session := { s with packet := s.packet.setRcode Rcode.serverFailure.byte }
    error := true }) hb
  refine ⟨id.trans (SameBody.set _ (by decide) (by decide) _).id, response.trans ?_⟩
  rw [qr, Packet.setRcode, Packet.byteAt_set _ (by decide), if_neg (by decide), qr]

/-- If nothing is received from the network, what `resolve` throws leaves the id and the QR
bit of the request. -/
theorem Worker.header_of_error {w : Worker} {g : Worker.Stage} {e : Stop} {s : Session}
    (hg : w.extract cfg t = .ok g) (header : 12 ≤ t.datagram.length)
    (quiet : cfg.noServer = true ∨ rd t.datagram = false)
    (long : 3 ≤ sizeAdd headerLength g.totalBytes)
    (hx : resolve cfg t.locals t.lookup (sizeAdd headerLength g.totalBytes)
      (sizeAdd headerLength g.totalBytes) g.session = (.error e, s)) :
    idOf s.packet.bytes = idOf t.datagram ∧ qr s.packet.bytes = qr t.datagram := by
  have opened := Worker.opened hg
  have start := take_ofDatagram t.received t.buffer
  have desired : rd g.session.packet.bytes = rd t.datagram :=
    opened.rd.trans (rd_of_take_eq start (by omega))
  have kept := resolve_keeps cfg t.locals t.lookup (sizeAdd headerLength g.totalBytes) long
    (desired ▸ quiet)
  rw [hx] at kept
  constructor
  · exact (idOf_of_take_eq kept.first (by omega)).trans
      (opened.id.trans (idOf_of_take_eq start (by omega)))
  · exact (qr_of_take_eq kept.first (by omega)).trans
      (opened.qr.trans (qr_of_take_eq start (by omega)))

theorem Worker.serve_settled {w w' : Worker} {reply : List Byte}
    (h : w.serve cfg t = .ok (w', reply)) (hq : w.queries = []) (header : 12 ≤ t.datagram.length)
    (up : Upstream t.datagram (w.opening t)) (settled : t.Settled cfg) :
    idOf reply = idOf t.datagram ∧ qr reply = true := by
  obtain ⟨g, g', info, hg, hr, rfl, rfl⟩ := Worker.serve_ok h
  rcases settled with ⟨f, _, hf⟩ | ⟨accepted, marked, first, quiet⟩
  · rw [Worker.extract_eq, hf] at hg
    cases hg
  · have counted : w.counted t = (t.parsed.1.map DNSQuery.length).sum := if_pos accepted
    have small := t.sum_parsed_le
    have long : 3 ≤ sizeAdd headerLength g.totalBytes := by
      rw [(Worker.opened hg).total, counted, t.sizeAdd_parsed]
      omega
    rcases Worker.respond_ok hr with ⟨e, s, hx, failed, _⟩ | ⟨s, hx, rfl⟩
    · obtain ⟨id, response⟩ := reply_failed failed long
      obtain ⟨same, unmarked⟩ := Worker.header_of_error hg header quiet long hx
      exact ⟨id.trans same, response.trans (unmarked.trans marked)⟩
    · have start := take_ofDatagram t.received t.buffer
      have ends := Worker.resolve_replying hg hq header (by omega) (.inl first)
        (Allows.all g.session) up fun desired => .inr (.inr ⟨quiet.resolve_right fun hrd => ?_, ?_⟩)
      · exact (ends.of_ok hx).reply
      · cases hrd.symm.trans ((rd_of_take_eq start (by omega)).symm.trans desired)
      · exact (qr_of_take_eq start (by omega)).trans marked

end Settled

/-! The other requests: the driver or the network fails, a counter starts with the wrong value,
or a datagram with another id comes first. -/

/-- No question sets the length of the answers. -/
def Unset (s : Session) : Prop :=
  ∀ q ∈ s.queries.head?, q.qtype ≠ typeA ∧ rd s.packet.bytes = false

section Failing

variable (cfg : Config) (locals : Locals) (lookup : List Byte → List Row)
  (responseData packetLen : Nat) {s : Session}

theorem resolve_unset (h : Unset s) :
    ∃ info, resolve cfg locals lookup responseData packetLen s = (.ok info, s) ∧
      info.recursionOccurred = false ∧ info.length = locals.length := by
  rw [resolve, Act.bind_of_ok (Act.get_apply s)]
  cases hqs : s.queries with
  | nil => exact ⟨_, rfl, rfl, rfl⟩
  | cons q qs =>
    obtain ⟨other, undesired⟩ := h q (by rw [hqs]; rfl)
    rw [resolveLoop_cons, if_neg other, Act.bind_of_ok (Act.get_apply s),
      if_neg (Bool.eq_false_iff.mp undesired)]
    exact ⟨_, rfl, rfl, rfl⟩

/-- What `resolve` does when both the driver and the network fail. -/
theorem resolve_failing {m : String} {n : Int} {rest : List (Option String)} (set : ¬ Unset s)
    (hd : s.driver = some m :: rest) (hx : s.exchange.sendError = some n)
    (hq : ∀ q ∈ s.queries, q.qname.length ≤ 254) :
    (∃ e s', resolve cfg locals lookup responseData packetLen s = (.error e, s') ∧
      s'.packet = s.packet ∧ (e = .exception m ∨ e = .code n)) ∨
    ∃ info, resolve cfg locals lookup responseData packetLen s = (.ok info, s) ∧
      info.recursionOccurred = true ∧ info.truncationOccurred = false ∧
      info.length = packetLen := by
  unfold Unset at set
  rw [resolve, Act.bind_of_ok (Act.get_apply s)]
  cases hqs : s.queries with
  | nil => simp [hqs] at set
  | cons q qs =>
    rw [resolveLoop_cons]
    by_cases ht : q.qtype = typeA
    · rw [if_pos ht]
      exact .inl ⟨_, _, Act.bind_of_error (resolveA_of_fails (hq q (by simp [hqs])) hd), rfl,
        .inl rfl⟩
    · have hrd : rd s.packet.bytes = true := by
        by_contra hrd
        exact set (by simpa [hqs] using ⟨ht, Bool.eq_false_iff.mpr hrd⟩)
      rw [if_neg ht, Act.bind_of_ok (Act.get_apply s), if_pos hrd]
      cases server : cfg.noServer with
      | true =>
        rw [Act.bind_of_ok (recursiveResolve_of_noServer server packetLen s)]
        exact .inr ⟨_, rfl, rfl, rfl, rfl⟩
      | false =>
        exact .inl ⟨_, _, Act.bind_of_error (recursiveResolve_of_sendError server hx), rfl,
          .inr rfl⟩

/-- Without a server and without rows, every question gets the packet back as it is. -/
theorem resolveLoop_echoes (none : cfg.noServer = true) {queries : List DNSQuery}
    {info : ResponseInfo} (desired : rd s.packet.bytes = true) (hd : s.driver = [])
    (hq : ∀ q ∈ queries, q.qname.length ≤ 254)
    (some : queries = [] → info.recursionOccurred = true) :
    ∃ info' s', resolveLoop cfg locals (fun _ => []) responseData packetLen queries info s =
      (.ok info', s') ∧ s'.packet = s.packet ∧ info'.recursionOccurred = true := by
  induction queries generalizing info s with
  | nil => exact ⟨_, _, rfl, rfl, some rfl⟩
  | cons q qs ih =>
    rw [resolveLoop_cons]
    split
    · have misses : Misses (fun _ => []) q s := ⟨hq q List.mem_cons_self, rfl, hd, desired⟩
      rw [Act.bind_of_ok ((resolveA_of_miss misses).trans
        (Act.bind_of_ok (recursiveResolve_of_noServer none packetLen s.missed)))]
      exact ih (s := s.missed) desired hd (fun r hr => hq r (List.mem_cons_of_mem _ hr))
        fun _ => rfl
    · rw [Act.bind_of_ok (Act.get_apply s), if_pos desired,
        Act.bind_of_ok (recursiveResolve_of_noServer none packetLen s)]
      exact ⟨_, _, rfl, rfl, rfl⟩

theorem resolve_echoes (none : cfg.noServer = true) (desired : rd s.packet.bytes = true)
    (hd : s.driver = []) (hq : ∀ q ∈ s.queries, q.qname.length ≤ 254) (some : s.queries ≠ []) :
    ∃ info' s', resolve cfg locals (fun _ => []) responseData packetLen s = (.ok info', s') ∧
      s'.packet = s.packet ∧ info'.recursionOccurred = true := by
  rw [resolve, Act.bind_of_ok (Act.get_apply s)]
  exact resolveLoop_echoes cfg locals responseData packetLen none desired hd hq
    fun h => absurd h some

/-- A datagram with another id is received over the packet. -/
theorem resolve_strayed {q : DNSQuery} {qs : List DNSQuery} {d : List Byte}
    (hqs : s.queries = q :: qs) (misses : Misses lookup q s) (server : cfg.noServer = false)
    (works : s.exchange.Works) (available : s.available = [d]) (two : d.length = 2)
    (other : idOf d ≠ idOf s.packet.bytes) (small : packetLen ≤ 1024) :
    ∃ what s', resolve cfg locals lookup responseData packetLen s =
      (.error (.exception what), s') ∧ idOf s'.packet.bytes = idOf d := by
  have strays : ∀ u : Session, u.packet = s.packet → u.available = s.available →
      u.exchange = s.exchange → ∃ what s', recursiveResolve cfg packetLen u =
        (.error (.exception what), s') ∧ idOf s'.packet.bytes = idOf d := by
    intro u packet same exchange
    have id : idOf ((u.forwarded packetLen).received d []).packet.bytes = idOf d := by
      rw [Session.received, take_maxDnsPacketLength (by omega)]
      exact idOf_ofDatagram (by omega) (by omega) _
    refine ⟨"Recursive response ID mismatch", (u.forwarded packetLen).received d [], ?_, id⟩
    rw [recursiveResolve_of_works server (exchange ▸ works) (by omega),
      receiveReply_cons (s := u.forwarded packetLen) (same.trans available),
      if_neg (by rw [two]; decide), if_pos]
    rw [id, packet]
    exact other
  rw [resolve, Act.bind_of_ok (Act.get_apply s), hqs, resolveLoop_cons]
  split
  · obtain ⟨what, s', fails, id⟩ := strays s.missed rfl rfl rfl
    refine ⟨what, s', Act.bind_of_error ?_, id⟩
    rw [resolveA_of_miss misses]
    exact Act.bind_of_error fails
  · obtain ⟨what, s', fails, id⟩ := strays s rfl rfl rfl
    rw [Act.bind_of_ok (Act.get_apply s), if_pos misses.desired]
    exact ⟨what, s', Act.bind_of_error fails, id⟩

end Failing

/-- A worker that has just been started, with what is left in its counter. -/
def Worker.fresh (totalBytes : Nat) : Worker := .start ⟨[], [], []⟩ ⟨[], []⟩ 0 totalBytes 0

/-- The same request on another day: the driver and the network fail. -/
def Turn.again (t : Turn) (length : Nat) : Turn :=
  { Turn.failing t.datagram t.received with
    buffer := t.buffer
    locals := ⟨t.locals.stack, [], length⟩ }

/-- A datagram with another id. -/
def stray (request : List Byte) : List Byte := [byteAt request 0 + 1, byteAt request 1]

/-- The same request on a day without rows, when the network does what `exchanges` says. -/
def Turn.unfound (t : Turn) (exchanges : List Exchange) (length : Nat) : Turn :=
  { Turn.missing t.datagram t.received exchanges with
    buffer := t.buffer
    locals := ⟨t.locals.stack, [], length⟩ }

/-- A datagram with another id comes first. -/
def Turn.astray (t : Turn) : Turn := t.unfound [⟨none, none, none, [stray t.datagram]⟩] 0

theorem idOf_stray (request : List Byte) : idOf (stray request) ≠ idOf request := by
  intro same
  have first : byteAt request 0 + 1 = byteAt request 0 := (List.cons.inj same).1
  have := congrArg UInt8.toNat first
  rw [UInt8.toNat_add] at this
  have bound := (byteAt request 0).toNat_lt
  have one : (1 : UInt8).toNat = 1 := rfl
  omega

/-- The handlers take an exception, and a code of at most five characters. -/
theorem Worker.failed_handled {e : Stop} {m : String} {n : Int}
    (h : e = .exception m ∨ e = .code n) (hn : -9999 ≤ n ∧ n ≤ 99999) (g : Worker.Stage)
    (s : Session) : ∃ g', Worker.failed g s e = .ok g' := by
  rcases h with rfl | rfl
  · exact ⟨_, rfl⟩
  · exact ⟨_, if_pos hn⟩

/-- A request that is not resolved. -/
theorem Worker.serve_of_error {cfg : Config} {t : Turn} {w : Worker} {g g' : Worker.Stage}
    {e : Stop} {s : Session} (hg : w.extract cfg t = .ok g)
    (hr : resolve cfg t.locals t.lookup (sizeAdd headerLength g.totalBytes)
      (sizeAdd headerLength g.totalBytes) g.session = (.error e, s))
    (hf : Worker.failed g s e = .ok g') :
    w.serve cfg t = .ok (w.served t g' w.responseInfo, g'.reply) := by
  simp only [Worker.serve_eq, hg, bind, Except.bind, Worker.respond_eq, hr, hf]
  rfl

section Violations

variable (cfg : Config) {t : Turn}

theorem Worker.reached_fresh (totalBytes : Nat) : (Worker.fresh totalBytes).Reached cfg :=
  ⟨_, _, _, _, _, [], [], Worker.run_nil cfg _⟩

theorem Worker.cache_fresh {u : Turn} (alone : u.interference = id) (totalBytes : Nat) :
    (Worker.fresh totalBytes).cache cfg u = .ok (Worker.fresh totalBytes) := by
  rw [Worker.cache_idle cfg u rfl, Worker.shared, alone]
  rfl

theorem Worker.turn_fresh {u : Turn} (alone : u.interference = id) (totalBytes : Nat) :
    (Worker.fresh totalBytes).turn cfg u = (Worker.fresh totalBytes).clean.serve cfg u := by
  simp only [Worker.turn_eq, Worker.cache_fresh cfg alone, bind, Except.bind]

theorem Worker.totalBytes_answered (g : Worker.Stage) (s : Session) (info : ResponseInfo) :
    (Worker.answered cfg g s info).totalBytes = sizeAdd g.totalBytes info.length := rfl

theorem Worker.packet_answered {g : Worker.Stage} {s : Session} {info : ResponseInfo}
    (recursion : info.recursionOccurred = true) :
    qr (Worker.answered cfg g s info).session.packet.bytes = qr s.packet.bytes := by
  unfold Worker.answered
  dsimp only
  rw [if_pos recursion]
  split
  · exact qr_setTc s.packet
  · rfl

theorem qr_take {m : List Byte} (h : qr m = false) (n : Nat) : qr (m.take n) = false := by
  by_cases hn : 3 ≤ n
  · rw [← h]
    exact qr_of_take_eq (by rw [List.take_take, Nat.min_self]) hn
  · by_contra marked
    have := three_le_of_qr (Bool.not_eq_false _ ▸ marked)
    have := List.length_take_le n m
    omega

theorem Worker.Stage.reply_empty {g : Worker.Stage} (h : sizeAdd headerLength g.totalBytes = 0) :
    g.reply = [] := by
  rw [Worker.Stage.reply, h, Nat.zero_min, List.take_zero]

theorem Turn.length_qname_le (t : Turn) : ∀ q ∈ t.parsed.1, q.qname.length ≤ 254 :=
  fun q hq => (parseQuestions_bounds _ _ _ _ q hq).2

/-- When the parser throws, the first datagram of a worker can be empty. -/
theorem Turn.again_empty {e : Stop} (he : t.parsed.2 = some e) (hf : ¬ e.IsFault) :
    ∃ w' reply, (Worker.fresh 18446744073709551604).turn cfg (t.again 0) = .ok (w', reply) ∧
      reply = [] := by
  have same : (t.again 0).parsed = t.parsed := rfl
  obtain ⟨g, hg, hb, hqueries, hdriver, hexchange⟩ : ∃ g,
      (Worker.fresh 18446744073709551604).clean.extract cfg (t.again 0) = .ok g ∧
        g.totalBytes = 18446744073709551604 ∧ g.session.queries = t.parsed.1 ∧
        g.session.driver = [some "HY000"] ∧ g.session.exchange.sendError = some 10051 := by
    rw [Worker.extract_eq, same, he]
    cases e with
    | fault f => exact absurd trivial hf
    | code n => exact ⟨_, rfl, rfl, rfl, rfl, rfl⟩
    | exception m => exact ⟨_, rfl, rfl, rfl, rfl, rfl⟩
  -- the counter has no value yet; with this one, the twelve bytes of the header take it to zero
  have wraps : sizeAdd headerLength g.totalBytes = 0 := by
    rw [hb]
    decide
  rw [Worker.turn_fresh cfg rfl]
  by_cases set : Unset g.session
  · obtain ⟨info, hr, _, hlen⟩ := resolve_unset cfg (t.again 0).locals (t.again 0).lookup
      (sizeAdd headerLength g.totalBytes) (sizeAdd headerLength g.totalBytes) set
    refine ⟨_, _, Worker.serve_of_ok hg hr, Worker.Stage.reply_empty ?_⟩
    rw [Worker.totalBytes_answered, hlen, hb]
    show sizeAdd 12 (sizeAdd 18446744073709551604 0) = 0
    decide
  · have failing := resolve_failing cfg (t.again 0).locals (t.again 0).lookup
      (sizeAdd headerLength g.totalBytes) (sizeAdd headerLength g.totalBytes) set hdriver hexchange
      (hqueries ▸ t.length_qname_le)
    rcases failing with ⟨e, s, hr, _, he⟩ | ⟨info, hr, _, _, hlen⟩
    · obtain ⟨g', hg'⟩ := Worker.failed_handled he (by decide) g s
      refine ⟨_, _, Worker.serve_of_error hg hr hg', Worker.Stage.reply_empty ?_⟩
      rw [Worker.failed_ok hg']
      exact wraps
    · refine ⟨_, _, Worker.serve_of_ok hg hr, Worker.Stage.reply_empty ?_⟩
      rw [Worker.totalBytes_answered, hlen, wraps, hb]
      decide

theorem Turn.unset_iff (header : 12 ≤ t.datagram.length) {u : Turn} (same : t.SameRequest u) :
    Unset ((Worker.fresh 0).clean.extracted u t.parsed.1) ↔ ¬ t.SetsLength := by
  have desired : rd ((Worker.fresh 0).clean.extracted u t.parsed.1).packet.bytes =
      rd t.datagram := by
    rw [← same.datagram] at header ⊢
    exact rd_of_take_eq (take_ofDatagram u.received u.buffer) (by omega)
  unfold Unset Turn.SetsLength
  rw [Worker.queries_extracted rfl, desired]
  cases t.parsed.1 with
  | nil => simp
  | cons q qs => simp

variable (accepted : t.parsed.2 = none) (header : 12 ≤ t.datagram.length)
include accepted header

omit header in
theorem Turn.extract_accepted {u : Turn} (same : t.SameRequest u) (totalBytes : Nat) :
    (Worker.fresh totalBytes).clean.extract cfg u =
      .ok ⟨(Worker.fresh totalBytes).clean.extracted u t.parsed.1, false,
        (t.parsed.1.map DNSQuery.length).sum, (t.parsed.1.map DNSQuery.length).sum⟩ := by
  rw [Worker.extract_eq, same.parsed, accepted]

/-- When no question sets the length of the answers, the first datagram of a worker can be
empty, although nothing fails. -/
theorem Turn.unfound_unset (unset : ¬ t.SetsLength) :
    ∃ length w' reply, (Worker.fresh 0).turn cfg (t.unfound [] length) = .ok (w', reply) ∧
      reply = [] := by
  have small := t.sum_parsed_le
  let length := 18446744073709551604 - (t.parsed.1.map DNSQuery.length).sum
  have hg := t.extract_accepted cfg accepted (u := t.unfound [] length) ⟨rfl, rfl, rfl⟩ 0
  obtain ⟨info, hr, _, hlen⟩ := resolve_unset cfg (t.unfound [] length).locals
    (t.unfound [] length).lookup (sizeAdd headerLength (t.parsed.1.map DNSQuery.length).sum)
    (sizeAdd headerLength (t.parsed.1.map DNSQuery.length).sum)
    ((t.unset_iff header (u := t.unfound [] length) ⟨rfl, rfl, rfl⟩).mpr unset)
  refine ⟨length, ?_⟩
  rw [Worker.turn_fresh cfg rfl]
  refine ⟨_, _, Worker.serve_of_ok hg hr, Worker.Stage.reply_empty ?_⟩
  rw [Worker.totalBytes_answered, hlen]
  show sizeAdd headerLength (sizeAdd (t.parsed.1.map DNSQuery.length).sum length) = 0
  unfold sizeAdd headerLength
  omega

/-- Without a server, the client can get its own QR bit back, although nothing fails. -/
theorem Turn.unfound_echoed (none : cfg.noServer = true) (desired : rd t.datagram = true)
    (some : t.parsed.1 ≠ []) :
    ∃ w' reply, (Worker.fresh 0).turn cfg (t.unfound [] 0) = .ok (w', reply) ∧
      (qr t.datagram = false → qr reply = false) := by
  have hg := t.extract_accepted cfg accepted (u := t.unfound [] 0) ⟨rfl, rfl, rfl⟩ 0
  have start := take_ofDatagram t.received t.buffer
  obtain ⟨info, s, hr, packet, recursion⟩ := resolve_echoes cfg (t.unfound [] 0).locals
    (sizeAdd headerLength (t.parsed.1.map DNSQuery.length).sum)
    (sizeAdd headerLength (t.parsed.1.map DNSQuery.length).sum)
    (s := (Worker.fresh 0).clean.extracted (t.unfound [] 0) t.parsed.1) none
    ((rd_of_take_eq start (by omega)).trans desired) rfl t.length_qname_le some
  rw [Worker.turn_fresh cfg rfl]
  refine ⟨_, _, Worker.serve_of_ok hg hr, fun unmarked => qr_take ?_ _⟩
  rw [Worker.packet_answered cfg recursion, packet]
  exact (qr_of_take_eq start (by omega)).trans unmarked

/-- Otherwise the QR bit of the request can be that of the reply. -/
theorem Turn.again_unmarked (set : t.SetsLength) :
    ∃ w' reply, (Worker.fresh 0).turn cfg (t.again 0) = .ok (w', reply) ∧
      qr reply = qr t.datagram := by
  have small := t.sum_parsed_le
  have hg := t.extract_accepted cfg accepted (u := t.again 0) ⟨rfl, rfl, rfl⟩ 0
  have start : qr ((Worker.fresh 0).clean.extracted (t.again 0) t.parsed.1).packet.bytes =
      qr t.datagram := qr_of_take_eq (take_ofDatagram t.received t.buffer) (by omega)
  have long := t.sizeAdd_parsed
  have failing := resolve_failing cfg (t.again 0).locals (t.again 0).lookup
    (sizeAdd headerLength (t.parsed.1.map DNSQuery.length).sum)
    (sizeAdd headerLength (t.parsed.1.map DNSQuery.length).sum)
    (mt (t.unset_iff header (u := t.again 0) ⟨rfl, rfl, rfl⟩).mp (not_not_intro set)) rfl rfl
    t.length_qname_le
  rw [Worker.turn_fresh cfg rfl]
  rcases failing with ⟨e, s, hr, packet, he⟩ | ⟨info, hr, recursion, whole, hlen⟩
  · obtain ⟨g', hg'⟩ := Worker.failed_handled he (by decide) _ s
    refine ⟨_, _, Worker.serve_of_error hg hr hg', ?_⟩
    rw [(reply_failed hg' (by simp only; omega)).2, packet]
    exact start
  · refine ⟨_, _, Worker.serve_of_ok hg hr, ?_⟩
    rw [(reply_header _).2]
    · rw [Worker.answered, whole, recursion]
      exact start
    · rw [Worker.totalBytes_answered, hlen, long]
      simp only [sizeAdd, headerLength]
      omega

/-- With a server, the id can be that of a datagram that has gone astray. -/
theorem Turn.astray_mismatched (server : cfg.noServer = false)
    (desired : rd t.datagram = true) (some : t.parsed.1 ≠ []) :
    ∃ w' reply, (Worker.fresh 0).turn cfg t.astray = .ok (w', reply) ∧
      idOf reply ≠ idOf t.datagram := by
  obtain ⟨q, qs, hqs⟩ := List.exists_cons_of_ne_nil some
  have small := t.sum_parsed_le
  have hg := t.extract_accepted cfg accepted (u := t.astray) ⟨rfl, rfl, rfl⟩ 0
  have long := t.sizeAdd_parsed
  let s := (Worker.fresh 0).clean.extracted t.astray t.parsed.1
  have start := take_ofDatagram t.received t.buffer
  have misses : Misses t.astray.lookup q s :=
    ⟨t.length_qname_le q (by rw [hqs]; exact .head _), rfl, rfl,
      (rd_of_take_eq start (by omega)).trans desired⟩
  have other : idOf (stray t.datagram) ≠ idOf s.packet.bytes := by
    have id : idOf s.packet.bytes = idOf t.datagram := idOf_of_take_eq start (by omega)
    rw [id]
    exact idOf_stray t.datagram
  obtain ⟨what, s', hr, id⟩ := resolve_strayed cfg t.astray.locals t.astray.lookup
    (sizeAdd headerLength (t.parsed.1.map DNSQuery.length).sum)
    (sizeAdd headerLength (t.parsed.1.map DNSQuery.length).sum) (s := s)
    ((Worker.queries_extracted rfl t.astray _).trans hqs) misses server ⟨rfl, rfl, rfl⟩ rfl rfl
    other (by omega)
  rw [Worker.turn_fresh cfg rfl]
  refine ⟨_, _, Worker.serve_of_error hg hr rfl, ?_⟩
  rw [(reply_failed (e := .exception what) rfl (by simp only; omega)).1, id]
  exact idOf_stray t.datagram

end Violations

section Exact

variable {cfg : Config} {t : Turn}

theorem Turn.SameRequest.setsLength {u : Turn} (h : t.SameRequest u) (set : t.SetsLength) :
    u.SetsLength := by
  unfold Turn.SetsLength
  rw [h.parsed, h.datagram]
  exact set

theorem Turn.SameRequest.settled {u : Turn} (h : t.SameRequest u) (settled : t.Settled cfg) :
    u.Settled cfg := by
  unfold Turn.Settled
  rw [h.parsed, h.datagram]
  rcases settled with fault | ⟨accepted, marked, set, quiet⟩
  · exact .inl fault
  · exact .inr ⟨accepted, marked, h.setsLength set, quiet⟩

theorem Turn.defined_of_accepted (accepted : t.parsed.2 = none) : t.Defined := by
  rw [Turn.Defined, accepted]
  simp

theorem Turn.Settled.defined (h : t.Settled cfg) : t.Defined := by
  rcases h with ⟨f, hf, fault⟩ | ⟨accepted, _⟩
  · rw [Turn.Defined, fault]
    simpa using hf
  · exact Turn.defined_of_accepted accepted

theorem Turn.Settled.alwaysReplied (header : 12 ≤ t.datagram.length) (h : t.Settled cfg) :
    t.AlwaysReplied cfg := by
  intro w u w' reply _ same up _ turn
  obtain ⟨c, _, serves⟩ := Worker.turn_ok turn
  rw [← same.datagram] at header ⊢
  exact Worker.serve_settled serves rfl header up (same.settled h)

theorem Turn.upstream_again (length totalBytes : Nat) :
    Upstream (t.again length).datagram ((Worker.fresh totalBytes).opening (t.again length)) := by
  intro d hd
  cases hd

theorem Turn.upstream_unfound (length : Nat) :
    Upstream t.datagram ((Worker.fresh 0).opening (t.unfound [] length)) := by
  intro d hd
  cases hd

theorem Turn.upstream_astray : Upstream t.datagram ((Worker.fresh 0).opening t.astray) := by
  intro d hd carries
  have : d = stray t.datagram := List.mem_singleton.mp hd
  exact absurd (this ▸ carries.2) (idOf_stray t.datagram)

theorem Turn.undisturbed_unfound (length : Nat) :
    Undisturbed cfg (Worker.fresh 0) (t.unfound [] length) := by
  refine ⟨List.forall_mem_nil _, ?_⟩
  cases server : cfg.noServer with
  | true => exact .inl rfl
  | false =>
    refine .inr fun k => ⟨server, fun e he => ?_, fun d hd => ?_⟩
    · cases List.mem_of_mem_take he
    · cases List.mem_of_mem_take hd

theorem Turn.AlwaysReplied.again {totalBytes length : Nat} {w' : Worker} {reply : List Byte}
    (always : t.AlwaysReplied cfg)
    (turn : (Worker.fresh totalBytes).turn cfg (t.again length) = .ok (w', reply)) :
    qr reply = true :=
  (always _ (t.again length) w' reply (Worker.reached_fresh cfg totalBytes) ⟨rfl, rfl, rfl⟩
    (t.upstream_again length totalBytes) trivial turn).2

theorem Turn.RepliedIn.unfound {E : Worker → Turn → Prop} {length : Nat} {w' : Worker}
    {reply : List Byte} (replied : t.RepliedIn E cfg)
    (here : E (Worker.fresh 0) (t.unfound [] length))
    (turn : (Worker.fresh 0).turn cfg (t.unfound [] length) = .ok (w', reply)) :
    qr reply = true :=
  (replied _ (t.unfound [] length) w' reply (Worker.reached_fresh cfg 0) ⟨rfl, rfl, rfl⟩
    (t.upstream_unfound length) here turn).2

theorem Turn.RepliedIn.setsLength {E : Worker → Turn → Prop} (replied : t.RepliedIn E cfg)
    (accepted : t.parsed.2 = none) (header : 12 ≤ t.datagram.length)
    (here : ∀ length, E (Worker.fresh 0) (t.unfound [] length)) : t.SetsLength := by
  by_contra unset
  obtain ⟨length, w', reply, turn, empty⟩ := t.unfound_unset cfg accepted header unset
  have marked := replied.unfound (here length) turn
  rw [empty] at marked
  cases marked

theorem Turn.AlwaysReplied.settled (always : t.AlwaysReplied cfg)
    (header : 12 ≤ t.datagram.length) (defined : t.Defined) : t.Settled cfg := by
  -- for each condition that is not met there is a day on which the reply is another one
  cases parsed : t.parsed.2 with
  | some e =>
    by_cases fault : e.IsFault
    · cases e with
      | fault f => exact .inl ⟨f, fun h => defined (by rw [parsed, h]), parsed⟩
      | code n => cases fault
      | exception m => cases fault
    · obtain ⟨w', reply, turn, empty⟩ := t.again_empty cfg parsed fault
      have marked := always.again turn
      rw [empty] at marked
      cases marked
  | none =>
    have set := always.setsLength parsed header fun _ => trivial
    obtain ⟨w', reply, turn, marked⟩ := t.again_unmarked cfg parsed header set
    refine .inr ⟨parsed, marked.symm.trans (always.again turn), set, ?_⟩
    by_contra network
    simp only [not_or, Bool.not_eq_true, Bool.not_eq_false] at network
    obtain ⟨q, qs, hqs, _⟩ := set
    obtain ⟨w', reply, turn, other⟩ := t.astray_mismatched cfg parsed header network.1 network.2
      (by rw [hqs]; simp)
    exact other (always _ t.astray w' reply (Worker.reached_fresh cfg 0) ⟨rfl, rfl, rfl⟩
      t.upstream_astray trivial turn).1

/-- As long as nothing fails, the reply is one to the request if the recursive server can be
asked, or need not be. -/
theorem Turn.SetsLength.replied (set : t.SetsLength) (accepted : t.parsed.2 = none)
    (header : 12 ≤ t.datagram.length)
    (recursion : cfg.noServer = false ∨ rd t.datagram = false ∨ qr t.datagram = true) :
    t.RepliedIn (Undisturbed cfg) cfg := by
  intro w u w' reply _ same up undisturbed turn
  obtain ⟨c, _, serves⟩ := Worker.turn_ok turn
  rw [← same.datagram] at header recursion ⊢
  rw [← same.parsed] at accepted
  have start := take_ofDatagram u.received u.buffer
  have ready : Ready cfg u.lookup u.datagram u.parsed.1 (w.opening u) := by
    intro desired
    rcases undisturbed.network with none | prepared
    · refine .inr (.inr ⟨none, ?_⟩)
      rcases recursion with server | undesired | marked
      · cases none.symm.trans server
      · cases undesired.symm.trans ((rd_of_take_eq start (by omega)).symm.trans desired)
      · exact (qr_of_take_eq start (by omega)).trans marked
    · exact .inr (.inl (prepared _))
  exact Worker.serve_reply serves rfl up
    ⟨header, Turn.defined_of_accepted accepted, fun failed => absurd accepted failed,
      .inl (same.setsLength set), undisturbed.driver, ready.congr rfl rfl rfl rfl⟩

theorem Turn.replied_undisturbed_iff (accepted : t.parsed.2 = none)
    (header : 12 ≤ t.datagram.length) :
    t.RepliedIn (Undisturbed cfg) cfg ↔ t.SetsLength ∧
      (cfg.noServer = false ∨ rd t.datagram = false ∨ qr t.datagram = true) := by
  constructor
  · intro replied
    have set := replied.setsLength accepted header fun length => t.undisturbed_unfound length
    refine ⟨set, ?_⟩
    by_contra echoes
    simp only [not_or, Bool.not_eq_true, Bool.not_eq_false] at echoes
    obtain ⟨none, desired, unmarked⟩ := echoes
    obtain ⟨q, qs, hqs, _⟩ := set
    obtain ⟨w', reply, turn, same⟩ := t.unfound_echoed cfg accepted header none desired
      (by rw [hqs]; simp)
    cases (same unmarked).symm.trans (replied.unfound (t.undisturbed_unfound 0) turn)
  · rintro ⟨set, recursion⟩
    exact set.replied accepted header recursion

end Exact

/-- A request is always answered with a reply to it exactly when it is settled. One whose
questions are accepted is answered with a reply to it as long as nothing fails, exactly when its
first question sets the length of the answers and the recursive server is there if it is to be
asked. In a run of a worker whose requests are all answerable, every reply is one to its
request. -/
theorem replies_match_requests (cfg : Config) :
    (∀ t : Turn, 12 ≤ t.datagram.length → (t.Defined ∧ t.AlwaysReplied cfg ↔ t.Settled cfg)) ∧
    (∀ t : Turn, 12 ≤ t.datagram.length → t.parsed.2 = none →
      (t.RepliedIn (Undisturbed cfg) cfg ↔ t.SetsLength ∧
        (cfg.noServer = false ∨ rd t.datagram = false ∨ qr t.datagram = true))) ∧
    ∀ (ts : List Turn) (w w' : Worker) (replies : List (List Byte)),
      w.run cfg ts = .ok (w', replies) →
      Worker.Along (fun w t => Upstream t.datagram (w.opening t)) cfg ts w →
      Worker.Along (Answerable cfg) cfg ts w →
      List.Forall₂ (fun t reply => idOf reply = idOf t.datagram ∧ qr reply = true) ts replies := by
  refine ⟨fun t header => ⟨fun h => h.2.settled header h.1, fun h => ?_⟩,
    fun t header accepted => ?_, fun ts w w' replies run upstream answerable => ?_⟩
  · exact ⟨h.defined, h.alwaysReplied header⟩
  · exact Turn.replied_undisturbed_iff accepted header
  · exact Worker.run_replies run upstream answerable

/-- The first request is relayed, the second one answered from the rows. -/
def relayedThenLocal : List Turn :=
  [.asking 7 questionA requestA_short [replyTo 7 questionA],
    .quiet (request 0 8 0 [questionB]) requestB_short (fun _ => [])]

theorem markedRequest_short : (request 0 7 0x80 [questionA]).length ≤ 512 := by decide

/-- A request that is marked as a reply. -/
def markedRequest : Turn := .quiet (request 0 7 0x80 [questionA]) markedRequest_short (fun _ => [])

theorem Asks.setsLength {t : Turn} {q : Question} (h : Asks t.datagram [q])
    (type : q.query.qtype = typeA) : t.SetsLength := by
  unfold Turn.SetsLength
  rw [h.parsed]
  exact ⟨_, _, rfl, .inl type⟩

theorem markedRequest_settled : markedRequest.Settled resolver := by
  have asks : Asks markedRequest.datagram [questionA] :=
    asks_request 0 7 0x80 (by decide) (by decide)
  exact .inr ⟨by rw [asks.parsed], rfl, asks.setsLength rfl, .inr rfl⟩

theorem relayedThenLocal_upstream :
    Worker.Along (fun w t => Upstream t.datagram (w.opening t)) resolver relayedThenLocal .idle := by
  have drained : (Worker.idle.turn resolver
      (.asking 7 questionA requestA_short [replyTo 7 questionA])).toOption.map
        (fun r => r.1.socket.inbox) = some [] := by decide +kernel
  refine ⟨?_, fun w₁ _ ht => ⟨?_, fun _ _ _ => trivial⟩⟩
  · unfold Upstream
    decide +kernel
  · rw [ht] at drained
    have empty : w₁.socket.inbox = [] := Option.some.inj drained
    intro d hd
    rw [Session.upcoming, show (w₁.opening _).socket = w₁.socket from rfl, empty] at hd
    cases hd

theorem relayedThenLocal_answerable :
    Worker.Along (Answerable resolver) resolver relayedThenLocal .idle := by
  have asksA : Asks (request 0 7 1 [questionA]) [questionA] :=
    asks_request 0 7 1 (by decide) (by decide)
  have asksB : Asks (request 0 8 0 [questionB]) [questionB] :=
    asks_request 0 8 0 (by decide) (by decide)
  refine ⟨⟨by decide, asksA.defined, ?_, ?_, by decide, ?_⟩, fun w₁ _ _ =>
    ⟨⟨by decide, asksB.defined, ?_, ?_, by decide, ?_⟩, fun _ _ _ => trivial⟩⟩
  · rw [asksA.parsed]
    exact fun h => absurd rfl h
  · rw [asksA.parsed]
    exact .inl ⟨_, _, rfl, .inl rfl⟩
  · intro _
    rw [asksA.parsed]
    refine .inr (.inl ⟨rfl, fun e he => ?_, by decide +kernel⟩)
    cases List.mem_singleton.mp he
    exact ⟨rfl, rfl, rfl⟩
  · rw [asksB.parsed]
    exact fun h => absurd rfl h
  · rw [asksB.parsed]
    exact .inl ⟨_, _, rfl, .inl rfl⟩
  · intro h
    change rd (Worker.idle.opening
      (.quiet (request 0 8 0 [questionB]) requestB_short (fun _ => []))).packet.bytes = true at h
    exact absurd h (by decide +kernel)

theorem replies_match_requests_relayed :
    markedRequest.AlwaysReplied resolver ∧
    (Turn.asking 7 questionA requestA_short []).RepliedIn (Undisturbed resolver) resolver ∧
    ∃ w' replies, Worker.idle.run resolver relayedThenLocal = .ok (w', replies) ∧
      List.Forall₂ (fun t reply => idOf reply = idOf t.datagram ∧ qr reply = true)
        relayedThenLocal replies := by
  obtain ⟨w', run⟩ : ∃ w', Worker.idle.run resolver relayedThenLocal = .ok (w',
      [replyTo 7 questionA, ((request 0 8 0 [questionB]).set 2 0x80).set 3 0x80]) :=
    Worker.run_of_replies (by decide +kernel)
  obtain ⟨exactly, undisturbed, runs⟩ := replies_match_requests resolver
  refine ⟨((exactly markedRequest (by decide)).mpr markedRequest_settled).2, ?_, w', _, run, ?_⟩
  · have asks : Asks (Turn.asking 7 questionA requestA_short []).datagram [questionA] :=
      asks_request 0 7 1 (by decide) (by decide)
    exact (undisturbed _ (by decide) (by rw [asks.parsed])).mpr ⟨asks.setsLength rfl, .inl rfl⟩
  · exact runs _ _ _ _ run relayedThenLocal_upstream relayedThenLocal_answerable

/-- A request for a name without rows, during which nothing arrives. -/
def unanswered : List Turn := [.asking 7 questionA requestA_short []]

/-- A request during which a datagram with another id arrives. -/
def misanswered : List Turn := [.asking 7 questionA requestA_short [replyTo 9 questionA]]

/-- Without a recursive server the client gets its own request back. A datagram
with another id is sent to the client as it is. -/
theorem reply_not_to_request :
    (∃ w' reply, Worker.idle.run ⟨4294967295, false⟩ unanswered = .ok (w', [reply]) ∧
      qr reply = false) ∧
    ∃ w' reply, Worker.idle.run resolver misanswered = .ok (w', [reply]) ∧
      idOf reply ≠ idOf (request 0 7 1 [questionA]) := by
  obtain ⟨w₁, echoed⟩ : ∃ w', Worker.idle.run ⟨4294967295, false⟩ unanswered =
      .ok (w', [request 0 7 1 [questionA] ++ List.replicate 19 0]) :=
    Worker.run_of_replies (by decide +kernel)
  obtain ⟨w₂, strayed⟩ : ∃ w', Worker.idle.run resolver misanswered =
      .ok (w', [(replyTo 9 questionA).set 3 0x02]) := Worker.run_of_replies (by decide +kernel)
  exact ⟨⟨w₁, _, echoed, by decide⟩, w₂, _, strayed, by decide⟩

end OdbcDns
