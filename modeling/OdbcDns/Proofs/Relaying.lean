import OdbcDns.Proofs.RelayedLength

namespace OdbcDns
open Slice Rfc1035

/-! A question that the cache cannot answer: what goes to the recursive server, and what
comes back to the client. -/

/-- The session with which `resolveA` turns to the recursive server. The aliases that it has
found are in the packet by then, behind `off`. -/
structure ToServer (as : List Answer) (off : Nat) (s u : Session) : Prop where
  packet : u.packet.bytes = overwrite s.packet.bytes off (answerBytes s.pointerLocations off as)
  socket : u.socket = s.socket
  exchanges : u.exchanges = s.exchanges
  connection : u.connection = s.connection.commit

theorem resolveA_of_aliases (cfg : Config) (locals : Locals) (lookup : List Byte → List Row)
    (n : DomainName) (qtype qclass : UInt16) (length : Nat) (as : List Answer) (off : Nat)
    (info : ResponseInfo) (packetLen : Nat) (s : Session)
    (hrows : lookup n.text = as.map Answer.row) (hdrv : s.driver = []) (hoff : 12 ≤ off)
    (hfit : (answerBytes s.pointerLocations off as).length < 500)
    (hin : off + (answerBytes s.pointerLocations off as).length ≤ 1024)
    (aliases : as.countP Answer.isAddress = 0) (desired : rd s.packet.bytes = true) :
    ∃ (u : Session) (info' : ResponseInfo), ToServer as off s u ∧
      info'.truncationOccurred = info.truncationOccurred ∧
      ∀ {k s'}, recursiveResolve cfg packetLen u = (.ok k, s') →
        resolveA cfg locals lookup ⟨n.text, qtype, qclass, length⟩ off info packetLen s =
          (.ok (k, { info' with recursionOccurred := true }), s') := by
  obtain ⟨l, t, hr, ht, hd⟩ := resolveRows_of_fits cfg as (.start locals off info) s hdrv
    (by simp only [RowLoop.start]; omega) (by simp [RowLoop.start]) hin
  have hl : l.truncated = false := ht
  obtain ⟨_, _, _, addresses, info1, packet, frame⟩ :=
    resolveRows_ok hr hl (by simp [RowLoop.start]) (by simp only [RowLoop.start]; omega)
  simp only [RowLoop.start] at addresses info1 packet frame
  have hrd : rd t.packet.bytes = true := by
    rw [packet, rd, byteAt_overwrite (by rw [s.packet.size]; exact hin) (by omega)]
    exact desired
  have hz : l.numARecords = 0 ∧ rd t.packet.bytes = true := ⟨by omega, hrd⟩
  have hn : ¬ n.text.length + 1 > maxDnsNameLength := by
    have := n.short
    unfold maxDnsNameLength DomainName.text
    omega
  refine ⟨{ t with connection := t.connection.commit }, l.info, ⟨packet, ?_, ?_, ?_⟩,
    by rw [info1], ?_⟩
  · rw [frame]
  · rw [frame]
  · rw [frame]
  · intro k s' returned
    rw [resolveA_eq]
    simp only [hn, if_false, hrows]
    rw [Act.bind_of_ok (driverCall_of_nil hdrv)]
    refine (Act.bind_of_ok hr).trans ?_
    simp only [hl, Bool.false_eq_true, if_false]
    rw [Act.bind_of_ok (Act.get_apply t), if_pos hz, Act.bind_of_ok (commit_of_nil hd),
      Act.bind_of_ok returned]
    rfl

/-- The cache has no address for the question: it is not for addresses, or only aliases are
found. -/
inductive Missed (t : Turn) (q : Question) : List Answer → Prop
  | other (type : q.query.qtype ≠ typeA) : Missed t q []
  | aliases {as : List Answer} (type : q.query.qtype = typeA)
      (rows : t.lookup q.name.text = as.map Answer.row) (none : as.countP Answer.isAddress = 0)
      (fits : (singleBytes q as).length < 500) : Missed t q as

/-- The datagrams that can be read for the request of a turn, oldest first. -/
def Worker.available (w : Worker) (t : Turn) : List (List Byte) :=
  w.socket.inbox ++ (t.exchanges.headD .quiet).arrivals

/-- The packet with the request and the aliases behind it. -/
def unresolved (t : Turn) (q : Question) (as : List Answer) : List Byte :=
  overwrite (Packet.ofDatagram t.datagram t.buffer).bytes (12 + q.bytes.length) (singleBytes q as)

/-- The cache cannot answer the question of a request, and `d` is what can be read first when
it has gone to the recursive server: a datagram with the id of the request. -/
structure RelaysOnce (cfg : Config) (w : Worker) (t : Turn) (q : Question) (found : List Answer)
    (d : List Byte) (rest : List (List Byte)) : Prop where
  server : cfg.noServer = false
  asks : Asks t.datagram [q]
  desired : rd t.datagram = true
  missed : Missed t q found
  driver : t.driver = []
  works : (t.exchanges.headD .quiet).Works
  available : w.available t = d :: rest
  carries : Carries t.datagram d
  short : d.length ≤ 512

section Relay

variable {cfg : Config} {t : Turn} {w : Worker} {q : Question} {as : List Answer} {d : List Byte}
  {rest : List (List Byte)}

/-- `resolve` comes to the recursive server with the request as it was received, and with the
aliases behind it. -/
theorem resolve_of_missed (cfg : Config) (w : Worker) (asks : Asks t.datagram [q])
    (desired : rd t.datagram = true) (missed : Missed t q as) (driver : t.driver = []) :
    ∃ (u : Session) (info : ResponseInfo), u.packet.bytes = unresolved t q as ∧
      u.socket = w.socket ∧ u.exchanges = t.exchanges ∧
      (u.connection = w.connection ∨ u.connection = w.connection.commit) ∧
      ∀ {k s}, recursiveResolve cfg (12 + q.bytes.length) u = (.ok k, s) →
        resolve cfg t.locals t.lookup (12 + q.bytes.length) (12 + q.bytes.length)
          (w.clean.asked t [q]) = (.ok { info with length := k, recursionOccurred := true }, s) ∧
        info.truncationOccurred = false := by
  have hq := q.length_bytes_le
  have hlen := asks.le
  simp only [questionBytes, List.flatMap_cons, List.flatMap_nil, List.append_nil] at hlen
  have hrd : rd (w.clean.asked t [q]).packet.bytes = true := by
    rw [← desired]
    exact rd_of_take_eq (take_ofDatagram t.received t.buffer) (by omega)
  cases missed with
  | other type =>
    refine ⟨w.clean.asked t [q], .new t.locals.length, ?_, rfl, rfl, .inl rfl, ?_⟩
    · simp [unresolved, singleBytes, answerBytes, Worker.asked, Worker.session]
    · intro k s returned
      refine ⟨?_, rfl⟩
      unfold resolve
      rw [Act.bind_of_ok (Act.get_apply _)]
      have queries : (w.clean.asked t [q]).queries = [q.query] := rfl
      rw [queries, resolveLoop_cons, if_neg type, Act.bind_of_ok (Act.get_apply _), if_pos hrd,
        Act.bind_of_ok returned]
      rfl
  | aliases type rows none fits =>
    have hin : 12 + q.bytes.length + (singleBytes q as).length ≤ 1024 := by omega
    obtain ⟨u, info, misses, whole, resolves⟩ := resolveA_of_aliases cfg t.locals t.lookup q.name
      q.query.qtype q.query.qclass q.query.length as (12 + q.bytes.length)
      (.new t.locals.length) (12 + q.bytes.length) (w.clean.asked t [q]) rows driver
      (by omega) fits hin none hrd
    refine ⟨u, info, misses.packet, misses.socket, misses.exchanges, .inr misses.connection, ?_⟩
    intro k s returned
    refine ⟨?_, whole⟩
    exact (resolve_single q.query rfl type).mpr ⟨k, _, resolves returned, rfl⟩

/-- What is sent for a reply that was received. -/
theorem reply_of_relayed (cfg : Config) (g : Worker.Stage) {s : Session} {info : ResponseInfo}
    {behind : List Byte} (bytes : s.packet.bytes = d ++ behind) (short : d.length ≤ 512)
    (whole : info.truncationOccurred = false) :
    (Worker.answered cfg g s { info with
      length := sizeSub d.length (sizeAdd headerLength g.totalBytes)
      recursionOccurred := true }).reply = d ∧
    (Worker.answered cfg g s { info with
      length := sizeSub d.length (sizeAdd headerLength g.totalBytes)
      recursionOccurred := true }).session.packet = s.packet := by
  simp only [Worker.Stage.reply, Worker.answered, whole, Bool.false_eq_true, if_false, if_true,
    sizeAdd_relayed g.totalBytes short, and_true]
  rw [bytes, maxDnsPacketLength, Nat.min_eq_left short, List.take_left]

theorem Worker.serve_relays (relays : RelaysOnce cfg w t q as d rest) :
    ∃ w' p, w.clean.serve cfg t = .ok (w', d) ∧
      w'.socket = ⟨rest, w.socket.outbox ++ [t.datagram.take (12 + q.bytes.length)]⟩ ∧
      w'.packet = some p ∧ p.bytes = d ++ (unresolved t q as).drop d.length ∧
      w'.queryBytes = q.bytes.length ∧ w'.due = !t.sendFails ∧
      (w'.connection = w.connection ∨ w'.connection = w.connection.commit) := by
  obtain ⟨server, asks, desired, missed, driver, works, available, carries, short⟩ := relays
  have hq := q.length_bytes_le
  have hlen := asks.le
  simp only [questionBytes, List.flatMap_cons, List.flatMap_nil, List.append_nil] at hlen
  have hsize : sizeAdd headerLength q.bytes.length = 12 + q.bytes.length :=
    sizeAdd_of_lt (by unfold headerLength; omega)
  obtain ⟨u, info, packet, socket, exchanges, connection, resolves⟩ :=
    resolve_of_missed cfg w asks desired missed driver
  have fits : (singleBytes q as).length < 500 := by
    cases missed with
    | other => simp [singleBytes, answerBytes]
    | aliases _ _ _ fits => exact fits
  -- the aliases are written behind the question, and the question is all that is sent
  have front : u.packet.bytes.take (12 + q.bytes.length) =
      t.datagram.take (12 + q.bytes.length) := by
    rw [packet, unresolved,
      take_overwrite (by rw [Packet.size, packetAllocation]; omega) (Nat.le_refl _), ofDatagram_bytes t.received, List.take_append_of_le_length hlen]
  have here : u.available = d :: rest := by
    rw [Session.available, Session.exchange, socket, exchanges]
    exact available
  have id : Carries u.packet.bytes d := by
    refine ⟨carries.1, carries.2.trans ?_⟩
    exact (idOf_of_take_eq front (by omega)).symm
  have small : (12 + q.bytes.length) % 4294967296 = 12 + q.bytes.length :=
    Nat.mod_eq_of_lt (by omega)
  have returned := recursiveResolve_of_carries (s := u) server
    (by rw [Session.exchange, exchanges]; exact works) (show _ ≤ 1024 by rw [small]; omega)
    here id short
  obtain ⟨resolved, whole⟩ := resolves returned
  have extracted := w.clean.extract_asks cfg t asks
  simp only [questionBytes, List.flatMap_cons, List.flatMap_nil, List.append_nil] at extracted
  rw [← hsize] at resolved
  have served := Worker.serve_of_ok extracted resolved
  have received : ((u.forwarded (sizeAdd headerLength q.bytes.length)).received d rest).packet =
      .ofDatagram d u.packet := by
    rw [Session.received, take_maxDnsPacketLength short]
    rfl
  have bytes : ((u.forwarded (sizeAdd headerLength q.bytes.length)).received d rest).packet.bytes =
      d ++ (unresolved t q as).drop d.length := by
    rw [received, ofDatagram_bytes short, packet]
  obtain ⟨replied, kept⟩ := reply_of_relayed cfg
    ⟨w.clean.asked t [q], false, q.bytes.length, q.bytes.length⟩ bytes short whole
  rw [replied] at served
  refine ⟨_, _, served, ?_, congrArg some kept, bytes, rfl, ?_, connection⟩
  · simp only [Session.received, Session.forwarded, socket, hsize, small, front]
  · simp [Worker.due]

/-- A question that the cache cannot answer goes to the recursive server as it was received,
without what stands behind it in the datagram, and the reply goes to the client byte by byte.
Together with what the memory holds behind it, it is what the next turn caches; the table
has not changed. -/
theorem relayed_exactly (idle : w.due = false) (relays : RelaysOnce cfg w t q as d rest) :
    ∃ w' p, w.turn cfg t = .ok (w', d) ∧
      w'.socket = ⟨rest, w.socket.outbox ++ [t.datagram.take (12 + q.bytes.length)]⟩ ∧
      w'.packet = some p ∧ p.bytes = d ++ (unresolved t q as).drop d.length ∧
      w'.queryBytes = q.bytes.length ∧ w'.due = !t.sendFails ∧
      w'.connection.record = t.interference w.connection.record := by
  obtain ⟨w', p, serves, socket, packet, bytes, counted, due, connection⟩ :=
    Worker.serve_relays (w := { w with connection := w.shared t }) { relays with }
  refine ⟨w', p, ?_, socket, packet, bytes, counted, due, ?_⟩
  · simp only [Worker.turn_eq, Worker.cache_idle cfg t idle, bind, Except.bind]
    exact serves
  · rcases connection with same | same <;> rw [same] <;> rfl

end Relay

/-- The cache knows `a` as an alias only, and the recursive server answers. -/
def aliasOnly : Turn :=
  { Turn.asking 7 questionA requestA_short [replyTo 7 questionA] with
    lookup := fun _ => [⟨60, [97], [98], typeCname, 1⟩] }

theorem relays_aliasOnly : RelaysOnce resolver Worker.idle aliasOnly questionA
    [⟨nameA, 1, 60, .cname nameB⟩] (replyTo 7 questionA) [] where
  server := by decide
  asks := asks_request 0 7 1 (by decide) (by decide)
  desired := by decide
  missed := .aliases (by decide) rfl rfl (by decide)
  driver := rfl
  works := ⟨rfl, rfl, rfl⟩
  available := rfl
  carries := ⟨by decide, by decide⟩
  short := by decide

theorem relayed_exactly_alias : ∃ w',
    Worker.idle.turn resolver aliasOnly = .ok (w', replyTo 7 questionA) ∧
      w'.socket = ⟨[], [request 0 7 1 [questionA]]⟩ ∧ w'.due = true := by
  obtain ⟨w', p, turns, socket, _, _, _, due, _⟩ := relayed_exactly rfl relays_aliasOnly
  exact ⟨w', turns, socket, due⟩

end OdbcDns
