import OdbcDns.Proofs.Comparison

namespace OdbcDns
open Slice Rfc1035

section Header

variable {m : Nat} {p q : Packet}

theorem Packet.take_set_congr (h : p.bytes.take m = q.bytes.take m) (i : Nat) {b c : Byte}
    (hb : b = c) : (p.set i b).bytes.take m = (q.set i c).bytes.take m := by
  unfold Packet.set
  rw [List.take_set, List.take_set, h, hb]

theorem Packet.take_setCount_congr (h : p.bytes.take m = q.bytes.take m) (i : Nat) (v : UInt16) :
    (p.setCount i v).bytes.take m = (q.setCount i v).bytes.take m :=
  take_set_congr (take_set_congr h i rfl) (i + 1) rfl

theorem Packet.take_setRcode_congr (h : p.bytes.take m = q.bytes.take m) (hm : 12 ≤ m) (v : Byte) :
    (p.setRcode v).bytes.take m = (q.setRcode v).bytes.take m :=
  take_set_congr h 3 (by rw [byteAt_of_take_eq h (by omega)])

theorem Packet.take_setTc_congr (h : p.bytes.take m = q.bytes.take m) (hm : 12 ≤ m) :
    p.setTc.bytes.take m = q.setTc.bytes.take m :=
  take_set_congr h 2 (by rw [byteAt_of_take_eq h (by omega)])

theorem take_setResponseFlags_congr (h : p.bytes.take m = q.bytes.take m) (hm : 12 ≤ m)
    (cfg : Config) (info : ResponseInfo) :
    (Worker.setResponseFlags cfg info p).bytes.take m =
      (Worker.setResponseFlags cfg info q).bytes.take m := by
  have hqr : p.setQr.bytes.take m = q.setQr.bytes.take m :=
    Packet.take_set_congr h 2 (by rw [byteAt_of_take_eq h (by omega)])
  have hra : (p.setQr.setRa (!cfg.noServer)).bytes.take m =
      (q.setQr.setRa (!cfg.noServer)).bytes.take m :=
    Packet.take_set_congr hqr 3 (by rw [byteAt_of_take_eq hqr (by omega)])
  exact Packet.take_setRcode_congr (Packet.take_setCount_congr
    (Packet.take_setCount_congr (Packet.take_setCount_congr hra _ _) _ _) _ _) hm _

end Header

namespace Worker

theorem Stage.reply_congr {m : Nat} {g g' : Stage} (ht : g'.totalBytes = g.totalBytes)
    (h : g.session.packet.bytes.take m = g'.session.packet.bytes.take m)
    (hm : min (sizeAdd headerLength g.totalBytes) maxDnsPacketLength ≤ m) : g'.reply = g.reply := by
  have := congrArg (List.take (min (sizeAdd headerLength g.totalBytes) maxDnsPacketLength)) h
  rw [List.take_take, List.take_take, Nat.min_eq_left hm] at this
  unfold Stage.reply
  rw [ht, this]

theorem answered_reply {desired : Prop} {d : Nat} {g g' : Stage} {s t : Session}
    {info : ResponseInfo} (cfg : Config) (ht : g'.totalBytes = g.totalBytes) (hd : 12 ≤ d)
    (h : Covered desired (sizeAdd headerLength g.totalBytes) d info.length info.length s t) :
    (answered cfg g' t info).reply = (answered cfg g s info).reply := by
  obtain ⟨_, m, hm, hcov, h⟩ := h
  have htc : (if info.truncationOccurred then s.packet.setTc else s.packet).bytes.take m =
      (if info.truncationOccurred then t.packet.setTc else t.packet).bytes.take m := by
    split
    · exact Packet.take_setTc_congr h.bytes (by omega)
    · exact h.bytes
  refine Stage.reply_congr (m := m) ?_ ?_ ?_
  · unfold answered
    rw [ht]
  · unfold answered
    dsimp only
    split
    · exact htc
    · exact take_setResponseFlags_congr htc (by omega) cfg info
  · unfold answered
    rwa [← sizeAdd_assoc]

theorem failed_reply {desired : Prop} {d : Nat} {g g' r r' : Stage} {s t : Session} {e : Stop}
    (ht : g'.totalBytes = g.totalBytes) (h12 : 12 ≤ d) (h : Agree desired d s t)
    (hd : sizeAdd headerLength g.totalBytes ≤ d) (hr : failed g s e = .ok r)
    (hr' : failed g' t e = .ok r') : r'.reply = r.reply := by
  rw [failed_ok hr, failed_ok hr']
  exact Stage.reply_congr ht (Packet.take_setRcode_congr h.bytes h12 _)
    ((Nat.min_le_left _ _).trans hd)

end Worker

/-- A request whose reply is determined by it, the rows, the configuration and the
datagrams of the recursive server. Where the request itself is sent back, it has
as many bytes as are sent. -/
structure Determined (cfg : Config) (lookup : List Byte → List Row) (d : List Byte)
    (qs : List DNSQuery) : Prop where
  poses : Poses d qs
  first : ∃ q rest, qs = q :: rest ∧ (q.qtype = typeA ∨ rd d = true)
  rows : ∀ q ∈ qs, q.qtype = typeA → ∀ row ∈ lookup q.qname, row.Legible
  echo : cfg.noServer = true → rd d = true →
    Held lookup qs ∨ min (2 * (12 + (qs.map DNSQuery.length).sum)) 512 ≤ d.length

/-- Two turns serve the same request in the same environment. Memory may differ, and
so may all that concerns the caching of the reply before. -/
structure Turn.Like (t t' : Turn) : Prop where
  datagram : t'.datagram = t.datagram
  lookup : t'.lookup = t.lookup
  exchanges : t'.exchanges = t.exchanges
  driver : t'.driver = t.driver

/-- Two workers that have been cleaned, and that have the same datagrams left to be
received if recursion is desired. -/
structure Worker.Like (desired : Prop) (w v : Worker) : Prop where
  queries : v.queries = w.queries
  table : v.pointerLocations = w.pointerLocations
  inbox : desired → v.socket.inbox = w.socket.inbox

theorem Worker.Like.extracted {desired : Prop} {w v : Worker} {t t' : Turn} {qs : List DNSQuery}
    (hw : w.Like desired v) (ht : t.Like t') :
    Agree desired t.datagram.length (w.extracted t qs) (v.extracted t' qs) := by
  refine ⟨?_, ?_, ?_, hw.inbox, ht.exchanges, ht.driver⟩
  · refine (take_ofDatagram t.received t.buffer).trans ?_
    rw [← ht.datagram]
    exact (take_ofDatagram t'.received t'.buffer).symm
  · exact congrArg (· ++ qs) hw.queries
  · exact congrArg (namesTable · qs) hw.table

section Serve

variable {cfg : Config} {t t' : Turn} {w w' v v' : Worker} {qs : List DNSQuery}

theorem Poses.sizeAdd_header (h : Poses t.datagram qs) :
    sizeAdd headerLength (qs.map DNSQuery.length).sum = 12 + (qs.map DNSQuery.length).sum := by
  have hin := h.inside
  have hlen := t.received
  unfold maxDnsPacketLength at hlen
  exact sizeAdd_of_lt (by unfold headerLength; omega)

theorem Worker.Like.resolve (hw : w.Like (rd t.datagram = true) v) (hq : w.queries = [])
    (ht : t.Like t') (det : Determined cfg t.lookup t.datagram qs) {off : Nat}
    (hoff : off = 12 + (qs.map DNSQuery.length).sum) :
    Act.Alike (Agree (rd t.datagram = true) t.datagram.length)
      (fun a b s s' => b = a ∧
        Covered (rd t.datagram = true) off t.datagram.length a.length b.length s s')
      (resolve cfg t.locals t.lookup off off (w.extracted t qs))
      (resolve cfg t'.locals t'.lookup off off (v.extracted t' qs)) := by
  have hin := det.poses.inside
  have hlen := t.received
  have hrd : rd (w.extracted t qs).packet.bytes = rd t.datagram :=
    rd_of_take_eq (take_ofDatagram t.received t.buffer) (by omega)
  unfold OdbcDns.resolve
  rw [Act.bind_of_ok (Act.get_apply _), Act.bind_of_ok (Act.get_apply _),
    Worker.queries_extracted hq, Worker.queries_extracted (hw.queries.trans hq), ht.lookup]
  refine resolveLoop_alike cfg t.locals t'.locals det.rows rfl (hw.extracted ht) (Nat.le_refl _)
    (hoff ▸ hin) (by omega) (fun hr => hrd ▸ hr) (.inr ?_) fun hs hr => ?_
  · rw [hrd]
    exact det.first
  · unfold maxDnsPacketLength at hlen ⊢
    rw [sizeAdd_of_lt (by omega), ← Nat.two_mul, hoff]
    exact det.echo hs (hrd ▸ hr)

/-- The same request is served with the same reply. -/
theorem Worker.Like.serve {reply reply' : List Byte} (hw : w.Like (rd t.datagram = true) v)
    (hq : w.queries = []) (ht : t.Like t') (det : Determined cfg t.lookup t.datagram qs)
    (h : w.serve cfg t = .ok (w', reply)) (h' : v.serve cfg t' = .ok (v', reply')) :
    reply' = reply := by
  obtain ⟨g, r, info, hg, hr, rfl, rfl⟩ := Worker.serve_ok h
  obtain ⟨g', r', info', hg', hr', rfl, rfl⟩ := Worker.serve_ok h'
  have hin := det.poses.inside
  have hoff := det.poses.sizeAdd_header
  have hposes' : Poses t'.datagram qs := by
    rw [ht.datagram]
    exact det.poses
  rw [Worker.extract_eq, det.poses.turn] at hg
  rw [Worker.extract_eq, hposes'.turn] at hg'
  cases hg
  cases hg'
  have alike := hw.resolve hq ht det hoff
  rcases Worker.respond_ok hr with ⟨e, s, hx, hf, _⟩ | ⟨s, hx, rfl⟩ <;>
    rcases Worker.respond_ok hr' with ⟨e', s', hx', hf', _⟩ | ⟨s', hx', rfl⟩ <;>
    rw [show OdbcDns.resolve _ _ _ _ _ _ = _ from hx,
      show OdbcDns.resolve _ _ _ _ _ _ = _ from hx'] at alike
  · obtain ⟨rfl, alike⟩ := alike
    exact Worker.failed_reply rfl (by omega) alike (hoff ▸ hin) hf hf'
  · exact alike.elim
  · exact alike.elim
  · obtain ⟨rfl, alike⟩ := alike
    exact Worker.answered_reply cfg rfl (by omega) alike

end Serve

/-- The datagrams that a run leaves to be received. -/
def Worker.left (cfg : Config) (ts : List Turn) (w : Worker) : Option (List (List Byte)) :=
  (w.run cfg ts).toOption.map fun r => r.1.socket.inbox

theorem Worker.left_of_run {cfg : Config} {ts : List Turn} {w w' : Worker}
    {replies : List (List Byte)} (h : w.run cfg ts = .ok (w', replies)) :
    w.left cfg ts = some w'.socket.inbox := by
  rw [Worker.left, h]
  rfl

/-- Two runs that end with the same determined request end with the same reply,
whatever was served before and whatever memory holds. If recursion is desired,
nothing else may be left to be received in one of them than in the other. -/
theorem last_reply_determined {cfg : Config} {ts us : List Turn} {t u : Turn}
    {w w' v v' : Worker} {replies replies' : List (List Byte)} {qs : List DNSQuery}
    (run : w.run cfg (ts ++ [t]) = .ok (w', replies))
    (run' : v.run cfg (us ++ [u]) = .ok (v', replies')) (like : t.Like u)
    (determined : Determined cfg t.lookup t.datagram qs)
    (left : rd t.datagram = true → v.left cfg us = w.left cfg ts) :
    ∃ reply, replies.getLast? = some reply ∧ replies'.getLast? = some reply := by
  obtain ⟨w₁, rest, reply, hw, ht, rfl⟩ := Worker.run_concat run
  obtain ⟨v₁, rest', reply', hv, hu, rfl⟩ := Worker.run_concat run'
  obtain ⟨c, _, hserve⟩ := Worker.turn_ok ht
  obtain ⟨c', _, hserve'⟩ := Worker.turn_ok hu
  rw [Worker.left_of_run hw, Worker.left_of_run hv] at left
  have cleaned : ({ w₁ with connection := c } : Worker).clean.Like (rd t.datagram = true)
      ({ v₁ with connection := c' } : Worker).clean :=
    ⟨rfl, rfl, fun hrd => Option.some.inj (left hrd)⟩
  have hreply := cleaned.serve rfl like determined hserve hserve'
  subst hreply
  exact ⟨reply', List.getLast?_concat, List.getLast?_concat⟩

/-- A request for the first name, which has an address. -/
def turnAddress : Turn :=
  .quiet (request 0 8 1 [questionA]) (by decide)
    (fun _ => [(⟨nameA, 1, 60, .address ⟨1, 2, 3, 4⟩⟩ : Answer).row])

/-- The same in other memory. -/
def turnAddressElsewhere : Turn :=
  { turnAddress with
    buffer := ⟨List.replicate 1024 1, List.length_replicate⟩
    locals := ⟨[], List.replicate 64 1, 77⟩ }

def addressReply : List Byte :=
  [0, 8, 0x81, 0x80, 0, 1, 0, 1, 0, 0, 0, 0] ++ questionA.bytes ++
    [0xC0, 12, 0, 1, 0, 1, 0, 0, 0, 60, 0, 4, 1, 2, 3, 4]

/-- A request that is relayed. -/
def relayedFirst : List Turn := [.asking 7 questionA requestA_short [replyTo 7 questionA]]

theorem last_reply_determined_address : ∃ w' v' replies replies' reply,
    Worker.idle.run resolver (relayedFirst ++ [turnAddress]) = .ok (w', replies) ∧
    Worker.idle.run resolver ([] ++ [turnAddressElsewhere]) = .ok (v', replies') ∧
    replies.getLast? = some reply ∧ replies'.getLast? = some reply := by
  have asks : Asks (request 0 8 1 [questionA]) [questionA] :=
    asks_request 0 8 1 (by decide) (by decide)
  obtain ⟨w', run⟩ : ∃ w', Worker.idle.run resolver (relayedFirst ++ [turnAddress]) =
      .ok (w', [replyTo 7 questionA, addressReply]) := Worker.run_of_replies (by decide +kernel)
  obtain ⟨v', run'⟩ : ∃ v', Worker.idle.run resolver ([] ++ [turnAddressElsewhere]) =
      .ok (v', [addressReply]) := Worker.run_of_replies (by decide +kernel)
  have legible : ∀ q ∈ [questionA.query], q.qtype = typeA →
      ∀ row ∈ turnAddress.lookup q.qname, row.Legible := by
    unfold Row.Legible
    decide
  obtain ⟨reply, last, last'⟩ := last_reply_determined run run' ⟨rfl, rfl, rfl, rfl⟩
    ⟨asks.poses, ⟨_, _, rfl, .inl rfl⟩, legible, fun h => nomatch h⟩ fun _ => by decide +kernel
  exact ⟨w', v', _, _, reply, run, run', last, last'⟩

/-- A request whose only label is too long. -/
def turnMalformed : Turn :=
  .quiet ([0, 7, 0, 0, 0, 1, 0, 0, 0, 0, 0, 0] ++ [64]) (by decide) (fun _ => [])

/-- A request that is not answered by anyone. -/
def turnUnanswered : Turn := .asking 7 questionA requestA_short []

/-- The same in other memory. -/
def turnUnansweredElsewhere : Turn :=
  { turnUnanswered with buffer := ⟨List.replicate 1024 1, List.length_replicate⟩ }

/-- A request of the second name. -/
def localFirst : List Turn := [.quiet (request 0 8 0 [questionB]) requestB_short (fun _ => [])]

/-- The reply to a request that cannot be parsed is as long as the questions before
were. Without a recursive server, the bytes behind the request are sent as well. -/
theorem last_reply_depends_on_history :
    (∃ w' v' first reply reply',
      Worker.idle.run resolver ([] ++ [turnMalformed]) = .ok (w', [reply]) ∧
      Worker.idle.run resolver (localFirst ++ [turnMalformed]) = .ok (v', [first, reply']) ∧
      reply' ≠ reply) ∧
    ∃ w' v' reply reply',
      Worker.idle.run ⟨4294967295, false⟩ ([] ++ [turnUnanswered]) = .ok (w', [reply]) ∧
      Worker.idle.run ⟨4294967295, false⟩ ([] ++ [turnUnansweredElsewhere]) = .ok (v', [reply']) ∧
      turnUnanswered.Like turnUnansweredElsewhere ∧ reply' ≠ reply := by
  obtain ⟨w₁, alone⟩ : ∃ w', Worker.idle.run resolver ([] ++ [turnMalformed]) =
      .ok (w', [[0, 7, 0x80, 0x80, 0, 1, 0, 0, 0, 0, 0, 0]]) :=
    Worker.run_of_replies (by decide +kernel)
  obtain ⟨w₂, after⟩ : ∃ w', Worker.idle.run resolver (localFirst ++ [turnMalformed]) =
      .ok (w', [((request 0 8 0 [questionB]).set 2 0x80).set 3 0x80,
        [0, 7, 0x80, 0x80, 0, 1, 0, 0, 0, 0, 0, 0, 64, 0, 0, 0, 0, 0, 0]]) :=
    Worker.run_of_replies (by decide +kernel)
  obtain ⟨w₃, zeros⟩ : ∃ w', Worker.idle.run ⟨4294967295, false⟩ ([] ++ [turnUnanswered]) =
      .ok (w', [request 0 7 1 [questionA] ++ List.replicate 19 0]) :=
    Worker.run_of_replies (by decide +kernel)
  obtain ⟨w₄, ones⟩ : ∃ w', Worker.idle.run ⟨4294967295, false⟩ ([] ++ [turnUnansweredElsewhere]) =
      .ok (w', [request 0 7 1 [questionA] ++ List.replicate 19 1]) :=
    Worker.run_of_replies (by decide +kernel)
  exact ⟨⟨w₁, w₂, _, _, _, alone, after, by decide⟩, w₃, w₄, _, _, zeros, ones,
    ⟨rfl, rfl, rfl, rfl⟩, by decide⟩

end OdbcDns
